import DvivonOS.Ext2.Delete
import DvivonOS.Ext2.Records
import DvivonOS.Vfs.Model
import Mathlib.Data.List.DropRight

/-!
# Paths

`names` cuts a path at its slashes and keeps the non-empty components. `path_lookup` looks up these
components one after the other, but one that is longer than 255 bytes it looks up in pieces
(`components_eq`), and the pieces may lead somewhere while no directory has an entry of that name
(`path_lookup_iff`).

`split_absolute_path` finds the last component from the right (`splitAbsolutePath_eq`), and the rest
of the path has the other components.
-/

namespace DvivonOS

open List

/-! ## Components -/

/-- The non-empty components of a path. -/
def names (path : Path) : List Name := (path.splitOn slash).filter (· ≠ [])

/-- A component in pieces of 255 bytes. -/
def nameChunks (c : Name) : List Name :=
  if c = [] then [] else c.take 255 :: nameChunks (c.drop 255)
termination_by c.length
decreasing_by
  rename_i h
  rw [length_drop]
  have := length_pos_of_ne_nil h
  omega

theorem nameChunks_nil : nameChunks [] = [] := by
  rw [nameChunks, if_pos rfl]

theorem nameChunks_of_ne_nil {c : Name} (h : c ≠ []) :
    nameChunks c = c.take 255 :: nameChunks (c.drop 255) := by
  rw [nameChunks, if_neg h]

theorem nameChunks_of_le {c : Name} (h : c ≠ []) (hlen : c.length ≤ 255) : nameChunks c = [c] := by
  rw [nameChunks_of_ne_nil h, take_of_length_le hlen, drop_eq_nil_of_le hlen,
    nameChunks_nil]

@[simp] theorem names_nil : names [] = [] := by simp [names]

@[simp] theorem names_append_slash (p q : Path) : names (p ++ slash :: q) = names p ++ names q := by
  unfold names List.splitOn
  rw [splitOnP_append_cons _ _ (by simp), filter_append]

@[simp] theorem names_slash_cons (p : Path) : names (slash :: p) = names p :=
  names_append_slash [] p

theorem names_of_not_mem {c : Path} (h : slash ∉ c) (hne : c ≠ []) : names c = [c] := by
  have hc : ∀ x ∈ c, (x == slash) = false := by
    intro x hx
    simp only [beq_eq_false_iff_ne, ne_eq]
    rintro rfl
    exact h hx
  unfold names List.splitOn
  rw [splitOnP_eq_singleton hc]
  simp [hne]

@[simp] theorem names_replicate_slash (k : ℕ) : names (List.replicate k slash) = [] := by
  induction k with
  | zero => simp
  | succ k ih => simp [replicate_succ, ih]

theorem names_dropWhile (p : Path) : names (p.dropWhile (· = slash)) = names p := by
  induction p with
  | nil => rfl
  | cons x p ih =>
    by_cases hx : x = slash
    · simp [hx, ih]
    · simp [hx]

theorem names_component {c rest : Path} (hc : slash ∉ c) (hr : rest = [] ∨ ∃ q, rest = slash :: q) :
    (names (c ++ rest)).flatMap nameChunks = nameChunks c ++ (names rest).flatMap nameChunks := by
  have hnames : (names c).flatMap nameChunks = nameChunks c := by
    by_cases h : c = []
    · simp [h, nameChunks_nil]
    · simp [names_of_not_mem hc h]
  rcases hr with rfl | ⟨q, rfl⟩
  · simp [hnames]
  · rw [names_append_slash, names_slash_cons, flatMap_append, hnames]

theorem dropWhile_component (p : Path) :
    p.dropWhile (· ≠ slash) = [] ∨ ∃ q, p.dropWhile (· ≠ slash) = slash :: q := by
  induction p with
  | nil => exact .inl rfl
  | cons x p ih =>
    by_cases hx : x = slash
    · exact .inr ⟨p, by simp [hx]⟩
    · simpa [hx] using ih

/-- `path_lookup` looks up the components of the path in pieces of 255 bytes. -/
theorem components_eq {path : Path} : ∀ {fuel : ℕ}, path.length ≤ fuel →
    components fuel path = (names path).flatMap nameChunks := by
  intro fuel
  induction fuel generalizing path with
  | zero =>
    intro h
    obtain rfl := eq_nil_of_length_eq_zero (Nat.le_zero.mp h)
    simp [components]
  | succ fuel ih =>
    intro hlen
    unfold components
    rw [← names_dropWhile]
    have hle : (path.dropWhile (· = slash)).length ≤ path.length := length_dropWhile_le _ _
    have hfirst : ∀ x, (path.dropWhile (· = slash)).head? = some x → x ≠ slash := by
      intro x hx
      have := List.head?_dropWhile_not (fun x => decide (x = slash)) path
      rw [hx] at this
      simpa using this
    generalize path.dropWhile (· = slash) = p at hle hfirst ⊢
    by_cases hp : p = []
    · simp [hp]
    rw [if_neg hp]
    -- the first component `c` and what follows it
    obtain ⟨x, q, rfl⟩ := exists_cons_of_ne_nil hp
    have hx : x ≠ slash := hfirst x rfl
    have hsplit : (x :: q).takeWhile (· ≠ slash) ++ (x :: q).dropWhile (· ≠ slash) = x :: q :=
      takeWhile_append_dropWhile
    have hno : slash ∉ (x :: q).takeWhile (· ≠ slash) := fun h => by
      simpa using mem_takeWhile_imp h
    have hne : (x :: q).takeWhile (· ≠ slash) ≠ [] := by simp [hx]
    have hrest := dropWhile_component (x :: q)
    generalize (x :: q).takeWhile (· ≠ slash) = c at hsplit hno hne ⊢
    generalize (x :: q).dropWhile (· ≠ slash) = rest at hsplit hrest
    rw [← hsplit] at hle ⊢
    have hpos := length_pos_of_ne_nil hne
    have hdrop : (c ++ rest).drop (c.take 255).length = c.drop 255 ++ rest := by
      rw [length_take]
      rcases Nat.le_total c.length 255 with h | h
      · rw [Nat.min_eq_right h, drop_left, drop_eq_nil_of_le h, nil_append]
      · rw [Nat.min_eq_left h, drop_append_of_le_length h]
    have hno' : slash ∉ c.drop 255 := fun h => hno (mem_of_mem_drop h)
    dsimp only
    rw [hdrop, ih, names_component hno hrest, names_component hno' hrest, nameChunks_of_ne_nil hne,
      cons_append]
    rw [length_append, length_drop]
    rw [length_append] at hle
    omega

/-! ## Lookups -/

/-- No record has a name of more than 255 bytes. -/
theorem findInBlock_long {buf : Bytes} {bs : ℕ} {name : Name} (h : 255 < name.length) :
    ∀ fuel off, findInBlock buf bs name fuel off = none := by
  intro fuel
  induction fuel with
  | zero => intro off; rfl
  | succ fuel ih =>
    intro off
    have hne : deNameLen buf off ≠ name.length := by
      have := deNameLen_lt buf off
      omega
    unfold findInBlock deMatches
    simp [hne, ih]

theorem after_findLoop_long {dir : Inode} {name : Name} {bs : ℕ} (h : 255 < name.length) :
    ∀ n b (v : Vol), After (findLoop dir name bs n b) v fun r _ => r = none := by
  intro n
  induction n with
  | zero => intro b v; exact rfl
  | succ n ih =>
    intro b v
    unfold findLoop dirLoop
    rw [after_bind]
    refine after_of_forall fun phys v₁ => ?_
    split_ifs
    · exact ih _ _
    · rw [after_bind]
      refine after_of_forall fun r v₂ => ?_
      obtain ⟨ret, buf⟩ := r
      dsimp only
      rw [findInBlock_long h]
      exact ih _ _

theorem after_lookup_long {dir : Inode} {name : Name} (h : 255 < name.length) (v : Vol) :
    After (ext2Lookup dir name) v fun r _ => r = none := by
  have hfind : After (ext2FindDirEntry dir name) v fun r _ => r = none := by
    unfold ext2FindDirEntry
    split_ifs
    · exact rfl
    · rw [after_bind, after_get, after_bind]
      refine after_of_forall fun ok v₁ => ?_
      split_ifs
      · exact rfl
      · exact after_findLoop_long h _ _ _
  unfold ext2Lookup
  rw [after_bind]
  refine hfind.mono fun r v₁ hr => ?_
  subst hr
  exact rfl

theorem after_lookupAll_long {name : Name} (h : 255 < name.length) :
    ∀ {l : List Name}, name ∈ l → ∀ (current : Handle) (v : Vol),
      After (lookupAll l current) v fun r _ => r = none := by
  intro l
  induction l with
  | nil => intro hl; exact absurd hl not_mem_nil
  | cons c l ih =>
    intro hl current v
    unfold lookupAll
    rw [after_bind]
    rcases mem_cons.mp hl with rfl | hl
    · refine (after_lookup_long h v).mono fun r v₁ hr => ?_
      subst hr
      exact rfl
    · refine after_of_forall fun r v₁ => ?_
      cases r with
      | none => exact rfl
      | some next => exact ih hl _ _

theorem flatMap_nameChunks_of_short {l : List Name} (hne : ∀ c ∈ l, c ≠ [])
    (h : ∀ c ∈ l, c.length ≤ 255) : l.flatMap nameChunks = l := by
  induction l with
  | nil => rfl
  | cons c l ih =>
    rw [flatMap_cons, nameChunks_of_le (hne c mem_cons_self) (h c mem_cons_self),
      ih (fun c hc => hne c (mem_cons_of_mem _ hc))
        (fun c hc => h c (mem_cons_of_mem _ hc)), singleton_append]

theorem ne_nil_of_mem_names {path : Path} {c : Name} (h : c ∈ names path) : c ≠ [] := by
  simpa using (mem_filter.mp h).2

theorem pathLookup_eq {path : Path} (h : path.head? = some slash) : pathLookup path =
    get >>= fun v : Vol => lookupAll ((names path).flatMap nameChunks) ⟨v.root, true⟩ := by
  unfold pathLookup
  rw [if_neg (not_not.mpr h)]
  simp only [components_eq le_rfl]

theorem run_pathLookup {path : Path} (h : path.head? = some slash) (v : Vol) :
    (pathLookup path).run v =
      (lookupAll ((names path).flatMap nameChunks) ⟨v.root, true⟩).run v := by
  rw [pathLookup_eq h]
  rfl

/-- **`path_lookup`.** On every volume the result is what the components of the path lead to, one
lookup after the other, exactly if no component has more than 255 bytes or its pieces of 255 bytes
lead nowhere, that is, `path_lookup` itself finds nothing. Paths with the same components have the same lookups, however many slashes are between
and behind them. -/
theorem path_lookup_iff {path : Path} (h : path.head? = some slash) (v : Vol) :
    (((pathLookup path).run v).1 = ((lookupAll (names path) ⟨v.root, true⟩).run v).1 ↔
      (∀ c ∈ names path, c.length ≤ 255) ∨
        ((lookupAll ((names path).flatMap nameChunks) ⟨v.root, true⟩).run v).1 = none) ∧
    ∀ path' : Path, path'.head? = some slash → names path' = names path →
      pathLookup path' = pathLookup path := by
  rw [run_pathLookup h]
  refine ⟨?_, fun path' h' hn => by rw [pathLookup_eq h', pathLookup_eq h, hn]⟩
  by_cases hshort : ∀ c ∈ names path, c.length ≤ 255
  · rw [flatMap_nameChunks_of_short (fun c hc => ne_nil_of_mem_names hc) hshort]
    exact iff_of_true rfl (.inl hshort)
  · obtain ⟨c, hc, hlong⟩ : ∃ c ∈ names path, 255 < c.length := by simpa using hshort
    have hnone : ((lookupAll (names path) ⟨v.root, true⟩).run v).1 = none :=
      after_lookupAll_long hlong hc ⟨v.root, true⟩ v
    rw [hnone]
    exact (or_iff_right hshort).symm

/-- The small volume with a directory of a 255-byte name in the root and the file `a` in it. -/
def deepVol : Vol :=
  ((do
    let (_, root) ← ext2Mkdir sampleVol.root (List.replicate 255 97) 0o755
    match ← ext2Lookup root (List.replicate 255 97) with
    | none => return ()
    | some dir =>
      let _ ← ext2Create dir [97] 0o644
      return () : FsM Unit).run sampleVol).2

/-- The file `a` of the small volume, under its name with some slashes more. -/
theorem path_lookup_short :
    ((pathLookup [slash, slash, 97, slash]).run fileVol).1 =
      ((lookupAll (names [slash, slash, 97, slash]) ⟨fileVol.root, true⟩).run fileVol).1 := by
  have h := (path_lookup_iff (show [slash, slash, 97, slash].head? = some slash from rfl) fileVol).1
  exact h.mpr (.inl (by decide))

/-- A component of 256 bytes, which no directory has, leads to the file `a` in the directory whose
name is its first 255 bytes. -/
theorem path_lookup_cut :
    ((pathLookup (slash :: List.replicate 256 97)).run deepVol).1.map (fun h => h.inode.ino) =
        some 12 ∧
      ((lookupAll (names (slash :: List.replicate 256 97)) ⟨deepVol.root, true⟩).run deepVol).1 =
        none := by
  have hlen : 255 < (List.replicate 256 (97 : UInt8)).length := by
    rw [length_replicate]
    norm_num
  have hno : slash ∉ List.replicate 256 (97 : UInt8) := fun h =>
    absurd (eq_of_mem_replicate h) (by decide)
  have hname : names (slash :: List.replicate 256 97) = [List.replicate 256 97] := by
    rw [names_slash_cons, names_of_not_mem hno (ne_nil_of_length_pos (by omega))]
  refine ⟨by decide +kernel, ?_⟩
  rw [hname]
  exact after_lookupAll_long hlen mem_cons_self _ _

/-! ## The last component -/

/-- The part of a path before the slash in front of its last component. -/
def beforeLast (path : Path) : Path :=
  ((path.rdropWhile (· = slash)).rdropWhile (· ≠ slash)).dropLast

/-- The last component `name` of a path, behind the slash behind `pre`. -/
structure EndsIn (path pre : Path) (name : Name) : Prop where
  shape : ∃ k, path = pre ++ slash :: (name ++ List.replicate k slash)
  noSlash : slash ∉ name
  nonempty : name ≠ []

theorem rdropWhile_replicate (p : Path) (k : ℕ) :
    (p ++ List.replicate k slash).rdropWhile (· = slash) = p.rdropWhile (· = slash) := by
  induction k with
  | zero => simp
  | succ k ih =>
    rw [replicate_succ', ← append_assoc, rdropWhile_concat_pos _ _ _ (by simp), ih]

theorem rdropWhile_name (p : Path) {c : Name} (h : slash ∉ c) :
    (p ++ slash :: c).rdropWhile (· ≠ slash) = p ++ [slash] := by
  induction c using List.reverseRecOn with
  | nil => rw [rdropWhile_concat_neg _ _ _ (by simp)]
  | append_singleton c x ih =>
    have hx : x ≠ slash := fun e => h (by simp [e])
    rw [← cons_append, ← append_assoc, rdropWhile_concat_pos _ _ _ (by simp [hx])]
    exact ih fun hc => h (by simp [hc])

namespace EndsIn

variable {path pre : Path} {name : Name} (h : EndsIn path pre name)

include h

theorem names_eq : names path = names pre ++ [name] := by
  obtain ⟨k, rfl⟩ := h.shape
  have hname : names (name ++ List.replicate k slash) = [name] := by
    cases k with
    | zero => simp [names_of_not_mem h.noSlash h.nonempty]
    | succ k => simp [replicate_succ, names_of_not_mem h.noSlash h.nonempty]
  rw [names_append_slash, hname]

theorem beforeLast_eq : beforeLast path = pre := by
  obtain ⟨k, rfl⟩ := h.shape
  obtain ⟨c, x, rfl⟩ := (eq_nil_or_concat' name).resolve_left h.nonempty
  have hx : x ≠ slash := fun e => h.noSlash (by simp [e])
  unfold beforeLast
  rw [← cons_append, ← append_assoc, rdropWhile_replicate, ← cons_append,
    ← append_assoc, rdropWhile_concat_neg _ _ _ (by simp [hx]), append_assoc,
    cons_append, rdropWhile_name _ h.noSlash, dropLast_concat]

end EndsIn

/-! ## The two scans -/

theorem skipSlashes_spec (path : Path) : ∀ e, skipSlashes path e ≤ e ∧
    (∀ i, skipSlashes path e < i → i ≤ e → path.getD i 0 = slash) ∧
    (skipSlashes path e = 0 ∨ path.getD (skipSlashes path e) 0 ≠ slash) := by
  intro e
  induction e with
  | zero => exact ⟨le_rfl, fun i hi hi' => by omega, .inl rfl⟩
  | succ e ih =>
    obtain ⟨h1, h2, h3⟩ := ih
    unfold skipSlashes
    split_ifs with h
    · refine ⟨by omega, fun i hi hie => ?_, h3⟩
      rcases Nat.lt_or_eq_of_le hie with hlt | rfl
      · exact h2 i hi (by omega)
      · exact h
    · exact ⟨le_rfl, fun i hi hie => by omega, .inr h⟩

theorem findSlash_spec (path : Path) : ∀ e, findSlash path e ≤ e ∧
    (∀ i, findSlash path e < i → i ≤ e → path.getD i 0 ≠ slash) ∧
    (findSlash path e = 0 ∨ path.getD (findSlash path e) 0 = slash) := by
  intro e
  induction e with
  | zero => exact ⟨le_rfl, fun i hi hi' => by omega, .inl rfl⟩
  | succ e ih =>
    obtain ⟨h1, h2, h3⟩ := ih
    unfold findSlash
    split_ifs with h
    · refine ⟨by omega, fun i hi hie => ?_, h3⟩
      rcases Nat.lt_or_eq_of_le hie with hlt | rfl
      · exact h2 i hi (by omega)
      · exact h
    · exact ⟨le_rfl, fun i hi hie => by omega, .inr (not_not.mp h)⟩

/-- The end of the last component. -/
def lastEnd (path : Path) : ℕ := skipSlashes path (path.length - 1)

/-- The slash in front of the last component. -/
def lastSlash (path : Path) : ℕ := findSlash path (lastEnd path)

section Scans

variable {path : Path} (hhead : path.head? = some slash)

include hhead

theorem getD_lastSlash : path.getD (lastSlash path) 0 = slash := by
  rcases (findSlash_spec path (lastEnd path)).2.2 with h | h
  · unfold lastSlash
    rw [h, getD_eq_getElem?_getD, ← List.head?_eq_getElem?, hhead]
    rfl
  · exact h

theorem endsIn_of_scans (hlt : lastSlash path < lastEnd path) :
    EndsIn path (path.take (lastSlash path))
      ((path.drop (lastSlash path + 1)).take (lastEnd path - lastSlash path)) := by
  obtain ⟨he, hslash, -⟩ := skipSlashes_spec path (path.length - 1)
  obtain ⟨-, hname, -⟩ := findSlash_spec path (lastEnd path)
  have hcut := getD_lastSlash hhead
  change lastEnd path ≤ _ at he
  change ∀ i, lastEnd path < i → _ at hslash
  change ∀ i, lastSlash path < i → _ at hname
  generalize lastSlash path = s at *
  generalize lastEnd path = f at *
  have hlen : f < path.length := by omega
  have htail : path.drop (f + 1) = List.replicate (path.length - (f + 1)) slash := by
    refine eq_replicate_iff.mpr ⟨length_drop, fun x hx => ?_⟩
    obtain ⟨i, hi, rfl⟩ := getElem_of_mem hx
    rw [length_drop] at hi
    have h := hslash (f + 1 + i) (by omega) (by omega)
    rw [getD_eq_getElem _ _ (by omega)] at h
    rw [getElem_drop]
    exact h
  refine ⟨⟨path.length - (f + 1), ?_⟩, fun hmem => ?_, ?_⟩
  · have hdrop : path.drop (s + 1) = (path.drop (s + 1)).take (f - s) ++ path.drop (f + 1) := by
      have h := take_append_drop (f - s) (path.drop (s + 1))
      rw [drop_drop, show s + 1 + (f - s) = f + 1 by omega] at h
      exact h.symm
    rw [getD_eq_getElem _ _ (by omega)] at hcut
    conv_lhs => rw [← take_append_drop s path, drop_eq_getElem_cons (by omega), hcut,
      hdrop, htail]
  · obtain ⟨i, hi, he'⟩ := getElem_of_mem hmem
    rw [length_take, length_drop] at hi
    rw [getElem_take, getElem_drop] at he'
    have h := hname (s + 1 + i) (by omega) (by omega)
    rw [getD_eq_getElem _ _ (by omega)] at h
    exact h he'
  · refine ne_nil_of_length_pos ?_
    rw [length_take, length_drop]
    omega

/-- The scans meet exactly in a path of slashes. -/
theorem lastSlash_lt_iff : lastSlash path < lastEnd path ↔ ∃ c ∈ path, c ≠ slash := by
  obtain ⟨he, hslash, hend⟩ := skipSlashes_spec path (path.length - 1)
  have hle : lastSlash path ≤ lastEnd path := (findSlash_spec path (lastEnd path)).1
  have hcut := getD_lastSlash hhead
  have hpos : 0 < path.length := length_pos_of_ne_nil fun h => by simp [h] at hhead
  change lastEnd path ≤ _ at he
  change ∀ i, lastEnd path < i → _ at hslash
  change lastEnd path = 0 ∨ path.getD (lastEnd path) 0 ≠ slash at hend
  constructor
  · intro hlt
    have h := hend.resolve_left (by omega)
    rw [getD_eq_getElem _ _ (by omega)] at h
    exact ⟨_, getElem_mem _, h⟩
  · rintro ⟨c, hc, hne⟩
    by_contra hnot
    have heq : lastSlash path = lastEnd path := by omega
    rw [heq] at hcut
    have hzero : lastEnd path = 0 := hend.resolve_right (not_not.mpr hcut)
    obtain ⟨i, hi, rfl⟩ := getElem_of_mem hc
    apply hne
    rw [← getD_eq_getElem _ 0 hi]
    rcases Nat.eq_zero_or_pos i with rfl | hi0
    · rw [hzero] at hcut
      exact hcut
    · exact hslash i (by omega) (by omega)

end Scans

/-! ## `split_absolute_path` -/

/-- The parent and the name that `split_absolute_path` returns. -/
def splitParts (path : Path) : Path × Name :=
  (if lastSlash path = 0 then [slash] else path.take (lastSlash path),
    (path.drop (lastSlash path + 1)).take (lastEnd path - lastSlash path))

theorem splitAbsolutePath_eq {path : Path} {pmax nmax : ℕ} (hlen : path.length < 2 ^ 31) :
    splitAbsolutePath path pmax nmax =
      if path.head? = some slash ∧ lastSlash path < lastEnd path ∧
        lastEnd path - lastSlash path < nmax ∧ (lastSlash path = 0 ∨ lastSlash path < pmax) then
      some (splitParts path) else none := by
  unfold splitAbsolutePath
  change (if toInt32 path.length ≤ 1 then none else if path.head? ≠ some slash then none
    else if lastEnd path - lastSlash path = 0 ∨ nmax ≤ lastEnd path - lastSlash path then none
    else if lastSlash path = 0 then
      some ([slash], (path.drop (lastSlash path + 1)).take (lastEnd path - lastSlash path))
    else if pmax ≤ lastSlash path then none
    else some (path.take (lastSlash path),
      (path.drop (lastSlash path + 1)).take (lastEnd path - lastSlash path))) = _
  have hint : toInt32 path.length = path.length := by
    unfold toInt32
    rw [if_pos hlen]
  have hend : lastEnd path ≤ path.length - 1 := (skipSlashes_spec path (path.length - 1)).1
  rw [hint]
  unfold splitParts
  split_ifs <;> first | rfl | omega | simp_all

/-- The two buffers of `split_absolute_path`. -/
inductive Target
  | parent
  | name

/-- `split_absolute_path` together with the indices of the two buffers that it writes, in order. -/
def splitRecorded (path : Path) (pmax nmax : ℕ) : Option (Path × Name) × List (Target × ℕ) :=
  let len := path.length
  if toInt32 len ≤ 1 then (none, [])
  else if path.head? ≠ some slash then (none, [])
  else
    let finish := skipSlashes path (len - 1)
    let cut := findSlash path finish
    let nlen := finish - cut
    if nlen = 0 ∨ nmax ≤ nlen then (none, [])
    else
      let name := (path.drop (cut + 1)).take nlen
      -- `memcpy(name, path + nstart, nlen)` and the terminator
      let writes := (List.range (nlen + 1)).map (Prod.mk Target.name)
      if cut = 0 then (some ([slash], name), writes ++ [(.parent, 0), (.parent, 1)])
      else if pmax ≤ cut then (none, writes)
      else
        (some (path.take cut, name), writes ++ (List.range (cut + 1)).map (Prod.mk Target.parent))

theorem splitRecorded_fst (path : Path) (pmax nmax : ℕ) :
    (splitRecorded path pmax nmax).1 = splitAbsolutePath path pmax nmax := by
  unfold splitRecorded splitAbsolutePath
  dsimp only
  split_ifs <;> rfl

theorem splitRecorded_inside {path : Path} {pmax nmax : ℕ} (hp : 2 ≤ pmax) :
    ∀ w ∈ (splitRecorded path pmax nmax).2,
      (w.1 = Target.name ∧ w.2 < nmax) ∨ (w.1 = Target.parent ∧ w.2 < pmax) := by
  unfold splitRecorded
  dsimp only
  generalize skipSlashes path (path.length - 1) = f
  generalize findSlash path f = c
  intro w
  split_ifs with h1 h2 h3 h4 h5
  · simp
  · simp
  · simp
  · simp only [mem_append, mem_map, mem_range, mem_cons, not_mem_nil,
      or_false]
    rintro (⟨i, hi, rfl⟩ | rfl | rfl)
    · exact .inl ⟨rfl, by dsimp only; omega⟩
    · exact .inr ⟨rfl, by dsimp only; omega⟩
    · exact .inr ⟨rfl, by dsimp only; omega⟩
  · simp only [mem_map, mem_range]
    rintro ⟨i, hi, rfl⟩
    exact .inl ⟨rfl, by dsimp only; omega⟩
  · simp only [mem_append, mem_map, mem_range]
    rintro (⟨i, hi, rfl⟩ | ⟨i, hi, rfl⟩)
    · exact .inl ⟨rfl, by dsimp only; omega⟩
    · exact .inr ⟨rfl, by dsimp only; omega⟩

/-- The lookup of `name` in the result of a path lookup. -/
def lookupNext (name : Name) : Option Handle → FsM (Option Inode)
  | none => return none
  | some dir => ext2Lookup dir.inode name

/-- `path_lookup(parent)`, then the lookup of `name`. -/
def lookupIn (parent : Path) (name : Name) : FsM (Option Inode) :=
  pathLookup parent >>= lookupNext name

theorem lookupAll_concat (l : List Name) (name : Name) (current : Handle) :
    lookupAll (l ++ [name]) current = lookupAll l current >>= fun r =>
      lookupNext name r >>= fun next => pure (next.map fun inode => ⟨inode, false⟩) := by
  induction l generalizing current with
  | nil =>
    simp only [nil_append, lookupAll, pure_bind, lookupNext]
    refine congrArg (ext2Lookup current.inode name >>= ·) (funext fun r => ?_)
    cases r <;> rfl
  | cons c l ih =>
    rw [cons_append]
    unfold lookupAll
    rw [bind_assoc]
    refine congrArg (ext2Lookup current.inode c >>= ·) (funext fun r => ?_)
    cases r with
    | none => simp [lookupNext]
    | some next => exact ih _

/-- The parent has the components before the last one. -/
theorem EndsIn.lookup {path pre parent : Path} {name : Name} (h : EndsIn path pre name)
    (hhead : path.head? = some slash) (hparent : parent.head? = some slash)
    (hnames : names parent = names pre) (hname : name.length ≤ 255) (v : Vol) :
    ((pathLookup path).run v).1.map (fun dir => dir.inode.ino) =
      ((lookupIn parent name).run v).1.map (fun inode => inode.ino) := by
  have hsplit : (names path).flatMap nameChunks = (names parent).flatMap nameChunks ++ [name] := by
    rw [h.names_eq, hnames, flatMap_append]
    simp [nameChunks_of_le h.nonempty hname]
  have hpath : pathLookup path = lookupIn parent name >>= fun next =>
      pure (next.map fun inode => ⟨inode, false⟩) := by
    unfold lookupIn
    rw [pathLookup_eq hhead, pathLookup_eq hparent, hsplit]
    simp only [bind_assoc, lookupAll_concat]
  rw [hpath]
  have hmap : ∀ r : Option Inode, (r.map fun inode => (⟨inode, false⟩ : Handle)).map
      (fun dir => dir.inode.ino) = r.map fun inode => inode.ino := by
    intro r
    cases r <;> rfl
  exact hmap _

/-- **`split_absolute_path`.** On a path of less than `2 ^ 31` bytes the call succeeds exactly if
the path is absolute, has a component, the last one has at most 255 bytes and the part of the path
before the slash in front of it has less than 256. The name is then non-empty and without a slash,
and on every volume the lookup of the path finds the inode that the lookup of the parent followed by
that of the name finds. No write leaves the two buffers. -/
theorem split_absolute_path_iff {path : Path} (hlen : path.length < 2 ^ 31) :
    ((splitAbsolutePath path 256 256).isSome ↔ path.head? = some slash ∧
      (∃ c ∈ path, c ≠ slash) ∧ (∀ c ∈ (names path).getLast?, c.length ≤ 255) ∧
      (beforeLast path).length < 256) ∧
    (∀ parent name, splitAbsolutePath path 256 256 = some (parent, name) →
      name ≠ [] ∧ slash ∉ name ∧ ∀ v : Vol,
        ((pathLookup path).run v).1.map (fun dir => dir.inode.ino) =
          ((lookupIn parent name).run v).1.map (fun inode => inode.ino)) ∧
    ((splitRecorded path 256 256).1 = splitAbsolutePath path 256 256 ∧
      ∀ w ∈ (splitRecorded path 256 256).2, w.2 < 256) := by
  refine ⟨?_, ?_, splitRecorded_fst _ _ _, fun w hw => ?_⟩
  · rw [splitAbsolutePath_eq hlen]
    by_cases hhead : path.head? = some slash
    swap
    · simp [hhead]
    by_cases hlt : lastSlash path < lastEnd path
    swap
    · simp [hlt, ← lastSlash_lt_iff hhead]
    have hends := endsIn_of_scans hhead hlt
    have hend : lastEnd path ≤ path.length - 1 := (skipSlashes_spec path (path.length - 1)).1
    have hlast : (names path).getLast? = some (splitParts path).2 := by
      rw [hends.names_eq, List.getLast?_concat]
      rfl
    have hname : (splitParts path).2.length = lastEnd path - lastSlash path := by
      unfold splitParts
      rw [length_take, length_drop]
      omega
    have hpre : (beforeLast path).length = lastSlash path := by
      rw [hends.beforeLast_eq, length_take]
      omega
    rw [hpre, hlast, ← lastSlash_lt_iff hhead]
    simp only [Option.mem_some_iff, forall_eq', hname, hhead, hlt, true_and]
    split_ifs with h
    · simp only [Option.isSome_some, true_iff]
      omega
    · simp only [Option.isSome_none, Bool.false_eq_true, false_iff]
      omega
  · intro parent name hsome
    rw [splitAbsolutePath_eq hlen] at hsome
    split_ifs at hsome with h
    obtain ⟨hhead, hlt, hnlen, -⟩ := h
    have hends := endsIn_of_scans hhead hlt
    obtain ⟨rfl, rfl⟩ := Prod.mk.inj (Option.some.inj hsome)
    refine ⟨hends.nonempty, hends.noSlash, fun v => hends.lookup hhead ?_ ?_ ?_ v⟩
    · split_ifs with h0
      · rfl
      · rw [List.head?_take, if_neg h0, hhead]
    · split_ifs with h0
      · simp [h0]
      · rfl
    · rw [length_take]
      omega
  · rcases splitRecorded_inside (by norm_num) w hw with h | h
    · exact h.2
    · exact h.2

/-- The file `a` of the root directory, with a slash behind it. -/
theorem split_absolute_path_small :
    splitAbsolutePath [slash, 97, slash] 256 256 = some ([slash], [97]) ∧
      ∀ v : Vol, ((pathLookup [slash, 97, slash]).run v).1.map (fun dir => dir.inode.ino) =
        ((lookupIn [slash] [97]).run v).1.map (fun inode => inode.ino) := by
  have hsplit : splitAbsolutePath [slash, 97, slash] 256 256 = some ([slash], [97]) := by decide
  have h := split_absolute_path_iff (show [slash, 97, slash].length < 2 ^ 31 by decide)
  exact ⟨hsplit, (h.2.1 _ _ hsplit).2.2⟩

theorem endsIn_trailing (k : ℕ) : EndsIn (slash :: 97 :: List.replicate k slash) [] [97] :=
  ⟨⟨k, rfl⟩, by decide, by decide⟩

/-- A path of `2 ^ 31` bytes and more is refused, and so is a path of 257 slashes and a name. -/
theorem split_absolute_path_refuses :
    (splitAbsolutePath (slash :: 97 :: List.replicate (2 ^ 31) slash) 256 256 = none ∧
      names (slash :: 97 :: List.replicate (2 ^ 31) slash) = [[97]] ∧
      beforeLast (slash :: 97 :: List.replicate (2 ^ 31) slash) = []) ∧
    (splitAbsolutePath (List.replicate 257 slash ++ [98]) 256 256 = none ∧
      names (List.replicate 257 slash ++ [98]) = [[98]]) := by
  refine ⟨⟨?_, ?_, ?_⟩, ?_, ?_⟩
  · have hlen : toInt32 (slash :: 97 :: List.replicate (2 ^ 31) slash).length ≤ 1 := by
      rw [length_cons, length_cons, length_replicate]
      decide
    unfold splitAbsolutePath
    exact if_pos hlen
  · rw [(endsIn_trailing (2 ^ 31)).names_eq]
    rfl
  · exact (endsIn_trailing (2 ^ 31)).beforeLast_eq
  · decide +kernel
  · decide +kernel

end DvivonOS
