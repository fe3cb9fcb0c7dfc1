import DvivonOS.Ext2.Recorded
import DvivonOS.Ext2.Delete

/-!
# Numbers from the disk

Block numbers from `i_block` and from indirect blocks, and inode numbers from directory entries,
reach `group_desc` and the block bitmaps unchecked. For a well-formed layout and any contents of
inodes, indirect blocks and directories, the calls that follow such numbers are sound exactly when
the numbers they follow are (`DirCall.Good`): `ext2_free_block` of data blocks writes only metadata,
so that the pointers read later are those of the volume before.
-/

namespace DvivonOS.Recorded

open List TraceM

/-- An index below `groups_count`; a bit that belongs to no metadata. -/
def Event.Sound (G : Geo) : Event → Prop
  | .divide _ => True
  | .group g => g < G.groups
  | .clear g i => ¬ G.Meta (G.first + g * G.bpg + i)

/-- A block number that `ext2_free_block` may be given. -/
structure Freeable (G : Geo) (b : ℕ) : Prop where
  group : (b - G.first) / G.bpg < G.groups
  data : ¬ G.Meta b

/-- The blocks that are not metadata are the same. -/
def SameData (G : Geo) (v v' : Vol) : Prop := ∀ b, ¬ G.Meta b → v'.disk b = v.disk b

theorem SameData.trans {G : Geo} {v v' v'' : Vol} (h : SameData G v v') (h' : SameData G v' v'') :
    SameData G v v'' := fun b hb => (h' b hb).trans (h b hb)

section Volume

variable {v : Vol} {G : Geo} {r : Inode} (rd : Ready v G r)

theorem sameData_write {b : ℕ} (hb : G.Meta b) (buf : Bytes) : SameData G v (v.write b buf) :=
  fun c hc => Function.update_of_ne (fun h : c = b => hc (h ▸ hb)) _ _

include rd

theorem sameData_flush {g : ℕ} (hg : g < G.groups) : SameData G v (v.flushGd g).flushSb := by
  have hgd : G.Meta (v.geo.first + 1 + g / v.geo.gdpb) :=
    rd.geo ▸ ⟨_, Geo.Wf.gdt_valid (by rw [rd.geo]; exact hg), rfl⟩
  obtain ⟨buf, hsb⟩ := flushSb_eq (rd.flushGd hg).1.wf'
  rw [hsb, (rd.flushGd hg).1.geo]
  exact (sameData_write hgd _).trans (sameData_write ⟨.sb, trivial, rfl⟩ _)

/-! ## `ext2_free_block` -/

theorem freeBlock_same {b : ℕ} (hlt : b < 2 ^ 32) (h0 : b ≠ 0)
    (hg : (b - G.first) / G.bpg < G.groups) :
    After (DvivonOS.ext2FreeBlock b) v fun _ v' => Ready v' G r ∧ SameData G v v' := by
  have hfirst := rd.wf.first_le
  have hdata : SameData G v (v.drop .block (G.kgroup .block b) (G.kindex .block b)) := by
    have hbm : G.Meta (v.geo.addr (.bbm (G.kgroup .block b))) :=
      ⟨.bbm _, hg, by rw [← rd.geo]; rfl⟩
    have r1 : Ready (v.write (v.geo.addr (.bbm (G.kgroup .block b)))
        ((v.disk (v.geo.addr (.bbm (G.kgroup .block b)))).clearBit (G.kindex .block b))) G r :=
      rd.write
    have r2 := r1.of_counts (addFree_geo (k := .block) (g := G.kgroup .block b) (d := 1)) rfl rfl
    exact (sameData_write hbm _).trans (sameData_flush r2 hg)
  exact (after_free_of_group (k := .block) rd hlt (show G.first ≤ b by omega) hg).mpr
    ⟨(rd.write.counted hg).1, hdata⟩

theorem emits_freeBlock {b : ℕ} (hlt : b < 2 ^ 32) (h0 : b ≠ 0) :
    Emits (ext2FreeBlock b) v (Event.Sound G) (fun _ _ => True) ↔ Freeable G b := by
  have hfirst := rd.wf.first_le
  have hrel : sub32 b (v.firstNumber .block) = b - G.first := by
    rw [firstNumber_eq rd]
    show sub32 b G.first = b - G.first
    unfold sub32
    omega
  have hbpg : v.sPerGroup .block = G.bpg := sPerGroup_eq rd
  have hbit : G.first + (b - G.first) / G.bpg * G.bpg + (b - G.first) % G.bpg = b := by
    have h := Nat.div_add_mod (b - G.first) G.bpg
    rw [mul_comm] at h
    omega
  unfold ext2FreeBlock ext2Free emitClear ext2FlushGroupDesc
  simp only [emits_bind, emits_quiet, after_get, emits_emit, after_kmallocOk rd.env, Bool.not_true,
    Bool.false_eq_true, if_false, after_readBlock rd.env, emits_pure, Event.Sound, true_and,
    after_true, and_true, hrel, hbpg, hbit]
  exact ⟨fun h => ⟨h.1, h.2⟩, fun h => ⟨h.group, h.data⟩⟩

end Volume

/-! ## `ext2_delete_inode` -/

section Delete

variable {G : Geo} {r : Inode}

theorem freeBlocks_same {l : List ℕ} (hlt : ∀ b ∈ l, b < 2 ^ 32)
    (hl : ∀ b ∈ l, b ≠ 0 → Freeable G b) : ∀ {v : Vol}, Ready v G r →
    After (DvivonOS.freeBlocks l) v fun _ v' => Ready v' G r ∧ SameData G v v' := by
  induction l with
  | nil => exact fun rd => ⟨rd, fun _ _ => rfl⟩
  | cons b l ih =>
    intro v rd
    rw [forall_mem_cons] at hlt hl
    unfold DvivonOS.freeBlocks
    split_ifs with h0
    · rw [after_bind]
      refine (freeBlock_same rd hlt.1 h0 (hl.1 h0).group).mono fun _ v₁ h₁ => ?_
      exact (ih hlt.2 hl.2 h₁.1).mono fun _ v₂ h₂ => ⟨h₂.1, h₁.2.trans h₂.2⟩
    · exact ih hlt.2 hl.2 rd

/-- A block is freed, and the rest is in order whatever metadata is then on the disk. -/
theorem emits_freeBlock_bind {v : Vol} (rd : Ready v G r) {b : ℕ} (hlt : b < 2 ^ 32) (h0 : b ≠ 0)
    {α : Type} {f : Unit → RecM α} {X : Prop} (hX : ∀ {v' : Vol}, Ready v' G r →
      (Emits (f ()) v' (Event.Sound G) (fun _ _ => True) ↔ X)) :
    Emits (ext2FreeBlock b >>= f) v (Event.Sound G) (fun _ _ => True) ↔ Freeable G b ∧ X := by
  refine emits_bind_iff (emits_freeBlock rd hlt h0) (fun h => ?_) fun _ v' rd' => hX rd'
  rw [erase_freeBlock]
  exact (freeBlock_same rd hlt h0 h.group).mono fun _ _ h' => h'.1

theorem emits_freeBlocks {l : List ℕ} (hlt : ∀ b ∈ l, b < 2 ^ 32) : ∀ {v : Vol}, Ready v G r →
    (Emits (freeBlocks l) v (Event.Sound G) (fun _ _ => True) ↔
      ∀ b ∈ l, b ≠ 0 → Freeable G b) := by
  induction l with
  | nil => exact fun rd => iff_of_true ((emits_pure _).mpr trivial) (by simp)
  | cons b l ih =>
    intro v rd
    rw [forall_mem_cons] at hlt ⊢
    unfold freeBlocks
    split_ifs with h0
    · rw [emits_freeBlock_bind rd hlt.1 h0 (ih hlt.2)]
      exact and_congr_left' ⟨fun h _ => h, fun h => h h0⟩
    · rw [ih hlt.2 rd]
      exact ⟨fun h => ⟨fun h' => absurd h' h0, h⟩, fun h => h.2⟩

section

variable {v : Vol} (rd : Ready v G r)

include rd

theorem emits_inodeLoc (ino : ℕ) :
    Emits (inodeLoc ino) v (Event.Sound G) (fun _ _ => True) ↔ ino ≤ G.inodes := by
  have hipg : v.sInodesPerGroup = G.ipg := congrArg Geo.ipg rd.geo
  have hpos := rd.wf.ipg_pos
  unfold inodeLoc
  simp only [emits_bind, emits_quiet, after_get]
  split_ifs with h0
  · exact iff_of_true ((emits_pure _).mpr trivial) (by omega)
  · simp only [emits_bind, emits_emit, Event.Sound, true_and, and_true, hipg]
    rw [Nat.div_lt_iff_lt_mul hpos, Geo.inodes]
    omega

theorem emits_writeInodeRaw (ino : ℕ) (x : Bytes) :
    Emits (ext2WriteInodeRaw ino x) v (Event.Sound G) (fun _ _ => True) ↔ ino ≤ G.inodes := by
  unfold ext2WriteInodeRaw
  rw [emits_bind_any fun _ _ => (emits_quiet (Q := fun _ _ => True) _).mpr trivial,
    emits_inodeLoc rd]

theorem writeInodeRaw_same {ino : ℕ} (h : ino ≤ G.inodes) (x : Bytes) :
    After (DvivonOS.ext2WriteInodeRaw ino x) v fun _ v' => Ready v' G r ∧ SameData G v v' := by
  by_cases h0 : ino = 0
  · unfold DvivonOS.ext2WriteInodeRaw
    rw [if_pos h0]
    exact ⟨rd, fun _ _ => rfl⟩
  · have hn : G.IsInode ino := ⟨by omega, h⟩
    rw [rd.after_writeInodeRaw hn]
    refine ⟨(rd.putInode hn x).1, ?_⟩
    unfold Vol.putInode
    rw [rd.geo]
    exact sameData_write ⟨_, rd.wf.iloc_valid hn, rfl⟩ _

theorem emits_freeInode (ino : ℕ) :
    Emits (ext2FreeInode ino) v (Event.Sound G) (fun _ _ => True) ↔
      sub32 ino 1 / G.ipg < G.groups := by
  have hipg : v.sPerGroup .inode = G.ipg := sPerGroup_eq rd
  unfold ext2FreeInode ext2Free emitClear ext2FlushGroupDesc
  simp only [emits_bind, emits_quiet, after_get, emits_emit, after_kmallocOk rd.env, Bool.not_true,
    Bool.false_eq_true, if_false, after_readBlock rd.env, emits_pure, Event.Sound, true_and,
    after_true, and_true, hipg]
  exact Iff.rfl

theorem emits_release (ino : ℕ) (x : Bytes) :
    Emits (do
      let _ ← ext2WriteInodeRaw ino x
      ext2FreeInode ino
      return (0 : ℤ)) v (Event.Sound G) (fun _ _ => True) ↔ G.IsInode ino := by
  have hpos := rd.wf.ipg_pos
  have hlt := rd.wf.inodes_lt
  rw [emits_bind_iff (R := fun _ v' => Ready v' G r) (X := sub32 ino 1 / G.ipg < G.groups)
    (emits_writeInodeRaw rd ino x) (fun h => ?_) fun _ v' rd' => ?_]
  · rw [Nat.div_lt_iff_lt_mul hpos]
    unfold Geo.IsInode sub32
    unfold Geo.inodes at *
    omega
  · rw [erase_writeInodeRaw]
    exact (writeInodeRaw_same rd h x).mono fun _ _ h' => h'.1
  · rw [emits_last, emits_freeInode rd']

end

/-- The blocks that `ext2_delete_inode` frees: the direct blocks, the singly indirect block and its
entries. -/
structure Deletable (G : Geo) (v : Vol) (x : Bytes) : Prop where
  direct : ∀ k < 12, iBlock x k ≠ 0 → Freeable G (iBlock x k)
  indirect : iBlock x 12 ≠ 0 → Freeable G (iBlock x 12)
  entries : iBlock x 12 ≠ 0 → ∀ j < G.ptrs, ptrAt (v.disk (iBlock x 12)) j ≠ 0 →
    Freeable G (ptrAt (v.disk (iBlock x 12)) j)

theorem Deletable.of_same {v v' : Vol} {x : Bytes} (hs : SameData G v v') (h : Deletable G v x) :
    Deletable G v' x := by
  refine ⟨h.direct, h.indirect, fun h0 => ?_⟩
  rw [hs _ (h.indirect h0).data]
  exact h.entries h0

/-- The singly indirect block with the pointers in `ind`, and what follows it. -/
theorem emits_indirect {v : Vol} (rd : Ready v G r) {b : ℕ} (hlt : b < 2 ^ 32) (h0 : b ≠ 0)
    {ind : Bytes} {ino : ℕ} {x : Bytes} :
    Emits (do
      freeBlocks ((List.range G.ptrs).map fun j => ptrAt ind j)
      ext2FreeBlock b
      let _ ← ext2WriteInodeRaw ino x
      ext2FreeInode ino
      return (0 : ℤ)) v (Event.Sound G) (fun _ _ => True) ↔
      Freeable G b ∧ (∀ j < G.ptrs, ptrAt ind j ≠ 0 → Freeable G (ptrAt ind j)) ∧
        G.IsInode ino := by
  have hptr : ∀ c ∈ (List.range G.ptrs).map (ptrAt ind), c < 2 ^ 32 := by
    intro c hc
    obtain ⟨j, -, rfl⟩ := mem_map.mp hc
    exact Bytes.get32_lt _ _
  rw [emits_bind_iff (R := fun _ v' => Ready v' G r) (emits_freeBlocks hptr rd) (fun h => ?_)
    fun _ v₁ rd₁ => emits_freeBlock_bind rd₁ hlt h0 fun rd₂ => emits_release rd₂ ino x]
  · simp only [forall_mem_map, mem_range]
    exact and_left_comm
  · rw [erase_freeBlocks]
    exact (freeBlocks_same hptr h rd).mono fun _ _ h' => h'.1

theorem emits_deleteInode {v : Vol} (rd : Ready v G r) (inode : Inode) :
    Emits (ext2DeleteInode inode) v (Event.Sound G) (fun _ _ => True) ↔
      G.IsInode inode.ino ∧ Deletable G v inode.disk := by
  have hbs : v.blockSize / 4 = G.ptrs := congrArg (· / 4) rd.bs_eq
  have hi : iBlock inode.disk 12 < 2 ^ 32 := Bytes.get32_lt _ _
  have hlt : ∀ b ∈ (List.range 12).map (iBlock inode.disk), b < 2 ^ 32 := by
    intro b hb
    obtain ⟨k, -, rfl⟩ := mem_map.mp hb
    exact Bytes.get32_lt _ _
  have hdirect : (∀ b ∈ (List.range 12).map (iBlock inode.disk), b ≠ 0 → Freeable G b) ↔
      ∀ k < 12, iBlock inode.disk k ≠ 0 → Freeable G (iBlock inode.disk k) := by
    simp only [forall_mem_map, mem_range]
  unfold ext2DeleteInode
  rw [emits_bind, emits_quiet, after_get, hbs]
  -- whatever the direct blocks leave, the rest is in order under the same condition
  rw [emits_bind_iff (R := fun _ v' => Ready v' G r ∧ SameData G v v')
    (X := (iBlock inode.disk 12 ≠ 0 → Freeable G (iBlock inode.disk 12) ∧ ∀ j < G.ptrs,
      ptrAt (v.disk (iBlock inode.disk 12)) j ≠ 0 →
        Freeable G (ptrAt (v.disk (iBlock inode.disk 12)) j)) ∧ G.IsInode inode.ino)
    (emits_freeBlocks hlt rd) (fun h => ?_) fun _ v₁ h₁ => ?_, hdirect]
  · constructor
    · rintro ⟨h1, h2, h3⟩
      exact ⟨h3, h1, fun h0 => (h2 h0).1, fun h0 => (h2 h0).2⟩
    · rintro ⟨h3, h⟩
      exact ⟨h.direct, fun h0 => ⟨h.indirect h0, h.entries h0⟩, h3⟩
  · rw [erase_freeBlocks]
    exact freeBlocks_same hlt h rd
  · obtain ⟨rd₁, hs₁⟩ := h₁
    split_ifs with h0
    · rw [emits_bind, emits_quiet, after_kmallocOk rd₁.env, if_pos rfl, emits_bind, emits_quiet,
        after_readBlock rd₁.env]
      dsimp only
      rw [emits_indirect rd₁ hi h0]
      constructor
      · rintro ⟨hf, hent, hn⟩
        rw [hs₁ _ hf.data] at hent
        exact ⟨fun _ => ⟨hf, hent⟩, hn⟩
      · rintro ⟨h, hn⟩
        obtain ⟨hf, hent⟩ := h h0
        rw [← hs₁ _ hf.data] at hent
        exact ⟨hf, hent, hn⟩
    · rw [emits_release rd₁]
      exact ⟨fun h => ⟨fun h' => absurd h' h0, h⟩, fun h => h.2⟩

end Delete

/-! ## Looking without changing -/

section Looks

variable {α β : Type}

/-- A computation that leaves the volume when `kmalloc` and the reads succeed. -/
def Looks (m : FsM α) : Prop := ∀ v, v.env = Env.ok → (m.run v).2 = v

theorem Looks.after {m : FsM α} (h : Looks m) {v : Vol} (hv : v.env = Env.ok)
    {Q : α → Vol → Prop} : After m v Q ↔ Q (m.run v).1 v := by
  unfold After
  rw [h v hv]

theorem Looks.bind {m : FsM α} {f : α → FsM β} (h : Looks m) (hf : ∀ a, Looks (f a)) :
    Looks (m >>= f) := by
  intro v hv
  show ((f (m.run v).1).run (m.run v).2).2 = v
  rw [h v hv]
  exact hf _ v hv

theorem Looks.ite {c : Prop} [Decidable c] {m m' : FsM α} (h : Looks m) (h' : Looks m') :
    Looks (if c then m else m') := by
  split_ifs
  exacts [h, h']

theorem looks_pure (a : α) : Looks (pure a : FsM α) := fun _ _ => rfl

theorem looks_get : Looks (get : FsM Vol) := fun _ _ => rfl

theorem looks_kmallocOk : Looks kmallocOk := fun v hv =>
  (after_kmallocOk (Q := fun _ v' => v' = v) hv).mpr rfl

theorem looks_readBlock (b : ℕ) : Looks (ext2ReadBlock b) := fun v hv =>
  (after_readBlock (Q := fun _ v' => v' = v) hv).mpr rfl

theorem looks_resolve (x : Bytes) (l bs : ℕ) : Looks (ext2ResolveBlockNum x l bs) :=
  (looks_pure _).ite <| Looks.ite
    ((looks_pure _).ite <| looks_kmallocOk.bind fun _ => (looks_pure _).ite <|
      (looks_readBlock _).bind fun _ => looks_pure _) <| Looks.ite
    ((looks_pure _).ite <| looks_kmallocOk.bind fun _ => (looks_pure _).ite <|
      (looks_readBlock _).bind fun _ => (looks_pure _).ite <| (looks_readBlock _).bind fun _ =>
        looks_pure _) <|
    (looks_pure _).ite <| looks_kmallocOk.bind fun _ => (looks_pure _).ite <|
      (looks_readBlock _).bind fun _ => (looks_pure _).ite <| (looks_readBlock _).bind fun _ =>
        (looks_pure _).ite <| (looks_readBlock _).bind fun _ => looks_pure _

theorem looks_findLoop (dir : Inode) (name : Name) (bs n : ℕ) :
    ∀ b, Looks (findLoop dir name bs n b) := by
  induction n with
  | zero => exact fun _ => looks_pure _
  | succ n ih =>
    refine fun b => (looks_resolve _ _ _).bind fun phys => (ih _).ite <|
      (looks_readBlock _).bind fun buf => ?_
    dsimp only
    cases findInBlock buf.2 bs name bs 0 with
    | none => exact ih _
    | some off => exact looks_kmallocOk.bind fun _ => (looks_pure _).ite (looks_pure _)

theorem looks_findDirEntry (dir : Inode) (name : Name) : Looks (ext2FindDirEntry dir name) :=
  (looks_pure _).ite <| looks_get.bind fun _ => looks_kmallocOk.bind fun _ =>
    (looks_pure _).ite (looks_findLoop _ _ _ _ _)

theorem looks_countLoop (target : Inode) (bs n : ℕ) : ∀ b, Looks (countLoop target bs n b) := by
  induction n with
  | zero => exact fun _ => looks_pure _
  | succ n ih =>
    exact fun b => (looks_resolve _ _ _).bind fun phys => (ih _).ite <|
      (looks_readBlock _).bind fun buf => (ih _).bind fun _ => looks_pure _

end Looks

/-! ## Directory entries -/

section Entries

variable {v : Vol} {dir : Inode} {name : Name}

def found (v : Vol) (dir : Inode) (name : Name) : Option DirEntry :=
  ((ext2FindDirEntry dir name).run v).1

def removed (v : Vol) (dir : Inode) (name : Name) : Vol := ((ext2RemoveDirEntry dir name).run v).2

theorem findInBlock_ne_zero {buf : Bytes} {bs off : ℕ} : ∀ {fuel o : ℕ},
    findInBlock buf bs name fuel o = some off → deInode buf off ≠ 0
  | 0, _, h => by simp [findInBlock] at h
  | fuel + 1, o, h => by
    unfold findInBlock at h
    split_ifs at h with h1 h2 h3
    · obtain rfl := Option.some.inj h
      exact (of_decide_eq_true h3).1
    · exact findInBlock_ne_zero h

theorem removeInBlock_isSome (name : Name) (buf : Bytes) (bs : ℕ) :
    ∀ (fuel : ℕ) (prev : Option ℕ) (o : ℕ),
    (removeInBlock buf bs name fuel prev o).isSome = (findInBlock buf bs name fuel o).isSome
  | 0, _, _ => rfl
  | fuel + 1, prev, o => by
    unfold removeInBlock findInBlock
    dsimp only
    split_ifs
    · rfl
    · cases prev <;> rfl
    · exact removeInBlock_isSome name buf bs fuel _ _
    · rfl

/-- An entry that is found has an inode number, and it can be removed. -/
theorem findLoop_some {bs : ℕ} {de : DirEntry} (hv : v.env = Env.ok) : ∀ {n b : ℕ},
    ((findLoop dir name bs n b).run v).1 = some de →
      de.inode ≠ 0 ∧ After (removeLoop dir name bs n b) v fun ret _ => ret = 0
  | 0, _, h => by cases h
  | n + 1, b, h => by
    have hfind : After (findLoop dir name bs (n + 1) b) v fun r _ => r = some de := h
    unfold findLoop dirLoop at hfind
    unfold removeLoop dirLoop
    rw [after_bind, (looks_resolve _ _ _).after hv] at hfind ⊢
    generalize ((ext2ResolveBlockNum dir.disk b bs).run v).1 = phys at hfind ⊢
    split_ifs at hfind ⊢ with h0
    · exact findLoop_some hv hfind
    · rw [after_bind, after_readBlock hv] at hfind ⊢
      dsimp only at hfind ⊢
      have hsome := removeInBlock_isSome name (v.disk phys) bs bs none 0
      cases hoff : findInBlock (v.disk phys) bs name bs 0 with
      | none =>
        rw [hoff] at hfind hsome
        rw [Option.isSome_none, Option.isSome_eq_false_iff, Option.isNone_iff_eq_none] at hsome
        rw [hsome]
        exact findLoop_some hv hfind
      | some off =>
        rw [hoff] at hfind hsome
        obtain ⟨buf, hbuf⟩ := Option.isSome_iff_exists.mp hsome
        rw [hbuf]
        dsimp only [Option.map_some] at hfind
        rw [after_bind, after_kmallocOk hv, if_pos rfl, after_pure] at hfind
        obtain rfl := Option.some.inj hfind
        exact ⟨findInBlock_ne_zero hoff, rfl⟩

theorem found_some (hv : v.env = Env.ok) {de : DirEntry} (h : found v dir name = some de) :
    de.inode ≠ 0 ∧ ((ext2RemoveDirEntry dir name).run v).1 = 0 := by
  have hfind : After (ext2FindDirEntry dir name) v fun r _ => r = some de := h
  unfold ext2FindDirEntry at hfind
  split_ifs at hfind
  · cases hfind
  · rw [after_bind, after_get, after_kmalloc hv] at hfind
    obtain ⟨hne, hrem⟩ := findLoop_some hv hfind
    refine ⟨hne, ?_⟩
    show After (ext2RemoveDirEntry dir name) v fun ret _ => ret = 0
    unfold ext2RemoveDirEntry
    rw [after_bind, after_get, after_kmalloc hv]
    exact hrem

theorem removeLoop_ready {G : Geo} {r : Inode} {bs : ℕ} (rd : Ready v G r) : ∀ n b,
    After (removeLoop dir name bs n b) v fun _ v' => Ready v' G r
  | 0, _ => rd
  | n + 1, b => by
    unfold removeLoop dirLoop
    rw [after_bind, (looks_resolve _ _ _).after rd.env]
    split_ifs
    · exact removeLoop_ready rd n _
    · rw [after_bind, after_readBlock rd.env]
      dsimp only
      cases removeInBlock (v.disk _) bs name bs none 0 with
      | none => exact removeLoop_ready rd n _
      | some buf => exact rd.write

theorem removed_ready {G : Geo} {r : Inode} (rd : Ready v G r) :
    Ready (removed v dir name) G r := by
  show After (ext2RemoveDirEntry dir name) v fun _ v' => Ready v' G r
  unfold ext2RemoveDirEntry
  rw [after_bind, after_get, after_kmalloc rd.env]
  exact removeLoop_ready rd _ _

end Entries

/-! ## The calls -/

inductive DirCall
  | lookup (dir : Inode) (name : Name)
  | unlink (dir : Inode) (name : Name)
  | rmdir (dir : Inode) (name : Name)
  | delete (inode : Inode)

def DirCall.run : DirCall → RecM Unit
  | .lookup dir name => do let _ ← ext2Lookup dir name
  | .unlink dir name => do let _ ← ext2Unlink dir name
  | .rmdir dir name => do let _ ← ext2Rmdir dir name
  | .delete inode => do let _ ← ext2DeleteInode inode

/-- The emptiness scan of `ext2_rmdir` finds at most two entries. -/
def ScansEmpty (v : Vol) (target : Inode) : Prop :=
  toInt32 (((countLoop target v.blockSize (dirBlocks target.size v.blockSize) 0).run v).1 % 2 ^ 32)
    ≤ 2

/-- The numbers that a call follows are in order: the inode number of the entry, that of the
directory when `ext2_rmdir` writes it, and the block numbers of an inode that is deleted, with the
entries of its indirect block as the removal of the directory entry leaves them. -/
def DirCall.Good (v : Vol) (G : Geo) : DirCall → Prop
  | .lookup dir name => ∀ de, found v dir name = some de → de.inode ≤ G.inodes
  | .unlink dir name => ∀ de, found v dir name = some de → de.inode ≤ G.inodes ∧
      (¬ fsIsDir (iMode (v.core.ino de.inode)) → iLinksCount (v.core.ino de.inode) = 1 →
        Deletable G (removed v dir name) (v.core.ino de.inode))
  | .rmdir dir name => ∀ de, found v dir name = some de → de.inode ≤ G.inodes ∧
      (fsIsDir (iMode (v.core.ino de.inode)) →
        ScansEmpty v (Inode.ofDisk de.inode (v.core.ino de.inode)) → dir.ino ≤ G.inodes ∧
          Deletable G (removed v dir name) (v.core.ino de.inode))
  | .delete inode => G.IsInode inode.ino ∧ Deletable G v inode.disk

section Calls

variable {v : Vol} {G : Geo} {r : Inode} (rd : Ready v G r) {dir : Inode} {name : Name}

include rd

theorem emits_readInode {ino : ℕ} (h0 : ino ≠ 0) :
    Emits (ext2ReadInode ino) v (Event.Sound G) (fun _ _ => True) ↔ ino ≤ G.inodes := by
  unfold ext2ReadInode ext2ReadInodeRaw
  rw [if_neg h0, emits_bind, emits_quiet, after_kmallocOk rd.env, Bool.not_true,
    if_neg Bool.false_ne_true, emits_bind_any fun a v' => ?_,
    emits_bind_any fun _ _ => (emits_quiet (Q := fun _ _ => True) _).mpr trivial, emits_inodeLoc rd]
  dsimp only
  split_ifs
  · exact (emits_pure _).mpr trivial
  · refine emits_quiet_any fun ok v'' => ?_
    split_ifs <;> exact (emits_pure _).mpr trivial

theorem emits_lookup : Emits (ext2Lookup dir name) v (Event.Sound G) (fun _ _ => True) ↔
    ∀ de, found v dir name = some de → de.inode ≤ G.inodes := by
  unfold ext2Lookup
  rw [emits_bind, emits_quiet, (looks_findDirEntry dir name).after rd.env]
  cases hf : found v dir name with
  | none =>
    rw [show ((ext2FindDirEntry dir name).run v).1 = none from hf]
    exact iff_of_true ((emits_pure _).mpr trivial) (by simp)
  | some de =>
    rw [show ((ext2FindDirEntry dir name).run v).1 = some de from hf]
    simp only [Option.some.injEq, forall_eq']
    exact emits_readInode rd (found_some rd.env hf).1

/-- What `ext2_lookup` returns for an entry with an inode of the volume. -/
theorem after_lookup {de : DirEntry} (hf : found v dir name = some de) (hn : de.inode ≤ G.inodes)
    {Q : Option Inode → Vol → Prop} : After (DvivonOS.ext2Lookup dir name) v Q ↔
      Q (some (Inode.ofDisk de.inode (v.core.ino de.inode))) v := by
  have h0 := (found_some rd.env hf).1
  unfold DvivonOS.ext2Lookup
  rw [after_bind, (looks_findDirEntry dir name).after rd.env,
    show ((ext2FindDirEntry dir name).run v).1 = some de from hf]
  exact rd.readInode ⟨by omega, hn⟩

theorem after_lookup_none (hf : found v dir name = none) {Q : Option Inode → Vol → Prop} :
    After (DvivonOS.ext2Lookup dir name) v Q ↔ Q none v := by
  unfold DvivonOS.ext2Lookup
  rw [after_bind, (looks_findDirEntry dir name).after rd.env,
    show ((ext2FindDirEntry dir name).run v).1 = none from hf]
  exact Iff.rfl

theorem emits_lookup_bind {α : Type} {f : Option Inode → RecM α}
    (hnone : Emits (f none) v (Event.Sound G) fun _ _ => True) {X : DirEntry → Prop}
    (hsome : ∀ de, found v dir name = some de → G.IsInode de.inode →
      (Emits (f (some (Inode.ofDisk de.inode (v.core.ino de.inode)))) v (Event.Sound G)
        (fun _ _ => True) ↔ X de)) :
    Emits (ext2Lookup dir name >>= f) v (Event.Sound G) (fun _ _ => True) ↔
      ∀ de, found v dir name = some de → de.inode ≤ G.inodes ∧ X de := by
  rw [emits_bind, emits_iff, emits_lookup rd, erase_lookup]
  cases hf : found v dir name with
  | none =>
    rw [after_lookup_none rd hf]
    exact iff_of_true ⟨by simp, hnone⟩ (by simp)
  | some de =>
    have h0 := (found_some rd.env hf).1
    simp only [Option.some.injEq, forall_eq']
    refine and_congr_right fun hn => ?_
    rw [after_lookup rd hf hn]
    exact hsome de hf ⟨by omega, hn⟩

theorem emits_writeInode (inode : Inode) :
    Emits (ext2WriteInode inode) v (Event.Sound G) (fun _ _ => True) ↔ inode.ino ≤ G.inodes := by
  unfold ext2WriteInode
  rw [emits_last, emits_writeInodeRaw rd]

theorem emits_unlink :
    Emits (ext2Unlink dir name) v (Event.Sound G) (fun _ _ => True) ↔
      (DirCall.unlink dir name).Good v G := by
  unfold ext2Unlink
  simp only [DirCall.Good]
  refine emits_lookup_bind rd ?_ fun de hf hn => ?_
  · exact (emits_pure _).mpr trivial
  have hret := (found_some rd.env hf).2
  have rd' : Ready (removed v dir name) G r := removed_ready rd
  generalize hx : v.core.ino de.inode = x
  have hmode : (Inode.ofDisk de.inode x).mode = iMode x := rfl
  have hnlink : (Inode.ofDisk de.inode x).nlink = iLinksCount x := rfl
  have h16 : iLinksCount x < 65536 := Bytes.get16_lt _ _
  dsimp only
  by_cases hdir : fsIsDir (iMode x) = true
  · rw [hmode, if_pos hdir]
    exact iff_of_true ((emits_pure _).mpr trivial) fun h => absurd hdir h
  · rw [hmode, if_neg hdir, emits_bind, emits_quiet, after_of_run (run_eq_of_fst hret),
      if_neg (by simp), hnlink]
    by_cases hlast : iLinksCount x = 1
    · rw [if_pos (by rw [hlast]; rfl), emits_last]
      refine (emits_deleteInode rd' _).trans ?_
      exact ⟨fun h _ _ => h.2, fun h => ⟨hn, h hdir hlast⟩⟩
    · have hlinks : sub32 (iLinksCount x) 1 ≠ 0 := by
        unfold sub32
        omega
      rw [if_neg hlinks, emits_last]
      exact iff_of_true ((emits_writeInode rd' _).mpr hn.2) fun _ h => absurd h hlast

/-- The end of `ext2_rmdir`, from the write of the directory inode on. -/
theorem emits_rmdir_end {target : Inode} {x : Bytes} (hino : G.IsInode target.ino)
    (hx : target.disk = x) (g : ℕ) :
    Emits (do
      let (_, dir) ← ext2WriteInode { dir with nlink := sub32 dir.nlink 1 }
      let _ ← ext2DeleteInode target
      quiet (modify fun v =>
        if 0 < v.bgUsedDirsCount g then { v with
          gd := Function.update v.gd g ((v.gd g).put16 16 (v.bgUsedDirsCount g - 1)) }
        else v)
      let _ ← ext2FlushGroupDesc g
      return ((0 : ℤ), dir)) v (Event.Sound G) (fun _ _ => True) ↔
      dir.ino ≤ G.inodes ∧ Deletable G v x := by
  subst hx
  rw [emits_bind_iff (R := fun _ v' => Ready v' G r ∧ SameData G v v')
    (X := Deletable G v target.disk) (emits_writeInode rd _) (fun h => ?_) fun a v' h' => ?_]
  · rw [erase_writeInode]
    unfold DvivonOS.ext2WriteInode
    rw [after_bind]
    exact (writeInodeRaw_same rd h _).mono fun _ _ h' => h'
  · obtain ⟨rd', hs⟩ := h'
    dsimp only
    rw [emits_bind_any fun _ _ => ?_, emits_deleteInode rd']
    · exact ⟨fun h => h.2.of_same fun b hb => (hs b hb).symm, fun h => ⟨hino, h.of_same hs⟩⟩
    · unfold ext2FlushGroupDesc
      simp only [emits_bind, emits_quiet, emits_emit, Event.Sound, true_and, emits_pure, after_true]

theorem emits_rmdir : Emits (ext2Rmdir dir name) v (Event.Sound G) (fun _ _ => True) ↔
    (DirCall.rmdir dir name).Good v G := by
  unfold ext2Rmdir
  simp only [DirCall.Good]
  refine emits_lookup_bind rd ?_ fun de hf hn => ?_
  · exact (emits_pure _).mpr trivial
  have hret := (found_some rd.env hf).2
  have rd' : Ready (removed v dir name) G r := removed_ready rd
  generalize hx : v.core.ino de.inode = x
  have hmode : (Inode.ofDisk de.inode x).mode = iMode x := rfl
  dsimp only
  by_cases hdir : fsIsDir (iMode x) = true
  · rw [hmode, hdir, Bool.not_true, if_neg Bool.false_ne_true, emits_bind, emits_quiet, after_get,
      emits_bind, emits_quiet, after_kmallocOk rd.env, Bool.not_true, if_neg Bool.false_ne_true,
      emits_bind, emits_quiet, (looks_countLoop _ _ _ _).after rd.env]
    by_cases hempty : ScansEmpty v (Inode.ofDisk de.inode x)
    · rw [if_neg (not_lt.mpr hempty), emits_bind, emits_quiet, after_of_run (run_eq_of_fst hret),
        if_neg (by simp)]
      refine (emits_rmdir_end (r := r) rd' hn rfl _).trans ?_
      exact ⟨fun h _ _ => h, fun h => h rfl hempty⟩
    · rw [if_pos (not_le.mp hempty)]
      exact iff_of_true ((emits_pure _).mpr trivial) fun _ h => absurd h hempty
  · rw [hmode, if_pos (by simp [hdir])]
    exact iff_of_true ((emits_pure _).mpr trivial) fun h => absurd h hdir

/-- **Numbers from the disk.** Every index into `group_desc` is below `groups_count` and no bit of
the metadata is cleared exactly when the numbers that the call follows are in order. -/
theorem dirCall_sound_iff (c : DirCall) :
    Emits c.run v (Event.Sound G) (fun _ _ => True) ↔ c.Good v G := by
  cases c with
  | lookup dir name => exact emits_last.trans (emits_lookup rd)
  | unlink dir name => exact emits_last.trans (emits_unlink rd)
  | rmdir dir name => exact emits_last.trans (emits_rmdir rd)
  | delete inode => exact emits_last.trans (emits_deleteInode rd inode)

end Calls

/-- The file `a` can be deleted. -/
theorem fileInode_sound : Emits (DirCall.delete (Inode.ofDisk 11 fileInode)).run fileVol
    (Event.Sound sampleVol.geo) (fun _ _ => True) := by
  have hslots : ∀ k < 13, iBlock fileInode k = if k = 0 then 8 else 0 := by decide +kernel
  have h8 : Freeable sampleVol.geo 8 :=
    ⟨by decide +kernel, fun h => by have := sampleVol_meta h; omega⟩
  refine (dirCall_sound_iff fileVol_ready _).mpr ⟨by decide +kernel, fun k hk h0 => ?_,
    fun h0 => absurd (hslots 12 (by omega)) h0, fun h0 => absurd (hslots 12 (by omega)) h0⟩
  change iBlock fileInode k ≠ 0 at h0
  show Freeable _ (iBlock fileInode k)
  rw [hslots k (by omega)] at h0 ⊢
  split_ifs at h0 ⊢
  · exact h8
  · exact absurd rfl h0

/-- An inode whose first block is the block bitmap. -/
def bitmapInode : Bytes := setIBlock fileInode 0 3

/-- Deleting it clears the bit of the block bitmap. -/
theorem bitmap_cleared : Event.clear 0 2 ∈
      ((DirCall.delete (Inode.ofDisk 11 bitmapInode)).run fileVol).2.2 ∧
    ¬ Emits (DirCall.delete (Inode.ofDisk 11 bitmapInode)).run fileVol
      (Event.Sound sampleVol.geo) (fun _ _ => True) := by
  have hmem : Event.clear 0 2 ∈
      ((DirCall.delete (Inode.ofDisk 11 bitmapInode)).run fileVol).2.2 := by decide +kernel
  refine ⟨hmem, fun h => h.1 _ hmem ⟨.bbm 0, ?_, ?_⟩⟩
  · show 0 < 1
    omega
  · decide +kernel

end DvivonOS.Recorded
