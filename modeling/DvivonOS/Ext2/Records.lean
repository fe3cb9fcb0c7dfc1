import DvivonOS.Ext2.Directory

/-!
# The records of a directory block

`Records buf off rs stop`: the block holds, from `off` to `stop`, the records `rs`, each long
enough for its name. On the list of records an insertion is `addRec` and a removal `removeRec`, and
the three loops over a block refine these functions: `addInBlock` changes the block to one that
holds the new list (`Records.add`), `removeInBlock` likewise (`Records.remove`), and `findInBlock`
finds the first record of the list with the name (`Records.find`).

Each refinement is an induction over the records: a step changes bytes of the record at hand and
of the one before it, and `Records` depends on the bytes from `off` on only.
-/

namespace DvivonOS

open List Bytes

/-! ## Lengths -/

theorem ext2DirRecLen_eq {n : ℕ} (h : n < 2 ^ 31) : ext2DirRecLen n = 4 * ((n + 11) / 4) := by
  unfold ext2DirRecLen
  rw [show (8 + n + 3) = n + 11 by omega]
  exact and_mask (k := 2) (n := 30) (by omega)

theorem le_ext2DirRecLen {n : ℕ} (h : n < 2 ^ 31) : 8 + n ≤ ext2DirRecLen n := by
  rw [ext2DirRecLen_eq h]; omega

theorem dvd_ext2DirRecLen {n : ℕ} (h : n < 2 ^ 31) : 4 ∣ ext2DirRecLen n := by
  rw [ext2DirRecLen_eq h]; exact Dvd.intro _ rfl

theorem deNameLen_lt (buf : Bytes) (off : ℕ) : deNameLen buf off < 256 := UInt8.toNat_lt _

/-! ## One record -/

theorem dirEntryAt_congr {buf buf' : Bytes} {off : ℕ}
    (h : ∀ i, off ≤ i → i < off + 8 + deNameLen buf off → buf' i = buf i) :
    dirEntryAt buf' off = dirEntryAt buf off := by
  have h32 : deInode buf' off = deInode buf off :=
    get32_congr fun i h1 h2 => h i h1 (by omega)
  have h16 : deRecLen buf' off = deRecLen buf off :=
    get16_congr fun i h1 h2 => h i (by omega) (by omega)
  have h6 : deNameLen buf' off = deNameLen buf off := by
    unfold deNameLen; rw [h (off + 6) (by omega) (by omega)]
  have h7 : deFileType buf' off = deFileType buf off := by
    unfold deFileType; rw [h (off + 7) (by omega) (by omega)]
  unfold dirEntryAt
  rw [h32, h16, h6, h7, slice_congr fun i h1 h2 => h i (by omega) (by omega)]

section PutEntry

variable {buf : Bytes} {off ino type : ℕ} {name : Name}

theorem putEntry_of_not_mem {i : ℕ} (h : i < off ∨ i = off + 4 ∨ i = off + 5 ∨
    off + 8 + name.length ≤ i) : putEntry buf off name ino type i = buf i := by
  unfold putEntry
  rw [copy_of_not_mem _ _ (by omega), put8_of_ne _ _ (by omega),
    put8_of_ne _ _ (by omega), put32_of_not_mem _ _ (by omega)]

theorem dirEntryAt_putEntry (hi : ino < 2 ^ 32) (ht : type < 256) (hn : name.length < 256) :
    dirEntryAt (putEntry buf off name ino type) off = ⟨ino, deRecLen buf off, type, name⟩ := by
  have h32 : deInode (putEntry buf off name ino type) off = ino := by
    refine Eq.trans (get32_congr fun i h1 h2 => ?_) (get32_put32_of_lt buf off hi)
    unfold putEntry
    rw [copy_of_not_mem _ _ (by omega), put8_of_ne _ _ (by omega),
      put8_of_ne _ _ (by omega)]
  have h16 : deRecLen (putEntry buf off name ino type) off = deRecLen buf off :=
    get16_congr fun i h1 h2 => putEntry_of_not_mem (by omega)
  have h6 : deNameLen (putEntry buf off name ino type) off = name.length := by
    unfold deNameLen putEntry
    rw [copy_of_not_mem _ _ (by omega), put8_of_ne _ _ (by omega)]
    show (if off + 6 = off + 6 then UInt8.ofNat name.length else _).toNat = _
    rw [if_pos rfl, UInt8.toNat_ofNat', Nat.mod_eq_of_lt hn]
  have h7 : deFileType (putEntry buf off name ino type) off = type := by
    unfold deFileType putEntry
    rw [copy_of_not_mem _ _ (by omega)]
    show (if off + 7 = off + 7 then UInt8.ofNat type else _).toNat = _
    rw [if_pos rfl, UInt8.toNat_ofNat', Nat.mod_eq_of_lt ht]
  unfold dirEntryAt
  rw [h32, h16, h6, h7]
  unfold putEntry
  rw [slice_copy_ofList]

end PutEntry

/-! ## The records of a block -/

/-- A record of proper length. -/
structure DirEntry.Ok (r : DirEntry) : Prop where
  dvd : 4 ∣ r.recLen
  le : ext2DirRecLen r.name.length ≤ r.recLen

/-- From `off` to `stop` the block holds the records `rs`. -/
def Records (buf : Bytes) : ℕ → List DirEntry → ℕ → Prop
  | off, [], stop => off = stop
  | off, r :: rs, stop => dirEntryAt buf off = r ∧ r.Ok ∧ Records buf (off + r.recLen) rs stop

def DirEntry.actual (r : DirEntry) : ℕ := ext2DirRecLen r.name.length

theorem deNameLen_of_eq {buf : Bytes} {off : ℕ} {r : DirEntry} (h : dirEntryAt buf off = r) :
    deNameLen buf off = r.name.length := by
  rw [← h]; exact (length_slice _ _ _).symm

namespace Records

variable {buf buf' : Bytes} {off stop : ℕ} {r : DirEntry} {rs : List DirEntry}

theorem name_lt (h : dirEntryAt buf off = r) : r.name.length < 256 := by
  rw [← deNameLen_of_eq h]; exact deNameLen_lt _ _

theorem recLen_lt (h : dirEntryAt buf off = r) : r.recLen < 65536 := by
  rw [← h]; exact get16_lt _ _

theorem le_recLen (h : dirEntryAt buf off = r) (ok : r.Ok) : 8 + r.name.length ≤ r.recLen :=
  le_trans (le_ext2DirRecLen (lt_trans (name_lt h) (by norm_num))) ok.le

theorem le : ∀ {rs : List DirEntry} {off : ℕ}, Records buf off rs stop → off ≤ stop
  | [], _, h => le_of_eq h
  | _ :: _, _, ⟨_, _, h⟩ => le_trans (Nat.le_add_right _ _) (le h)

theorem length_le : ∀ {rs : List DirEntry} {off : ℕ}, Records buf off rs stop →
    off + 8 * rs.length ≤ stop
  | [], _, h => le_of_eq h
  | r :: rs, off, ⟨he, ok, h⟩ => by
    have h1 := le_recLen he ok
    have h2 := length_le h
    rw [length_cons]
    omega

theorem congr : ∀ {rs : List DirEntry} {off : ℕ}, Records buf off rs stop →
    (∀ i, off ≤ i → i < stop → buf' i = buf i) → Records buf' off rs stop
  | [], _, h, _ => h
  | r :: rs, off, ⟨he, ok, h⟩, hb => by
    have h1 := le_recLen he ok
    have h2 := le h
    refine ⟨?_, ok, h.congr fun i hi => hb i (by omega)⟩
    rw [← he]
    refine dirEntryAt_congr fun i hi1 hi2 => hb i hi1 ?_
    rw [deNameLen_of_eq he] at hi2
    omega

/-- A record whose bytes stay, in front of records of the new block. -/
theorem cons_congr (he : dirEntryAt buf off = r) (ok : r.Ok)
    (hb : ∀ i, i < off + r.recLen → buf' i = buf i)
    (h : Records buf' (off + r.recLen) rs stop) : Records buf' off (r :: rs) stop := by
  have h1 := le_recLen he ok
  refine ⟨?_, ok, h⟩
  rw [← he]
  refine dirEntryAt_congr fun i hi1 hi2 => hb i ?_
  rw [deNameLen_of_eq he] at hi2
  omega

end Records

/-! ## Functions on the list of records -/

def DirEntry.Is (name : Name) (r : DirEntry) : Bool := r.inode ≠ 0 ∧ r.name = name

/-- Insertion: in the first unused record that is long enough, or behind the first record with
enough slack. -/
def addRec (new : DirEntry) : List DirEntry → Option (List DirEntry)
  | [] => none
  | r :: rs =>
    if r.inode = 0 ∧ new.actual ≤ r.recLen then some ({ new with recLen := r.recLen } :: rs)
    else if new.actual ≤ r.recLen - r.actual then
      some ({ r with recLen := r.actual } :: { new with recLen := r.recLen - r.actual } :: rs)
    else (addRec new rs).map (r :: ·)

/-- Removal, with the record before the list: the first record with the name is merged into the
record before it, or becomes unused. -/
def removeRec (name : Name) : Option DirEntry → List DirEntry → Option (List DirEntry)
  | _, [] => none
  | prev, r :: rs =>
    if r.Is name then
      match prev with
      | some p => some ({ p with recLen := p.recLen + r.recLen } :: rs)
      | none => some ({ r with inode := 0 } :: rs)
    else (removeRec name (some r) rs).map (prev.toList ++ ·)

/-- A loop over a block changes it to one with the records `rs`, and only from `off` on; or it finds
nothing. -/
def Rewrites (buf : Bytes) (off stop : ℕ) (buf' : Option Bytes) : Option (List DirEntry) → Prop
  | none => buf' = none
  | some rs => ∃ b, buf' = some b ∧ Records b off rs stop ∧ ∀ i < off, b i = buf i

namespace Records

variable {buf : Bytes} {off stop : ℕ} {r : DirEntry} {rs : List DirEntry} {name : Name}

/-- The loop goes on behind the record `r`. -/
theorem rewrites_cons {buf' : Option Bytes} {spec : Option (List DirEntry)}
    (he : dirEntryAt buf off = r) (ok : r.Ok)
    (h : Rewrites buf (off + r.recLen) stop buf' spec) :
    Rewrites buf off stop buf' (spec.map (r :: ·)) := by
  cases spec with
  | none => exact h
  | some rs =>
    obtain ⟨b, hb, hr, hsame⟩ := h
    exact ⟨b, hb, cons_congr he ok hsame hr, fun i hi => hsame i (by omega)⟩

theorem deMatches_eq (he : dirEntryAt buf off = r) : deMatches buf off name = r.Is name := by
  subst he
  unfold deMatches DirEntry.Is dirEntryAt
  dsimp only
  refine decide_eq_decide.mpr (and_congr_right fun _ => ⟨?_, ?_⟩)
  · rintro ⟨h1, h2⟩
    rw [h1, h2]
  · intro h
    have hlen : deNameLen buf off = name.length := by
      rw [← h]; exact (length_slice _ _ _).symm
    rw [hlen] at h
    exact ⟨hlen, h⟩

theorem lt_stop (h : Records buf off (r :: rs) stop) : off < stop := by
  obtain ⟨he, ok, h⟩ := h
  have h1 := le_recLen he ok
  have h2 := le h
  omega

theorem deRecLen_ne (he : dirEntryAt buf off = r) (ok : r.Ok) :
    deRecLen buf off = r.recLen ∧ deRecLen buf off ≠ 0 := by
  have h1 := le_recLen he ok
  have h2 : deRecLen buf off = r.recLen := by rw [← he]; rfl
  omega

theorem find : ∀ {rs : List DirEntry} {off fuel : ℕ}, Records buf off rs stop → rs.length ≤ fuel →
    (findInBlock buf stop name fuel off).map (dirEntryAt buf) = rs.find? (DirEntry.Is name)
  | [], off, fuel, h, _ => by
    obtain rfl : off = stop := h
    cases fuel with
    | zero => rfl
    | succ fuel => unfold findInBlock; rw [if_neg (lt_irrefl _)]; rfl
  | r :: rs, off, 0, _, hf => absurd hf (by simp)
  | r :: rs, off, fuel + 1, h, hf => by
    have hlt := h.lt_stop
    obtain ⟨he, ok, h⟩ := h
    obtain ⟨hlen, hne⟩ := deRecLen_ne he ok
    unfold findInBlock
    rw [if_pos hlt, if_neg hne, deMatches_eq he, hlen]
    cases hm : r.Is name with
    | true => rw [if_pos rfl, List.find?_cons_of_pos hm, Option.map_some, he]
    | false =>
      rw [if_neg Bool.false_ne_true, List.find?_cons_of_neg (by simp [hm])]
      exact find h (by simpa using hf)

/-- The first six bytes of a record are its inode and its length. -/
theorem dirEntryAt_header {buf' : Bytes} (h : ∀ i, off + 6 ≤ i → buf' i = buf i) :
    dirEntryAt buf' off =
      { dirEntryAt buf off with inode := deInode buf' off, recLen := deRecLen buf' off } := by
  have h6 : deNameLen buf' off = deNameLen buf off := by unfold deNameLen; rw [h _ le_rfl]
  have h7 : deFileType buf' off = deFileType buf off := by
    unfold deFileType; rw [h _ (by omega)]
  unfold dirEntryAt
  rw [h6, h7, slice_congr fun i h1 _ => h i (by omega)]

theorem dirEntryAt_put16 (he : dirEntryAt buf off = r) {len : ℕ} (hl : len < 65536) :
    dirEntryAt (buf.put16 (off + 4) len) off = { r with recLen := len } := by
  have h32 : deInode (buf.put16 (off + 4) len) off = deInode buf off :=
    get32_put16_of_disjoint _ _ (by omega)
  have h16 : deRecLen (buf.put16 (off + 4) len) off = len := get16_put16_of_lt _ _ hl
  rw [dirEntryAt_header fun i _ => put16_of_not_mem _ _ (by omega), h32, h16, ← he]
  rfl

theorem dirEntryAt_put32 (he : dirEntryAt buf off = r) :
    dirEntryAt (buf.put32 off 0) off = { r with inode := 0 } := by
  have h32 : deInode (buf.put32 off 0) off = 0 := get32_put32_of_lt _ _ (by norm_num)
  have h16 : deRecLen (buf.put32 off 0) off = deRecLen buf off :=
    get16_congr fun i h1 _ => put32_of_not_mem _ _ (by omega)
  rw [dirEntryAt_header fun i _ => put32_of_not_mem _ _ (by omega), h32, h16, ← he]
  rfl

variable {new : DirEntry} (hi : new.inode < 2 ^ 32) (ht : new.fileType < 256)
  (hn : new.name.length < 256)

include hi ht hn

theorem reuse (h : Records buf off (r :: rs) stop) (hle : new.actual ≤ r.recLen) :
    Records (putEntry buf off new.name new.inode new.fileType) off
      ({ new with recLen := r.recLen } :: rs) stop := by
  obtain ⟨he, ok, h⟩ := h
  have hlen : 8 + new.name.length ≤ new.actual := le_ext2DirRecLen (lt_trans hn (by norm_num))
  refine ⟨?_, ⟨ok.dvd, hle⟩, h.congr fun i hi1 hi2 => putEntry_of_not_mem (by omega)⟩
  rw [dirEntryAt_putEntry hi ht hn, (deRecLen_ne he ok).1]

/-- The slack behind a record becomes a record. -/
theorem split (h : Records buf off (r :: rs) stop) (hle : new.actual ≤ r.recLen - r.actual) :
    Records (putEntry ((buf.put16 (off + 4) r.actual).put16 (off + r.actual + 4)
        (r.recLen - r.actual)) (off + r.actual) new.name new.inode new.fileType) off
      ({ r with recLen := r.actual } :: { new with recLen := r.recLen - r.actual } :: rs) stop := by
  obtain ⟨he, ok, h⟩ := h
  have hrn := name_lt he
  have hrl := recLen_lt he
  have hle' : r.actual ≤ r.recLen := ok.le
  have hlen : 8 + new.name.length ≤ new.actual := le_ext2DirRecLen (lt_trans hn (by norm_num))
  have hrlen : 8 + r.name.length ≤ r.actual := le_ext2DirRecLen (lt_trans hrn (by norm_num))
  have hdvd : 4 ∣ r.actual := dvd_ext2DirRecLen (lt_trans hrn (by norm_num))
  refine ⟨?_, ⟨hdvd, le_rfl⟩, ?_, ⟨Nat.dvd_sub ok.dvd hdvd, hle⟩, ?_⟩
  · rw [← dirEntryAt_put16 he (show r.actual < 65536 by omega)]
    refine dirEntryAt_congr fun i hi1 hi2 => ?_
    rw [deNameLen_of_eq (dirEntryAt_put16 he (by omega))] at hi2
    dsimp only at hi2
    rw [putEntry_of_not_mem (by omega), put16_of_not_mem _ _ (by omega)]
  · rw [dirEntryAt_putEntry hi ht hn]
    congr 1
    exact get16_put16_of_lt _ _ (by omega)
  · dsimp only
    rw [show off + r.actual + (r.recLen - r.actual) = off + r.recLen by omega]
    refine h.congr fun i hi1 hi2 => ?_
    rw [putEntry_of_not_mem (by omega), put16_of_not_mem _ _ (by omega),
      put16_of_not_mem _ _ (by omega)]

/-- **`addInBlock`** refines the insertion. -/
theorem add : ∀ {rs : List DirEntry} {off fuel : ℕ}, Records buf off rs stop → rs.length ≤ fuel →
    Rewrites buf off stop (addInBlock buf stop new.name new.inode new.fileType fuel off)
      (addRec new rs)
  | [], off, fuel, h, _ => by
    obtain rfl : off = stop := h
    cases fuel with
    | zero => rfl
    | succ fuel => unfold addInBlock; rw [if_neg (lt_irrefl _)]; rfl
  | r :: rs, off, 0, _, hf => absurd hf (by simp)
  | r :: rs, off, fuel + 1, hrec, hf => by
    have hlt := hrec.lt_stop
    obtain ⟨he, ok, h⟩ := id hrec
    obtain ⟨hlen, hne⟩ := deRecLen_ne he ok
    have hino : deInode buf off = r.inode := by rw [← he]; rfl
    have hrl := recLen_lt he
    have hact : ext2DirRecLen (deNameLen buf off) = r.actual := by rw [deNameLen_of_eq he]; rfl
    have hle' : r.actual ≤ r.recLen := ok.le
    have hslack : sub32 r.recLen r.actual = r.recLen - r.actual := by unfold sub32; omega
    have hneed : ext2DirRecLen new.name.length = new.actual := rfl
    unfold addInBlock addRec
    dsimp only
    rw [if_pos hlt, if_neg hne, hlen, hino, hact, hslack, hneed]
    split_ifs with h1 h2
    · exact ⟨_, rfl, reuse hi ht hn hrec h1.2, fun i hi => putEntry_of_not_mem (by omega)⟩
    · refine ⟨_, rfl, split hi ht hn hrec h2, fun i hi => ?_⟩
      rw [putEntry_of_not_mem (by omega), put16_of_not_mem _ _ (by omega),
        put16_of_not_mem _ _ (by omega)]
    · exact rewrites_cons he ok (add h (by simpa using hf))

omit hi ht hn

/-- **`removeInBlock`** refines the removal: it is at `off`, behind the record `prev` at `start`. -/
theorem remove (name : Name) (hs : stop < 65536) : ∀ {rs : List DirEntry} (prev : Option DirEntry)
    {start off fuel : ℕ}, Records buf start (prev.toList ++ rs) stop →
    off = start + (prev.map DirEntry.recLen).getD 0 → rs.length ≤ fuel →
    Rewrites buf start stop (removeInBlock buf stop name fuel (prev.map fun _ => start) off)
      (removeRec name prev rs)
  | [], prev, start, off, fuel, h, hoff, _ => by
    have hend : off = stop := by
      cases prev with
      | none => exact hoff.trans h
      | some p => exact hoff.trans h.2.2
    cases fuel with
    | zero => rfl
    | succ fuel => unfold removeInBlock; rw [if_neg (by omega)]; rfl
  | r :: rs, prev, start, off, 0, _, _, hf => absurd hf (by simp)
  | r :: rs, prev, start, off, fuel + 1, hrec, hoff, hf => by
    have hrec' : Records buf off (r :: rs) stop := by
      cases prev with
      | none => rw [hoff]; exact hrec
      | some p => rw [hoff]; exact hrec.2.2
    have hlt := hrec'.lt_stop
    obtain ⟨he, ok, h⟩ := id hrec'
    obtain ⟨hlen, hne⟩ := deRecLen_ne he ok
    have h8 := le_recLen he ok
    have hstop := le h
    unfold removeInBlock removeRec
    dsimp only
    rw [if_pos hlt, if_neg hne, deMatches_eq he, hlen]
    cases hm : r.Is name with
    | true =>
      rw [if_pos rfl, if_pos rfl]
      cases prev with
      | none =>
        obtain rfl : off = start := hoff
        exact ⟨_, rfl, ⟨dirEntryAt_put32 he, ⟨ok.dvd, ok.le⟩, h.congr fun i hi1 _ =>
          put32_of_not_mem _ _ (by omega)⟩, fun i hi => put32_of_not_mem _ _ (by omega)⟩
      | some p =>
        obtain ⟨hep, okp, -⟩ := hrec
        have hoff : off = start + p.recLen := hoff
        dsimp only [Option.map_some]
        have h8p := le_recLen hep okp
        refine ⟨_, rfl, ⟨?_, ⟨dvd_add okp.dvd ok.dvd, le_trans okp.le (Nat.le_add_right _ _)⟩, ?_⟩,
          fun i hi => put16_of_not_mem _ _ (by omega)⟩
        · rw [(deRecLen_ne hep okp).1]
          exact dirEntryAt_put16 hep (by omega)
        · dsimp only
          rw [← Nat.add_assoc, ← hoff]
          exact h.congr fun i hi1 _ => put16_of_not_mem _ _ (by omega)
    | false =>
      rw [if_neg Bool.false_ne_true, if_neg Bool.false_ne_true]
      have ih := remove name hs (some r) hrec' rfl (show rs.length ≤ fuel by simpa using hf)
      cases prev with
      | none =>
        obtain rfl : off = start := hoff
        simpa using ih
      | some p =>
        rw [show off = start + p.recLen from hoff] at ih ⊢
        exact rewrites_cons hrec.1 hrec.2.1 ih

end Records

/-! ## The entries of a block -/

structure Entry where
  name : Name
  ino : ℕ
  type : ℕ
  deriving DecidableEq

def DirEntry.entry (r : DirEntry) : Entry := ⟨r.name, r.inode, r.fileType⟩

def DirEntry.live (r : DirEntry) : Option Entry := if r.inode = 0 then none else some r.entry

/-- The records from `off` on, as their lengths chain them. -/
def recordsAt (buf : Bytes) (bs : ℕ) : ℕ → ℕ → List DirEntry
  | 0, _ => []
  | fuel + 1, off =>
    if off < bs then
      if deRecLen buf off = 0 then []
      else dirEntryAt buf off :: recordsAt buf bs fuel (off + deRecLen buf off)
    else []

/-- The live entries of a block, in the order of the block. -/
def blockEntries (bs : ℕ) (buf : Bytes) : List Entry :=
  (recordsAt buf bs bs 0).filterMap DirEntry.live

theorem Records.recordsAt_eq {buf : Bytes} {stop : ℕ} : ∀ {rs : List DirEntry} {off fuel : ℕ},
    Records buf off rs stop → rs.length ≤ fuel → recordsAt buf stop fuel off = rs
  | [], off, fuel, h, _ => by
    obtain rfl : off = stop := h
    cases fuel with
    | zero => rfl
    | succ fuel => unfold recordsAt; rw [if_neg (lt_irrefl _)]
  | r :: rs, off, 0, _, hf => absurd hf (by simp)
  | r :: rs, off, fuel + 1, hrec, hf => by
    have hlt := hrec.lt_stop
    obtain ⟨he, ok, h⟩ := hrec
    obtain ⟨hlen, hne⟩ := deRecLen_ne he ok
    unfold recordsAt
    rw [if_pos hlt, if_neg hne, hlen, he, recordsAt_eq h (by simpa using hf)]

def Tiled (bs : ℕ) (buf : Bytes) : Prop := ∃ rs, Records buf 0 rs bs

namespace Records

variable {buf : Bytes} {bs : ℕ} {rs : List DirEntry}

theorem length_le_stop (h : Records buf 0 rs bs) : rs.length ≤ bs := by
  have := h.length_le
  omega

theorem entries (h : Records buf 0 rs bs) : blockEntries bs buf = rs.filterMap DirEntry.live := by
  unfold blockEntries
  rw [h.recordsAt_eq h.length_le_stop]

end Records

/-! ## Entries and records -/

theorem DirEntry.is_iff {r : DirEntry} {name : Name} :
    r.Is name = true ↔ ∃ x, r.live = some x ∧ x.name = name := by
  unfold DirEntry.Is DirEntry.live DirEntry.entry
  by_cases h : r.inode = 0 <;> simp [h]

theorem DirEntry.entry_of_live {r : DirEntry} {x : Entry} (h : r.live = some x) : r.entry = x := by
  unfold DirEntry.live at h
  split_ifs at h
  exact Option.some.inj h

theorem find_live (name : Name) : ∀ rs : List DirEntry,
    (rs.find? (DirEntry.Is name)).map DirEntry.entry =
      (rs.filterMap DirEntry.live).find? (·.name = name)
  | [] => rfl
  | r :: rs => by
    have ih := find_live name rs
    cases hl : r.live with
    | none =>
      have hn : ¬ r.Is name = true := by simp [DirEntry.is_iff, hl]
      rw [List.find?_cons_of_neg hn, filterMap_cons_none hl]
      exact ih
    | some x =>
      rw [filterMap_cons_some hl]
      by_cases hx : x.name = name
      · have hp : r.Is name = true := DirEntry.is_iff.mpr ⟨x, hl, hx⟩
        rw [List.find?_cons_of_pos hp, List.find?_cons_of_pos (by simpa using hx), Option.map_some,
          DirEntry.entry_of_live hl]
      · have hn : ¬ r.Is name = true := by simp [DirEntry.is_iff, hl, hx]
        rw [List.find?_cons_of_neg hn, List.find?_cons_of_neg (by simpa using hx)]
        exact ih

theorem addRec_live {new : DirEntry} {x : Entry} (hx : new.live = some x) :
    ∀ {rs rs' : List DirEntry}, addRec new rs = some rs' →
      ∃ l₁ l₂, rs.filterMap DirEntry.live = l₁ ++ l₂ ∧
        rs'.filterMap DirEntry.live = l₁ ++ x :: l₂
  | [], rs', h => by cases h
  | r :: rs, rs', h => by
    have hnew : ∀ len, { new with recLen := len }.live = some x := fun _ => hx
    unfold addRec at h
    split_ifs at h with h1 h2
    · obtain rfl := Option.some.inj h
      have hr : r.live = none := if_pos h1.1
      exact ⟨[], rs.filterMap DirEntry.live, by rw [filterMap_cons_none hr]; rfl,
        by rw [filterMap_cons_some (hnew _)]; rfl⟩
    · obtain rfl := Option.some.inj h
      refine ⟨[r].filterMap DirEntry.live, rs.filterMap DirEntry.live, ?_, ?_⟩
      · rw [← filterMap_append]; rfl
      · rw [← filterMap_cons_some (hnew (r.recLen - r.actual)), ← filterMap_append]
        rfl
    · obtain ⟨rs₁, hrs₁, rfl⟩ := Option.map_eq_some_iff.mp h
      obtain ⟨l₁, l₂, h1, h2⟩ := addRec_live hx hrs₁
      refine ⟨[r].filterMap DirEntry.live ++ l₁, l₂, ?_, ?_⟩
      · rw [append_assoc, ← h1, ← filterMap_append]; rfl
      · rw [append_assoc, ← h2, ← filterMap_append]; rfl

section Remove

variable {name : Name}

theorem live_cons (p : DirEntry) (rs : List DirEntry) :
    (p :: rs).filterMap DirEntry.live = p.live.toList ++ rs.filterMap DirEntry.live := by
  cases hl : p.live with
  | none => rw [filterMap_cons_none hl]; rfl
  | some x => rw [filterMap_cons_some hl]; rfl

theorem live_ne {p : DirEntry} (h : p.Is name = false) : ∀ x ∈ p.live.toList, x.name ≠ name := by
  intro x hx hn
  rw [DirEntry.is_iff.mpr ⟨x, Option.mem_toList.mp hx, hn⟩] at h
  cases h

theorem eraseP_live_cons {r : DirEntry} (h : r.Is name = true) (l : List Entry) :
    (r.live.toList ++ l).eraseP (·.name = name) = l := by
  obtain ⟨x, hx, hn⟩ := DirEntry.is_iff.mp h
  rw [hx, Option.toList_some, singleton_append, eraseP_cons_of_pos (by simpa using hn)]

theorem removeRec_live (name : Name) : ∀ (rs : List DirEntry) (prev : Option DirEntry),
    (∀ p ∈ prev, p.Is name = false) →
    (removeRec name prev rs = none →
      ∀ x ∈ (prev.toList ++ rs).filterMap DirEntry.live, x.name ≠ name) ∧
    ∀ rs', removeRec name prev rs = some rs' →
      (∃ x ∈ (prev.toList ++ rs).filterMap DirEntry.live, x.name = name) ∧
        rs'.filterMap DirEntry.live =
          ((prev.toList ++ rs).filterMap DirEntry.live).eraseP (·.name = name)
  | [], prev, hp => by
    refine ⟨fun _ x hx => ?_, nofun⟩
    obtain ⟨r, hr, hl⟩ := mem_filterMap.mp hx
    rw [append_nil] at hr
    exact live_ne (hp r (Option.mem_toList.mp hr)) x (Option.mem_toList.mpr hl)
  | r :: rs, prev, hp => by
    -- the entry of the record before the list stays
    have hpre : ∀ l : List Entry, (prev.toList.filterMap DirEntry.live ++ l).eraseP (·.name = name) =
        prev.toList.filterMap DirEntry.live ++ l.eraseP (·.name = name) := fun l =>
      eraseP_append_right l fun x hx => by
        obtain ⟨p, hpm, hl⟩ := mem_filterMap.mp hx
        simpa using live_ne (hp p (Option.mem_toList.mp hpm)) x (Option.mem_toList.mpr hl)
    rw [filterMap_append]
    unfold removeRec
    cases hr : r.Is name with
    | true =>
      rw [if_pos rfl]
      obtain ⟨x, hx, hn⟩ := DirEntry.is_iff.mp hr
      have hmem : ∃ x ∈ prev.toList.filterMap DirEntry.live ++
          (r.live.toList ++ rs.filterMap DirEntry.live), x.name = name :=
        ⟨x, mem_append_right _ (mem_append_left _ (by simpa using hx)), hn⟩
      rw [hpre, live_cons r, eraseP_live_cons hr]
      cases prev with
      | none =>
        refine ⟨nofun, fun rs' h => ⟨hmem, ?_⟩⟩
        obtain rfl := Option.some.inj h
        rw [live_cons]
        rfl
      | some p =>
        refine ⟨nofun, fun rs' h => ⟨hmem, ?_⟩⟩
        obtain rfl := Option.some.inj h
        rw [live_cons, Option.toList_some, live_cons p, filterMap_nil, append_nil]
        rfl
    | false =>
      rw [if_neg Bool.false_ne_true]
      obtain ⟨ih0, ih1⟩ := removeRec_live name rs (some r) (by simpa using hr)
      refine ⟨fun h x hx => ?_, fun rs' h => ?_⟩
      · rcases mem_append.mp hx with hx | hx
        · obtain ⟨p, hpm, hl⟩ := mem_filterMap.mp hx
          exact live_ne (hp p (Option.mem_toList.mp hpm)) x (Option.mem_toList.mpr hl)
        · exact ih0 (Option.map_eq_none_iff.mp h) x hx
      · obtain ⟨rs₁, hrs₁, rfl⟩ := Option.map_eq_some_iff.mp h
        obtain ⟨⟨x, hx, hn⟩, he⟩ := ih1 rs₁ hrs₁
        refine ⟨⟨x, mem_append_right _ hx, hn⟩, ?_⟩
        rw [filterMap_append, he, hpre]
        rfl

end Remove

/-! ## The loops over a tiled block -/

namespace Tiled

variable {bs : ℕ} {buf : Bytes} {name : Name}

theorem find (h : Tiled bs buf) (name : Name) :
    ((findInBlock buf bs name bs 0).map (dirEntryAt buf)).map DirEntry.entry =
      (blockEntries bs buf).find? (·.name = name) := by
  obtain ⟨rs, h⟩ := h
  rw [h.find h.length_le_stop, h.entries, find_live]

theorem add (h : Tiled bs buf) {ino type : ℕ} (h0 : ino ≠ 0) (hi : ino < 2 ^ 32)
    (ht : type < 256) (hn : name.length < 256) {buf' : Bytes}
    (ha : addInBlock buf bs name ino type bs 0 = some buf') :
    Tiled bs buf' ∧ ∃ l₁ l₂, blockEntries bs buf = l₁ ++ l₂ ∧
      blockEntries bs buf' = l₁ ++ ⟨name, ino, type⟩ :: l₂ := by
  obtain ⟨rs, h⟩ := h
  let new : DirEntry := ⟨ino, 0, type, name⟩
  have hlive : new.live = some ⟨name, ino, type⟩ := if_neg h0
  have hadd := h.add (show new.inode < 2 ^ 32 from hi) ht hn h.length_le_stop
  cases hr : addRec new rs with
  | none =>
    rw [hr] at hadd
    cases (show addInBlock buf bs name ino type bs 0 = none from hadd).symm.trans ha
  | some rs' =>
    rw [hr] at hadd
    obtain ⟨buf₁, hb, h', -⟩ := hadd
    obtain rfl : buf₁ = buf' := Option.some.inj (hb.symm.trans ha)
    refine ⟨⟨rs', h'⟩, ?_⟩
    rw [h.entries, h'.entries]
    exact addRec_live hlive hr

theorem remove (h : Tiled bs buf) (hs : bs < 65536) :
    (removeInBlock buf bs name bs none 0 = none → ∀ x ∈ blockEntries bs buf, x.name ≠ name) ∧
    ∀ buf', removeInBlock buf bs name bs none 0 = some buf' → Tiled bs buf' ∧
      (∃ x ∈ blockEntries bs buf, x.name = name) ∧
      blockEntries bs buf' = (blockEntries bs buf).eraseP (·.name = name) := by
  obtain ⟨rs, h⟩ := h
  have hrem := Records.remove name hs none h rfl h.length_le_stop
  have hlive := removeRec_live name rs none (by simp)
  rw [h.entries]
  cases hr : removeRec name none rs with
  | none =>
    rw [hr] at hrem
    exact ⟨fun _ => hlive.1 hr, fun buf' h' => nomatch hrem.symm.trans h'⟩
  | some rs' =>
    rw [hr] at hrem
    obtain ⟨buf₁, hb, h', -⟩ := hrem
    refine ⟨fun hn => (nomatch hb.symm.trans hn), fun buf' hb' => ?_⟩
    obtain rfl : buf₁ = buf' := Option.some.inj (hb.symm.trans hb')
    rw [h'.entries]
    exact ⟨⟨rs', h'⟩, hlive.2 rs' hr⟩

end Tiled

/-! ## New blocks -/

theorem Records.fresh {bs ino type : ℕ} {name : Name} (hd : 4 ∣ bs) (hs : bs < 65536)
    (hle : ext2DirRecLen name.length ≤ bs) (hi : ino < 2 ^ 32) (ht : type < 256)
    (hn : name.length < 256) :
    Records (freshDirBlock bs name ino type) 0 [⟨ino, bs, type, name⟩] bs := by
  refine ⟨?_, ⟨hd, hle⟩, Nat.zero_add _⟩
  unfold freshDirBlock
  rw [dirEntryAt_putEntry hi ht hn]
  congr 1
  exact get16_put16_of_lt _ _ hs

end DvivonOS
