import DvivonOS.Ext2.BlockMap
import DvivonOS.Ext2.Directory

/-!
# The loops over the blocks of a directory

The four loops of `directory.c` over the blocks of a directory do one thing: look for the first
block on which a function of the block answers (`scan`), or add up a number over the blocks. On
the abstract volume they are functions of the file of the directory.
-/

namespace DvivonOS

variable {α : Type}

/-- The first block of the `n` blocks from `b` on for which `f` answers, and the answer. -/
def scan (F : ℕ → Option Bytes) (f : Bytes → Option α) : ℕ → ℕ → Option (ℕ × α)
  | 0, _ => none
  | n + 1, b =>
    match (F b).bind f with
    | none => scan F f n (b + 1)
    | some y => some (b, y)

theorem scan_some {F : ℕ → Option Bytes} {f : Bytes → Option α} {y : α} {l : ℕ} :
    ∀ n b, scan F f n b = some (l, y) →
      b ≤ l ∧ l < b + n ∧ (∃ buf, F l = some buf ∧ f buf = some y) ∧
        ∀ i, b ≤ i → i < l → (F i).bind f = none
  | 0, b, h => by cases h
  | n + 1, b, h => by
    unfold scan at h
    cases hb : (F b).bind f with
    | none =>
      rw [hb] at h
      obtain ⟨h1, h2, h3, h4⟩ := scan_some n (b + 1) h
      refine ⟨by omega, by omega, h3, fun i hi hil => ?_⟩
      rcases Nat.eq_or_lt_of_le hi with rfl | hlt
      · exact hb
      · exact h4 i hlt hil
    | some z =>
      rw [hb] at h
      obtain ⟨rfl, rfl⟩ := Prod.mk.inj (Option.some.inj h)
      exact ⟨le_rfl, by omega, Option.bind_eq_some_iff.mp hb, fun i h1 h2 => absurd h1 (by omega)⟩

theorem scan_none {F : ℕ → Option Bytes} {f : Bytes → Option α} :
    ∀ n b, scan F f n b = none ↔ ∀ i, b ≤ i → i < b + n → (F i).bind f = none
  | 0, b => by
    simp only [scan, Nat.add_zero, true_iff]
    intro i h1 h2
    omega
  | n + 1, b => by
    unfold scan
    cases hb : (F b).bind f with
    | none =>
      dsimp only
      rw [scan_none n (b + 1)]
      constructor
      · intro h i h1 h2
        rcases Nat.eq_or_lt_of_le h1 with rfl | hlt
        · exact hb
        · exact h i hlt (by omega)
      · intro h i h1 h2
        exact h i (by omega) (by omega)
    | some z =>
      refine iff_of_false (by simp) fun h => ?_
      rw [h b le_rfl (by omega)] at hb
      cases hb

def countLive (F : ℕ → Option Bytes) (bs : ℕ) : ℕ → ℕ → ℕ
  | 0, _ => 0
  | n + 1, b => (F b).elim 0 (fun buf => countInBlock buf bs bs 0) + countLive F bs n (b + 1)

section

variable {c : Core} {x : Bytes} {G : Geo} {l : ℕ}

theorem file_eq (h : c.fileBlock x G l ≠ 0) :
    c.file x G l = some (c.data (c.fileBlock x G l)) := if_neg h

theorem file_eq_none (h : c.fileBlock x G l = 0) :
    c.file x G l = none := if_pos h

theorem fileBlock_ne_zero {buf : Bytes}
    (h : c.file x G l = some buf) : c.fileBlock x G l ≠ 0 := by
  intro h0
  rw [file_eq_none h0] at h
  cases h

end

theorem Geo.Wf.dirBlocks_le {G : Geo} (wf : G.Wf) (size : ℕ) : dirBlocks size G.bs ≤ G.lblocks := by
  unfold dirBlocks add32
  exact le_of_lt (wf.pos_div_lt (Nat.mod_lt _ (by norm_num)))

namespace Ready

variable {v : Vol} {G : Geo} {r : Inode} (rd : Ready v G r) {dir : Inode} {name : Name}
  (hx : MapOk G v.core dir.disk)

include rd hx

theorem dirLoop {β : Type} {search : Bytes → Option β} {hit : ℕ → β → FsM α} {miss : FsM α}
    {Q : α → Vol → Prop} : ∀ n b, b + n ≤ G.lblocks →
    (After (DvivonOS.dirLoop dir G.bs search hit miss n b) v Q ↔
      (scan (v.core.file dir.disk G) search n b).elim (After miss v Q) fun y =>
        After (hit (v.core.fileBlock dir.disk G y.1) y.2) v Q)
  | 0, b, _ => Iff.rfl
  | n + 1, b, hb => by
    unfold DvivonOS.dirLoop scan
    rw [after_bind, rd.resolve hx (by omega)]
    split_ifs with h0
    · rw [file_eq_none h0]
      exact dirLoop n (b + 1) (by omega)
    · have hd := hx _ _ (rd.wf.place_isPlace (l := b) (by omega)) h0
      rw [after_bind, rd.read (by exact hd), file_eq h0]
      dsimp only [Core.fileBlock, Option.bind_some]
      cases search (v.core.data (v.core.block dir.disk (G.place b).1 (G.place b).2)) with
      | none => exact dirLoop n (b + 1) (by omega)
      | some y => exact Iff.rfl

theorem findLoop {Q : Option DirEntry → Vol → Prop} (n b : ℕ) (hb : b + n ≤ G.lblocks) :
    After (DvivonOS.findLoop dir name G.bs n b) v Q ↔
      Q ((scan (v.core.file dir.disk G) (fun buf =>
        (findInBlock buf G.bs name G.bs 0).map (dirEntryAt buf)) n b).map Prod.snd) v := by
  refine (rd.dirLoop hx n b hb).trans ?_
  cases scan _ _ n b with
  | none => exact Iff.rfl
  | some y => rw [Option.elim_some, after_bind, after_kmallocOk rd.env]; exact Iff.rfl

theorem countLoop {Q : ℕ → Vol → Prop} : ∀ n b, b + n ≤ G.lblocks →
    (After (DvivonOS.countLoop dir G.bs n b) v Q ↔
      Q (countLive (v.core.file dir.disk G) G.bs n b) v)
  | 0, b, _ => Iff.rfl
  | n + 1, b, hb => by
    unfold DvivonOS.countLoop countLive
    rw [after_bind, rd.resolve hx (by omega)]
    split_ifs with h0
    · rw [file_eq_none h0, Option.elim_none, Nat.zero_add]
      exact countLoop n (b + 1) (by omega)
    · have hd := hx _ _ (rd.wf.place_isPlace (l := b) (by omega)) h0
      rw [after_bind, rd.read (by exact hd), file_eq h0, Option.elim_some]
      dsimp only
      rw [after_bind, countLoop n (b + 1) (by omega), after_pure]

end Ready

/-! ## The functions -/

/-- What `ext2_find_dir_entry` finds in the file of a directory. -/
def findEntry (G : Geo) (F : ℕ → Option Bytes) (size : ℕ) (name : Name) : Option DirEntry :=
  (scan F (fun buf => (findInBlock buf G.bs name G.bs 0).map (dirEntryAt buf))
    (dirBlocks size G.bs) 0).map Prod.snd

/-- The block that `ext2_remove_dir_entry` changes, and its new contents. -/
def removeEntry (G : Geo) (F : ℕ → Option Bytes) (size : ℕ) (name : Name) : Option (ℕ × Bytes) :=
  scan F (fun buf => removeInBlock buf G.bs name G.bs none 0) (dirBlocks size G.bs) 0

/-- The block in which `ext2_add_dir_entry` finds room, and its new contents. -/
def addEntry (G : Geo) (F : ℕ → Option Bytes) (size : ℕ) (name : Name) (ino type : ℕ) :
    Option (ℕ × Bytes) :=
  scan F (fun buf => addInBlock buf G.bs name ino type G.bs 0) (dirBlocks size G.bs) 0

namespace Ready

variable {v : Vol} {G : Geo} {r : Inode} (rd : Ready v G r) {dir : Inode} {name : Name}
  (hx : MapOk G v.core dir.disk)

include rd hx

theorem findDirEntry {Q : Option DirEntry → Vol → Prop} :
    After (ext2FindDirEntry dir name) v Q ↔
      Q (if fsIsDir dir.mode then findEntry G (v.core.file dir.disk G) dir.size name else none)
        v := by
  unfold ext2FindDirEntry
  cases hdir : fsIsDir dir.mode with
  | false => exact Iff.rfl
  | true =>
    rw [Bool.not_true, if_neg Bool.false_ne_true, if_pos rfl, after_bind, after_get,
      after_kmalloc rd.env, rd.bs_eq]
    exact rd.findLoop hx _ _ (by rw [Nat.zero_add]; exact rd.wf.dirBlocks_le _)

theorem removeDirEntry {Q : ℤ → Vol → Prop} :
    After (ext2RemoveDirEntry dir name) v Q ↔
      match removeEntry G (v.core.file dir.disk G) dir.size name with
      | none => Q (-1) v
      | some (l, buf) => Q 0 (v.write (v.core.fileBlock dir.disk G l) buf) := by
  unfold ext2RemoveDirEntry
  rw [after_bind, after_get, after_kmalloc rd.env, rd.bs_eq]
  refine (rd.dirLoop hx _ _ (by rw [Nat.zero_add]; exact rd.wf.dirBlocks_le _)).trans ?_
  unfold removeEntry
  cases scan _ _ _ _ <;> exact Iff.rfl

omit hx in
theorem readInode {n : ℕ} (hn : G.IsInode n) {Q : Option Inode → Vol → Prop} :
    After (ext2ReadInode n) v Q ↔ Q (some (Inode.ofDisk n (v.core.ino n))) v := by
  have hn0 : n ≠ 0 := by have := hn.1; omega
  unfold ext2ReadInode
  rw [if_neg hn0, after_kmalloc rd.env, after_bind, rd.readInodeRaw hn]
  dsimp only
  rw [if_neg (by simp), after_kmalloc rd.env, after_pure]

end Ready

end DvivonOS
