import DvivonOS.Ext2.Records
import DvivonOS.Ext2.Delete
import DvivonOS.Ext2.File

/-!
# Directories as lists of entries

The entries of a directory are the live entries of its blocks, one block after the other
(`dirEntries`). On this list `ext2_find_dir_entry` is `List.find?`, `ext2_remove_dir_entry` is
`List.eraseP`, and `ext2_add_dir_entry` inserts one entry somewhere, or appends it in a new block.

1. A change of one block changes one segment of the list (`dirEntries_update`).
2. The blocks before the one that `scan` finds hold no entry with the name.
3. A new block is appended, unless the size of the directory wraps around (`dirEntries_grow`).
-/

namespace DvivonOS

open Function List

/-! ## Lists of segments -/

section Segments

variable {α : Type} {n l : ℕ} {E : ℕ → List α}

theorem flatMap_range_split (h : l < n) :
    (List.range n).flatMap E = (List.range l).flatMap E ++
      (E l ++ (List.range (n - l - 1)).flatMap fun i => E (l + 1 + i)) := by
  obtain ⟨k, rfl⟩ : ∃ k, n = l + (1 + k) := ⟨n - l - 1, by omega⟩
  rw [show l + (1 + k) - l - 1 = k by omega, range_add, range_add, flatMap_append,
    map_append, flatMap_append, flatMap_map, map_map, flatMap_map]
  simp [Nat.add_assoc]

theorem flatMap_range_congr {E' : ℕ → List α} (h : ∀ i < n, E' i = E i) :
    (List.range n).flatMap E' = (List.range n).flatMap E :=
  flatMap_congr fun i hi => h i (mem_range.mp hi)

end Segments

/-! ## The entries of a directory -/

variable {G : Geo} {F F' : ℕ → Option Bytes} {size l : ℕ} {name : Name}

def dirEntries (G : Geo) (F : ℕ → Option Bytes) (size : ℕ) : List Entry :=
  (List.range (dirBlocks size G.bs)).flatMap fun l => (F l).elim [] (blockEntries G.bs)

/-- Every block of the directory is tiled by records. -/
def DirTiled (G : Geo) (F : ℕ → Option Bytes) (size : ℕ) : Prop :=
  ∀ l < dirBlocks size G.bs, ∀ buf, F l = some buf → Tiled G.bs buf

theorem dirEntries_congr (h : ∀ i < dirBlocks size G.bs, F' i = F i) :
    dirEntries G F' size = dirEntries G F size :=
  flatMap_range_congr fun i hi => by rw [h i hi]

theorem DirTiled.congr (ht : DirTiled G F size) (h : ∀ i < dirBlocks size G.bs, F' i = F i) :
    DirTiled G F' size := fun i hi buf hb => ht i hi buf (by rw [← h i hi]; exact hb)

theorem dirEntries_update (hl : l < dirBlocks size G.bs) {old : Bytes} (ho : F l = some old) :
    ∃ pre post, dirEntries G F size = pre ++ (blockEntries G.bs old ++ post) ∧
      pre = (List.range l).flatMap (fun l => (F l).elim [] (blockEntries G.bs)) ∧
      ∀ F' buf, (∀ i < dirBlocks size G.bs, F' i = update F l (some buf) i) →
        dirEntries G F' size = pre ++ (blockEntries G.bs buf ++ post) := by
  refine ⟨_, (List.range (dirBlocks size G.bs - l - 1)).flatMap fun i =>
    (F (l + 1 + i)).elim [] (blockEntries G.bs), ?_, rfl, fun F' buf h => ?_⟩
  · unfold dirEntries
    rw [flatMap_range_split hl, ho]
    rfl
  · unfold dirEntries
    rw [flatMap_range_split hl, h l hl, update_self]
    congr 1
    · exact flatMap_range_congr fun i hi => by
        rw [h i (by omega), update_of_ne (by omega)]
    · congr 1
      exact flatMap_range_congr fun i hi => by
        rw [h _ (by omega), update_of_ne (by omega)]

theorem DirTiled.updated (ht : DirTiled G F size) {buf : Bytes} (hb : Tiled G.bs buf)
    (h : ∀ i < dirBlocks size G.bs, F' i = update F l (some buf) i) :
    DirTiled G F' size := by
  intro i hi buf' hb'
  rw [h i hi] at hb'
  by_cases hil : i = l
  · rw [hil, update_self] at hb'
    exact Option.some.inj hb' ▸ hb
  · rw [update_of_ne hil] at hb'
    exact ht i hi buf' hb'

/-! ## Finding, adding and removing -/

theorem Geo.Wf.bs_lt (wf : G.Wf) : G.bs < 65536 := by rcases wf.size with h | h | h <;> omega

theorem Geo.Wf.four_dvd (wf : G.Wf) : 4 ∣ G.bs := by rcases wf.size with h | h | h <;> omega

theorem name_ne_of_blocks {m : ℕ}
    (h : ∀ i < m, ∀ buf, F i = some buf → ∀ x ∈ blockEntries G.bs buf, x.name ≠ name) :
    ∀ x ∈ (List.range m).flatMap (fun l => (F l).elim [] (blockEntries G.bs)), x.name ≠ name := by
  intro x hx
  obtain ⟨i, hi, hx⟩ := mem_flatMap.mp hx
  cases hF : F i with
  | none => rw [hF] at hx; cases hx
  | some buf =>
    rw [hF] at hx
    exact h i (mem_range.mp hi) buf hF x hx

namespace DirTiled

variable (ht : DirTiled G F size)

include ht

/-- **`ext2_find_dir_entry`** finds the first entry with the name. -/
theorem findEntry : (findEntry G F size name).map DirEntry.entry =
    (dirEntries G F size).find? (·.name = name) := by
  have hno : ∀ i < dirBlocks size G.bs, (F i).bind (fun buf =>
      (findInBlock buf G.bs name G.bs 0).map (dirEntryAt buf)) = none →
      ∀ buf, F i = some buf → ∀ x ∈ blockEntries G.bs buf, x.name ≠ name := by
    intro i hi hnone buf hF x hx hn
    rw [hF, Option.bind_some] at hnone
    have := (ht i hi buf hF).find name
    rw [hnone, Option.map_none, eq_comm, List.find?_eq_none] at this
    exact this x hx (by simpa using hn)
  unfold DvivonOS.findEntry
  cases hs : scan F (fun buf => (findInBlock buf G.bs name G.bs 0).map (dirEntryAt buf))
    (dirBlocks size G.bs) 0 with
  | none =>
    rw [Option.map_none, Option.map_none, eq_comm, List.find?_eq_none]
    intro x hx
    have := name_ne_of_blocks (fun i hi => hno i hi ((scan_none _ _).mp hs i (Nat.zero_le _)
      (by omega))) x hx
    simpa using this
  | some p =>
    obtain ⟨l, de⟩ := p
    obtain ⟨-, hl, ⟨buf, hF, hde⟩, hbefore⟩ := scan_some _ _ hs
    rw [Nat.zero_add] at hl
    obtain ⟨pre, post, he, rfl, -⟩ := dirEntries_update hl hF
    have hpre := name_ne_of_blocks fun i hi => hno i (by omega) (hbefore i (Nat.zero_le _) hi)
    have hfind := (ht l hl buf hF).find name
    rw [hde, Option.map_some] at hfind
    rw [he, List.find?_append, List.find?_append, ← hfind, List.find?_eq_none.mpr]
    · rfl
    · intro x hx
      simpa using hpre x hx

/-- **`ext2_add_dir_entry`**, with room in a block, inserts the entry. -/
theorem addEntry {ino type : ℕ} (h0 : ino ≠ 0) (hi : ino < 2 ^ 32)
    (hty : type < 256) (hn : name.length < 256) {buf : Bytes}
    (h : addEntry G F size name ino type = some (l, buf)) :
    l < dirBlocks size G.bs ∧ F l ≠ none ∧ ∃ l₁ l₂, dirEntries G F size = l₁ ++ l₂ ∧
      ∀ F', (∀ i < dirBlocks size G.bs, F' i = update F l (some buf) i) →
        DirTiled G F' size ∧ dirEntries G F' size = l₁ ++ ⟨name, ino, type⟩ :: l₂ := by
  obtain ⟨-, hl, ⟨old, hF, ha⟩, -⟩ := scan_some _ _ h
  rw [Nat.zero_add] at hl
  obtain ⟨pre, post, he, -, hupd⟩ := dirEntries_update hl hF
  obtain ⟨htb, l₁, l₂, h1, h2⟩ := (ht l hl old hF).add h0 hi hty hn ha
  refine ⟨hl, by rw [hF]; simp, pre ++ l₁, l₂ ++ post, by rw [he, h1]; simp, fun F' hF' => ?_⟩
  exact ⟨ht.updated htb hF', by rw [hupd F' buf hF', h2]; simp⟩

/-- **`ext2_remove_dir_entry`** fails if there is no entry with the name. -/
theorem removeEntry_none (wf : G.Wf) (h : removeEntry G F size name = none) :
    ∀ x ∈ dirEntries G F size, x.name ≠ name := by
  refine name_ne_of_blocks fun i hi buf hF => ?_
  have := (scan_none _ _).mp h i (Nat.zero_le _) (by omega)
  rw [hF] at this
  exact ((ht i hi buf hF).remove wf.bs_lt).1 this

/-- **`ext2_remove_dir_entry`** erases the first entry with the name. -/
theorem removeEntry (wf : G.Wf) {buf : Bytes} (h : removeEntry G F size name = some (l, buf)) :
    l < dirBlocks size G.bs ∧ F l ≠ none ∧ (∃ x ∈ dirEntries G F size, x.name = name) ∧
      ∀ F', (∀ i < dirBlocks size G.bs, F' i = update F l (some buf) i) →
        DirTiled G F' size ∧
          dirEntries G F' size = (dirEntries G F size).eraseP (·.name = name) := by
  obtain ⟨-, hl, ⟨old, hF, hr⟩, hbefore⟩ := scan_some _ _ h
  rw [Nat.zero_add] at hl
  obtain ⟨pre, post, he, rfl, hupd⟩ := dirEntries_update hl hF
  have hbefore : ∀ i < l, ∀ buf', F i = some buf' →
      ∀ x ∈ blockEntries G.bs buf', x.name ≠ name := by
    intro i hi buf' hF'
    have := hbefore i (Nat.zero_le _) hi
    rw [hF'] at this
    exact ((ht i (by omega) buf' hF').remove wf.bs_lt).1 this
  have hpre := name_ne_of_blocks hbefore
  obtain ⟨htb, ⟨x, hx, hxn⟩, hb⟩ := ((ht l hl old hF).remove wf.bs_lt).2 buf hr
  refine ⟨hl, by rw [hF]; simp, ⟨x, ?_, hxn⟩, fun F' hF' => ⟨ht.updated htb hF', ?_⟩⟩
  · rw [he]
    exact mem_append_right _ (mem_append_left _ hx)
  · rw [hupd F' buf hF', he, hb, eraseP_append_right _ (by simpa using hpre),
      eraseP_append_left (by simpa using hxn) _ hx]

end DirTiled

/-! ## A new block -/

theorem dirBlocks_of_dvd {bs : ℕ} (hb : 0 < bs) (hd : bs ∣ size) (hs : size < 2 ^ 32)
    (h32 : bs ∣ 2 ^ 32) : dirBlocks size bs = size / bs := by
  obtain ⟨k, rfl⟩ := hd
  obtain ⟨m, hm⟩ := h32
  have hk : k < m := lt_of_mul_lt_mul_left (hm ▸ hs) (Nat.zero_le _)
  have hle : bs * k + bs ≤ 2 ^ 32 := by
    rw [hm, ← Nat.mul_succ]
    exact Nat.mul_le_mul_left _ hk
  unfold dirBlocks add32
  rw [Nat.mod_eq_of_lt (by omega), Nat.mul_div_cancel_left _ hb, Nat.mul_add_div hb,
    Nat.div_eq_of_lt (by omega), Nat.add_zero]

theorem Geo.Wf.dvd_pow (wf : G.Wf) : G.bs ∣ 2 ^ 32 := by
  rcases wf.size with h | h | h <;> rw [h] <;> norm_num

theorem Geo.Wf.dirBlocks_eq (wf : G.Wf) (hd : G.bs ∣ size) (hs : size < 2 ^ 32) :
    dirBlocks size G.bs = size / G.bs := dirBlocks_of_dvd wf.bs_pos hd hs wf.dvd_pow

theorem Geo.Wf.dirBlocks_lt (wf : G.Wf) (size : ℕ) : dirBlocks size G.bs < G.lblocks :=
  wf.pos_div_lt (Nat.mod_lt _ (by norm_num))

/-- The size of a directory after one more block: it grows, or wraps around to zero. -/
theorem Geo.Wf.grow_size (wf : G.Wf) (hd : G.bs ∣ size) (hs : size < 2 ^ 32) :
    G.bs ∣ add32 size G.bs ∧ add32 size G.bs < 2 ^ 32 ∧
      (size + G.bs < 2 ^ 32 → add32 size G.bs = size + G.bs) ∧
      (¬ size + G.bs < 2 ^ 32 → add32 size G.bs = 0) := by
  have h32 := wf.dvd_pow
  have hle : size + G.bs ≤ 2 ^ 32 := by
    obtain ⟨k, rfl⟩ := hd
    obtain ⟨m, hm⟩ := h32
    rw [hm, ← Nat.mul_succ]
    exact Nat.mul_le_mul_left _ (lt_of_mul_lt_mul_left (hm ▸ hs) (Nat.zero_le _))
  unfold add32
  refine ⟨?_, Nat.mod_lt _ (by norm_num), fun h => Nat.mod_eq_of_lt h, fun h => ?_⟩
  · exact (Nat.dvd_mod_iff h32).mpr (dvd_add hd dvd_rfl)
  · rw [show size + G.bs = 2 ^ 32 by omega, Nat.mod_self]

theorem dirEntries_zero (wf : G.Wf) (F : ℕ → Option Bytes) : dirEntries G F 0 = [] := by
  unfold dirEntries
  rw [wf.dirBlocks_eq (dvd_zero _) (by norm_num), Nat.zero_div]
  rfl

theorem DirTiled.zero (wf : G.Wf) (F : ℕ → Option Bytes) : DirTiled G F 0 := by
  intro l hl
  rw [wf.dirBlocks_eq (dvd_zero _) (by norm_num), Nat.zero_div] at hl
  omega

theorem dirEntries_grow (wf : G.Wf) (hd : G.bs ∣ size) (hs : size + G.bs < 2 ^ 32) {buf : Bytes}
    (h : ∀ i < G.lblocks, F' i = update F (dirBlocks size G.bs) (some buf) i) :
    dirEntries G F' (size + G.bs) = dirEntries G F size ++ blockEntries G.bs buf := by
  have hn := wf.dirBlocks_lt size
  have hsucc : dirBlocks (size + G.bs) G.bs = dirBlocks size G.bs + 1 := by
    rw [wf.dirBlocks_eq (dvd_add hd dvd_rfl) hs, wf.dirBlocks_eq hd (by omega),
      Nat.add_div_right _ wf.bs_pos]
  unfold dirEntries
  rw [hsucc, range_succ, flatMap_append]
  congr 1
  · exact flatMap_range_congr fun i hi => by
      rw [h i (by omega), update_of_ne (by omega)]
  · rw [flatMap_singleton, h _ hn, update_self]
    rfl

theorem DirTiled.grow (wf : G.Wf) (hd : G.bs ∣ size) (hs : size + G.bs < 2 ^ 32)
    (ht : DirTiled G F size) {buf : Bytes} (hb : Tiled G.bs buf)
    (h : ∀ i < G.lblocks, F' i = update F (dirBlocks size G.bs) (some buf) i) :
    DirTiled G F' (size + G.bs) := by
  have hn := wf.dirBlocks_lt size
  have hsucc : dirBlocks (size + G.bs) G.bs = dirBlocks size G.bs + 1 := by
    rw [wf.dirBlocks_eq (dvd_add hd dvd_rfl) hs, wf.dirBlocks_eq hd (by omega),
      Nat.add_div_right _ wf.bs_pos]
  intro i hi buf' hF
  rw [hsucc] at hi
  rw [h i (by omega)] at hF
  by_cases hin : i = dirBlocks size G.bs
  · rw [hin, update_self] at hF
    exact Option.some.inj hF ▸ hb
  · rw [update_of_ne hin] at hF
    exact ht i (by omega) buf' hF

theorem Geo.Wf.fresh (wf : G.Wf) {ino type : ℕ} (hi : ino < 2 ^ 32) (ht : type < 256)
    (hn : name.length < 256) :
    Records (freshDirBlock G.bs name ino type) 0 [⟨ino, G.bs, type, name⟩] G.bs := by
  refine Records.fresh wf.four_dvd wf.bs_lt ?_ hi ht hn
  rw [ext2DirRecLen_eq (by omega)]
  rcases wf.size with h | h | h <;> omega

theorem Geo.Wf.newDir (wf : G.Wf) {n p : ℕ} (hn : n < 2 ^ 32) (hp : p < 2 ^ 32) :
    Records (newDirBlock G.bs n p) 0
      [⟨n, 12, ext2FtDir, dotName⟩, ⟨p, G.bs - 12, ext2FtDir, dotdotName⟩] G.bs := by
  have h1 : dotName.length = 1 := rfl
  have h2 : dotdotName.length = 2 := rfl
  have hbs : 1024 ≤ G.bs := by rcases wf.size with h | h | h <;> omega
  have h4 := wf.four_dvd
  have hlt := wf.bs_lt
  refine ⟨?_, ⟨by norm_num, show ext2DirRecLen 1 ≤ 12 by decide⟩, ?_,
    ⟨by dsimp only; omega, ?_⟩, ?_⟩
  · have h0 : dirEntryAt (putEntry (Bytes.zero.put16 4 12) 0 dotName n ext2FtDir) 0 =
        ⟨n, 12, ext2FtDir, dotName⟩ := by
      rw [dirEntryAt_putEntry hn (by decide) (by decide)]
      congr 1
    rw [← h0]
    refine dirEntryAt_congr fun i _ hi => ?_
    rw [deNameLen_of_eq h0, h1] at hi
    unfold newDirBlock
    rw [putEntry_of_not_mem (by omega), Bytes.put16_of_not_mem _ _ (by omega)]
  · show dirEntryAt (newDirBlock G.bs n p) 12 = _
    unfold newDirBlock
    rw [dirEntryAt_putEntry hp (by decide) (by decide)]
    congr 1
    exact Bytes.get16_put16_of_lt _ _ (by omega)
  · show ext2DirRecLen 2 ≤ G.bs - 12
    rw [ext2DirRecLen_eq (by norm_num)]
    omega
  · show 0 + 12 + (G.bs - 12) = G.bs
    omega

/-! ## `ext2_add_dir_entry` -/

/-- The on-disk copy holds the fields of the inode. -/
def Inode.Written (inode : Inode) : Prop := ∃ d, inode.disk = { inode with disk := d }.toDisk

/-- From `v` to `v'` the directory `dir` has got the new block `new`, and has become `dir'`, which
has been written. -/
structure Grown (G : Geo) (A : ℕ → Prop) (v : Vol) (e : ℕ → Bytes) (dir : Inode) (new : Bytes)
    (dir' : Inode) (v' : Vol) : Prop where
  own : Own G v'.core A (update e dir.ino dir'.disk)
  iused : v'.core.iused = v.core.iused
  ino : v'.core.ino = update v.core.ino dir.ino (onDisk dir'.disk)
  self : ∀ l < G.lblocks, v'.core.file dir'.disk G l =
    update (v.core.file dir.disk G) (dirBlocks dir.size G.bs) (some new) l
  other : ∀ m, A m → m ≠ dir.ino → ∀ l < G.lblocks,
    v'.core.file (e m) G l = v.core.file (e m) G l
  size : dir'.size = add32 dir.size G.bs
  same : dir' = { dir with size := dir'.size, blocks := dir'.blocks, disk := dir'.disk }
  written : dir'.Written

theorem iBlock_growDir (dir : Inode) (bs k : ℕ) :
    iBlock (dir.growDir bs).toDisk k = iBlock dir.disk k := by
  rw [Inode.iBlock_toDisk]
  unfold Inode.growDir
  dsimp only
  rw [iBlock_put32_of_lt _ (by norm_num), iBlock_put32_of_lt _ (by norm_num)]

namespace Ready

variable {v : Vol} {r : Inode} (rd : Ready v G r) {A : ℕ → Prop} {e : ℕ → Bytes} {dir : Inode}
  {ino type : ℕ}

include rd

theorem storeBlock (ow : Own G v.core A e) (hn : A dir.ino) (he : e dir.ino = dir.disk)
    (hl : l < G.lblocks) (hF : v.core.file dir.disk G l ≠ none) (buf : Bytes) :
    Ready (v.write (v.core.fileBlock dir.disk G l) buf) G r ∧
      Upd G A dir.ino v.core e (v.write (v.core.fileBlock dir.disk G l) buf).core dir.disk
        (update (v.core.file dir.disk G) l (some buf)) := by
  have h0 : v.core.fileBlock (e dir.ino) G l ≠ 0 := by
    rw [he]
    exact fun h0 => hF (file_eq_none h0)
  have hd : ¬ G.Meta (v.core.fileBlock (e dir.ino) G l) :=
    (ow.good _ _ _ hn (rd.wf.place_isPlace hl) h0).data
  have hst := ow.store_upd rd.wf hn hl h0 buf
  rw [he] at hd hst
  refine ⟨rd.writeAt _ _, ?_⟩
  rw [rd.core_write hd buf]
  exact hst

/-- `ext2_add_dir_entry` stores the entry in the block with room, or makes a new block. -/
theorem addDirEntry_iff (hx : MapOk G v.core dir.disk) (h0 : ino ≠ 0) (hlen : name.length ≤ 255)
    {Q : ℤ × Inode → Vol → Prop} :
    After (ext2AddDirEntry dir name ino type) v Q ↔
      (addEntry G (v.core.file dir.disk G) dir.size name ino type).elim
        (After (addFreshBlock dir name ino type G.bs (dirBlocks dir.size G.bs)) v Q)
        fun p => Q (0, dir) (v.write (v.core.fileBlock dir.disk G p.1) p.2) := by
  unfold ext2AddDirEntry
  rw [if_neg h0, if_neg (by omega), after_bind, after_get]
  dsimp only
  rw [after_kmalloc rd.env, after_bind, rd.bs_eq]
  refine (rd.dirLoop hx _ _ (by rw [Nat.zero_add]; exact rd.wf.dirBlocks_le _)).trans ?_
  unfold addEntry
  cases scan _ _ _ _ <;> exact Iff.rfl

/-- **`ext2_add_dir_entry`**: room is found, or there is none and the directory gets a new block,
or no new block can be had. -/
theorem addDirEntry (ow : Own G v.core A e) (hn : A dir.ino) (hi : G.IsInode dir.ino)
    (he : e dir.ino = dir.disk) (h0 : ino ≠ 0) (hlen : name.length ≤ 255)
    {Q : ℤ × Inode → Vol → Prop}
    (hroom : ∀ l buf, addEntry G (v.core.file dir.disk G) dir.size name ino type = some (l, buf) →
      Q (0, dir) (v.write (v.core.fileBlock dir.disk G l) buf))
    (hfail : addEntry G (v.core.file dir.disk G) dir.size name ino type = none →
      ∀ x v', Ready v' G r → Idle G A dir.ino v.core e v'.core x → Q (-1, { dir with disk := x }) v')
    (hgrow : addEntry G (v.core.file dir.disk G) dir.size name ino type = none →
      ∀ dir' v', Ready v' G r →
        Grown G A v e dir (freshDirBlock G.bs name ino type) dir' v' → Q (0, dir') v') :
    After (ext2AddDirEntry dir name ino type) v Q := by
  have hx : MapOk G v.core dir.disk := he ▸ ow.mapOk hn
  have hl := rd.wf.dirBlocks_lt dir.size
  rw [rd.addDirEntry_iff hx h0 hlen]
  cases hroom' : addEntry G (v.core.file dir.disk G) dir.size name ino type with
  | some lb => exact hroom lb.1 lb.2 hroom'
  | none =>
    have hfail := hfail hroom'
    have hgrow := hgrow hroom'
    rw [Option.elim_none]
    unfold addFreshBlock
    rw [after_bind]
    refine rd.allocBlock ow.metaUsed ?_ fun phys v1 hv rd1 hc1 => ?_
    · rw [if_pos rfl, after_pure]
      have := hfail _ v rd (Quiet.refl ow).toIdle
      rw [he] at this
      exact this
    obtain ⟨ow1, fr1⟩ := ow.alloc hv
    have hid1 := Idle.of_upd (ow.alloc_upd (n := dir.ino) hv) fun _ _ => rfl
    rw [← hc1] at ow1 fr1 hid1
    have htrans : ∀ {x c'}, Idle G A dir.ino v1.core e c' x → Idle G A dir.ino v.core e c' x := by
      intro x c' h
      refine hid1.trans ?_
      rw [update_eq_self]
      exact h
    rw [if_neg hv.ne_zero, after_bind, ← he]
    refine rd1.assign ow1 hn hl fr1 (fun x v2 rd2 hq => ?_) fun x v2 rd2 ha => ?_
    · dsimp only
      rw [if_pos (by simp), after_bind]
      refine rd2.freeBlock hv.range fun v3 rd3 hc3 => ?_
      rw [after_pure]
      have hid3 := Idle.of_upd (hq.upd.own.free_upd (n := dir.ino) (hq.fresh _ fr1)) fun _ _ => rfl
      rw [update_self, ← hc3] at hid3
      exact hfail x v3 rd3 ((htrans hq.toIdle).trans hid3)
    · dsimp only
      rw [if_neg (by simp), after_bind]
      refine rd2.writeData hv.data fun v3 rd3 hc3 => ?_
      have hst := ha.upd.own.store_upd rd.wf hn hl (by rw [update_self, ha.block]; exact hv.ne_zero)
        (freshDirBlock G.bs name ino type)
      rw [update_self, ha.block, ← hc3] at hst
      have h1 : Upd G A dir.ino v.core e v2.core x (update (v1.core.file (e dir.ino) G)
          (dirBlocks dir.size G.bs) (some (v2.core.data phys))) := by
        refine hid1.upd.trans ?_
        rw [update_eq_self]
        exact ha.upd
      have h3 := h1.trans hst
      set dir₁ : Inode := { dir with disk := x } with hdir₁
      have hslot : ∀ k, iBlock (dir₁.growDir G.bs).toDisk k = iBlock x k :=
        fun k => iBlock_growDir dir₁ G.bs k
      unfold ext2WriteInode
      rw [after_bind, after_bind]
      refine rd3.writeInodeRaw hi fun v4 rd4 hc4 => ?_
      rw [after_pure, after_pure]
      refine hgrow _ v4 rd4 ⟨?_, ?_, ?_, fun l hl' => ?_, fun m hm hne l hl' => ?_, rfl, rfl,
        ⟨_, rfl⟩⟩
      · rw [hc4]
        refine (h3.own.congr_slots (f := update e dir.ino (dir₁.growDir G.bs).toDisk)
          fun m hm k hk => ?_).of_eq rfl rfl
        by_cases hmn : m = dir.ino
        · rw [hmn, update_self, update_self]
          exact hslot k
        · rw [update_of_ne hmn, update_of_ne hmn]
      · rw [hc4]
        exact h3.iused
      · rw [hc4, Core.setIno_ino, h3.ino]
        rfl
      · rw [hc4, ← he]
        refine Eq.trans (file_congr_slots fun k _ => hslot k) ((h3.self l hl').trans ?_)
        by_cases hll : l = dirBlocks dir.size G.bs
        · rw [hll, update_self, update_self]
        · rw [update_of_ne hll, update_of_ne hll, h1.self l hl',
            update_of_ne hll, hid1.upd.self l hl']
      · rw [hc4]
        exact h3.other m hm hne l hl'

end Ready

end DvivonOS
