import DvivonOS.Ext2.Delete

/-!
# A file of four GiB

A volume of 4096-byte blocks in 33 groups whose one file has no hole: with this block size the
doubly indirect range reaches past `2 ^ 32` bytes. The metadata are blocks 0 to 100, the indirect
blocks 101 to 1126, and logical block `l` is block `1127 + l`; its bytes are zero.
-/

namespace DvivonOS

namespace Full

def sb : Bytes :=
  ((((Bytes.zero.put32 0 1056).put32 4 1050739).put32 20 0).put32 32 32768).put32 40 32

def gd (g : ℕ) : Bytes := ((Bytes.zero.put32 0 (2 + g)).put32 4 (35 + g)).put32 8 (68 + g)

def slot (k : ℕ) : ℕ := if k < 12 then 1127 + k else if k < 14 then 89 + k else 0

def inode : Bytes := fun i => Bytes.ofWords (fun w => slot (w - 10)) i

def disk (b : ℕ) : Bytes :=
  if 2 ≤ b ∧ b < 35 then fun _ => 255
  else if b = 35 then Bytes.zero.setBit 10
  else if b = 68 then Bytes.zero.copy 1280 inode 128
  else if b = 101 then Bytes.ofWords fun j => 1139 + j
  else if b = 102 then Bytes.ofWords fun j => 103 + j
  else if 103 ≤ b ∧ b < 1127 then Bytes.ofWords fun j => 2163 + 1024 * (b - 103) + j
  else Bytes.zero

def vol : Vol where
  disk := disk
  sb := sb
  gd := gd
  blockSize := 4096
  groupsCount := 33
  root := Inode.ofDisk 11 inode
  env := Env.ok

/-! ## The layout -/

theorem gd_words {g : ℕ} (hg : g < 33) :
    vol.geo.bbm g = 2 + g ∧ vol.geo.ibm g = 35 + g ∧ vol.geo.itab g = 68 + g := by
  show (gd g).get32 0 = _ ∧ (gd g).get32 4 = _ ∧ (gd g).get32 8 = _
  unfold gd
  refine ⟨?_, ?_, ?_⟩ <;>
    simp (disch := omega) only [Bytes.get32_put32_of_disjoint, Bytes.get32_put32_of_lt]

theorem geo_eq : vol.geo =
    ⟨4096, 0, 1050739, 32768, 32, 33, 128, vol.geo.bbm, vol.geo.ibm, vol.geo.itab⟩ := rfl

theorem addr_eq {a : Loc} (ha : vol.geo.Valid a) :
    (a = .sb ∧ vol.geo.addr a = 0) ∨ (a = .gdt 0 ∧ vol.geo.addr a = 1) ∨
      (∃ g < 33, a = .bbm g ∧ vol.geo.addr a = 2 + g) ∨
      (∃ g < 33, a = .ibm g ∧ vol.geo.addr a = 35 + g) ∨
      ∃ g < 33, a = .itab g 0 ∧ vol.geo.addr a = 68 + g := by
  cases a with
  | sb => exact .inl ⟨rfl, rfl⟩
  | gdt k =>
    have hk : k * 128 < 33 := ha
    obtain rfl : k = 0 := by omega
    exact .inr (.inl ⟨rfl, rfl⟩)
  | bbm g =>
    have hg : g < 33 := ha
    exact .inr (.inr (.inl ⟨g, hg, rfl, (gd_words hg).1⟩))
  | ibm g =>
    have hg : g < 33 := ha
    exact .inr (.inr (.inr (.inl ⟨g, hg, rfl, (gd_words hg).2.1⟩)))
  | itab g k =>
    obtain ⟨hg, hk⟩ : g < 33 ∧ k * 32 < 32 := ha
    obtain rfl : k = 0 := by omega
    exact .inr (.inr (.inr (.inr ⟨g, hg, rfl, (gd_words hg).2.2⟩)))

theorem meta_lt {b : ℕ} (h : vol.geo.Meta b) : b < 101 := by
  obtain ⟨a, ha, rfl⟩ := h
  rcases addr_eq ha with ⟨-, h⟩ | ⟨-, h⟩ | ⟨g, hg, -, h⟩ | ⟨g, hg, -, h⟩ | ⟨g, hg, -, h⟩ <;> omega

theorem wf : vol.geo.Wf := by
  have hr : ∀ a, vol.geo.Valid a → vol.geo.InRange (vol.geo.addr a) := by
    intro a ha
    exact ⟨Nat.zero_le _, lt_trans (meta_lt ⟨a, ha, rfl⟩) (show 101 < 1050739 by norm_num)⟩
  have hinj : ∀ a b, vol.geo.Valid a → vol.geo.Valid b → vol.geo.addr a = vol.geo.addr b →
      a = b := by
    intro a b ha hb h
    rcases addr_eq ha with ⟨rfl, h1⟩ | ⟨rfl, h1⟩ | ⟨g, hg, rfl, h1⟩ | ⟨g, hg, rfl, h1⟩ |
        ⟨g, hg, rfl, h1⟩ <;>
      rcases addr_eq hb with ⟨rfl, h2⟩ | ⟨rfl, h2⟩ | ⟨g', hg', rfl, h2⟩ | ⟨g', hg', rfl, h2⟩ |
        ⟨g', hg', rfl, h2⟩ <;>
      first | rfl | (exfalso; omega) | (obtain rfl : g = g' := by omega); rfl
  refine ⟨.inr (.inr rfl), ?_, ?_, ?_, ?_, ?_, ?_, ?_, ?_, ?_, ?_, ?_, ?_, hinj, hr⟩ <;>
    rw [geo_eq] <;> decide

theorem ready : Ready vol vol.geo vol.root := ⟨rfl, wf, rfl, rfl⟩

theorem used_eq (b : ℕ) : vol.core.used b = true := by
  by_cases hb : vol.geo.InRange b
  · refine (ready.kused_eq (k := .block) hb).trans ?_
    have hg : vol.geo.kgroup .block b < 33 := wf.kgroup_lt (k := .block) hb
    show (disk (vol.geo.bbm (vol.geo.kgroup .block b))).bit _ = true
    rw [(gd_words hg).1]
    unfold disk
    rw [if_pos (by omega)]
    have h8 : ∀ j < 8, (255 : ℕ).testBit j = true := by decide
    exact h8 _ (Nat.mod_lt _ (by norm_num))
  · exact if_neg hb

theorem alloc_iff {n : ℕ} : vol.core.Alloc vol.geo n ↔ n = 11 := by
  have hi : vol.geo.IsInode 11 := by rw [geo_eq]; exact ⟨by norm_num, by decide⟩
  constructor
  · rintro ⟨hn, hu⟩
    have hu := (ready.kused_eq (k := .inode) hn).symm.trans hu
    have hg : vol.geo.kgroup .inode n < 33 := wf.kgroup_lt (k := .inode) hn
    change (disk (vol.geo.ibm (vol.geo.kgroup .inode n))).bit _ = true at hu
    rw [(gd_words hg).2.1] at hu
    by_cases h0 : vol.geo.kgroup .inode n = 0
    · rw [h0] at hu
      have h1 : (Bytes.zero.setBit 10).bit (vol.geo.kindex .inode n) = true := hu
      rw [Bytes.bit_setBit] at h1
      split_ifs at h1 with hj
      · have h2 := Geo.Wf.knum_eq (k := .inode) hn
        rw [h0, hj] at h2
        exact h2.symm
      · exact absurd h1 (by unfold Bytes.bit Bytes.zero; simp)
    · have h1 : disk (35 + vol.geo.kgroup .inode n) = Bytes.zero := by
        unfold disk
        rw [if_neg (by omega), if_neg (by omega), if_neg (by omega), if_neg (by omega),
          if_neg (by omega), if_neg (by omega)]
      rw [h1] at hu
      exact absurd hu (by unfold Bytes.bit Bytes.zero; simp)
  · rintro rfl
    refine ⟨hi, ?_⟩
    refine (ready.kused_eq (k := .inode) hi).trans ?_
    decide +kernel

/-! ## The map -/

theorem slot_onDisk {k : ℕ} (hk : k < 15) : iBlock (vol.core.ino 11) k = slot k := by
  have h : ∀ k < 15, iBlock (vol.core.ino 11) k = slot k := by decide +kernel
  exact h k hk

theorem ptr_eq {b j : ℕ} (hb : 101 ≤ b) {w : ℕ → ℕ} (hd : disk b = Bytes.ofWords w)
    (hw : w j < 2 ^ 32) : vol.core.ptr b j = w j := by
  have hm : ¬ vol.geo.Meta b := fun h => absurd (meta_lt h) (by omega)
  show ptrAt (vol.core.data b) j = w j
  rw [← ready.disk_eq hm]
  show (disk b).get32 (4 * j) = w j
  rw [hd, Bytes.get32_ofWords, Nat.mod_eq_of_lt hw]

theorem ptr_single {j : ℕ} (hj : j < 1024) : vol.core.ptr 101 j = 1139 + j :=
  ptr_eq le_rfl (w := fun j => 1139 + j) rfl (by omega)

theorem ptr_double {j : ℕ} (hj : j < 1024) : vol.core.ptr 102 j = 103 + j :=
  ptr_eq (by norm_num) (w := fun j => 103 + j) rfl (by omega)

theorem ptr_inner {i j : ℕ} (hi : i < 1024) (hj : j < 1024) :
    vol.core.ptr (103 + i) j = 2163 + 1024 * i + j := by
  have h := ptr_eq (b := 103 + i) (j := j) (by omega)
    (w := fun j => 2163 + 1024 * (103 + i - 103) + j) ?_ (by omega)
  · rw [h]; omega
  · unfold disk
    rw [if_neg (by omega), if_neg (by omega), if_neg (by omega), if_neg (by omega),
      if_neg (by omega), if_pos (by omega)]

/-- The places of the map with their blocks. -/
inductive Node : ℕ → List ℕ → ℕ → Prop
  | direct {k : ℕ} (hk : k < 12) : Node k [] (1127 + k)
  | single : Node 12 [] 101
  | singleEntry {j : ℕ} (hj : j < 1024) : Node 12 [j] (1139 + j)
  | double : Node 13 [] 102
  | doubleEntry {i : ℕ} (hi : i < 1024) : Node 13 [i] (103 + i)
  | innerEntry {i j : ℕ} (hi : i < 1024) (hj : j < 1024) : Node 13 [j, i] (2163 + 1024 * i + j)

theorem Node.bounds {k b : ℕ} {p : List ℕ} (h : Node k p b) : 101 ≤ b ∧ b < 1050739 := by
  cases h <;> omega

theorem Node.inj {k k' b : ℕ} {p p' : List ℕ} (h : Node k p b) :
    Node k' p' b → k = k' ∧ p = p' := by
  generalize hb : b = b'
  intro h'
  cases h <;> cases h' <;> simp only [List.cons.injEq, and_true, true_and, reduceCtorEq] <;> omega

theorem node_of_isPlace {k : ℕ} {p : List ℕ} (hp : vol.geo.IsPlace k p)
    (h0 : vol.core.block (vol.core.ino 11) k p ≠ 0) :
    Node k p (vol.core.block (vol.core.ino 11) k p) := by
  obtain ⟨hk, hlen, hj⟩ := hp
  have hptrs : vol.geo.ptrs = 1024 := rfl
  rw [hptrs] at hj
  have h12 : vol.core.block (vol.core.ino 11) 12 [] = 101 := slot_onDisk (by norm_num)
  have h13 : vol.core.block (vol.core.ino 11) 13 [] = 102 := slot_onDisk (by norm_num)
  obtain hk | rfl | rfl | rfl : k < 12 ∨ k = 12 ∨ k = 13 ∨ k = 14 := by omega
  · obtain rfl : p = [] := List.eq_nil_of_length_eq_zero (by unfold depth at hlen; omega)
    have h : vol.core.block (vol.core.ino 11) k [] = 1127 + k :=
      (slot_onDisk (by omega)).trans (if_pos hk)
    rw [h]
    exact .direct hk
  · rcases p with _ | ⟨j, _ | ⟨i, p⟩⟩
    · rw [h12]
      exact .single
    · have hj := hj j List.mem_cons_self
      rw [block_cons, h12, if_neg (by norm_num), ptr_single hj]
      exact .singleEntry hj
    · exact absurd hlen (by unfold depth; simp)
  · rcases p with _ | ⟨j, _ | ⟨i, _ | ⟨m, p⟩⟩⟩
    · rw [h13]
      exact .double
    · have hi := hj j List.mem_cons_self
      rw [block_cons, h13, if_neg (by norm_num), ptr_double hi]
      exact .doubleEntry hi
    · have hi := hj i (by simp)
      have hj := hj j List.mem_cons_self
      have h1 : vol.core.block (vol.core.ino 11) 13 [i] = 103 + i := by
        rw [block_cons, h13, if_neg (by norm_num), ptr_double hi]
      rw [block_cons, h1, if_neg (by omega), ptr_inner hi hj]
      exact .innerEntry hi hj
    · exact absurd hlen (by unfold depth; simp)
  · exact absurd (walk_of_root_eq_zero (slot_onDisk (by norm_num)) p) h0

theorem own : Own vol.geo vol.core (vol.core.Alloc vol.geo) vol.core.ino where
  metaUsed _ _ := used_eq _
  good n k p hn hp h0 := by
    obtain rfl := alloc_iff.mp hn
    have h := (node_of_isPlace hp h0).bounds
    exact ⟨⟨Nat.zero_le _, h.2⟩, fun hm => absurd (meta_lt hm) (by omega), used_eq _⟩
  apart := by
    rintro ⟨n, k⟩ p ⟨n', k'⟩ p' ⟨hn, hp⟩ ⟨hn', hp'⟩ h0 he
    obtain rfl := alloc_iff.mp hn
    obtain rfl := alloc_iff.mp hn'
    rw [walk_slots] at h0 he
    rw [walk_slots] at he
    have h := node_of_isPlace hp h0
    have h' := node_of_isPlace hp' (he ▸ h0)
    rw [he] at h
    obtain ⟨rfl, rfl⟩ := h.inj h'
    exact ⟨rfl, rfl⟩

noncomputable def openInode : Inode := Inode.ofDisk 11 (vol.core.ino 11)

theorem opened : Opened vol vol.geo vol.core.ino openInode :=
  ⟨ready, own, alloc_iff.mpr rfl, rfl⟩

theorem fileBlock_eq {l : ℕ} (hl : l < vol.geo.lblocks) :
    vol.core.fileBlock (vol.core.ino 11) vol.geo l = 1127 + l := by
  have hl : l < 1048576 := hl
  have h12 : vol.core.block (vol.core.ino 11) 12 [] = 101 := slot_onDisk (by norm_num)
  have h13 : vol.core.block (vol.core.ino 11) 13 [] = 102 := slot_onDisk (by norm_num)
  have hptrs : vol.geo.ptrs = 1024 := rfl
  unfold Core.fileBlock Geo.place
  rw [hptrs]
  split_ifs with h1 h2 h3
  · exact (slot_onDisk (by omega)).trans (if_pos h1)
  · rw [block_cons, h12, if_neg (by norm_num), ptr_single h2]
    omega
  · have h4 : (l - 12 - 1024) / 1024 < 1024 := by omega
    have h5 : vol.core.block (vol.core.ino 11) 13 [(l - 12 - 1024) / 1024] =
        103 + (l - 12 - 1024) / 1024 := by
      rw [block_cons, h13, if_neg (by norm_num), ptr_double h4]
    rw [block_cons, h5, if_neg (by omega), ptr_inner h4 (Nat.mod_lt _ (by norm_num))]
    omega
  · omega

theorem file_eq {l : ℕ} (hl : l < vol.geo.lblocks) :
    vol.core.file (vol.core.ino 11) vol.geo l = some Bytes.zero := by
  have hb := fileBlock_eq hl
  unfold Core.file
  rw [hb, if_neg (by omega)]
  have hm : ¬ vol.geo.Meta (1127 + l) := fun h => absurd (meta_lt h) (by omega)
  rw [← ready.disk_eq hm]
  show some (disk (1127 + l)) = _
  unfold disk
  rw [if_neg (by omega), if_neg (by omega), if_neg (by omega), if_neg (by omega),
    if_neg (by omega), if_neg (by omega)]

end Full

end DvivonOS
