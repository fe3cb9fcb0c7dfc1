import DvivonOS.Ext2.Inode

/-!
# The layout of a volume

`Geo` collects the numbers of a volume that no operation changes, and `Geo.Wf` is what `mke2fs`
guarantees about them: the metadata blocks (`Loc`) lie inside the volume and do not overlap.

`Vol.core` is the abstract volume: which blocks and inodes are used, the raw inodes, and the
contents of the blocks that are not metadata. The four parts are independent: a write to one
metadata block or to one data block changes one part only (`core_write_static`,
`core_write_bitmap`, ...), although on disk they are all blocks.
-/

namespace DvivonOS

open Bytes Function

/-! ## Geometry -/

/-- The constant numbers of a volume. -/
@[ext] structure Geo where
  bs : ℕ
  first : ℕ
  blocks : ℕ
  bpg : ℕ
  ipg : ℕ
  groups : ℕ
  isize : ℕ
  bbm : ℕ → ℕ
  ibm : ℕ → ℕ
  itab : ℕ → ℕ

def Vol.geo (v : Vol) : Geo where
  bs := v.blockSize
  first := v.sFirstDataBlock
  blocks := v.sBlocksCount
  bpg := v.sBlocksPerGroup
  ipg := v.sInodesPerGroup
  groups := v.groupsCount
  isize := v.inodeSize
  bbm := v.bgBlockBitmap
  ibm := v.bgInodeBitmap
  itab := v.bgInodeTable

/-- The places of the metadata: the superblock, the blocks of the descriptor table, and for each
group its two bitmaps and the blocks of its inode table. -/
inductive Loc
  | sb
  | gdt (k : ℕ)
  | bbm (g : ℕ)
  | ibm (g : ℕ)
  | itab (g k : ℕ)
  deriving DecidableEq

def Kind.loc : Kind → ℕ → Loc
  | .block => .bbm
  | .inode => .ibm

namespace Geo

variable (G : Geo)

def gdpb : ℕ := G.bs / 32

def ipb : ℕ := G.bs / G.isize

def ptrs : ℕ := G.bs / 4

def inodes : ℕ := G.groups * G.ipg

def bits (g : ℕ) : ℕ := min G.bpg (G.blocks - G.first - g * G.bpg)

def InRange (b : ℕ) : Prop := G.first ≤ b ∧ b < G.blocks

def IsInode (n : ℕ) : Prop := 1 ≤ n ∧ n ≤ G.inodes

instance (b : ℕ) : Decidable (G.InRange b) := inferInstanceAs (Decidable (_ ∧ _))

instance (n : ℕ) : Decidable (G.IsInode n) := inferInstanceAs (Decidable (_ ∧ _))

/-- What a volume has as blocks or as inodes: the first number, how many a group has, those that
exist in group `g`, and all that exist. -/
def kbase : Kind → ℕ
  | .block => G.first
  | .inode => 1

def kper : Kind → ℕ
  | .block => G.bpg
  | .inode => G.ipg

def kbits : Kind → ℕ → ℕ
  | .block => G.bits
  | .inode => fun _ => G.ipg

def KRange : Kind → ℕ → Prop
  | .block => G.InRange
  | .inode => G.IsInode

/-- The group and the bit of a block or an inode, and the number of a bit. -/
def kgroup (k : Kind) (n : ℕ) : ℕ := (n - G.kbase k) / G.kper k

def kindex (k : Kind) (n : ℕ) : ℕ := (n - G.kbase k) % G.kper k

def knum (k : Kind) (g i : ℕ) : ℕ := G.kbase k + g * G.kper k + i

/-- Which metadata a volume has. -/
def Valid : Loc → Prop
  | .sb => True
  | .gdt k => k * G.gdpb < G.groups
  | .bbm g => g < G.groups
  | .ibm g => g < G.groups
  | .itab g k => g < G.groups ∧ k * G.ipb < G.ipg

/-- Where it is. -/
def addr : Loc → ℕ
  | .sb => G.first
  | .gdt k => G.first + 1 + k
  | .bbm g => G.bbm g
  | .ibm g => G.ibm g
  | .itab g k => G.itab g + k

/-- The metadata blocks: superblock, group descriptors, bitmaps and inode tables. -/
def Meta (b : ℕ) : Prop := ∃ a, G.Valid a ∧ G.addr a = b

structure Wf : Prop where
  size : G.bs = 1024 ∨ G.bs = 2048 ∨ G.bs = 4096
  start : G.first = if G.bs = 1024 then 1 else 0
  bpg_pos : 0 < G.bpg
  bpg_le : G.bpg ≤ 8 * G.bs
  ipg_pos : 0 < G.ipg
  ipg_le : G.ipg ≤ 8 * G.bs
  isize_ge : 128 ≤ G.isize
  isize_dvd : G.isize ∣ G.bs
  groups_pos : 0 < G.groups
  cover : G.blocks - G.first ≤ G.groups * G.bpg
  last : (G.groups - 1) * G.bpg < G.blocks - G.first
  blocks_lt : G.blocks < 2 ^ 32
  inodes_lt : G.inodes < 2 ^ 32
  inj : ∀ a b, G.Valid a → G.Valid b → G.addr a = G.addr b → a = b
  range : ∀ a, G.Valid a → G.InRange (G.addr a)

end Geo

namespace Geo.Wf

variable {G : Geo} (wf : G.Wf) {k : Kind} {n g i : ℕ}

theorem kbase_le (hn : G.KRange k n) : G.kbase k ≤ n := by
  cases k <;> exact hn.1

theorem kbits_le_kper : G.kbits k g ≤ G.kper k := by
  cases k with
  | block => exact min_le_left _ _
  | inode => exact le_rfl

theorem kgroup_knum (hi : i < G.kper k) : G.kgroup k (G.knum k g i) = g := by
  unfold Geo.kgroup Geo.knum
  rw [show G.kbase k + g * G.kper k + i - G.kbase k = i + G.kper k * g by rw [mul_comm]; omega,
    Nat.add_mul_div_left _ _ (by omega), Nat.div_eq_of_lt hi, Nat.zero_add]

theorem kindex_knum (hi : i < G.kper k) : G.kindex k (G.knum k g i) = i := by
  unfold Geo.kindex Geo.knum
  rw [show G.kbase k + g * G.kper k + i - G.kbase k = i + G.kper k * g by rw [mul_comm]; omega,
    Nat.add_mul_mod_self_left, Nat.mod_eq_of_lt hi]

theorem knum_of_base_le (hn : G.kbase k ≤ n) : G.knum k (G.kgroup k n) (G.kindex k n) = n := by
  unfold Geo.knum Geo.kgroup Geo.kindex
  have h0 := Nat.div_add_mod (n - G.kbase k) (G.kper k)
  rw [mul_comm] at h0
  omega

theorem knum_eq (hn : G.KRange k n) : G.knum k (G.kgroup k n) (G.kindex k n) = n :=
  knum_of_base_le (kbase_le hn)

theorem kloc_valid (k : Kind) (hg : g < G.groups) : G.Valid (k.loc g) := by
  cases k <;> exact hg

include wf

theorem first_le : G.first ≤ 1 := by
  rw [wf.start]; split_ifs <;> omega

theorem group_start_lt (hg : g < G.groups) : g * G.bpg < G.blocks - G.first :=
  lt_of_le_of_lt (Nat.mul_le_mul_right _ (by omega)) wf.last

theorem kper_pos : 0 < G.kper k := by
  cases k with
  | block => exact wf.bpg_pos
  | inode => exact wf.ipg_pos

theorem kgroup_lt (hn : G.KRange k n) : G.kgroup k n < G.groups := by
  unfold Geo.kgroup
  rw [Nat.div_lt_iff_lt_mul wf.kper_pos]
  have h1 := hn
  cases k with
  | block =>
    have := wf.cover
    show n - G.first < G.groups * G.bpg
    unfold Geo.KRange Geo.InRange at h1
    omega
  | inode =>
    show n - 1 < G.groups * G.ipg
    unfold Geo.KRange Geo.IsInode Geo.inodes at h1
    omega

theorem kindex_lt (hn : G.KRange k n) : G.kindex k n < G.kbits k (G.kgroup k n) := by
  have hmod : G.kindex k n < G.kper k := Nat.mod_lt _ wf.kper_pos
  cases k with
  | inode => exact hmod
  | block =>
    refine lt_min_iff.mpr ⟨hmod, ?_⟩
    have h0 : G.first + G.kgroup .block n * G.bpg + G.kindex .block n = n := knum_eq hn
    have := hn.1
    have := hn.2
    omega

theorem knum_range (hg : g < G.groups) (hi : i < G.kbits k g) : G.KRange k (G.knum k g i) := by
  cases k with
  | block =>
    have h1 := wf.group_start_lt hg
    have h2 := lt_min_iff.mp hi
    show G.first ≤ G.first + g * G.bpg + i ∧ G.first + g * G.bpg + i < G.blocks
    omega
  | inode =>
    refine ⟨?_, ?_⟩
    · show 1 ≤ 1 + g * G.ipg + i
      omega
    · have hi : i < G.ipg := hi
      calc 1 + g * G.ipg + i ≤ (g + 1) * G.ipg := by rw [add_mul, one_mul]; omega
        _ ≤ G.groups * G.ipg := Nat.mul_le_mul_right _ hg

theorem krange_lt (hn : G.KRange k n) : n < 2 ^ 32 := by
  have h1 := wf.blocks_lt
  have h2 := wf.inodes_lt
  cases k with
  | block => exact lt_trans hn.2 h1
  | inode => exact lt_of_le_of_lt hn.2 h2

/-! ### Inode tables -/

theorem bs_pos : 0 < G.bs := by rcases wf.size with h | h | h <;> omega

theorem ptrs_mul : G.ptrs * 4 = G.bs := by
  unfold Geo.ptrs; rcases wf.size with h | h | h <;> rw [h]

end Geo.Wf

namespace Geo

variable (G : Geo)

/-- The place of an inode in the inode tables. -/
def iloc (n : ℕ) : Loc := .itab (G.kgroup .inode n) (G.kindex .inode n / G.ipb)

def ioff (n : ℕ) : ℕ := G.kindex .inode n % G.ipb * G.isize

end Geo

namespace Geo.Wf

variable {G : Geo} (wf : G.Wf) {n n' g : ℕ}

include wf

theorem iloc_valid (hn : G.IsInode n) : G.Valid (G.iloc n) :=
  ⟨wf.kgroup_lt (k := .inode) hn,
    lt_of_le_of_lt (Nat.div_mul_le_self _ _) (wf.kindex_lt (k := .inode) hn)⟩

theorem ioff_apart (hn : G.IsInode n) (hn' : G.IsInode n') (hne : n ≠ n')
    (hl : G.iloc n = G.iloc n') :
    G.ioff n + 128 ≤ G.ioff n' ∨ G.ioff n' + 128 ≤ G.ioff n := by
  unfold Geo.iloc at hl
  obtain ⟨hg, hk⟩ := Loc.itab.inj hl
  -- the groups and the blocks agree, so the remainders differ
  have hr : G.kindex .inode n % G.ipb ≠ G.kindex .inode n' % G.ipb := by
    intro hr
    have h1 := Nat.div_add_mod (G.kindex .inode n) G.ipb
    have h2 := Nat.div_add_mod (G.kindex .inode n') G.ipb
    rw [hk, hr, h2] at h1
    have h3 := Geo.Wf.knum_eq (k := .inode) hn
    have h4 := Geo.Wf.knum_eq (k := .inode) hn'
    rw [hg, ← h1, h4] at h3
    exact hne h3.symm
  have h128 := wf.isize_ge
  unfold Geo.ioff
  rcases Nat.lt_or_gt_of_ne hr with h | h
  · left
    calc _ ≤ G.kindex .inode n % G.ipb * G.isize + G.isize := by omega
      _ = (G.kindex .inode n % G.ipb + 1) * G.isize := by rw [add_mul, one_mul]
      _ ≤ _ := Nat.mul_le_mul_right _ h
  · right
    calc _ ≤ G.kindex .inode n' % G.ipb * G.isize + G.isize := by omega
      _ = (G.kindex .inode n' % G.ipb + 1) * G.isize := by rw [add_mul, one_mul]
      _ ≤ _ := Nat.mul_le_mul_right _ h

omit wf in
theorem gdt_valid (hg : g < G.groups) : G.Valid (.gdt (g / G.gdpb)) :=
  lt_of_le_of_lt (Nat.div_mul_le_self _ _) hg

end Geo.Wf

/-! ## The abstract volume -/

/-- Used blocks, used inodes, raw inodes and data blocks. Numbers outside the volume count as
used. -/
@[ext] structure Core where
  used : ℕ → Bool
  iused : ℕ → Bool
  ino : ℕ → Bytes
  data : ℕ → Bytes

namespace Core

variable (c : Core)

@[simps -fullyApplied]
def setUsed (b : ℕ) (x : Bool) : Core := { c with used := update c.used b x }

@[simps -fullyApplied]
def setIused (n : ℕ) (x : Bool) : Core := { c with iused := update c.iused n x }

def kused : Kind → ℕ → Bool
  | .block => c.used
  | .inode => c.iused

def setKused : Kind → ℕ → Bool → Core
  | .block => c.setUsed
  | .inode => c.setIused

@[simps -fullyApplied]
def setIno (n : ℕ) (x : Bytes) : Core := { c with ino := update c.ino n x }

@[simps -fullyApplied]
def setData (b : ℕ) (x : Bytes) : Core := { c with data := update c.data b x }

end Core

namespace Vol

variable (v : Vol)

def kbit (k : Kind) (g i : ℕ) : Bool := (v.disk (v.geo.addr (k.loc g))).bit i

open Classical in
noncomputable def core : Core where
  used b := if v.geo.InRange b then
      v.kbit .block (v.geo.kgroup .block b) (v.geo.kindex .block b) else true
  iused n := if v.geo.IsInode n then
      v.kbit .inode (v.geo.kgroup .inode n) (v.geo.kindex .inode n) else true
  ino n := if v.geo.IsInode n then
      Bytes.zero.copy 0 ((v.disk (v.geo.addr (v.geo.iloc n))).drop (v.geo.ioff n)) 128
    else Bytes.zero
  data b := if v.geo.Meta b then Bytes.zero else v.disk b

@[simps -fullyApplied]
def write (b : ℕ) (buf : Bytes) : Vol := { v with disk := update v.disk b buf }

@[simp] theorem write_geo (b : ℕ) (buf : Bytes) : (v.write b buf).geo = v.geo := rfl

end Vol

section Writes

variable {v : Vol} (wf : v.geo.Wf) {a : Loc} {g i n b : ℕ} {buf : Bytes}

theorem write_disk_ne {c : Loc} (hc : v.geo.Wf) (ha : v.geo.Valid a) (hv : v.geo.Valid c)
    (hne : c ≠ a) :
    (v.write (v.geo.addr a) buf).disk (v.geo.addr c) = v.disk (v.geo.addr c) :=
  update_of_ne (fun e => hne (hc.inj c a hv ha e)) _ _

theorem kloc_inj {k k' : Kind} {g g' : ℕ} (h : k'.loc g' = k.loc g) : k' = k ∧ g' = g := by
  cases k <;> cases k' <;> simp_all [Kind.loc]

theorem core_kused {k : Kind} (hn : v.geo.KRange k n) :
    v.core.kused k n = v.kbit k (v.geo.kgroup k n) (v.geo.kindex k n) := by
  cases k <;> exact if_pos hn

theorem core_kused_of_not {k : Kind} (hn : ¬ v.geo.KRange k n) : v.core.kused k n = true := by
  cases k <;> exact if_neg hn

include wf

/-- The used numbers depend on the bitmaps only. -/
theorem core_kused_congr (k : Kind)
    (h : ∀ g < v.geo.groups, (v.write b buf).kbit k g = v.kbit k g) :
    (v.write b buf).core.kused k = v.core.kused k := by
  funext n
  by_cases hn : v.geo.KRange k n
  · rw [core_kused (v := v.write b buf) hn, core_kused hn]
    exact congrFun (h _ (wf.kgroup_lt hn)) _
  · rw [core_kused_of_not (v := v.write b buf) hn, core_kused_of_not hn]

theorem core_kused_write (k : Kind) (ha : v.geo.Valid a) (hne : ∀ g, a ≠ k.loc g) :
    (v.write (v.geo.addr a) buf).core.kused k = v.core.kused k :=
  core_kused_congr wf k fun g hg => congrArg Bytes.bit
    (write_disk_ne wf ha (Geo.Wf.kloc_valid k hg) (hne g).symm)

theorem core_ino_write (ha : v.geo.Valid a) (hne : ∀ g k, a ≠ .itab g k) :
    (v.write (v.geo.addr a) buf).core.ino = v.core.ino := by
  funext n
  show (if v.geo.IsInode n then _ else _) = if v.geo.IsInode n then _ else _
  split_ifs with hn
  · rw [Vol.write_geo, write_disk_ne wf ha (wf.iloc_valid hn) (hne _ _).symm]
  · rfl

omit wf in
theorem core_data_write (ha : v.geo.Valid a) :
    (v.write (v.geo.addr a) buf).core.data = v.core.data := by
  funext b
  unfold Vol.core
  dsimp only
  rw [Vol.write_geo]
  split_ifs with hb
  · rfl
  · exact update_of_ne (fun e => hb ⟨a, ha, e.symm⟩) _ _

/-- The superblock and the descriptor table are not part of the abstract volume. -/
theorem core_write_static (ha : a = .sb ∨ ∃ k, a = .gdt k) (hv : v.geo.Valid a) :
    (v.write (v.geo.addr a) buf).core = v.core := by
  have h1 : ∀ g, a ≠ .bbm g := by rintro g rfl; simp at ha
  have h2 : ∀ g, a ≠ .ibm g := by rintro g rfl; simp at ha
  have h3 : ∀ g k, a ≠ .itab g k := by rintro g k rfl; simp at ha
  exact Core.ext (core_kused_write wf .block hv h1) (core_kused_write wf .inode hv h2)
    (core_ino_write wf hv h3) (core_data_write hv)

theorem core_write_data (hb : ¬ v.geo.Meta b) :
    (v.write b buf).core = v.core.setData b buf := by
  have hne : ∀ a, v.geo.Valid a → (v.write b buf).disk (v.geo.addr a) = v.disk (v.geo.addr a) :=
    fun a ha => update_of_ne (fun e => hb ⟨a, ha, e⟩) _ _
  have hk : ∀ k, (v.write b buf).core.kused k = v.core.kused k := fun k =>
    core_kused_congr wf k fun g hg => congrArg Bytes.bit (hne _ (Geo.Wf.kloc_valid k hg))
  refine Core.ext (hk .block) (hk .inode) ?_ ?_
  · funext n
    show (if v.geo.IsInode n then _ else _) = if v.geo.IsInode n then _ else _
    split_ifs with hn
    · rw [Vol.write_geo, hne _ (wf.iloc_valid hn)]
    · rfl
  · funext c
    rw [Core.setData_data]
    by_cases hcb : c = b
    · subst hcb
      rw [update_self]
      exact (if_neg hb).trans (update_self _ _ _)
    · rw [update_of_ne hcb]
      unfold Vol.core
      dsimp only
      rw [Vol.write_geo]
      split_ifs
      · rfl
      · exact update_of_ne hcb _ _

theorem core_write_bitmap (k : Kind) (hg : g < v.geo.groups) (hi : i < v.geo.kbits k g) {x : Bool}
    (hbuf : ∀ j, buf.bit j = if j = i then x else v.kbit k g j) :
    (v.write (v.geo.addr (k.loc g)) buf).core = v.core.setKused k (v.geo.knum k g i) x := by
  have hv : v.geo.Valid (k.loc g) := Geo.Wf.kloc_valid k hg
  have hip : i < v.geo.kper k := lt_of_lt_of_le hi Geo.Wf.kbits_le_kper
  have hused : (v.write (v.geo.addr (k.loc g)) buf).core.kused k =
      update (v.core.kused k) (v.geo.knum k g i) x := by
    funext n
    by_cases hn : v.geo.KRange k n
    · rw [core_kused (v := v.write _ buf) hn]
      show (update v.disk (v.geo.addr (k.loc g)) buf (v.geo.addr (k.loc (v.geo.kgroup k n)))).bit
        (v.geo.kindex k n) = _
      by_cases hne : n = v.geo.knum k g i
      · rw [hne, Geo.Wf.kgroup_knum hip, Geo.Wf.kindex_knum hip, update_self, update_self, hbuf,
          if_pos rfl]
      · rw [update_of_ne hne, core_kused hn]
        by_cases hgn : v.geo.kgroup k n = g
        · have hij : v.geo.kindex k n ≠ i := by
            intro e
            apply hne
            rw [← hgn, ← e, Geo.Wf.knum_eq hn]
          rw [hgn, update_self, hbuf, if_neg hij]
        · exact congrArg (Bytes.bit · _) (write_disk_ne wf hv
            (Geo.Wf.kloc_valid k (wf.kgroup_lt hn)) fun e => hgn (kloc_inj e).2)
    · rw [core_kused_of_not (v := v.write _ buf) hn, update_of_ne, core_kused_of_not hn]
      rintro rfl
      exact hn (wf.knum_range hg hi)
  have hino : (v.write _ buf).core.ino = v.core.ino :=
    core_ino_write wf hv (by cases k <;> simp [Kind.loc])
  have hdata : (v.write _ buf).core.data = v.core.data := core_data_write hv
  cases k with
  | block => exact Core.ext hused (core_kused_write wf .inode hv (by simp [Kind.loc])) hino hdata
  | inode => exact Core.ext (core_kused_write wf .block hv (by simp [Kind.loc])) hused hino hdata

theorem core_write_itab (hn : v.geo.IsInode n) (x : Bytes) :
    (v.write (v.geo.addr (v.geo.iloc n))
      ((v.disk (v.geo.addr (v.geo.iloc n))).copy (v.geo.ioff n) x 128)).core =
      v.core.setIno n (Bytes.zero.copy 0 x 128) := by
  have hv := wf.iloc_valid hn
  apply Core.ext
  · exact core_kused_write wf .block hv (by simp [Geo.iloc, Kind.loc])
  · exact core_kused_write wf .inode hv (by simp [Geo.iloc, Kind.loc])
  · funext m
    show (if v.geo.IsInode m then _ else Bytes.zero) = update v.core.ino n _ m
    by_cases hm : v.geo.IsInode m
    · rw [if_pos hm]
      by_cases hmn : m = n
      · -- the slot itself
        subst hmn
        rw [update_self, Vol.write_geo, Vol.write_disk, update_self]
        funext k
        by_cases hk : k < 128
        · rw [copy_of_mem _ _ (Nat.zero_le _) (by omega), Nat.sub_zero,
            copy_of_mem _ _ (Nat.zero_le _) (by omega), Nat.sub_zero]
          unfold Bytes.drop
          rw [copy_of_mem _ _ (by omega) (by omega), Nat.add_sub_cancel_left]
        · rw [copy_of_not_mem _ _ (by omega), copy_of_not_mem _ _ (by omega)]
      · rw [update_of_ne hmn]
        show _ = if v.geo.IsInode m then _ else Bytes.zero
        rw [if_pos hm, Vol.write_geo]
        by_cases hl : v.geo.iloc m = v.geo.iloc n
        · -- another slot of the same block
          have hap := wf.ioff_apart hm hn hmn hl
          rw [hl, Vol.write_disk, update_self]
          funext k
          by_cases hk : k < 128
          · rw [copy_of_mem _ _ (Nat.zero_le _) (by omega), Nat.sub_zero,
              copy_of_mem _ _ (Nat.zero_le _) (by omega), Nat.sub_zero]
            unfold Bytes.drop
            exact copy_of_not_mem _ _ (by omega)
          · rw [copy_of_not_mem _ _ (by omega), copy_of_not_mem _ _ (by omega)]
        · rw [write_disk_ne wf hv (wf.iloc_valid hm) hl]
    · rw [if_neg hm, update_of_ne (by rintro rfl; exact hm hn)]
      exact (if_neg hm).symm
  · exact core_data_write hv

end Writes

end DvivonOS
