import DvivonOS.Ext2.Bitmap
import DvivonOS.Ext2.Directory

/-!
# Free counts

Each free count of an ext2 volume exists four times: as the clear bits of a bitmap, in the group
descriptor and in the superblock, and in the on-disk copies of the two. `Counted` says that they
agree. The four bitmap operations keep them in step, and return what the bitmaps say.
-/

namespace DvivonOS

open Bytes Finset Function

namespace Vol

variable (v : Vol)

/-- The number of clear valid bits of the bitmap of group `g`. -/
def clear (k : Kind) (g : ℕ) : ℕ :=
  ((Finset.range (v.geo.kbits k g)).filter fun i => v.kbit k g i = false).card

/-- The superblock as the next mount reads it: bytes 1024 to 2047 of the device. -/
def diskSb : Bytes := if v.blockSize = 1024 then v.disk 1 else (v.disk 0).drop 1024

/-- The descriptor of group `g` as the next mount reads it. -/
def diskGd (g : ℕ) : Bytes :=
  (v.disk (v.geo.first + 1 + g / v.geo.gdpb)).drop (g % v.geo.gdpb * 32)

end Vol

/-- The counts agree with the bitmaps, in memory and on disk. -/
structure Counted (v : Vol) : Prop where
  gd : ∀ k, ∀ g < v.geo.groups, (v.gd g).get16 k.gdOff = v.clear k g
  sb : ∀ k, v.sb.get32 k.sbOff = ∑ g ∈ Finset.range v.geo.groups, v.clear k g
  diskGd : ∀ k, ∀ g < v.geo.groups, (v.diskGd g).get16 k.gdOff = v.clear k g
  diskSb : ∀ k, v.diskSb.get32 k.sbOff = ∑ g ∈ Finset.range v.geo.groups, v.clear k g

/-! ## Counting clear bits -/

theorem card_clear_set {n i : ℕ} {f f' : ℕ → Bool} (hi : i < n) (hf : f i = false)
    (hf' : f' i = true) (hother : ∀ j, j ≠ i → f' j = f j) :
    ((Finset.range n).filter fun j => f j = false).card =
      ((Finset.range n).filter fun j => f' j = false).card + 1 := by
  have hnot : i ∉ (Finset.range n).filter fun j => f' j = false := by
    rw [mem_filter, hf']; simp
  rw [← card_insert_of_notMem hnot]
  congr 1
  ext j
  rw [mem_insert, mem_filter, mem_filter, mem_range]
  by_cases hj : j = i
  · subst hj; simp [hi, hf]
  · simp [hj, hother j hj]

theorem sum_add_one {n g : ℕ} {c c' : ℕ → ℕ} (hg : g < n) (h : c g = c' g + 1)
    (hother : ∀ k < n, k ≠ g → c' k = c k) :
    ∑ k ∈ Finset.range n, c k = ∑ k ∈ Finset.range n, c' k + 1 := by
  have hm : g ∈ Finset.range n := mem_range.mpr hg
  have he : ∑ k ∈ (Finset.range n).erase g, c' k = ∑ k ∈ (Finset.range n).erase g, c k :=
    sum_congr rfl fun k hk => hother k (mem_range.mp (mem_of_mem_erase hk))
      (ne_of_mem_erase hk)
  rw [← add_sum_erase _ c hm, ← add_sum_erase _ c' hm, he, h]
  omega

/-- The groups tile the volume. -/
theorem sum_bits (G : Geo) : ∀ n, ∑ g ∈ Finset.range n, G.bits g ≤ G.blocks - G.first := by
  intro n
  suffices h : ∑ g ∈ Finset.range n, G.bits g = min (n * G.bpg) (G.blocks - G.first) by
    rw [h]; exact min_le_right _ _
  induction n with
  | zero => simp
  | succ n ih =>
    rw [sum_range_succ, ih, add_mul, one_mul]
    unfold Geo.bits
    omega

section Bounds

variable {v : Vol} (wf : v.geo.Wf) (k : Kind)

include wf

theorem kbits_le (g : ℕ) : v.geo.kbits k g ≤ 32768 := by
  have h1 := wf.bpg_le
  have h2 := wf.ipg_le
  have h3 : v.geo.bs ≤ 4096 := by rcases wf.size with h | h | h <;> omega
  cases k with
  | block => exact le_trans (min_le_left _ _) (by omega)
  | inode => exact le_trans h2 (by omega)

theorem clear_lt (g : ℕ) : v.clear k g < 65536 := by
  have h1 : v.clear k g ≤ v.geo.kbits k g := by
    calc v.clear k g ≤ (Finset.range (v.geo.kbits k g)).card := card_filter_le _ _
      _ = v.geo.kbits k g := card_range _
  have h2 := kbits_le wf k g
  omega

theorem sum_clear_lt : ∑ g ∈ Finset.range v.geo.groups, v.clear k g < 4294967296 := by
  have h1 : ∑ g ∈ Finset.range v.geo.groups, v.clear k g ≤
      ∑ g ∈ Finset.range v.geo.groups, v.geo.kbits k g := by
    refine sum_le_sum fun g _ => ?_
    calc v.clear k g ≤ (Finset.range (v.geo.kbits k g)).card := card_filter_le _ _
      _ = v.geo.kbits k g := card_range _
  refine lt_of_le_of_lt h1 ?_
  cases k with
  | block =>
    have h2 := sum_bits v.geo v.geo.groups
    have h3 := wf.blocks_lt
    exact lt_of_le_of_lt h2 (by omega)
  | inode =>
    have h3 := wf.inodes_lt
    have h2 : ∑ g ∈ Finset.range v.geo.groups, v.geo.kbits .inode g = v.geo.inodes := by
      show ∑ g ∈ Finset.range v.geo.groups, v.geo.ipg = _
      rw [sum_const, card_range, smul_eq_mul]
      rfl
    omega

end Bounds

/-! ## What a recount changes -/

section Recount

variable {v : Vol} {k : Kind} {g d : ℕ} {buf : Bytes}

@[simp] theorem flushSb_geo : v.flushSb.geo = v.geo := by
  unfold Vol.flushSb; split_ifs <;> rfl

@[simp] theorem flushGd_geo : (v.flushGd g).geo = v.geo := rfl

@[simp] theorem flushSb_sb : v.flushSb.sb = v.sb := by
  unfold Vol.flushSb; split_ifs <;> rfl

@[simp] theorem flushSb_gd : v.flushSb.gd = v.gd := by
  unfold Vol.flushSb; split_ifs <;> rfl

@[simp] theorem recount_geo : (v.recount k g d buf).geo = v.geo := by
  unfold Vol.recount
  rw [flushSb_geo, flushGd_geo, addFree_geo, Vol.write_geo]

theorem recount_sb : (v.recount k g d buf).sb =
    v.sb.put32 k.sbOff (v.sb.get32 k.sbOff + d) := by
  unfold Vol.recount
  rw [flushSb_sb]
  rfl

theorem recount_gd : (v.recount k g d buf).gd =
    update v.gd g ((v.gd g).put16 k.gdOff ((v.gd g).get16 k.gdOff + d)) := by
  unfold Vol.recount
  rw [flushSb_gd]
  rfl

variable (wf : v.geo.Wf) (hg : g < v.geo.groups)

include wf hg

theorem recount_disk {c : Loc} (hc : v.geo.Valid c) (h1 : c ≠ .sb) (h2 : c ≠ .gdt (g / v.geo.gdpb)) :
    (v.recount k g d buf).disk (v.geo.addr c) =
      if c = k.loc g then buf else v.disk (v.geo.addr c) := by
  have w2 : ((v.write (v.geo.addr (k.loc g)) buf).addFree k g d).geo = v.geo := by
    rw [addFree_geo, Vol.write_geo]
  have w3 : (((v.write (v.geo.addr (k.loc g)) buf).addFree k g d).flushGd g).geo = v.geo := by
    rw [flushGd_geo, w2]
  unfold Vol.recount
  obtain ⟨b, hb⟩ := flushSb_eq (by rw [w3]; exact wf :
    (((v.write (v.geo.addr (k.loc g)) buf).addFree k g d).flushGd g).geo.Wf)
  rw [hb, w3, Vol.write_disk,
    update_of_ne fun e => h1 (wf.inj c .sb hc trivial e)]
  unfold Vol.flushGd
  rw [Vol.write_disk, w2]
  refine (update_of_ne (fun e => h2 (wf.inj c (.gdt (g / v.geo.gdpb)) hc
    (Geo.Wf.gdt_valid hg) e)) _ _).trans ?_
  show update v.disk (v.geo.addr (k.loc g)) buf (v.geo.addr c) = _
  split_ifs with h3
  · rw [h3, update_self]
  · exact update_of_ne (fun e => h3 (wf.inj c _ hc (Geo.Wf.kloc_valid k hg) e)) _ _

theorem recount_kbit (k' : Kind) {g' : ℕ} (hg' : g' < v.geo.groups) (i : ℕ) :
    (v.recount k g d buf).kbit k' g' i =
      if k' = k ∧ g' = g then buf.bit i else v.kbit k' g' i := by
  unfold Vol.kbit
  rw [recount_geo, recount_disk wf hg (Geo.Wf.kloc_valid k' hg') (by cases k' <;> simp [Kind.loc])
    (by cases k' <;> simp [Kind.loc])]
  by_cases h : k'.loc g' = k.loc g
  · rw [if_pos h, if_pos (kloc_inj h)]
  · rw [if_neg h, if_neg]
    rintro ⟨rfl, rfl⟩
    exact h rfl

omit wf hg in
theorem flushSb_diskSb {i : ℕ} (hi : i < 1024) : v.flushSb.diskSb i = v.sb i := by
  unfold Vol.diskSb Vol.flushSb
  by_cases h : v.blockSize = 1024
  · rw [if_pos h, if_pos (show (v.write 1 v.sb).blockSize = 1024 from h), Vol.write_disk,
      update_self]
  · rw [if_neg h, if_neg (show ¬ (v.write 0 _).blockSize = 1024 from h), Vol.write_disk,
      update_self]
    unfold Bytes.drop ext2SuperblockOffset sizeofSuperblock
    rw [copy_of_mem _ _ (by omega) (by omega), Nat.add_sub_cancel_left]

omit wf hg in
theorem recount_diskSb {i : ℕ} (hi : i < 1024) :
    (v.recount k g d buf).diskSb i = (v.recount k g d buf).sb i := by
  rw [recount_sb]
  unfold Vol.recount
  rw [flushSb_diskSb hi]
  rfl

/-- The descriptor of the group is on disk, and those of the other groups are as before. -/
theorem recount_diskGd {g' i : ℕ} (hg' : g' < v.geo.groups) (hi : i < 32) :
    (v.recount k g d buf).diskGd g' i =
      if g' = g then (v.recount k g d buf).gd g i else v.diskGd g' i := by
  have w2 : ((v.write (v.geo.addr (k.loc g)) buf).addFree k g d).geo = v.geo := by
    rw [addFree_geo, Vol.write_geo]
  have w3 : (((v.write (v.geo.addr (k.loc g)) buf).addFree k g d).flushGd g).geo = v.geo := by
    rw [flushGd_geo, w2]
  have hgd : (v.recount k g d buf).gd g =
      ((v.write (v.geo.addr (k.loc g)) buf).addFree k g d).gd g := by
    rw [recount_gd]; rfl
  have hv' : v.geo.Valid (.gdt (g' / v.geo.gdpb)) := Geo.Wf.gdt_valid hg'
  unfold Vol.diskGd
  rw [recount_geo, hgd]
  -- the superblock and the bitmap are other blocks
  have hsb : (v.recount k g d buf).disk (v.geo.first + 1 + g' / v.geo.gdpb) =
      (((v.write (v.geo.addr (k.loc g)) buf).addFree k g d).flushGd g).disk
        (v.geo.first + 1 + g' / v.geo.gdpb) := by
    unfold Vol.recount
    obtain ⟨b, hb⟩ := flushSb_eq (by rw [w3]; exact wf :
      (((v.write (v.geo.addr (k.loc g)) buf).addFree k g d).flushGd g).geo.Wf)
    rw [hb, w3, Vol.write_disk]
    refine update_of_ne (fun e => ?_) _ _
    have := wf.inj (.gdt (g' / v.geo.gdpb)) .sb hv' trivial e
    simp at this
  have hbm : ((v.write (v.geo.addr (k.loc g)) buf).addFree k g d).disk
      (v.geo.first + 1 + g' / v.geo.gdpb) = v.disk (v.geo.first + 1 + g' / v.geo.gdpb) := by
    refine update_of_ne (fun e => ?_) _ _
    have := wf.inj (.gdt (g' / v.geo.gdpb)) _ hv' (Geo.Wf.kloc_valid k hg) e
    cases k <;> simp [Kind.loc] at this
  rw [hsb]
  unfold Vol.flushGd
  rw [Vol.write_disk, w2]
  unfold Bytes.drop
  by_cases hb : g' / v.geo.gdpb = g / v.geo.gdpb
  · rw [hb, update_self]
    rw [hb] at hbm
    by_cases hgg : g' = g
    · rw [if_pos hgg, hgg, copy_of_mem _ _ (by omega) (by omega), Nat.add_sub_cancel_left]
    · -- another slot of the same block
      have hmod : g' % v.geo.gdpb ≠ g % v.geo.gdpb := by
        intro hm
        have h1 := Nat.div_add_mod g v.geo.gdpb
        have h2 := Nat.div_add_mod g' v.geo.gdpb
        rw [hb, hm, h1] at h2
        exact hgg h2.symm
      rw [if_neg hgg, copy_of_not_mem _ _ (by omega), hbm]
  · have hgg : g' ≠ g := by rintro rfl; exact hb rfl
    rw [if_neg hgg, update_of_ne (by omega), hbm]

end Recount

def countDelta (x : Bool) : ℕ := if x then 2 ^ 32 - 1 else 1

section Step

variable {v : Vol} {k : Kind} {g i : ℕ} {buf : Bytes} {x : Bool} (wf : v.geo.Wf)
  (hg : g < v.geo.groups) (hi : i < v.geo.kbits k g) (hold : v.kbit k g i = !x)
  (hbuf : ∀ j, buf.bit j = if j = i then x else v.kbit k g j)

include wf hg

theorem clear_other (d : ℕ) {k' : Kind} {g' : ℕ} (hg' : g' < v.geo.groups)
    (hne : ¬ (k' = k ∧ g' = g)) : (v.recount k g d buf).clear k' g' = v.clear k' g' := by
  unfold Vol.clear
  rw [recount_geo]
  congr 1
  ext j
  rw [mem_filter, mem_filter, recount_kbit wf hg k' hg', if_neg hne]

include hi hold hbuf

theorem clear_self (d : ℕ) :
    if x then v.clear k g = (v.recount k g d buf).clear k g + 1
    else (v.recount k g d buf).clear k g = v.clear k g + 1 := by
  have hbit : ∀ j, (v.recount k g d buf).kbit k g j = if j = i then x else v.kbit k g j := by
    intro j
    rw [recount_kbit wf hg k hg, if_pos ⟨rfl, rfl⟩, hbuf]
  unfold Vol.clear
  rw [recount_geo]
  cases x with
  | true =>
    exact card_clear_set hi hold (by rw [hbit, if_pos rfl]) fun j hj => by rw [hbit, if_neg hj]
  | false =>
    exact card_clear_set hi (by rw [hbit, if_pos rfl]) hold fun j hj => by rw [hbit, if_neg hj]

/-- **Counts.** A recount after the change of one bit keeps all counts right. -/
theorem Counted.recount (hc : Counted v) : Counted (v.recount k g (countDelta x) buf) := by
  have hself := clear_self wf hg hi hold hbuf (countDelta x)
  have hother : ∀ {k'} {g'}, g' < v.geo.groups → ¬ (k' = k ∧ g' = g) →
      (v.recount k g (countDelta x) buf).clear k' g' = v.clear k' g' :=
    clear_other wf hg (countDelta x)
  have wf' : (v.recount k g (countDelta x) buf).geo.Wf := by rw [recount_geo]; exact wf
  generalize hv' : v.recount k g (countDelta x) buf = v' at *
  have hgeo : v'.geo = v.geo := by rw [← hv', recount_geo]
  -- the new values of the two counts
  have hcount : (v.clear k g + countDelta x) % 65536 = v'.clear k g := by
    have h1 := clear_lt wf k g
    have h2 := clear_lt wf' k g
    unfold countDelta
    cases x <;> simp only [Bool.false_eq_true, if_true, if_false] at hself ⊢ <;> omega
  have hsum : (∑ g ∈ Finset.range v.geo.groups, v.clear k g + countDelta x) % 4294967296 =
      ∑ g ∈ Finset.range v.geo.groups, v'.clear k g := by
    have h1 := sum_clear_lt wf k
    have h2 := sum_clear_lt wf' k
    rw [hgeo] at h2
    have ho : ∀ j < v.geo.groups, j ≠ g → v'.clear k j = v.clear k j := fun j hj hne =>
      hother hj fun h => hne h.2
    unfold countDelta
    cases x with
    | true =>
      have := sum_add_one hg hself ho
      simp only [if_true]
      omega
    | false =>
      have := sum_add_one hg hself fun j hj hne => (ho j hj hne).symm
      simp only [Bool.false_eq_true, if_false]
      omega
  have hsb : ∀ k', v'.sb.get32 k'.sbOff = ∑ g ∈ Finset.range v.geo.groups, v'.clear k' g := by
    intro k'
    rw [← hv', recount_sb, hv']
    by_cases hk : k' = k
    · rw [hk, get32_put32, hc.sb, hsum]
    · rw [get32_put32_of_disjoint _ _ (by cases k <;> cases k' <;> simp_all [Kind.sbOff]),
        hc.sb]
      exact sum_congr rfl fun j hj => (hother (mem_range.mp hj) fun h => hk h.1).symm
  have hgd : ∀ k', ∀ g' < v.geo.groups, (v'.gd g').get16 k'.gdOff = v'.clear k' g' := by
    intro k' g' hg'
    rw [← hv', recount_gd, hv']
    by_cases hgg : g' = g
    · rw [hgg, update_self]
      by_cases hk : k' = k
      · rw [hk, get16_put16, hc.gd k g hg, hcount]
      · rw [get16_put16_of_disjoint _ _ (by cases k <;> cases k' <;> simp_all [Kind.gdOff]),
          hc.gd k' g hg, hother hg fun h => hk h.1]
    · rw [update_of_ne hgg, hc.gd k' g' hg', hother hg' fun h => hgg h.2]
  constructor
  · rw [hgeo]; exact hgd
  · rw [hgeo]; exact hsb
  · rw [hgeo]
    intro k' g' hg'
    have hd : ∀ i, k'.gdOff ≤ i → i < k'.gdOff + 2 →
        v'.diskGd g' i = if g' = g then v'.gd g i else v.diskGd g' i := by
      intro i h1 h2
      rw [← hv']
      exact recount_diskGd wf hg hg' (by cases k' <;> simp [Kind.gdOff] at h2 <;> omega)
    by_cases hgg : g' = g
    · rw [← hgd k' g' hg', hgg]
      refine get16_congr fun i h1 h2 => ?_
      have := hd i h1 h2
      rwa [if_pos hgg, hgg] at this
    · rw [hother hg' fun h => hgg h.2, ← hc.diskGd k' g' hg']
      refine get16_congr fun i h1 h2 => ?_
      have := hd i h1 h2
      rwa [if_neg hgg] at this
  · rw [hgeo]
    intro k'
    rw [← hsb k']
    refine get32_congr fun i h1 h2 => ?_
    rw [← hv']
    exact recount_diskSb (by cases k' <;> simp [Kind.sbOff] at h2 <;> omega)

end Step

/-! ## The four operations -/

/-- The bits of `v'` are those of `v` but for one bit, which is `x` now and was not before. -/
def Flips (v : Vol) (k : Kind) (n : ℕ) (x : Bool) (v' : Vol) : Prop :=
  ∃ g i, g < v.geo.groups ∧ i < v.geo.kbits k g ∧ n = v.geo.knum k g i ∧ v.geo.KRange k n ∧
    v.kbit k g i = (!x) ∧ ∀ k', ∀ g' < v.geo.groups, ∀ j,
      v'.kbit k' g' j = if k' = k ∧ g' = g ∧ j = i then x else v.kbit k' g' j

/-- What an allocation returns: `0` and nothing has changed, exactly when no valid bit was clear;
otherwise the number of a bit that was clear and is set now, the only bit that changed. -/
structure Allocates (v : Vol) (k : Kind) (n : ℕ) (v' : Vol) : Prop where
  full : n = 0 ↔ ∀ g < v.geo.groups, ∀ i < v.geo.kbits k g, v.kbit k g i = true
  same : n = 0 → v' = v
  took : n ≠ 0 → Flips v k n true v'

theorem clear_eq_zero {v : Vol} {k : Kind} {g : ℕ} (h : v.clear k g = 0) :
    ∀ i < v.geo.kbits k g, v.kbit k g i = true := by
  intro i hi
  unfold Vol.clear at h
  rw [card_eq_zero, filter_eq_empty_iff] at h
  simpa using h (mem_range.mpr hi)

theorem recount_flips {v : Vol} {k : Kind} {g i : ℕ} {x : Bool} {buf : Bytes} (wf : v.geo.Wf)
    (hg : g < v.geo.groups) (hi : i < v.geo.kbits k g) (hold : v.kbit k g i = !x)
    (hbuf : ∀ j, buf.bit j = if j = i then x else v.kbit k g j) :
    Flips v k (v.geo.knum k g i) x (v.recount k g (countDelta x) buf) := by
  refine ⟨g, i, hg, hi, rfl, wf.knum_range hg hi, hold, fun k' g' hg' j => ?_⟩
  rw [recount_kbit wf hg k' hg']
  by_cases hk : k' = k ∧ g' = g
  · obtain ⟨rfl, rfl⟩ := hk
    simp only [true_and, if_true, hbuf]
  · rw [if_neg hk, if_neg fun h => hk ⟨h.1, h.2.1⟩]

section Operations

variable {v : Vol} {r : Inode}

variable (rd : Ready v v.geo r) (hc : Counted v) {k : Kind}

include rd hc

/-- The scan misses no clear bit: a group is skipped only when its count is zero. -/
theorem firstFree_none (h : v.firstFree k = none) :
    ∀ g < v.geo.groups, ∀ i < v.geo.kbits k g, v.kbit k g i = true := by
  intro g hg
  unfold Vol.firstFree at h
  split_ifs at h with h0
  · rw [hc.sb, sum_eq_zero_iff] at h0
    exact clear_eq_zero (h0 g (mem_range.mpr hg))
  · rcases scanGroups_none h g (Nat.zero_le _) (by rw [Nat.zero_add]; exact hg) with h1 | h1
    · rw [hc.gd k g hg] at h1
      exact clear_eq_zero h1
    · rw [groupBits_eq rd hg, bgBitmap_eq] at h1
      exact findClear_none.mp h1

variable (hs : v.core.used v.geo.first = true)

include hs

theorem alloc_counted (k : Kind) :
    After (ext2Alloc k) v fun n v' => Allocates v k n v' ∧ Counted v' ∧
      Ready v' v.geo r ∧ v'.core.used v.geo.first = true := by
  rw [after_alloc rd k]
  cases hf : v.firstFree k with
  | none =>
    have hfull := firstFree_none rd hc hf
    exact ⟨⟨⟨fun _ => hfull, fun _ => rfl⟩, fun _ => rfl, fun h => absurd rfl h⟩, hc, rd, hs⟩
  | some p =>
    obtain ⟨hg, hi, hbit⟩ := firstFree_some rd hf
    obtain ⟨rd', hcore⟩ := rd.take hg hi
    have hbuf := fun j => bit_setBit (v.disk (v.geo.addr (k.loc p.1))) p.2 j
    -- the superblock is used, so the number is not that of block 0 and block `first` stays used
    have hnum : v.geo.knum k p.1 p.2 ≠ 0 ∧ (v.take k p.1 p.2).core.used v.geo.first = true := by
      rw [hcore]
      cases k with
      | block =>
        have hne : v.geo.first ≠ v.geo.first + p.1 * v.geo.bpg + p.2 := by
          intro e
          rw [← rd.kused_knum hg hi] at hbit
          change v.core.used (v.geo.first + p.1 * v.geo.bpg + p.2) = false at hbit
          rw [← e, hs] at hbit
          exact Bool.noConfusion hbit
        refine ⟨?_, (update_of_ne hne _ _).trans hs⟩
        show v.geo.first + p.1 * v.geo.bpg + p.2 ≠ 0
        omega
      | inode => exact ⟨by show 1 + p.1 * v.geo.ipg + p.2 ≠ 0; omega, hs⟩
    dsimp only
    refine ⟨⟨⟨fun h => absurd h hnum.1, fun h => ?_⟩, fun h => absurd h hnum.1, fun _ => ?_⟩, ?_, rd',
      hnum.2⟩
    · exact absurd (h p.1 hg p.2 hi) (by rw [hbit]; simp)
    · exact recount_flips (x := true) rd.wf hg hi hbit hbuf
    · exact Counted.recount (x := true) rd.wf hg hi hbit hbuf hc

theorem free_counted {n : ℕ} (hn : v.geo.KRange k n) (hu : v.core.kused k n = true)
    (hm : k = .block → ¬ v.geo.Meta n) :
    After (ext2Free k n) v fun _ v' => Flips v k n false v' ∧ Counted v' ∧
      Ready v' v.geo r ∧ v'.core.used v.geo.first = true := by
  rw [after_free rd hn]
  have hg := rd.wf.kgroup_lt hn
  have hi := rd.wf.kindex_lt hn
  rw [rd.kused_eq hn] at hu
  obtain ⟨rd', hcore⟩ := rd.dropped hn
  have hbuf := fun j => bit_clearBit (v.disk (v.geo.addr (k.loc (v.geo.kgroup k n))))
    (v.geo.kindex k n) j
  have hfl := recount_flips (x := false) rd.wf hg hi hu hbuf
  rw [Geo.Wf.knum_eq hn] at hfl
  refine ⟨hfl, Counted.recount (x := false) rd.wf hg hi hu hbuf hc, rd', ?_⟩
  rw [hcore]
  cases k with
  | block => exact (update_of_ne (fun e => hm rfl ⟨.sb, trivial, e⟩) _ _).trans hs
  | inode => exact hs

end Operations

/-! ## Histories -/

/-- One call of a bitmap operation, of the frees only those of a used data block and of a used
inode. -/
inductive BitmapStep : Vol → Vol → Prop
  | allocBlock (v : Vol) : BitmapStep v (ext2AllocBlock.run v).2
  | freeBlock (v : Vol) (b : ℕ) (hb : v.geo.InRange b) (hu : v.core.used b = true)
      (hm : ¬ v.geo.Meta b) : BitmapStep v ((ext2FreeBlock b).run v).2
  | allocInode (v : Vol) : BitmapStep v (ext2AllocInode.run v).2
  | freeInode (v : Vol) (n : ℕ) (hn : v.geo.IsInode n) (hu : v.core.iused n = true) :
      BitmapStep v ((ext2FreeInode n).run v).2

structure Tallied (v : Vol) : Prop where
  wf : v.geo.Wf
  env : v.env = Env.ok
  counted : Counted v
  sb : v.core.used v.geo.first = true

theorem Tallied.of_ready {v v' : Vol} {r : Inode} (hc : Counted v') (rd : Ready v' v.geo r)
    (hs : v'.core.used v.geo.first = true) : Tallied v' :=
  ⟨rd.wf', rd.env, hc, by rw [rd.geo]; exact hs⟩

theorem BitmapStep.tallied {v v' : Vol} (h : Tallied v) (hstep : BitmapStep v v') :
    Tallied v' := by
  have rd : Ready v v.geo v.root := ⟨rfl, h.wf, h.env, rfl⟩
  cases hstep with
  | allocBlock =>
    obtain ⟨-, h1, h2, h3⟩ := alloc_counted rd h.counted h.sb .block
    exact Tallied.of_ready h1 h2 h3
  | freeBlock b hb hu hm =>
    obtain ⟨-, h1, h2, h3⟩ := free_counted (k := .block) rd h.counted h.sb hb hu fun _ => hm
    exact Tallied.of_ready h1 h2 h3
  | allocInode =>
    obtain ⟨-, h1, h2, h3⟩ := alloc_counted rd h.counted h.sb .inode
    exact Tallied.of_ready h1 h2 h3
  | freeInode n hn hu =>
    obtain ⟨-, h1, h2, h3⟩ := free_counted (k := .inode) rd h.counted h.sb hn hu nofun
    exact Tallied.of_ready h1 h2 h3

/-- **Free counts.** From a well-formed volume whose counts are right and whose superblock is
marked used, after any history of bitmap operations the counts are right, in memory and on disk;
and in every state reached the allocations return what the bitmaps say, the frees clear their bit,
and no other bit changes. -/
theorem free_counts_agree {v₀ v : Vol} (h₀ : Tallied v₀)
    (hr : Relation.ReflTransGen BitmapStep v₀ v) :
    Counted v ∧
      (After ext2AllocBlock v fun b v' => Allocates v .block b v') ∧
      (∀ b, v.geo.InRange b → v.core.used b = true → ¬ v.geo.Meta b →
        After (ext2FreeBlock b) v fun _ v' => Flips v .block b false v') ∧
      (After ext2AllocInode v fun n v' => Allocates v .inode n v') ∧
      ∀ n, v.geo.IsInode n → v.core.iused n = true →
        After (ext2FreeInode n) v fun _ v' => Flips v .inode n false v' := by
  have h : Tallied v := by
    induction hr with
    | refl => exact h₀
    | tail _ hstep ih => exact hstep.tallied ih
  have rd : Ready v v.geo v.root := ⟨rfl, h.wf, h.env, rfl⟩
  refine ⟨h.counted, ?_, fun b hb hu hm => ?_, ?_, fun n hn hu => ?_⟩
  · exact (alloc_counted rd h.counted h.sb .block).mono fun _ _ hq => hq.1
  · exact (free_counted (k := .block) rd h.counted h.sb hb hu fun _ => hm).mono fun _ _ hq => hq.1
  · exact (alloc_counted rd h.counted h.sb .inode).mono fun _ _ hq => hq.1
  · exact (free_counted (k := .inode) rd h.counted h.sb hn hu nofun).mono fun _ _ hq => hq.1

/-! ### A small volume -/

def sampleSb : Bytes :=
  ((((((Bytes.zero.put32 0 16).put32 4 20).put32 12 12).put32 16 6).put32 20 1).put32 32 32).put32
    40 16

def sampleGd : Bytes :=
  (((((Bytes.zero.put32 0 3).put32 4 4).put32 8 5).put16 12 12).put16 14 6).put16 16 1

/-- The inode of an empty root directory with its entries in block 7. -/
def sampleRoot : Bytes := newDirInode 0o755 1024 7

/-- Blocks 1 to 7 and inodes 1 to 10 are used; the root directory is empty. -/
def sampleDisk (b : ℕ) : Bytes :=
  match b with
  | 1 => sampleSb
  | 2 => sampleGd
  | 3 => Bytes.zero.put8 0 0x7F
  | 4 => (Bytes.zero.put8 0 0xFF).put8 1 0x03
  | 5 => Bytes.zero.copy 128 sampleRoot 128
  | 7 => newDirBlock 1024 2 2
  | _ => Bytes.zero

/-- One short group: 19 blocks of 1024 bytes where 32 would fit, 16 inodes, the bitmaps in blocks
3 and 4, the inode table in blocks 5 and 6. -/
def sampleVol : Vol where
  disk := sampleDisk
  sb := sampleSb
  gd := fun _ => sampleGd
  blockSize := 1024
  groupsCount := 1
  root := Inode.ofDisk 2 sampleRoot
  env := Env.ok

theorem sampleVol_geo :
    sampleVol.geo = ⟨1024, 1, 20, 32, 16, 1, 128, fun _ => 3, fun _ => 4, fun _ => 5⟩ := rfl

/-- The layout of the small volume, also for blocks of 2048 bytes, where block 0 is the first. -/
theorem small_wf {bs first : ℕ} (h : bs = 1024 ∧ first = 1 ∨ bs = 2048 ∧ first = 0) :
    (⟨bs, first, 20, 32, 16, 1, 128, fun _ => 3, fun _ => 4, fun _ => 5⟩ : Geo).Wf := by
  rcases h with ⟨rfl, rfl⟩ | ⟨rfl, rfl⟩ <;>
    refine ⟨by decide, by decide, by decide, by decide, by decide, by decide, by decide,
      by decide, by decide, by decide, by decide, by decide, by decide, ?_, ?_⟩
  case inl.refine_1 | inr.refine_1 =>
    intro a b ha hb h
    cases a <;> cases b <;> simp only [Geo.Valid, Geo.addr, Geo.gdpb, Geo.ipb] at ha hb h ⊢ <;>
      first | rfl | omega | (congr 1 <;> omega)
  case inl.refine_2 | inr.refine_2 =>
    intro a ha
    unfold Geo.InRange
    cases a <;> simp only [Geo.Valid, Geo.addr, Geo.gdpb, Geo.ipb] at ha ⊢ <;> omega

theorem sampleVol_wf : sampleVol.geo.Wf := small_wf (.inl ⟨rfl, rfl⟩)

theorem sampleVol_ready : Ready sampleVol sampleVol.geo sampleVol.root :=
  ⟨rfl, sampleVol_wf, rfl, rfl⟩

theorem Counted.of_one_group {v : Vol} (hone : v.geo.groups = 1)
    (h : ∀ k, (v.gd 0).get16 k.gdOff = v.clear k 0 ∧ v.sb.get32 k.sbOff = v.clear k 0 ∧
      (v.diskGd 0).get16 k.gdOff = v.clear k 0 ∧ v.diskSb.get32 k.sbOff = v.clear k 0) :
    Counted v := by
  have hzero : ∀ g < v.geo.groups, g = 0 := by omega
  refine ⟨fun k g hg => ?_, fun k => ?_, fun k g hg => ?_, fun k => ?_⟩
  · exact hzero g hg ▸ (h k).1
  · rw [hone, sum_range_one]
    exact (h k).2.1
  · exact hzero g hg ▸ (h k).2.2.1
  · rw [hone, sum_range_one]
    exact (h k).2.2.2

theorem sampleVol_counted : Counted sampleVol := by
  refine .of_one_group rfl fun k => ?_
  cases k <;> decide +kernel

theorem sampleVol_tallied : Tallied sampleVol := by
  refine ⟨sampleVol_wf, rfl, sampleVol_counted, ?_⟩
  have hr : sampleVol.geo.InRange sampleVol.geo.first := sampleVol_wf.range .sb trivial
  refine (sampleVol_ready.kused_eq (k := .block) hr).trans ?_
  decide +kernel

/-- An allocation of a block and one of an inode on the small volume. -/
theorem free_counts_agree_sample :
    (ext2AllocBlock.run sampleVol).1 = 8 ∧
      (ext2AllocInode.run (ext2AllocBlock.run sampleVol).2).1 = 11 ∧
      Counted (ext2AllocInode.run (ext2AllocBlock.run sampleVol).2).2 :=
  ⟨by decide +kernel, by decide +kernel, (free_counts_agree sampleVol_tallied
    ((Relation.ReflTransGen.refl.tail (.allocBlock _)).tail (.allocInode _))).1⟩

def bareSb : Bytes := (sampleSb.put32 12 13).put32 20 0

def bareGd : Bytes := sampleGd.put16 12 13

/-- Blocks 1 to 7 are used and block 0, which holds the superblock, is not marked. -/
def bareDisk (b : ℕ) : Bytes :=
  match b with
  | 0 => Bytes.zero.copy 1024 bareSb 1024
  | 1 => bareGd
  | 3 => Bytes.zero.put8 0 0xFE
  | _ => sampleDisk b

/-- The small volume with blocks of 2048 bytes, so that the first data block is block 0. -/
def bareVol : Vol :=
  { sampleVol with disk := bareDisk, sb := bareSb, gd := fun _ => bareGd, blockSize := 2048 }

/-- The bit of the superblock is clear: `ext2_alloc_block` takes block 0, marks it and lowers the
counts, and returns the 0 that stands for a full volume. -/
theorem superblock_allocated :
    bareVol.geo.Wf ∧ bareVol.env = Env.ok ∧ Counted bareVol ∧
      (ext2AllocBlock.run bareVol).1 = 0 ∧ bareVol.kbit .block 0 0 = false ∧
      (ext2AllocBlock.run bareVol).2.kbit .block 0 0 = true ∧
      (ext2AllocBlock.run bareVol).2.sFreeBlocksCount = 12 ∧
      ¬ Allocates bareVol .block (ext2AllocBlock.run bareVol).1 (ext2AllocBlock.run bareVol).2 := by
  have hzero : (ext2AllocBlock.run bareVol).1 = 0 := by decide +kernel
  have hclear : bareVol.kbit .block 0 0 = false := by decide +kernel
  refine ⟨small_wf (.inr ⟨rfl, rfl⟩), rfl, .of_one_group rfl fun k => ?_, hzero, hclear,
    by decide +kernel, by decide +kernel, fun h => ?_⟩
  · cases k <;> decide +kernel
  · have hset := h.full.mp hzero 0 (by decide) 0 (by decide)
    exact Bool.false_ne_true (hclear.symm.trans hset)

end DvivonOS
