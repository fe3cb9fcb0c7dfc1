import DvivonOS.Ext2.Room
import DvivonOS.Vfs.Ranges

/-!
# Writes that write nothing

`ext2_write` returns `0` when `count` is zero or when the first block cannot be had. It then still
sets the size to the offset if the offset is behind the end of the file, and it leaves an empty
doubly indirect block behind if the two last free blocks went to the data block and to that block.
Otherwise everything is as before (`write_nothing_iff`). A write that makes progress sets the size by
the 32-bit sum `offset + written` (`growsToEnd_iff`).
-/

namespace DvivonOS

open Function

/-- The size, the contents and the block map of the file, the block bitmaps and the free counts are
in `v'` what they were in `v`. -/
structure Unchanged (G : Geo) (v : Vol) (inode : Inode) (v' : Vol) (inode' : Inode) : Prop where
  size : inode'.size = inode.size
  content : ∀ i < 2 ^ 32, content (v'.core.file inode'.disk G) G.bs i =
    content (v.core.file inode.disk G) G.bs i
  map : ∀ k p, G.IsPlace k p → v'.core.block inode'.disk k p = v.core.block inode.disk k p
  bitmaps : v'.core.used = v.core.used
  groupCounts : ∀ g < G.groups, v'.bgFreeBlocksCount g = v.bgFreeBlocksCount g
  freeCount : v'.sFreeBlocksCount = v.sFreeBlocksCount

/-- A write of `count` bytes at `offset` needs two indirect blocks for its first block, and two
blocks are free. -/
structure LeavesIndirect (G : Geo) (v : Vol) (inode : Inode) (count offset : ℕ) : Prop where
  count : 0 < count
  doubly : G.IsDoubly (offset / G.bs)
  slot : iBlock inode.disk 13 = 0
  free : v.sFreeBlocksCount = 2

theorem writeLoop_bounds {buf : Bytes} {bs count offset : ℕ} : ∀ fuel done inode (v : Vol),
    done ≤ count → After (writeLoop buf bs count offset fuel done inode) v fun p _ =>
      done ≤ p.1 ∧ p.1 ≤ count
  | 0, _, _, _, h => ⟨le_rfl, h⟩
  | fuel + 1, done, inode, v, h => by
    have hstop : done ≤ done ∧ done ≤ count := ⟨le_rfl, h⟩
    unfold writeLoop
    split_ifs with hlt
    · dsimp only
      have hchunk : min (bs - add32 offset done % bs) (count - done) ≤ count - done :=
        min_le_right _ _
      generalize min (bs - add32 offset done % bs) (count - done) = chunk at hchunk ⊢
      have hnext : ∀ inode' v', After (writeLoop buf bs count offset fuel (done + chunk) inode') v'
          fun p _ => done ≤ p.1 ∧ p.1 ≤ count := fun inode' v' =>
        (writeLoop_bounds fuel (done + chunk) inode' v' (by omega)).mono fun p _ h => by omega
      rw [after_bind]
      refine after_of_forall fun phys v₁ => ?_
      split_ifs
      · rw [after_bind]
        refine after_of_forall fun phys v₂ => ?_
        split_ifs
        · exact hstop
        · rw [after_bind]
          refine after_of_forall fun p v₃ => ?_
          split_ifs
          · exact hstop
          · exact hnext _ _
      · rw [after_bind]
        exact after_of_forall fun p v₂ => hnext _ _
      · exact hnext _ _
    · exact hstop

namespace Metered

variable {v : Vol} {G : Geo} {r : Inode} (mt : Metered v G r) {inode : Inode} {buf : Bytes}
  {count offset : ℕ}

include mt

theorem writeLoop_zero (hx : MapOk G v.core inode.disk) (ho : offset < 2 ^ 32) :
    After (writeLoop buf G.bs count offset count 0 inode) v fun p v' => p.1 = 0 →
      Metered v' G r ∧ p.2.ino = inode.ino ∧
      (¬ LeavesIndirect G v inode count offset → p.2 = inode ∧ v'.core = v.core) ∧
      (LeavesIndirect G v inode count offset → v'.core.free G < v.core.free G) := by
  have hidle : ¬ LeavesIndirect G v inode count offset → Metered v G r ∧ inode.ino = inode.ino ∧
      (¬ LeavesIndirect G v inode count offset → inode = inode ∧ v.core = v.core) ∧
      (LeavesIndirect G v inode count offset → v.core.free G < v.core.free G) :=
    fun h => ⟨mt, rfl, fun _ => ⟨rfl, rfl⟩, fun hl => absurd hl h⟩
  rcases count with _ | fuel
  · exact fun _ => hidle fun h => absurd h.count (lt_irrefl _)
  unfold writeLoop
  have hpos : add32 offset 0 = offset := Nat.mod_eq_of_lt ho
  have hl : offset / G.bs < G.lblocks := mt.wf.pos_div_lt ho
  rw [if_pos (Nat.succ_pos _), hpos]
  dsimp only
  rw [after_bind, mt.resolve hx hl]
  have hchunk : 0 < min (G.bs - offset % G.bs) (fuel + 1 - 0) ∧
      min (G.bs - offset % G.bs) (fuel + 1 - 0) ≤ fuel + 1 := by
    have := mt.wf.mod_lt offset
    omega
  generalize min (G.bs - offset % G.bs) (fuel + 1 - 0) = chunk at hchunk ⊢
  -- a block that has been written is progress
  have hnext : ∀ inode' v', After (writeLoop buf G.bs (fuel + 1) offset fuel (0 + chunk) inode') v'
      fun p v' => p.1 = 0 → Metered v' G r ∧ p.2.ino = inode.ino ∧
        (¬ LeavesIndirect G v inode (fuel + 1) offset → p.2 = inode ∧ v'.core = v.core) ∧
        (LeavesIndirect G v inode (fuel + 1) offset → v'.core.free G < v.core.free G) :=
    fun inode' v' => (writeLoop_bounds _ _ _ _ (by omega)).mono fun p _ h h0 => by omega
  split_ifs with h0 hpart
  · rw [after_bind]
    refine mt.allocBlock (fun hfull => ?_) fun phys v₁ hv mt₁ hc₁ => ?_
    · rw [if_pos rfl, after_pure]
      exact fun _ => hidle fun h => by
        have := h.free
        rw [mt.freeCount] at this
        omega
    have hused₁ : v₁.core.used = update v.core.used phys true := by rw [hc₁]; rfl
    have hfree₁ := free_eq_add_one mt.wf hv.range hv.free hused₁
    have hx₁ : InnerOk G v₁.core inode.disk := by
      rw [hc₁]
      exact fun k p hp _ h => hx k p hp h
    -- the call gives up half-way exactly if it started with two free blocks
    have hhalf : LeavesIndirect G v inode (fuel + 1) offset ↔
        HalfWay G v₁.core inode.disk (offset / G.bs) :=
      ⟨fun h => ⟨h.doubly, h.slot, by have := h.free; rw [mt.freeCount] at this; omega⟩,
        fun h => ⟨Nat.succ_pos _, h.doubly, h.slot, by rw [mt.freeCount]; have := h.free; omega⟩⟩
    rw [if_neg hv.ne_zero, after_bind]
    refine (mt₁.assign_cases hx₁).mono fun p v₂ hcase => ?_
    obtain ⟨ret, x⟩ := p
    dsimp only at hcase ⊢
    rcases hcase with ⟨hno, rfl | ⟨he, rfl⟩⟩ | ⟨hyes, rfl, mt₂, b, hrb, hfb, -, hc₂⟩
    · rw [if_neg (by simp), after_bind]
      exact after_of_forall fun _ v₃ => hnext _ v₃
    · obtain ⟨rfl, rfl⟩ := Prod.mk.inj he
      rw [if_pos (by norm_num), after_bind]
      refine mt₁.freeBlock hv.range (by rw [hused₁, update_self]) hv.data fun v₃ mt₃ hc₃ => ?_
      rw [after_pure]
      refine fun _ => ⟨mt₃, rfl, fun _ => ⟨rfl, ?_⟩, fun h => absurd (hhalf.mp h) hno⟩
      rw [hc₃, hc₁]
      unfold Core.setUsed
      rw [update_idem, ← hv.free, update_eq_self]
    · have hne : phys ≠ b := by
        rintro rfl
        rw [hused₁, update_self] at hfb
        exact Bool.noConfusion hfb
      have hused₂ : v₂.core.used = update v₁.core.used b true := by rw [hc₂]; rfl
      have hu₂ : v₂.core.used phys = true := by
        rw [hused₂, update_of_ne hne, hused₁, update_self]
      have hfree₂ := free_eq_add_one mt.wf hrb hfb hused₂
      rw [if_pos (by norm_num), after_bind]
      refine mt₂.freeBlock hv.range hu₂ hv.data fun v₃ mt₃ hc₃ => ?_
      rw [after_pure]
      refine fun _ => ⟨mt₃, rfl, fun h => absurd (hhalf.mpr hyes) h, fun _ => ?_⟩
      have hfree₃ : v₃.core.free G = v₂.core.free G + 1 := by
        refine free_eq_add_one mt.wf hv.range (by rw [hc₃]; exact update_self _ _ _) ?_
        rw [hc₃, Core.setUsed_used, update_idem, ← hu₂, update_eq_self]
      omega
  · rw [after_bind]
    refine after_of_forall fun p v₁ => ?_
    rw [after_bind]
    exact after_of_forall fun _ v₂ => hnext _ v₂
  · rw [after_bind]
    exact after_of_forall fun _ v₁ => hnext _ v₁

theorem write_zero (hx : MapOk G v.core inode.disk) (hi : G.IsInode inode.ino)
    (hc : count < 2 ^ 32) (ho : offset < 2 ^ 32) :
    After (ext2Write inode buf count offset) v fun p v' => p.1 = 0 → Metered v' G r ∧
      (¬ LeavesIndirect G v inode count offset → (∀ k, iBlock p.2.disk k = iBlock inode.disk k) ∧
        v'.core.used = v.core.used ∧ v'.core.data = v.core.data) ∧
      (LeavesIndirect G v inode count offset → v'.core.free G < v.core.free G) := by
  unfold ext2Write
  rw [after_bind, after_get, after_kmalloc mt.env, after_bind, mt.bs_eq]
  have hloop : After (writeLoop buf G.bs count offset count 0 inode) v _ :=
    (mt.writeLoop_zero hx ho).and (writeLoop_bounds _ _ _ _ (Nat.zero_le _))
  refine hloop.mono fun p v₁ hboth => ?_
  obtain ⟨written, inode₁⟩ := p
  obtain ⟨hzero, -, hle⟩ := hboth
  dsimp only at hzero hle ⊢
  rw [after_bind]
  by_cases hw : written = 0
  swap
  · refine after_of_forall fun q v₂ h => absurd h ?_
    show toInt32 written ≠ 0
    unfold toInt32
    split_ifs <;> omega
  obtain ⟨mt₁, hino, hsame, hless⟩ := hzero hw
  have hino' : (inode₁.growTo (add32 offset written)).ino = inode.ino := by
    unfold Inode.growTo
    split_ifs <;> exact hino
  unfold ext2WriteInode
  dsimp only
  rw [after_bind, hino']
  refine mt₁.writeInodeRaw hi fun v₂ mt₂ hc₂ => ?_
  rw [after_pure, after_pure]
  refine fun _ => ⟨mt₂, fun h => ?_, fun h => ?_⟩
  · obtain ⟨rfl, hc₁⟩ := hsame h
    refine ⟨fun k => ?_, by rw [hc₂, hc₁]; rfl, by rw [hc₂, hc₁]; rfl⟩
    refine (Inode.iBlock_toDisk _ k).trans ?_
    unfold Inode.growTo
    split_ifs
    · exact iBlock_put32_of_lt _ (by norm_num) k
    · rfl
  · rw [hc₂]
    exact hless h

end Metered

/-! ## The condition -/

section NoProgress

variable {v v' : Vol} {G : Geo} {e : ℕ → Bytes} {inode inode' : Inode} {buf : Bytes}
  {count offset : ℕ} {ret : ℤ}

/-- A write of `count` bytes at `offset` that has written `n > 0` bytes leaves the larger one of the
old size and `offset + n`. -/
def GrowsToEnd (count offset : ℕ) : Prop :=
  ∀ (v : Vol) (G : Geo) (e : ℕ → Bytes) (inode : Inode) (buf : Bytes), Opened v G e inode →
    ∀ n, 0 < n → n < 2 ^ 32 → ((ext2Write inode buf count offset).run v).1.1 = toInt32 n →
      ((ext2Write inode buf count offset).run v).1.2.size = max inode.size (offset + n)

theorem growsToEnd_iff (hc : count < 2 ^ 32) (ho : offset < 2 ^ 32) :
    GrowsToEnd count offset ↔ offset + count < 2 ^ 32 := by
  refine ⟨fun hg => ?_, fun h v G e inode buf op n hn hlt hret => ?_⟩
  · by_contra h
    have h1 := hg _ _ _ _ Bytes.zero Full.opened count (by omega) hc
    generalize hrun : (ext2Write Full.openInode Bytes.zero count offset).run Full.vol = out at h1
    obtain ⟨⟨ret, inode'⟩, v'⟩ := out
    obtain ⟨rfl, hwr⟩ := Full.wrote hc ho hrun
    have h2 : inode'.size = max Full.openInode.size (offset + count) := h1 rfl
    have hsize : Full.openInode.size < 2 ^ 32 := Bytes.get32_lt _ _
    have hsum : add32 offset count < 2 ^ 32 := Nat.mod_lt _ (by norm_num)
    rw [hwr.size] at h2
    omega
  · generalize hrun : (ext2Write inode buf count offset).run v = out at hret ⊢
    obtain ⟨⟨ret, inode'⟩, v'⟩ := out
    obtain ⟨written, rfl, hle, -, -, hwr⟩ := op.wrote hc ho hrun
    obtain rfl := toInt32_inj (by omega) hlt hret
    have hsum : add32 offset written = offset + written := Nat.mod_eq_of_lt (by omega)
    exact hsum ▸ hwr.size

/-- **Writes that write nothing.** When `ext2_write` returns `0`, everything is as before exactly if
the offset is not behind the end of the file and no empty doubly indirect block is left behind. When
it has written `n > 0` bytes, the size is the larger one of the old size and `offset + n`, on every
volume exactly if `offset + count` is below `2 ^ 32`. -/
theorem write_nothing_iff (op : Opened v G e inode) (hcnt : Counted v)
    (hc : count < 2 ^ 32) (ho : offset < 2 ^ 32)
    (hrun : (ext2Write inode buf count offset).run v = ((ret, inode'), v')) :
    (ret = 0 → (Unchanged G v inode v' inode' ↔
      offset ≤ inode.size ∧ ¬ LeavesIndirect G v inode count offset)) ∧
    (GrowsToEnd count offset ↔ offset + count < 2 ^ 32) := by
  have mt : Metered v G v.root := ⟨op.ready, hcnt, op.own.metaUsed⟩
  obtain ⟨written, rfl, hle, -, -, hwr⟩ := op.wrote hc ho hrun
  have hsize := hwr.size
  refine ⟨fun hret => ?_, growsToEnd_iff hc ho⟩
  · obtain rfl : written = 0 := toInt32_inj (by omega) (by norm_num) hret
    have hzero : After (ext2Write inode buf count offset) v _ :=
      mt.write_zero op.mapOk op.alloc.1 hc ho
    obtain ⟨mt', hsame, hless⟩ := hzero.of_run hrun hret
    have hoff : add32 offset 0 = offset := Nat.mod_eq_of_lt ho
    rw [hoff] at hsize
    constructor
    · intro h
      refine ⟨by have := h.size; omega, fun hl => ?_⟩
      have h1 := hless hl
      rw [free_congr h.bitmaps] at h1
      exact lt_irrefl _ h1
    · rintro ⟨hin, hno⟩
      obtain ⟨hslots, hused, hdata⟩ := hsame hno
      refine ⟨by omega, fun i hi => ?_, fun k p hp => ?_, hused, fun g hg => ?_, ?_⟩
      · rw [hwr.content i hi, if_neg (Nat.not_lt_zero _)]
      · rw [block_congr (fun k _ => hslots k) hp.1]
        unfold Core.block Core.ptr
        rw [hdata]
      · rw [mt'.groupCount hg, mt.groupCount hg]
        unfold Core.freeIn
        rw [hused]
      · rw [mt'.freeCount, mt.freeCount, free_congr hused]

end NoProgress

/-! ### A full volume -/

def packedSb : Bytes := (sampleSb.put32 12 0).put32 16 5

def packedGd : Bytes := (sampleGd.put16 12 0).put16 14 5

/-- The small volume without a free block, and with 1024 bytes in the file `a`. -/
def packedDisk (b : ℕ) : Bytes :=
  match b with
  | 1 => packedSb
  | 2 => packedGd
  | 3 => ((Bytes.zero.put8 0 0xFF).put8 1 0xFF).put8 2 0x07
  | 6 => (fileDisk 6).put32 260 1024
  | b => fileDisk b

def packedVol : Vol :=
  { sampleVol with disk := packedDisk, sb := packedSb, gd := fun _ => packedGd }

theorem packedVol_ready : Ready packedVol sampleVol.geo packedVol.root :=
  ⟨rfl, sampleVol_wf, rfl, rfl⟩

theorem packedVol_counted : Counted packedVol := by
  refine .of_one_group rfl fun k => ?_
  cases k <;> decide +kernel

noncomputable def packedFile : Inode := Inode.ofDisk 11 (packedVol.core.ino 11)

theorem packedFile_opened : Opened packedVol sampleVol.geo packedVol.core.ino packedFile :=
  opened_of_slots packedVol_ready (by decide +kernel) (by decide +kernel)
    ⟨by decide, by decide +kernel⟩ rfl

theorem packedFile_size : packedFile.size = 1024 := by decide +kernel

/-- A write of two bytes at the end of the file, for which there is no block, and the size after
writes of two bytes there. -/
theorem write_nothing_at_end :
    ((ext2Write packedFile Bytes.zero 2 1024).run packedVol).1.1 = 0 ∧
      Unchanged sampleVol.geo packedVol packedFile
        ((ext2Write packedFile Bytes.zero 2 1024).run packedVol).2
        ((ext2Write packedFile Bytes.zero 2 1024).run packedVol).1.2 ∧
      GrowsToEnd 2 1024 := by
  have hret : ((ext2Write packedFile Bytes.zero 2 1024).run packedVol).1.1 = 0 := by decide +kernel
  have h := write_nothing_iff packedFile_opened packedVol_counted (by norm_num) (by norm_num)
    (run_eq_of_fst (m := ext2Write packedFile Bytes.zero 2 1024) (s := packedVol) rfl)
  refine ⟨hret, (h.1 hret).mpr ⟨packedFile_size.ge, fun hl => ?_⟩, h.2.mpr (by norm_num)⟩
  exact absurd hl.doubly.1 (by decide)

/-- On the full volume a write of two bytes at 5000 returns `0` and sets the size to 5000. -/
theorem write_nothing_grows :
    ((ext2Write packedFile Bytes.zero 2 5000).run packedVol).1.1 = 0 ∧
      ((ext2Write packedFile Bytes.zero 2 5000).run packedVol).1.2.size = 5000 ∧
      ¬ Unchanged sampleVol.geo packedVol packedFile
        ((ext2Write packedFile Bytes.zero 2 5000).run packedVol).2
        ((ext2Write packedFile Bytes.zero 2 5000).run packedVol).1.2 := by
  have hsize : ((ext2Write packedFile Bytes.zero 2 5000).run packedVol).1.2.size = 5000 := by
    decide +kernel
  refine ⟨by decide +kernel, hsize, fun h => ?_⟩
  have h1 := h.size
  rw [hsize, packedFile_size] at h1
  norm_num at h1

end DvivonOS
