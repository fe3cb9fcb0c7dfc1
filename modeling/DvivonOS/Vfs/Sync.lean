import DvivonOS.Vfs.Mount

/-!
# Writing the metadata back

`ext2_sync` against the readers of the mount, over the bytes of the device.

1. A device with blocks of whole sectors is an image (`Holds`): reading and writing a block are a
   read and a copy of the image, and a read-modify-write changes only the bytes it is about.
2. `ext2_flush_superblock` copies the superblock to byte 1024 for every block size, and
   `ext2_flush_group_desc` the descriptor `g` to entry `g` of a table of 32-byte entries.
3. The readers compute the same places in sectors and in whole blocks (`readsBack_of_image`).
-/

namespace DvivonOS.Mounting

open Bytes Objects

/-! ## The device as an image -/

/-- The bytes of a device with 28-bit sector numbers. -/
def deviceBytes : ℕ := 2 ^ 28 * ataSectorSize

def MountState.byteAt (s : MountState) (a : ℕ) : UInt8 :=
  s.sector (a / ataSectorSize) (a % ataSectorSize)

/-- Blocks of `bs` bytes, reads that succeed, and the bytes of `img`. -/
structure Holds (s : MountState) (bs : ℕ) (img : Bytes) : Prop where
  blockSize : s.dev.blockSize = bs
  read : ∀ k, s.read k = none
  bytes : ∀ a < deviceBytes, s.byteAt a = img a

/-- Block sizes of whole sectors. -/
structure SectorBlocks (bs : ℕ) : Prop where
  pos : 0 < bs
  whole : ataSectorSize * (bs / ataSectorSize) = bs

variable {s s' : MountState} {bs b : ℕ} {img img' : Bytes}

theorem Holds.congr (h : Holds s bs img) (hi : ∀ a < deviceBytes, img a = img' a) :
    Holds s bs img' :=
  ⟨h.blockSize, h.read, fun a ha => (h.bytes a ha).trans (hi a ha)⟩

section Blocks

variable (h : Holds s bs img) (hs : SectorBlocks bs) (hb : b * bs + bs ≤ deviceBytes)

include hs hb in
theorem SectorBlocks.lt : ataSectorSize * (b * (bs / ataSectorSize)) = b * bs ∧
    b * (bs / ataSectorSize) + bs / ataSectorSize ≤ 2 ^ 28 ∧ 0 < bs / ataSectorSize := by
  have hw := hs.whole
  have hpos := hs.pos
  have hmul : ataSectorSize * (b * (bs / ataSectorSize)) = b * bs := by
    rw [Nat.mul_left_comm, hw]
  unfold deviceBytes ataSectorSize at *
  exact ⟨hmul, by omega, by omega⟩

include h hs hb

theorem Holds.sectors_eq : s.dev.sectors b 1 = (b * (bs / ataSectorSize), bs / ataSectorSize) := by
  obtain ⟨-, hle, hpos⟩ := hs.lt hb
  unfold BlockDevice.sectors
  rw [h.blockSize]
  refine Prod.ext (Nat.mod_eq_of_lt ?_) ((congrArg (· % 2 ^ 32) (one_mul _)).trans
    (Nat.mod_eq_of_lt ?_)) <;> omega

theorem Holds.readBlock : After (ataBlkReadBlock b) s fun r s' =>
    (∀ i < bs, r.2 i = img (b * bs + i)) ∧ Holds s' bs img ∧ s'.write = s.write := by
  obtain ⟨hmul, hle, hpos⟩ := hs.lt hb
  unfold ataBlkReadBlock ataBlkReadBlocks
  rw [after_bind, after_get, h.sectors_eq hs hb]
  dsimp only
  unfold ataReadSectors
  rw [if_neg hpos.ne']
  simp only [after_bind, after_get, after_set, h.read 0, after_pure]
  refine ⟨fun i hi => ?_, ⟨h.blockSize, fun k => h.read _, h.bytes⟩, trivial⟩
  rw [← h.bytes _ (by omega), ← hmul]
  unfold MountState.bytesFrom MountState.byteAt
  unfold deviceBytes ataSectorSize at *
  rw [Nat.mul_add_div (by norm_num), Nat.mul_add_mod, Nat.mod_eq_of_lt (by omega)]

theorem Holds.writeBlock (hw : ∀ k, s.write k = none) (buf : Bytes) :
    After (ataBlkWriteBlock b buf) s fun _ s' =>
      Holds s' bs (img.copy (b * bs) buf bs) ∧ ∀ k, s'.write k = none := by
  obtain ⟨hmul, hle, hpos⟩ := hs.lt hb
  unfold ataBlkWriteBlock
  rw [after_bind, after_get, h.sectors_eq hs hb]
  dsimp only
  unfold ataWriteSectors
  rw [if_neg hpos.ne']
  simp only [after_bind, after_get, after_set, hw 0, after_pure]
  refine ⟨⟨h.blockSize, h.read, fun a ha => ?_⟩, fun k => hw _⟩
  have hold := h.bytes a ha
  have hwhole := hs.whole
  unfold MountState.byteAt deviceBytes ataSectorSize at *
  simp only [Option.getD_none, min_self]
  -- the sectors from the first of the block on, counted modulo the size of the device
  by_cases hin : b * bs ≤ a ∧ a < b * bs + bs
  · have hk : (a / 512 + 2 ^ 28 - b * (bs / 512) % 2 ^ 28) % 2 ^ 28 = a / 512 - b * (bs / 512) := by
      omega
    rw [hk, if_pos (by omega), copy_of_mem _ _ hin.1 hin.2]
    unfold Bytes.drop
    congr 1
    omega
  · have hk : ¬ (a / 512 + 2 ^ 28 - b * (bs / 512) % 2 ^ 28) % 2 ^ 28 < bs / 512 := by
      omega
    rw [if_neg hk, hold, copy_of_not_mem _ _ (by omega)]

end Blocks

/-! ## Reading, modifying and writing a block -/

/-- What is left of a block that is written back changed in `n` bytes. -/
theorem copy_block {buf src : Bytes} {off n : ℕ} (hbuf : ∀ i < bs, buf i = img (b * bs + i))
    (hoff : off + n ≤ bs) (a : ℕ) :
    img.copy (b * bs) (buf.copy off src n) bs a = img.copy (b * bs + off) src n a := by
  by_cases hin : b * bs ≤ a ∧ a < b * bs + bs
  · rw [copy_of_mem _ _ hin.1 hin.2]
    by_cases hsrc : off ≤ a - b * bs ∧ a - b * bs < off + n
    · rw [copy_of_mem _ _ hsrc.1 hsrc.2, copy_of_mem _ _ (by omega) (by omega),
        Nat.sub_sub]
    · rw [copy_of_not_mem _ _ (by omega), copy_of_not_mem _ _ (by omega),
        hbuf _ (by omega), Nat.add_sub_cancel' hin.1]
  · rw [copy_of_not_mem _ _ (by omega), copy_of_not_mem _ _ (by omega)]

/-- The allocations and the writes succeed. -/
structure Works (s : Store MountState) : Prop where
  gives : ∀ k, s.objs.gives k = true
  write : ∀ k, s.rest.write k = none

/-- A block that is read into a buffer, changed and written back. -/
theorem Holds.modifyBlock {s : Store MountState} (h : Holds s.rest bs img) (hg : Works s)
    (hs : SectorBlocks bs) (hb : b * bs + bs ≤ deviceBytes) {off n : ℕ} (src : Bytes)
    (hoff : off + n ≤ bs) (y : ℕ) :
    After (do
      let r ← onRest (ataBlkReadBlock b)
      let _ ← onRest (ataBlkWriteBlock b (r.2.copy off src n))
      dropObj y) s fun _ s' => Works s' ∧ Holds s'.rest bs (img.copy (b * bs + off) src n) := by
  simp only [after_bind, after_onRest]
  refine (h.readBlock hs hb).mono fun r r₁ h₁ => ?_
  obtain ⟨hbuf, h₁, hwrite⟩ := h₁
  refine (h₁.writeBlock hs hb (by rw [hwrite]; exact hg.write) _).mono fun _ r₂ h₂ => ?_
  rw [after_dropObj]
  exact ⟨⟨hg.gives, h₂.2⟩, h₂.1.congr fun a _ => copy_block hbuf hoff a⟩

theorem Holds.newObj {s : Store MountState} (h : Holds s.rest bs img) (hg : Works s)
    {Q : Option ℕ → Store MountState → Prop}
    (hQ : ∀ y s₁, Works s₁ → Holds s₁.rest bs img → Q (some y) s₁) : After Objects.newObj s Q := by
  refine after_newObj_of_gives (hg.gives 0) fun y s₁ hgives hrest => hQ y s₁ ⟨fun k => ?_, ?_⟩ ?_
  · rw [hgives]
    exact hg.gives _
  · rw [hrest]
    exact hg.write
  · rwa [hrest]

/-! ## `ext2_sync` -/

/-- A block size of ext2 with the matching first data block, and descriptors that fit in memory. -/
structure FsData.Fits (fs : FsData) : Prop where
  size : fs.blockSize = sbBlockSize fs.sb
  sizes : fs.blockSize = 1024 ∨ fs.blockSize = 2048 ∨ fs.blockSize = 4096
  first : fs.sb.get32 20 = if fs.blockSize = 1024 then 1 else 0
  memory : fs.groupsCount * sizeofGroupDesc ≤ 2 ^ 32

/-- The byte at which the group descriptors start. -/
def FsData.table (fs : FsData) : ℕ := (fs.sb.get32 20 + 1) * fs.blockSize

namespace FsData.Fits

variable {fs : FsData} (hf : fs.Fits)

include hf

theorem sectorBlocks : SectorBlocks fs.blockSize := by
  obtain h | h | h := hf.sizes <;> rw [h] <;> exact ⟨by norm_num, by decide⟩

theorem table_eq : fs.table = if fs.blockSize = 4096 then 4096 else 2048 := by
  unfold FsData.table
  rw [hf.first]
  obtain h | h | h := hf.sizes <;> rw [h] <;> rfl

theorem gdPerBlock_mul : fs.blockSize / sizeofGroupDesc * sizeofGroupDesc = fs.blockSize := by
  obtain h | h | h := hf.sizes <;> rw [h] <;> rfl

theorem place {g : ℕ} (hg : g < fs.groupsCount) :
    add32 (fs.sb.get32 20 + 1) (g / (fs.blockSize / sizeofGroupDesc)) * fs.blockSize +
        g % (fs.blockSize / sizeofGroupDesc) * sizeofGroupDesc =
      fs.table + sizeofGroupDesc * g := by
  have hmem := hf.memory
  have hfirst := hf.first
  have hmul := hf.gdPerBlock_mul
  have hdiv := Nat.div_add_mod g (fs.blockSize / sizeofGroupDesc)
  have hle := Nat.div_le_self g (fs.blockSize / sizeofGroupDesc)
  have hblock : add32 (fs.sb.get32 20 + 1) (g / (fs.blockSize / sizeofGroupDesc)) =
      fs.sb.get32 20 + 1 + g / (fs.blockSize / sizeofGroupDesc) := by
    unfold add32 sizeofGroupDesc at *
    rw [Nat.mod_eq_of_lt]
    split_ifs at hfirst <;> omega
  rw [hblock]
  unfold FsData.table
  generalize fs.blockSize / sizeofGroupDesc = n at *
  calc (fs.sb.get32 20 + 1 + g / n) * fs.blockSize + g % n * sizeofGroupDesc
      = (fs.sb.get32 20 + 1) * fs.blockSize + sizeofGroupDesc * (n * (g / n) + g % n) := by
        rw [← hmul]; ring
    _ = (fs.sb.get32 20 + 1) * fs.blockSize + sizeofGroupDesc * g := by rw [hdiv]

end FsData.Fits

/-- The image with the first `n` descriptors written. -/
def descImage (fs : FsData) (img : Bytes) : ℕ → Bytes
  | 0 => img
  | n + 1 => (descImage fs img n).copy (fs.table + sizeofGroupDesc * n) (fs.gd n) sizeofGroupDesc

/-- The image that `ext2_sync` leaves. -/
def syncImage (fs : FsData) (img : Bytes) : Bytes :=
  descImage fs (img.copy ext2SuperblockOffset fs.sb sizeofSuperblock) fs.groupsCount

theorem descImage_out {fs : FsData} {n a : ℕ}
    (ha : a < fs.table ∨ fs.table + sizeofGroupDesc * n ≤ a) : descImage fs img n a = img a := by
  induction n with
  | zero => rfl
  | succ n ih =>
    unfold sizeofGroupDesc at *
    rw [descImage, sizeofGroupDesc, copy_of_not_mem _ _ (by omega), ih (by omega)]

theorem descImage_in {fs : FsData} {n g i : ℕ} (hg : g < n) (hi : i < sizeofGroupDesc) :
    descImage fs img n (fs.table + sizeofGroupDesc * g + i) = fs.gd g i := by
  induction n with
  | zero => omega
  | succ n ih =>
    rw [descImage]
    unfold sizeofGroupDesc at *
    by_cases hgn : g = n
    · subst hgn
      rw [copy_of_mem _ _ (by omega) (by omega), Nat.add_sub_cancel_left]
    · rw [copy_of_not_mem _ _ (by omega), ih (by omega)]

section Sync

variable {fs : FsData} (hf : fs.Fits) {s : Store MountState}

include hf

section Flush

variable (h : Holds s.rest fs.blockSize img)

include h

theorem Holds.flushSuperblock (hg : Works s) :
    After (ext2FlushSuperblock fs) s fun _ s' => Works s' ∧
      Holds s'.rest fs.blockSize (img.copy ext2SuperblockOffset fs.sb sizeofSuperblock) := by
  unfold ext2FlushSuperblock
  split_ifs with hbs
  · rw [after_bind, after_onRest]
    refine (h.writeBlock (b := 1) hf.sectorBlocks (by rw [hbs]; decide) hg.write fs.sb).mono
      fun _ r hr => ?_
    rw [hbs] at hr ⊢
    exact ⟨⟨hg.gives, hr.2⟩, hr.1⟩
  · have hsizes := hf.sizes
    have hroom : ext2SuperblockOffset + sizeofSuperblock ≤ fs.blockSize := by
      unfold ext2SuperblockOffset sizeofSuperblock
      omega
    rw [after_bind]
    refine h.newObj hg fun y s₁ hg₁ h₁ => ?_
    have h0 := h₁.modifyBlock (b := 0) hg₁ hf.sectorBlocks
      (by unfold deviceBytes ataSectorSize; omega) fs.sb hroom y
    rwa [Nat.zero_mul, Nat.zero_add] at h0

theorem Holds.flushGroupDesc (hg : Works s) {g : ℕ} (hlt : g < fs.groupsCount) :
    After (ext2FlushGroupDesc fs g) s fun _ s' => Works s' ∧
      Holds s'.rest fs.blockSize
        (img.copy (fs.table + sizeofGroupDesc * g) (fs.gd g) sizeofGroupDesc) := by
  have hplace := hf.place hlt
  have hmem := hf.memory
  have htable := hf.table_eq
  have hmul := hf.gdPerBlock_mul
  have hsizes := hf.sizes
  have hmod : g % (fs.blockSize / sizeofGroupDesc) < fs.blockSize / sizeofGroupDesc :=
    Nat.mod_lt _ (by unfold sizeofGroupDesc; omega)
  unfold ext2FlushGroupDesc
  rw [← hplace, after_bind]
  refine h.newObj hg fun y s₁ hg₁ h₁ => ?_
  refine h₁.modifyBlock hg₁ hf.sectorBlocks ?_ _ ?_ y
  · unfold sizeofGroupDesc deviceBytes ataSectorSize at *
    split_ifs at htable <;> omega
  · unfold sizeofGroupDesc at *
    omega

theorem Holds.syncGroups {n : ℕ} (hg : Works s) (hn : n ≤ fs.groupsCount) :
    After (syncGroups fs n) s fun _ s' =>
      Works s' ∧ Holds s'.rest fs.blockSize (descImage fs img n) := by
  induction n with
  | zero => exact ⟨hg, h⟩
  | succ n ih =>
    unfold Mounting.syncGroups
    rw [after_bind]
    refine (ih (by omega)).mono fun _ s₁ h₁ => ?_
    exact h₁.2.flushGroupDesc hf h₁.1 (by omega)

theorem Holds.sync (hg : Works s) :
    After (ext2Sync fs) s fun _ s' => Holds s'.rest fs.blockSize (syncImage fs img) := by
  unfold ext2Sync
  rw [after_bind]
  refine (h.flushSuperblock hf hg).mono fun _ s₁ h₁ => ?_
  exact (h₁.2.syncGroups hf h₁.1 le_rfl).mono fun _ s₂ h₂ => h₂.2

end Flush

end Sync

/-! ## Reading back -/

theorem Holds.readSuperblock {s : MountState} (h : Holds s ataSectorSize img) :
    After ext2ReadSuperblock s fun r _ =>
      r.1 = 0 ∧ ∀ i < sizeofSuperblock, r.2 i = img (ext2SuperblockOffset + i) := by
  unfold ext2ReadSuperblock ataBlkReadBlocks
  rw [after_bind, after_modify, after_bind, after_get]
  have hsec : s.dev.sectors 2 2 = (2, 2) := by
    unfold BlockDevice.sectors
    rw [h.blockSize]
    rfl
  unfold ataReadSectors
  simp only [hsec, OfNat.ofNat_ne_zero, if_false, after_bind, after_get, after_set, h.read 0,
    after_pure, true_and]
  intro i hi
  unfold sizeofSuperblock at hi
  have hlt : ext2SuperblockOffset + i < deviceBytes := by
    unfold ext2SuperblockOffset deviceBytes ataSectorSize
    omega
  have hdiv : (1024 + i) / 512 = (2 + i / 512) % 2 ^ 28 := by omega
  have hmod : (1024 + i) % 512 = i % 512 := by omega
  rw [← h.bytes _ hlt]
  unfold MountState.bytesFrom MountState.byteAt ext2SuperblockOffset ataSectorSize
  rw [hdiv, hmod]

/-- The entry `g` of a table of descriptors at `table`. -/
def entryAt (img : Bytes) (table g i : ℕ) : UInt8 := img (table + sizeofGroupDesc * g + i)

/-- One round reads the descriptors of one block. -/
theorem readGroupDescLoop_entries {gdPerBlock count table : ℕ} (hs : SectorBlocks bs)
    (hper : gdPerBlock * sizeofGroupDesc = bs)
    (hroom : table + sizeofGroupDesc * count + bs ≤ deviceBytes) :
    ∀ {fuel read gdBlock : ℕ} {groups : ℕ → Bytes} {s : MountState}, Holds s bs img →
      count ≤ read + fuel → (read < count → gdBlock * bs = table + sizeofGroupDesc * read) →
      (∀ g < read, ∀ i < sizeofGroupDesc, groups g i = entryAt img table g i) →
      After (readGroupDescLoop gdPerBlock count fuel read gdBlock groups) s fun groups' _ =>
        ∀ g < count, ∀ i < sizeofGroupDesc, groups' g i = entryAt img table g i := by
  intro fuel
  induction fuel with
  | zero =>
    intro read gdBlock groups s _ hfuel _ hdone g hg
    exact hdone g (by omega)
  | succ fuel ih =>
    intro read gdBlock groups s h hfuel hblock hdone
    unfold readGroupDescLoop
    split_ifs with hlt
    · have hpos := hs.pos
      have hb := hblock hlt
      have hblk : gdBlock * bs + bs ≤ deviceBytes := by
        unfold sizeofGroupDesc at *
        omega
      rw [after_bind]
      refine (h.readBlock hs hblk).mono fun r s₁ h₁ => ?_
      obtain ⟨hbuf, h₁, -⟩ := h₁
      dsimp only
      have hn : 0 < gdPerBlock := Nat.pos_of_ne_zero fun h0 => by rw [h0] at hper; omega
      refine ih h₁ (by omega) (fun hlt' => ?_) fun g hg i hi => ?_
      · -- another round: this one has read a whole block
        have hfull : min (count - read) gdPerBlock = gdPerBlock := by omega
        have hadd : add32 gdBlock 1 = gdBlock + 1 := by
          have hwhole := hs.whole
          unfold add32 deviceBytes ataSectorSize at *
          have hle : gdBlock * 512 ≤ gdBlock * bs := Nat.mul_le_mul_left _ (by omega)
          rw [Nat.mod_eq_of_lt (by omega)]
        rw [hadd, hfull, add_mul, one_mul, hb, ← hper]
        ring
      · by_cases hnew : read ≤ g
        · rw [if_pos ⟨hnew, hg⟩, copy_of_mem _ _ (Nat.zero_le _) (by omega), Nat.sub_zero]
          unfold Bytes.drop entryAt
          rw [hbuf _ (by unfold sizeofGroupDesc at *; omega), hb]
          unfold sizeofGroupDesc at *
          congr 1
          omega
        · rw [if_neg (by omega)]
          exact hdone g (by omega) i hi
    · intro g hg
      exact hdone g (by omega)

/-- What the mount reads from a device with these sectors is the superblock and the descriptors of
`fs`: the superblock while the blocks are sectors, the descriptors in blocks of the volume. -/
structure ReadsBack (fs : FsData) (sector : ℕ → Bytes) : Prop where
  superblock : ∀ t : MountState, t.sector = sector → t.dev.blockSize = ataSectorSize →
    (∀ k, t.read k = none) → After ext2ReadSuperblock t fun r _ =>
      r.1 = 0 ∧ ∀ i < sizeofSuperblock, r.2 i = fs.sb i
  groups : ∀ (t : Store MountState) (sb : Bytes), t.rest.sector = sector →
    t.rest.dev.blockSize = fs.blockSize → (∀ k, t.rest.read k = none) →
    (∀ k, t.objs.gives k = true) →
    (∀ i < sizeofSuperblock, sb i = fs.sb i) → fs.groupsCount ≠ 0 →
    After (ext2ReadGroupDesc sb fs.groupsCount) t fun r _ =>
      ∃ gd, r = some gd ∧ ∀ g < fs.groupsCount, ∀ i < sizeofGroupDesc, gd g i = fs.gd g i

/-- The bytes that `ext2_sync` is about. -/
def FsData.Written (fs : FsData) (a : ℕ) : Prop :=
  (ext2SuperblockOffset ≤ a ∧ a < ext2SuperblockOffset + sizeofSuperblock) ∨
    (fs.table ≤ a ∧ a < fs.table + sizeofGroupDesc * fs.groupsCount)

section Image

variable {fs : FsData} (hf : fs.Fits)

theorem syncImage_of_not_written {a : ℕ} (ha : ¬ fs.Written a) : syncImage fs img a = img a := by
  unfold FsData.Written at ha
  unfold syncImage
  rw [descImage_out (by omega), copy_of_not_mem _ _ (by omega)]

theorem entryAt_syncImage {g i : ℕ} (hg : g < fs.groupsCount) (hi : i < sizeofGroupDesc) :
    entryAt (syncImage fs img) fs.table g i = fs.gd g i := descImage_in hg hi

include hf

theorem syncImage_superblock {i : ℕ} (hi : i < sizeofSuperblock) :
    syncImage fs img (ext2SuperblockOffset + i) = fs.sb i := by
  have htable := hf.table_eq
  unfold syncImage
  rw [descImage_out, copy_of_mem _ _ (by omega) (by omega), Nat.add_sub_cancel_left]
  unfold ext2SuperblockOffset sizeofSuperblock at *
  split_ifs at htable <;> omega

theorem readsBack_of_image {s : MountState} (h : Holds s fs.blockSize (syncImage fs img)) :
    ReadsBack fs s.sector where
  superblock t hsec hdev hread := by
    have ht : Holds t ataSectorSize (syncImage fs img) := by
      refine ⟨hdev, hread, fun a ha => ?_⟩
      rw [← h.bytes a ha]
      exact congrFun (congrFun hsec _) _
    exact ht.readSuperblock.mono fun r _ hr =>
      ⟨hr.1, fun i hi => (hr.2 i hi).trans (syncImage_superblock hf hi)⟩
  groups t sb hsec hdev hread hgives hsb h0 := by
    have ht : Holds t.rest fs.blockSize (syncImage fs img) := by
      refine ⟨hdev, hread, fun a ha => ?_⟩
      rw [← h.bytes a ha]
      exact congrFun (congrFun hsec _) _
    have hfield : ∀ o, o + 4 ≤ sizeofSuperblock → sb.get32 o = fs.sb.get32 o := fun o ho =>
      get32_congr fun i _ hi => hsb i (by omega)
    have hsize : sbBlockSize sb = fs.blockSize := by
      rw [hf.size]
      unfold sbBlockSize
      rw [hfield 24 (by decide)]
    have hmem := hf.memory
    have htable := hf.table_eq
    have hsizes := hf.sizes
    have hfirst := hf.first
    unfold ext2ReadGroupDesc
    rw [if_neg h0, after_bind]
    refine after_newObj_of_gives (hgives 0) fun y s₁ _ hrest => ?_
    dsimp only
    rw [← hrest] at ht
    rw [after_bind, after_onRest, hsize, hfield 20 (by decide)]
    have hroom : fs.table + sizeofGroupDesc * fs.groupsCount + fs.blockSize ≤ deviceBytes := by
      unfold sizeofGroupDesc deviceBytes ataSectorSize at *
      split_ifs at htable <;> omega
    refine (readGroupDescLoop_entries hf.sectorBlocks hf.gdPerBlock_mul hroom ht ?_ ?_ ?_).mono
      fun groups _ hgroups => ?_
    · omega
    · intro _
      have hadd : add32 (fs.sb.get32 20) 1 = fs.sb.get32 20 + 1 := by
        rw [hfirst]
        split_ifs <;> rfl
      rw [hadd, Nat.mul_zero, Nat.add_zero]
      rfl
    · intro g hg
      omega
    · rw [after_bind, after_dropObj, after_pure]
      exact ⟨groups, rfl, fun g hg i hi => (hgroups g hg i hi).trans (entryAt_syncImage hg hi)⟩

end Image

/-- **`ext2_sync` and the mount.** What the mount reads afterwards is the superblock and the
descriptors in memory, and every other byte of the device is as before. -/
theorem sync_reads_back {fs : FsData} (hf : fs.Fits) {s : Store MountState} (hw : Works s)
    (hread : ∀ k, s.rest.read k = none) (hdev : s.rest.dev.blockSize = fs.blockSize) :
    After (ext2Sync fs) s fun _ s' => ReadsBack fs s'.rest.sector ∧
      ∀ a < deviceBytes, ¬ fs.Written a → s'.rest.byteAt a = s.rest.byteAt a := by
  have h : Holds s.rest fs.blockSize s.rest.byteAt := ⟨hdev, hread, fun _ _ => rfl⟩
  refine (h.sync hf hw).mono fun _ s' h' => ⟨readsBack_of_image hf h', fun a ha hout => ?_⟩
  rw [h'.bytes a ha, syncImage_of_not_written hout]

/-- Forty groups, whose descriptors take two blocks of 1024 bytes. -/
def fortyGroups : FsData where
  obj := 0
  sbObj := 1
  gdObj := 2
  sb := (Bytes.zero.put16 56 ext2Magic).put32 20 1
  gd g := Bytes.zero.put32 0 g
  blockSize := 1024
  groupsCount := 40

theorem kilobyte_lt : 1024 < 2 ^ 32 := by norm_num

/-- An empty device, mounted. -/
def blankDevice : Store MountState where
  objs :=
    { live := {0, 1, 2}, next := 3, gives := fun _ => true, refs := fun _ => 0, misused := false }
  rest :=
    { dev := ⟨3, 0, 1024, 0, kilobyte_lt⟩, sector := fun _ => Bytes.zero, read := fun _ => none
      write := fun _ => none, mountList := [], rootMount := none, sbReads := [] }

theorem fortyGroups_read_back :
    ReadsBack fortyGroups ((ext2Sync fortyGroups).run blankDevice).2.rest.sector := by
  have hf : fortyGroups.Fits := ⟨by decide +kernel, .inl rfl, by decide +kernel, by decide⟩
  exact (sync_reads_back hf ⟨fun _ => rfl, fun _ => rfl⟩ (fun _ => rfl) rfl).1

end DvivonOS.Mounting
