import DvivonOS.Ext2.Delete

/-!
# Inode tables

`ext2_read_inode_raw` and `ext2_write_inode_raw` locate a slot by the number of inodes in a block,
`ext2_get_inode_block` by its byte offset in the table. On every volume whose inode tables are
disjoint (`Tables`) the two agree, two inodes have two slots (`Tables.slots_apart`), and a raw inode
that has been written is read back with every other one as before (`inode_stored`).
-/

namespace DvivonOS

open Function

/-- The geometry of the inode tables, for blocks of at most `EXT2_MAX_BLOCK_SIZE` bytes. A table has
a block for each multiple of `inodes_per_block` below the number of inodes of a group, and the tables
of two groups share no block. -/
structure Tables (v : Vol) : Prop where
  bs_pos : 0 < v.blockSize
  bs_le : v.blockSize ≤ 4096
  isize_ge : 128 ≤ v.inodeSize
  isize_dvd : v.inodeSize ∣ v.blockSize
  ipg_pos : 1 ≤ v.sInodesPerGroup
  ipg_le : v.sInodesPerGroup ≤ 8 * v.blockSize
  inodes : v.sInodesCount ≤ v.groupsCount * v.sInodesPerGroup
  disjoint : ∀ g < v.groupsCount, ∀ g' < v.groupsCount, ∀ k k',
    k * (v.blockSize / v.inodeSize) < v.sInodesPerGroup →
    k' * (v.blockSize / v.inodeSize) < v.sInodesPerGroup →
    add32 (v.bgInodeTable g) k = add32 (v.bgInodeTable g') k' → g = g'

namespace Tables

variable {v : Vol} (ht : Tables v) {ino ino' : ℕ}

include ht

theorem isize_pos : 0 < v.inodeSize := lt_of_lt_of_le (by norm_num) ht.isize_ge

theorem ipb_mul : v.blockSize / v.inodeSize * v.inodeSize = v.blockSize :=
  Nat.div_mul_cancel ht.isize_dvd

theorem index_lt (ino : ℕ) : (ino - 1) % v.sInodesPerGroup < v.sInodesPerGroup :=
  Nat.mod_lt _ ht.ipg_pos

theorem byte_offset_lt : (ino - 1) % v.sInodesPerGroup * v.inodeSize < 2 ^ 32 := by
  have h1 := ht.index_lt ino
  have h2 := ht.ipg_le
  have h3 := ht.bs_le
  have h4 := Nat.le_of_dvd ht.bs_pos ht.isize_dvd
  calc (ino - 1) % v.sInodesPerGroup * v.inodeSize ≤ 32768 * 4096 :=
        Nat.mul_le_mul (by omega) (by omega)
    _ < 2 ^ 32 := by norm_num

theorem inodeLoc_block (h1 : 1 ≤ ino) : (v.inodeLoc ino).1 = ext2GetInodeBlock v ino := by
  unfold Vol.inodeLoc ext2GetInodeBlock
  rw [if_neg (by omega)]
  dsimp only
  rw [Nat.mod_eq_of_lt ht.byte_offset_lt]
  congr 1
  conv_rhs => rw [← ht.ipb_mul, mul_comm, Nat.mul_comm _ v.inodeSize,
    Nat.mul_div_mul_left _ _ ht.isize_pos]

theorem group_lt (h1 : 1 ≤ ino) (h2 : ino ≤ v.sInodesCount) :
    (ino - 1) / v.sInodesPerGroup < v.groupsCount := by
  rw [Nat.div_lt_iff_lt_mul ht.ipg_pos]
  have := ht.inodes
  omega

theorem block_index_lt :
    (ino - 1) % v.sInodesPerGroup / (v.blockSize / v.inodeSize) * (v.blockSize / v.inodeSize) <
      v.sInodesPerGroup :=
  lt_of_le_of_lt (Nat.div_mul_le_self _ _) (ht.index_lt ino)

theorem slots_apart (h1 : 1 ≤ ino) (h2 : ino ≤ v.sInodesCount) (h1' : 1 ≤ ino')
    (h2' : ino' ≤ v.sInodesCount) (hne : ino ≠ ino')
    (hblk : (v.inodeLoc ino).1 = (v.inodeLoc ino').1) :
    (v.inodeLoc ino).2 + 128 ≤ (v.inodeLoc ino').2 ∨
      (v.inodeLoc ino').2 + 128 ≤ (v.inodeLoc ino).2 := by
  unfold Vol.inodeLoc at *
  dsimp only at *
  have hg := ht.disjoint _ (ht.group_lt h1 h2) _ (ht.group_lt h1' h2') _ _ ht.block_index_lt
    ht.block_index_lt hblk
  rw [hg] at hblk
  have hidx := ht.index_lt ino
  have hidx' := ht.index_lt ino'
  have hipg := ht.ipg_le
  have hbs := ht.bs_le
  have hge := ht.isize_ge
  set ipb := v.blockSize / v.inodeSize with hipb
  set i := (ino - 1) % v.sInodesPerGroup with hi
  set i' := (ino' - 1) % v.sInodesPerGroup with hi'
  -- the blocks agree within the table, so the remainders differ
  have hk : i / ipb = i' / ipb := by
    have h3 : i / ipb < 2 ^ 32 := lt_of_le_of_lt (Nat.div_le_self _ _) (by omega)
    have h4 : i' / ipb < 2 ^ 32 := lt_of_le_of_lt (Nat.div_le_self _ _) (by omega)
    generalize i / ipb = a at hblk h3 ⊢
    generalize i' / ipb = b at hblk h4 ⊢
    unfold add32 at hblk
    omega
  have hr : i % ipb ≠ i' % ipb := by
    intro hr
    have hii : i = i' := by
      rw [← Nat.div_add_mod i ipb, ← Nat.div_add_mod i' ipb, hk, hr]
    have h5 := Nat.div_add_mod (ino - 1) v.sInodesPerGroup
    have h6 := Nat.div_add_mod (ino' - 1) v.sInodesPerGroup
    rw [← hi, hg, hii] at h5
    rw [← hi', h5] at h6
    omega
  have hstep : ∀ {a b : ℕ}, a < b → a * v.inodeSize + 128 ≤ b * v.inodeSize := by
    intro a b hab
    calc a * v.inodeSize + 128 ≤ a * v.inodeSize + v.inodeSize := by omega
      _ = (a + 1) * v.inodeSize := by rw [add_mul, one_mul]
      _ ≤ b * v.inodeSize := Nat.mul_le_mul_right _ hab
  exact (Nat.lt_or_gt_of_ne hr).imp hstep hstep

end Tables

/-! ## Reading and writing a slot -/

section Slots

variable {v v' : Vol} {ino : ℕ} {x : Bytes}

theorem run_writeInodeRaw (hrun : (ext2WriteInodeRaw ino x).run v = (0, v')) :
    ∃ env, v' = { v with
      disk := update v.disk (v.inodeLoc ino).1
        ((v.disk (v.inodeLoc ino).1).copy (v.inodeLoc ino).2 x 128)
      env := env } := by
  have h : After (ext2WriteInodeRaw ino x) v fun ret v' => ret = 0 → ∃ env, v' = { v with
      disk := update v.disk (v.inodeLoc ino).1
        ((v.disk (v.inodeLoc ino).1).copy (v.inodeLoc ino).2 x 128)
      env := env } := by
    unfold ext2WriteInodeRaw
    split_ifs with h0
    · rw [after_pure]
      intro h
      norm_num at h
    · unfold kmallocOk
      simp only [after_bind, after_get, after_set, after_pure]
      cases hk : v.env.kmalloc 0 with
      | false =>
        rw [Bool.not_false, if_pos rfl, after_pure]
        intro h
        norm_num at h
      | true =>
        rw [Bool.not_true, if_neg Bool.false_ne_true]
        unfold ext2ReadBlock
        simp only [after_bind, after_get, after_set]
        cases hr : v.env.read 0 with
        | some junk =>
          intro h
          exact absurd (show (-1 : ℤ) = 0 from h) (by norm_num)
        | none =>
          simp only [after_pure, ne_eq, not_true_eq_false, if_false]
          intro _
          exact ⟨_, rfl⟩
  exact h.of_run hrun rfl

theorem run_readInodeRaw (hk : v.env = Env.ok) (h0 : ino ≠ 0) :
    ((ext2ReadInodeRaw ino).run v).1 = (0, Bytes.zero.copy 0
      ((v.disk (v.inodeLoc ino).1).drop (v.inodeLoc ino).2) 128) := by
  show After (ext2ReadInodeRaw ino) v fun a _ => a = (0, _)
  unfold ext2ReadInodeRaw
  rw [if_neg h0, after_bind, after_get]
  dsimp only
  rw [after_kmalloc hk, after_bind, after_readBlock hk]
  rfl

/-- What `ext2_read_inode_raw` returns depends on the slot and on the environment only. -/
theorem readInodeRaw_congr (hloc : v'.inodeLoc ino = v.inodeLoc ino) (henv : v'.env = v.env)
    (hslot : ∀ i < 128, v'.disk (v.inodeLoc ino).1 ((v.inodeLoc ino).2 + i) =
      v.disk (v.inodeLoc ino).1 ((v.inodeLoc ino).2 + i)) :
    ((ext2ReadInodeRaw ino).run v').1 = ((ext2ReadInodeRaw ino).run v).1 := by
  have hcopy : Bytes.zero.copy 0 ((v'.disk (v.inodeLoc ino).1).drop (v.inodeLoc ino).2) 128 =
      Bytes.zero.copy 0 ((v.disk (v.inodeLoc ino).1).drop (v.inodeLoc ino).2) 128 := by
    funext i
    unfold Bytes.copy Bytes.drop
    split_ifs with hi
    · exact hslot _ (by omega)
    · rfl
  show After (ext2ReadInodeRaw ino) v' fun a _ => a = ((ext2ReadInodeRaw ino).run v).1
  have h : After (ext2ReadInodeRaw ino) v fun a _ => a = ((ext2ReadInodeRaw ino).run v).1 := rfl
  revert h
  generalize ((ext2ReadInodeRaw ino).run v).1 = out
  unfold ext2ReadInodeRaw kmallocOk ext2ReadBlock
  split_ifs with h0
  · exact id
  · simp only [after_bind, after_get, after_set, after_pure, hloc, henv]
    cases v.env.kmalloc 0 with
    | false => exact id
    | true =>
      simp only [Bool.not_true, Bool.false_eq_true, if_false, after_bind, after_get, after_set]
      cases v.env.read 0 with
      | some junk => exact id
      | none =>
        simp only [after_pure, if_true]
        unfold sizeofInode
        rw [hcopy]
        exact id

end Slots

/-- From `v` to `v'` the raw inode `x` has been stored under the number `ino`: it is read back, the
other inodes read as before in every environment, and no other block has changed. -/
structure InodeStored (v : Vol) (ino : ℕ) (x : Bytes) (v' : Vol) : Prop where
  self : ((ext2ReadInodeRaw ino).run { v' with env := Env.ok }).1 = (0, onDisk x)
  other : ∀ ino', 1 ≤ ino' → ino' ≤ v.sInodesCount → ino' ≠ ino → ∀ env,
    ((ext2ReadInodeRaw ino').run { v' with env := env }).1 =
      ((ext2ReadInodeRaw ino').run { v with env := env }).1
  block : (v.inodeLoc ino).1 = ext2GetInodeBlock v ino
  frame : ∀ b, b ≠ ext2GetInodeBlock v ino → v'.disk b = v.disk b

/-- **Raw inodes.** -/
theorem inode_stored {v v' : Vol} (ht : Tables v) {ino : ℕ} (h1 : 1 ≤ ino)
    (h2 : ino ≤ v.sInodesCount) {x : Bytes} (hrun : (ext2WriteInodeRaw ino x).run v = (0, v')) :
    InodeStored v ino x v' := by
  obtain ⟨env, rfl⟩ := run_writeInodeRaw hrun
  have hblock := ht.inodeLoc_block h1
  refine ⟨?_, fun ino' h1' h2' hne env' => ?_, hblock, fun b hb => ?_⟩
  · rw [run_readInodeRaw rfl (by omega)]
    refine congrArg (Prod.mk 0) (funext fun i => ?_)
    show Bytes.zero.copy 0 (Bytes.drop (update v.disk (v.inodeLoc ino).1 _
      (v.inodeLoc ino).1) (v.inodeLoc ino).2) 128 i = _
    rw [update_self]
    unfold onDisk
    by_cases hi : i < 128
    · rw [Bytes.copy_of_mem _ _ (Nat.zero_le _) (by omega), Nat.sub_zero,
        Bytes.copy_of_mem _ _ (Nat.zero_le _) (by omega), Nat.sub_zero]
      unfold Bytes.drop
      rw [Bytes.copy_of_mem _ _ (by omega) (by omega), Nat.add_sub_cancel_left]
    · rw [Bytes.copy_of_not_mem _ _ (by omega), Bytes.copy_of_not_mem _ _ (by omega)]
  · refine readInodeRaw_congr rfl rfl fun i hi => ?_
    show update v.disk (v.inodeLoc ino).1 _ (v.inodeLoc ino').1
      ((v.inodeLoc ino').2 + i) = v.disk (v.inodeLoc ino').1 ((v.inodeLoc ino').2 + i)
    by_cases hb : (v.inodeLoc ino').1 = (v.inodeLoc ino).1
    · -- another slot of the same block
      have hap := ht.slots_apart h1' h2' h1 h2 hne hb
      rw [hb, update_self]
      exact Bytes.copy_of_not_mem _ _ (by omega)
    · rw [update_of_ne hb]
  · rw [← hblock] at hb
    exact update_of_ne hb _ _

theorem sampleVol_tables : Tables sampleVol where
  bs_pos := by decide
  bs_le := by decide
  isize_ge := by decide
  isize_dvd := by decide
  ipg_pos := by decide
  ipg_le := by decide
  inodes := by decide
  disjoint g hg g' hg' _ _ _ _ _ := by
    have h : sampleVol.groupsCount = 1 := rfl
    omega

/-- Inode 11 of the small volume. -/
theorem inode_stored_sample :
    InodeStored sampleVol 11 fileInode ((ext2WriteInodeRaw 11 fileInode).run sampleVol).2 :=
  inode_stored sampleVol_tables (by norm_num) (by decide) rfl

end DvivonOS
