import DvivonOS.Disk.Blocks
import DvivonOS.Ext2.Bitmap

/-!
# The device of a volume

For the ext2 code a device holds blocks. The ATA driver provides one on a drive that holds sectors:
as far as these have a 28-bit address, block calls leave in memory what they leave there on a
volume.
-/

namespace DvivonOS.Pio

open Function

/-- A block call with its buffer, or a store of the code between the calls. -/
inductive Access
  | read (block buf : ℕ)
  | write (block buf : ℕ)
  | store (addr : ℕ) (b : UInt8)

/-- The accesses on a volume, with the memory. -/
def volumeRun : List Access → Bytes → FsM Bytes
  | [], mem => return mem
  | .read block buf :: xs, mem => do
    let r ← ext2ReadBlock block
    volumeRun xs (mem.copy buf r.2 (← get).blockSize)
  | .write block buf :: xs, mem => do
    let _ ← ext2WriteBlock block (mem.drop buf)
    volumeRun xs mem
  | .store addr b :: xs, mem => volumeRun xs (mem.put8 addr b)

def Access.onDrive (T : Timing) (blockSize : ℕ) : Access → PioM AtaError
  | read block buf => ataBlkReadBlock T blockSize block buf
  | write block buf => ataBlkWriteBlock T blockSize block buf
  | store addr b => fun a => some (.none, { a with mem := a.mem.put8 addr b })

/-- The accesses on the drive, up to the first error. -/
def driveRun (T : Timing) (blockSize : ℕ) : List Access → PioM AtaError
  | [] => return .none
  | x :: xs => do
    let e ← x.onDrive T blockSize
    if e ≠ .none then return e else driveRun T blockSize xs

/-- The `spb` sectors of the block have 28-bit addresses, and the buffer is not null. -/
def Access.Fits (spb : ℕ) : Access → Prop
  | read block buf | write block buf => buf ≠ 0 ∧ block * spb + spb ≤ lbaSectors
  | store _ _ => True

/-- The drive holds the blocks of the volume, of `spb` sectors each, and the memory is the same. -/
structure Provides (spb : ℕ) (v : Vol) (mem : Bytes) (a : Sys) : Prop where
  idle : Idle a
  env : v.env = Env.ok
  size : v.blockSize = ataSectorSize * spb
  mem : a.mem = mem
  block : ∀ b, b * spb + spb ≤ lbaSectors → ∀ k < ataSectorSize * spb,
    v.disk b k = a.disk (ataSectorSize * (b * spb) + k)

section Simulation

variable {spb block buf : ℕ} {v : Vol} {mem : Bytes} {a a' : Sys}

theorem Provides.read (h : Provides spb v mem a) (hfit : block * spb + spb ≤ lbaSectors)
    (hmoved : Moved .readSectors (block * spb) spb buf a a') :
    Provides spb v (mem.copy buf (v.disk block) v.blockSize) a' := by
  have hmem : a'.mem = _ := hmoved.effect.mem
  have hdisk : a'.disk = a.disk := hmoved.effect.disk
  refine ⟨hmoved.idle, h.env, h.size, ?_, by rw [hdisk]; exact h.block⟩
  rw [hmem, if_pos rfl, h.mem, h.size]
  funext i
  refine if_ctx_congr Iff.rfl (fun hi => ?_) fun _ => rfl
  rw [h.block block hfit _ (by omega)]
  unfold sectorBytes ataSectorSize at *
  rw [Nat.mod_eq_of_lt (by omega)]
  congr 1
  omega

theorem Provides.write (h : Provides spb v mem a) (hfit : block * spb + spb ≤ lbaSectors)
    (hmoved : Moved .writeSectors (block * spb) spb buf a a') :
    Provides spb { v with disk := update v.disk block (mem.drop buf) } mem a' := by
  have hdisk : a'.disk = _ := hmoved.effect.disk
  rw [if_pos rfl, storeSectors_low _ _ hfit, h.mem] at hdisk
  refine ⟨hmoved.idle, h.env, h.size, hmoved.effect.mem.trans h.mem, fun b hb k hk => ?_⟩
  rw [hdisk]
  by_cases hne : b = block
  · rw [hne, Bytes.copy_of_mem _ _ (by omega) (by omega), Nat.add_sub_cancel_left]
    exact congrFun (update_self ..) k
  · have hapart : b * spb + spb ≤ block * spb ∨ block * spb + spb ≤ b * spb := by
      rw [← Nat.succ_mul, ← Nat.succ_mul]
      exact (Nat.lt_or_gt_of_ne hne).imp (Nat.mul_le_mul_right _) (Nat.mul_le_mul_right _)
    rw [Bytes.copy_of_not_mem _ _ (by unfold ataSectorSize at *; omega), ← h.block b hb k hk]
    exact congrFun (update_of_ne hne ..) k

end Simulation

/-- **Refinement.** On a drive that holds the blocks of a volume, whose interrupts come in time and
which is ready for data before the polling ends, all accesses succeed. They leave the memory as on the
volume, and the drive with the blocks of the volume. -/
theorem drive_provides_volume {T : Timing} (hT : T.InTime) (hd : ∀ n, T.delay n < 30000) {spb : ℕ}
    (hspb : spb ≠ 0) {v : Vol} {mem : Bytes} {a : Sys} (h : Provides spb v mem a) (xs : List Access)
    (hxs : ∀ x ∈ xs, x.Fits spb) :
    ∃ a', driveRun T (ataSectorSize * spb) xs a = some (.none, a') ∧
      After (volumeRun xs mem) v fun mem' v' => Provides spb v' mem' a' := by
  have hdiv : ataSectorSize * spb / ataSectorSize = spb := Nat.mul_div_cancel_left _ (by decide)
  induction xs generalizing v mem a with
  | nil => exact ⟨a, rfl, h⟩
  | cons x xs ih =>
    obtain ⟨hx, hrest⟩ := List.forall_mem_cons.mp hxs
    cases x with
    | store addr b =>
      exact ih ⟨⟨h.idle.1, h.idle.2, h.idle.3⟩, h.env, h.size, congrArg (·.put8 addr b) h.mem,
        h.block⟩ hrest
    | read block buf =>
      obtain ⟨a₁, hrun, hmoved⟩ := ataReadSectors_run hT (block * spb) h.idle hx.1 hspb
      rw [← mul_mod_low (Nat.le_of_add_right_le hx.2), ← hdiv] at hrun
      obtain ⟨a', hloop, h'⟩ := ih (h.read hx.2 hmoved) hrest
      refine ⟨a', (bind_of_run hrun).trans hloop, ?_⟩
      rw [volumeRun, after_bind, after_readBlock h.env]
      exact h'
    | write block buf =>
      obtain ⟨a₁, hrun, hmoved⟩ := ataWriteSectors_run hT hd (block * spb) h.idle hx.1 hspb
      rw [← mul_mod_low (Nat.le_of_add_right_le hx.2), ← hdiv] at hrun
      obtain ⟨a', hloop, h'⟩ := ih (h.write hx.2 hmoved) hrest
      exact ⟨a', (bind_of_run hrun).trans hloop, h'⟩

theorem drive_provides_volume_twice :
    let v : Vol := ⟨fun b => sampleSys.disk.drop (512 * (b * 2)), Bytes.zero, fun _ => Bytes.zero,
      1024, 0, Inode.ofDisk 2 Bytes.zero, Env.ok⟩
    let xs : List Access := [.store 4096 7, .write 5 4096, .read 5 8192]
    ∃ a', driveRun sampleTiming (ataSectorSize * 2) xs sampleSys = some (.none, a') ∧
      After (volumeRun xs Bytes.zero) v fun mem' v' => Provides 2 v' mem' a' := by
  intro v xs
  refine drive_provides_volume sampleTiming_inTime sampleTiming_delay (by simp) ?_ xs ?_
  · exact ⟨sampleSys_idle, rfl, rfl, rfl, fun _ _ _ _ => rfl⟩
  · simp [xs, Access.Fits, lbaSectors]

end DvivonOS.Pio
