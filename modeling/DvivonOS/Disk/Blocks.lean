import DvivonOS.Disk.Transfer

/-!
# The block device

The adapter that turns block numbers into sectors. Its products are taken in 32 bits, and the
address of a command in 28 bits, without a check at either place. As long as the last sector of a
request has a 28-bit address, `n` blocks in one call are the same as `n` calls for one block.
-/

namespace DvivonOS.Pio

section Adapter

variable (T : Timing)

def ataBlkReadBlock (blockSize block buf : ℕ) : PioM AtaError :=
  let sectorsPerBlock := blockSize / ataSectorSize
  let lba := block * sectorsPerBlock % 2 ^ 32
  ataReadSectors T lba sectorsPerBlock buf

def ataBlkWriteBlock (blockSize block buf : ℕ) : PioM AtaError :=
  let sectorsPerBlock := blockSize / ataSectorSize
  let lba := block * sectorsPerBlock % 2 ^ 32
  ataWriteSectors T lba sectorsPerBlock buf

def ataBlkReadBlocks (blockSize start count buf : ℕ) : PioM AtaError :=
  let sectorsPerBlock := blockSize / ataSectorSize
  let lba := start * sectorsPerBlock % 2 ^ 32
  let totalSectors := count * sectorsPerBlock % 2 ^ 32
  ataReadSectors T lba totalSectors buf

def ataBlkWriteBlocks (blockSize start count buf : ℕ) : PioM AtaError :=
  let sectorsPerBlock := blockSize / ataSectorSize
  let lba := start * sectorsPerBlock % 2 ^ 32
  let totalSectors := count * sectorsPerBlock % 2 ^ 32
  ataWriteSectors T lba totalSectors buf

end Adapter

/-! ## Sectors below `2 ^ 28` -/

/-- The sectors of the request are those of the buffer, and all others are as before. -/
structure Stored (lba count buf : ℕ) (a a' : Sys) : Prop where
  sector : ∀ i < count, ∀ k < ataSectorSize,
    a'.disk (ataSectorSize * (lba + i) + k) = a.mem (buf + ataSectorSize * i + k)
  other : ∀ b, b / ataSectorSize < lba ∨ lba + count ≤ b / ataSectorSize → a'.disk b = a.disk b
  mem : a'.mem = a.mem

/-- The buffer has the sectors of the request, and nothing else has changed. -/
structure Fetched (lba count buf : ℕ) (a a' : Sys) : Prop where
  sector : ∀ i < count, ∀ k < ataSectorSize,
    a'.mem (buf + ataSectorSize * i + k) = a.disk (ataSectorSize * (lba + i) + k)
  other : ∀ p, p < buf ∨ buf + ataSectorSize * count ≤ p → a'.mem p = a.mem p
  disk : a'.disk = a.disk

/-- The commands of the request ask for 1 to 255 sectors each, and together for these. -/
def Requested (cmd : AtaCmd) (lba count : ℕ) (a a' : Sys) : Prop :=
  ∃ l, a'.issued = a.issued ++ l ∧ (∀ r ∈ l, r.cmd = cmd ∧ 1 ≤ r.count ∧ r.count ≤ 255) ∧
    l.flatMap (fun r => sectorsFrom r.first r.count) = (List.range count).map (lba + ·)

section Low

variable {cmd : AtaCmd} {lba count buf : ℕ} {a a' : Sys}

theorem sectorsFrom_low (h : lba + count ≤ lbaSectors) :
    sectorsFrom lba count = (List.range count).map (lba + ·) := by
  refine List.map_congr_left fun i hi => Nat.mod_eq_of_lt ?_
  have := List.mem_range.mp hi
  omega

theorem storeSectors_low (disk src : Bytes) (h : lba + count ≤ lbaSectors) :
    storeSectors disk lba src count =
      disk.copy (ataSectorSize * lba) src (ataSectorSize * count) := by
  induction count with
  | zero => exact (Bytes.copy_zero _ _ _).symm
  | succ n ih =>
    rw [storeSectors_succ, ih (by omega), Nat.mod_eq_of_lt (by omega), Nat.mul_add, Bytes.copy_copy]
    rfl

theorem Moved.requested (h : Moved cmd lba count buf a a') (hlba : lba + count ≤ lbaSectors) :
    Requested cmd lba count a a' := by
  obtain ⟨l, hissued, hl, hsectors⟩ := h.commands
  exact ⟨l, hissued, hl, hsectors.trans (sectorsFrom_low hlba)⟩

theorem Moved.stored (h : Moved .writeSectors lba count buf a a') (hlba : lba + count ≤ lbaSectors) :
    Stored lba count buf a a' := by
  have hdisk : a'.disk = _ := h.effect.disk
  rw [if_pos rfl, storeSectors_low _ _ hlba] at hdisk
  refine ⟨fun i hi k hk => ?_, fun b hb => ?_, h.effect.mem⟩
  · rw [hdisk, Bytes.copy_of_mem _ _ (by unfold ataSectorSize at hk ⊢; omega)
      (by unfold ataSectorSize at hk ⊢; omega), Bytes.drop]
    congr 1
    unfold ataSectorSize
    omega
  · rw [hdisk, Bytes.copy_of_not_mem]
    unfold ataSectorSize at hb ⊢
    omega

theorem Moved.fetched (h : Moved .readSectors lba count buf a a') (hlba : lba + count ≤ lbaSectors) :
    Fetched lba count buf a a' := by
  have hmem : a'.mem = _ := h.effect.mem
  rw [if_pos rfl] at hmem
  refine ⟨fun i hi k hk => ?_, fun p hp => ?_, h.effect.disk⟩
  · have hdiv : (buf + ataSectorSize * i + k - buf) / ataSectorSize = i := by
      unfold ataSectorSize at hk ⊢
      omega
    have hmod : (buf + ataSectorSize * i + k - buf) % ataSectorSize = k := by
      unfold ataSectorSize at hk ⊢
      omega
    rw [hmem, Bytes.copy_of_mem _ _ (by omega) (by unfold ataSectorSize at hk ⊢; omega), sectorBytes,
      hdiv, hmod, Nat.mod_eq_of_lt (by omega)]
  · rw [hmem, Bytes.copy_of_not_mem _ _ hp]

end Low

/-! ## Blocks one by one -/

/-- One call for each of `count` blocks, up to the first error; a block takes `size` bytes of the
buffer. -/
def eachBlock (op : ℕ → ℕ → PioM AtaError) (size : ℕ) : ℕ → ℕ → ℕ → PioM AtaError
  | 0, _, _ => pure .none
  | n + 1, block, buf => do
    let result ← op block buf
    if result ≠ .none then return result
    eachBlock op size n (block + 1) (buf + size)

def outcome (r : Option (AtaError × Sys)) : Option (AtaError × Bytes × Bytes) :=
  r.map fun p => (p.1, p.2.disk, p.2.mem)

section Each

variable {cmd : AtaCmd} {spb block count buf lba : ℕ} {a a₁ a₂ : Sys}

theorem Moved.outcome_eq (h₁ : Moved cmd lba count buf a a₁) (h₂ : Moved cmd lba count buf a a₂) :
    outcome (some (.none, a₁)) = outcome (some (.none, a₂)) := by
  unfold outcome
  rw [Option.map_some, Option.map_some, h₁.effect.disk, h₁.effect.mem, h₂.effect.disk,
    h₂.effect.mem]

theorem eachBlock_run (op : ℕ → ℕ → PioM AtaError) (block buf : ℕ)
    (hop : ∀ block buf a, Idle a → buf ≠ 0 → (block + 1) * spb ≤ lbaSectors →
      ∃ a', op block buf a = some (.none, a') ∧ Moved cmd (block * spb) spb buf a a')
    (h : Idle a) (hb : buf ≠ 0) (hle : (block + count) * spb ≤ lbaSectors) :
    ∃ a', eachBlock op (ataSectorSize * spb) count block buf a = some (.none, a') ∧
      Moved cmd (block * spb) (count * spb) buf a a' := by
  induction count generalizing block buf a with
  | zero =>
    rw [Nat.zero_mul]
    exact ⟨a, rfl, .refl h⟩
  | succ n ih =>
    have hfirst : (block + 1) * spb ≤ lbaSectors :=
      (Nat.mul_le_mul_right _ (by omega)).trans hle
    obtain ⟨a₁, hrun, hmoved⟩ := hop block buf a h hb hfirst
    obtain ⟨a', hloop, hmoved'⟩ := ih (block + 1)
      (buf + ataSectorSize * spb) hmoved.idle (by omega) (by rwa [Nat.add_assoc, Nat.add_comm 1])
    refine ⟨a', ?_, ?_⟩
    · rw [eachBlock, bind_of_run hrun, if_neg (by simp)]
      exact hloop
    · have htrans := hmoved.trans hmoved' (by rw [Nat.succ_mul])
      rwa [Nat.add_comm spb, ← Nat.succ_mul] at htrans

theorem mul_mod_low {n : ℕ} (h : n ≤ lbaSectors) : n % 2 ^ 32 = n := by
  unfold lbaSectors at h
  exact Nat.mod_eq_of_lt (by omega)

theorem blocks_eq_each (request : ℕ → ℕ → ℕ → PioM AtaError)
    (hempty : ∀ lba buf a, request lba 0 buf a = some (.unknown, a))
    (hrequest : ∀ lba count buf a, Idle a → buf ≠ 0 → count ≠ 0 →
      ∃ a', request lba count buf a = some (.none, a') ∧ Moved cmd lba count buf a a')
    (h : Idle a) (hb : buf ≠ 0) (hcount : 1 ≤ count) (hle : (block + count) * spb ≤ lbaSectors) :
    outcome (request (block * spb % 2 ^ 32) (count * spb % 2 ^ 32) buf a) =
      outcome (eachBlock (fun block buf => request (block * spb % 2 ^ 32) spb buf)
        (ataSectorSize * spb) count block buf a) := by
  by_cases hspb : spb = 0
  · -- both calls fail
    subst hspb
    obtain ⟨n, rfl⟩ := Nat.exists_eq_succ_of_ne_zero (by omega : count ≠ 0)
    rw [eachBlock, Nat.mul_zero block, Nat.mul_zero n.succ, Nat.zero_mod, hempty,
      bind_of_run (hempty _ _ _), if_pos (by simp)]
    rfl
  · have hsum := Nat.add_mul block count spb
    have hpos : count * spb ≠ 0 := Nat.mul_ne_zero (by omega) hspb
    obtain ⟨a₁, hrun, hmoved⟩ := hrequest (block * spb) (count * spb) buf a h hb hpos
    obtain ⟨a₂, hrun₂, hmoved₂⟩ := eachBlock_run
      (fun block buf => request (block * spb % 2 ^ 32) spb buf) block buf
      (fun block buf a ha hbuf hlow => by
        have hlow' := Nat.add_mul block 1 spb
        rw [mul_mod_low (by omega)]
        exact hrequest _ _ _ _ ha hbuf hspb) h hb hle
    rw [mul_mod_low (show block * spb ≤ _ by omega), mul_mod_low (show count * spb ≤ _ by omega),
      hrun, hrun₂]
    exact hmoved.outcome_eq hmoved₂

end Each

theorem ataReadSectors_empty {T : Timing} (lba buf : ℕ) (a : Sys) :
    ataReadSectors T lba 0 buf a = some (.unknown, a) := by
  unfold ataReadSectors AtaPort.ataReadSectors
  rw [if_pos (Or.inr rfl)]
  rfl

theorem ataWriteSectors_empty {T : Timing} (lba buf : ℕ) (a : Sys) :
    ataWriteSectors T lba 0 buf a = some (.unknown, a) := by
  unfold ataWriteSectors AtaPort.ataWriteSectors
  rw [if_pos (Or.inr rfl)]
  rfl

/-- **Requests move their sectors.** On a drive whose interrupts come in time and which is ready for
the data of a command before the polling ends, a write stores the sectors of the buffer, a read
fetches them, and blocks in one call are blocks in one call each. -/
theorem ata_sectors_transferred {T : Timing} (hT : T.InTime) (hd : ∀ n, T.delay n < 30000) :
    (∀ a lba count buf, Idle a → buf ≠ 0 → 1 ≤ count → lba + count ≤ 2 ^ 28 →
      (∃ a', ataWriteSectors T lba count buf a = some (.none, a') ∧
        Stored lba count buf a a' ∧ Requested .writeSectors lba count a a') ∧
      ∃ a', ataReadSectors T lba count buf a = some (.none, a') ∧
        Fetched lba count buf a a' ∧ Requested .readSectors lba count a a') ∧
    ∀ a blockSize start count buf, Idle a → buf ≠ 0 → 1 ≤ count →
      (start + count) * (blockSize / ataSectorSize) ≤ 2 ^ 28 →
      outcome (ataBlkReadBlocks T blockSize start count buf a) =
        outcome (eachBlock (ataBlkReadBlock T blockSize)
          (ataSectorSize * (blockSize / ataSectorSize)) count start buf a) ∧
      outcome (ataBlkWriteBlocks T blockSize start count buf a) =
        outcome (eachBlock (ataBlkWriteBlock T blockSize)
          (ataSectorSize * (blockSize / ataSectorSize)) count start buf a) := by
  refine ⟨fun a lba count buf h hb hc hlba => ⟨?_, ?_⟩,
    fun a blockSize start count buf h hb hc hle => ⟨?_, ?_⟩⟩
  · obtain ⟨a', hrun, hmoved⟩ := ataWriteSectors_run hT hd lba h hb (by omega : count ≠ 0)
    exact ⟨a', hrun, hmoved.stored hlba, hmoved.requested hlba⟩
  · obtain ⟨a', hrun, hmoved⟩ := ataReadSectors_run hT lba h hb
      (by omega : count ≠ 0)
    exact ⟨a', hrun, hmoved.fetched hlba, hmoved.requested hlba⟩
  · exact blocks_eq_each (ataReadSectors T) ataReadSectors_empty
      (fun lba _ _ _ => ataReadSectors_run hT lba) h hb hc hle
  · exact blocks_eq_each (ataWriteSectors T) ataWriteSectors_empty
      (fun lba _ _ _ => ataWriteSectors_run hT hd lba) h hb hc hle

def sampleSys : Sys where
  sectorCount := 0
  lbaLow := 0
  lbaMid := 0
  lbaHigh := 0
  driveSelect := 0
  busy := 0
  drq := false
  cmd := .readSectors
  next := 0
  left := 0
  cursor := 0
  pending := false
  disk := fun i => UInt8.ofNat i
  issued := []
  served := []
  irqFired := false
  mem := Bytes.zero
  clock := 0

theorem sampleSys_idle : Idle sampleSys := ⟨rfl, rfl, rfl⟩

/-- Every other interrupt of the drive comes before the wait for it, and the secondary channel raises
one wherever the flag is not armed. -/
def sampleTiming : Timing where
  delay _ := 29999
  irq14 m n := m = .armed && n % 2 == 0
  irq15 m _ := m ≠ .armed

theorem sampleTiming_inTime : sampleTiming.InTime := ⟨fun _ => rfl, fun _ => rfl⟩

theorem sampleTiming_delay (n : ℕ) : sampleTiming.delay n < 30000 := by
  show 29999 < 30000
  norm_num

theorem ata_sectors_transferred_300 :
    (∃ a', ataWriteSectors sampleTiming (2 ^ 28 - 300) 300 4096 sampleSys = some (.none, a') ∧
      Stored (2 ^ 28 - 300) 300 4096 sampleSys a' ∧
      Requested .writeSectors (2 ^ 28 - 300) 300 sampleSys a') ∧
    outcome (ataBlkReadBlocks sampleTiming 4096 7 100 4096 sampleSys) =
      outcome (eachBlock (ataBlkReadBlock sampleTiming 4096) 4096 100 7 4096 sampleSys) := by
  obtain ⟨hsectors, hblocks⟩ := ata_sectors_transferred sampleTiming_inTime sampleTiming_delay
  constructor
  · exact (hsectors sampleSys _ 300 4096 sampleSys_idle (by simp) (by simp) (by simp)).1
  · exact (hblocks sampleSys 4096 7 100 4096 sampleSys_idle (by simp) (by simp)
      (by norm_num [ataSectorSize])).1

/-- The drive raises its interrupts at once, also where the flag is about to be cleared. -/
def eagerTiming : Timing := { sampleTiming with irq14 := fun _ _ => true }

/-- A read of two sectors then waits for ever. -/
theorem ata_read_never_returns : Idle sampleSys ∧ (∀ n, eagerTiming.delay n < 30000) ∧
    ataReadSectors eagerTiming 0 2 4096 sampleSys = none := by
  refine ⟨sampleSys_idle, sampleTiming_delay, ?_⟩
  obtain ⟨b, hchunk, hbefore, -⟩ := ataReadChunk_begin (T := eagerTiming) (fun _ => rfl) 0 4096
    sampleSys_idle (show 0 < 2 by norm_num) (by norm_num)
  have hlost := ataReadLoop_lost (T := eagerTiming) (n := 0) (fun _ => rfl) (fun _ => rfl) 4096 hbefore
  exact bind_of_none (hchunk.trans (bind_of_none hlost))

/-! ## Any block number -/

inductive BlockOp
  | readBlock
  | writeBlock
  | readBlocks (count : ℕ)
  | writeBlocks (count : ℕ)

namespace BlockOp

def count : BlockOp → ℕ
  | readBlock | writeBlock => 1
  | readBlocks n | writeBlocks n => n

def cmd : BlockOp → AtaCmd
  | readBlock | readBlocks _ => .readSectors
  | writeBlock | writeBlocks _ => .writeSectors

def run (T : Timing) (blockSize block buf : ℕ) : BlockOp → PioM AtaError
  | readBlock => ataBlkReadBlock T blockSize block buf
  | writeBlock => ataBlkWriteBlock T blockSize block buf
  | readBlocks n => ataBlkReadBlocks T blockSize block n buf
  | writeBlocks n => ataBlkWriteBlocks T blockSize block n buf

end BlockOp

/-- The call fails, or the drive has moved the bytes of the blocks and no others. -/
def AccessesExactly (T : Timing) (blockSize block buf : ℕ) (op : BlockOp) (a : Sys) : Prop :=
  ∃ e a', op.run T blockSize block buf a = some (e, a') ∧ (e ≠ .none ∨
    ∃ l, a'.served = a.served ++ l ∧ ∀ b, b / ataSectorSize ∈ l ↔
      block * blockSize ≤ b ∧ b < (block + op.count) * blockSize)

section Access

variable {T : Timing} {blockSize spb block buf : ℕ} {op : BlockOp} {a : Sys}

/-- All four calls: the first sector and the number of sectors are products in 32 bits. -/
theorem BlockOp.run_cases (hT : T.InTime) (hd : ∀ n, T.delay n < 30000) (h : Idle a) (hb : buf ≠ 0)
    (hsize : blockSize < 2 ^ 32) (block : ℕ) (op : BlockOp) :
    (op.count * (blockSize / ataSectorSize) % 2 ^ 32 = 0 ∧
      op.run T blockSize block buf a = some (.unknown, a)) ∨
    op.count * (blockSize / ataSectorSize) % 2 ^ 32 ≠ 0 ∧
      ∃ a', op.run T blockSize block buf a = some (.none, a') ∧
        Moved op.cmd (block * (blockSize / ataSectorSize) % 2 ^ 32)
          (op.count * (blockSize / ataSectorSize) % 2 ^ 32) buf a a' := by
  have hone : 1 * (blockSize / ataSectorSize) % 2 ^ 32 = blockSize / ataSectorSize := by
    rw [Nat.one_mul]
    exact Nat.mod_eq_of_lt ((Nat.div_le_self _ _).trans_lt hsize)
  have hread (n : ℕ) : n = 0 ∧ ataReadSectors T (block * (blockSize / ataSectorSize) % 2 ^ 32) n
      buf a = some (.unknown, a) ∨ n ≠ 0 ∧ ∃ a', ataReadSectors T
        (block * (blockSize / ataSectorSize) % 2 ^ 32) n buf a = some (.none, a') ∧
          Moved .readSectors (block * (blockSize / ataSectorSize) % 2 ^ 32) n buf a a' := by
    by_cases hn : n = 0
    · exact Or.inl ⟨hn, hn ▸ ataReadSectors_empty _ _ _⟩
    · exact Or.inr ⟨hn, ataReadSectors_run hT _ h hb hn⟩
  have hwrite (n : ℕ) : n = 0 ∧ ataWriteSectors T (block * (blockSize / ataSectorSize) % 2 ^ 32)
      n buf a = some (.unknown, a) ∨ n ≠ 0 ∧ ∃ a', ataWriteSectors T
        (block * (blockSize / ataSectorSize) % 2 ^ 32) n buf a = some (.none, a') ∧
          Moved .writeSectors (block * (blockSize / ataSectorSize) % 2 ^ 32) n buf a a' := by
    by_cases hn : n = 0
    · exact Or.inl ⟨hn, hn ▸ ataWriteSectors_empty _ _ _⟩
    · exact Or.inr ⟨hn, ataWriteSectors_run hT hd _ h hb hn⟩
  cases op with
  | readBlock =>
    rw [BlockOp.count, hone]
    exact hread _
  | writeBlock =>
    rw [BlockOp.count, hone]
    exact hwrite _
  | readBlocks n => exact hread _
  | writeBlocks n => exact hwrite _

/-- The sectors are those of the blocks exactly when the last one has a 28-bit address. -/
theorem sectorsFrom_exact {count : ℕ} (hpos : count * spb % 2 ^ 32 ≠ 0) :
    (∀ b, b / ataSectorSize ∈ sectorsFrom (block * spb % 2 ^ 32) (count * spb % 2 ^ 32) ↔
      block * (ataSectorSize * spb) ≤ b ∧ b < (block + count) * (ataSectorSize * spb)) ↔
    (block + count) * spb ≤ 2 ^ 28 := by
  have hsum := Nat.add_mul block count spb
  have hfirst : block * (ataSectorSize * spb) = ataSectorSize * (block * spb) := by ring
  have hlast : (block + count) * (ataSectorSize * spb) = ataSectorSize * ((block + count) * spb) := by
    ring
  have hne : count * spb ≠ 0 := by
    intro hz
    rw [hz] at hpos
    exact hpos rfl
  rw [hfirst, hlast]
  constructor
  · intro h
    -- the last byte of the blocks
    have hmem := (h (ataSectorSize * ((block + count) * spb) - 1)).mpr (by
      unfold ataSectorSize
      omega)
    obtain ⟨i, -, hi⟩ := List.mem_map.mp hmem
    have hlt : (block * spb % 2 ^ 32 + i) % lbaSectors < lbaSectors := Nat.mod_lt _ lbaSectors_pos
    rw [hi] at hlt
    unfold ataSectorSize lbaSectors at hlt
    omega
  · intro hle b
    rw [mul_mod_low (show block * spb ≤ lbaSectors by unfold lbaSectors; omega),
      mul_mod_low (show count * spb ≤ lbaSectors by unfold lbaSectors; omega),
      sectorsFrom_low (show _ ≤ lbaSectors by unfold lbaSectors; omega), List.mem_map]
    simp only [List.mem_range]
    constructor
    · rintro ⟨i, hi, he⟩
      unfold ataSectorSize at he ⊢
      omega
    · rintro ⟨hlo, hhi⟩
      refine ⟨b / ataSectorSize - block * spb, ?_, ?_⟩
      · unfold ataSectorSize at hlo hhi ⊢
        omega
      · unfold ataSectorSize at hlo hhi ⊢
        omega

end Access

/-- **Block calls** access the bytes of their blocks, or fail, exactly when the number of sectors is
zero in 32 bits or the last sector has a 28-bit address. -/
theorem block_access_exact_iff {T : Timing} (hT : T.InTime) (hd : ∀ n, T.delay n < 30000)
    {blockSize block buf : ℕ} {op : BlockOp} {a : Sys} (h : Idle a) (hb : buf ≠ 0)
    (hsize : blockSize < 2 ^ 32) (hdvd : ataSectorSize ∣ blockSize) :
    AccessesExactly T blockSize block buf op a ↔
      op.count * (blockSize / ataSectorSize) % 2 ^ 32 = 0 ∨
        (block + op.count) * (blockSize / ataSectorSize) ≤ 2 ^ 28 := by
  obtain ⟨hzero, hrun⟩ | ⟨hpos, a', hrun, hmoved⟩ := BlockOp.run_cases hT hd h hb hsize block op
  · exact iff_of_true ⟨_, a, hrun, Or.inl (by simp)⟩ (Or.inl hzero)
  · rw [or_iff_right hpos, ← sectorsFrom_exact hpos, Nat.mul_div_cancel' hdvd]
    constructor
    · rintro ⟨e, a'', hrun', hr⟩
      cases hrun.symm.trans hrun'
      obtain hfail | ⟨l, hl, hbytes⟩ := hr
      · exact absurd rfl hfail
      · rw [hmoved.effect.served] at hl
        rwa [← List.append_cancel_left hl] at hbytes
    · intro hbytes
      exact ⟨_, a', hrun, Or.inr ⟨_, hmoved.effect.served, hbytes⟩⟩

theorem block_access_exact_last :
    AccessesExactly sampleTiming 1024 (2 ^ 27 - 1) 4096 .readBlock sampleSys :=
  (block_access_exact_iff sampleTiming_inTime sampleTiming_delay sampleSys_idle (by simp) (by simp) (by norm_num [ataSectorSize])).mpr
    (Or.inr (by norm_num [ataSectorSize, BlockOp.count]))

/-- Blocks 0 and `2 ^ 27` of 1024 bytes are the same sectors. -/
theorem blocks_share_sectors :
    (∃ a', ataBlkReadBlock sampleTiming 1024 0 4096 sampleSys = some (.none, a') ∧
      a'.served = [0, 1]) ∧
    ∃ a', ataBlkReadBlock sampleTiming 1024 (2 ^ 27) 4096 sampleSys = some (.none, a') ∧
      a'.served = [0, 1] := by
  constructor
  · obtain ⟨a', hrun, hmoved⟩ := ataReadSectors_run sampleTiming_inTime 0 sampleSys_idle
      (by simp : 4096 ≠ 0) (by simp : 2 ≠ 0)
    exact ⟨a', hrun, hmoved.effect.served⟩
  · obtain ⟨a', hrun, hmoved⟩ := ataReadSectors_run sampleTiming_inTime (2 ^ 28) sampleSys_idle
      (by simp : 4096 ≠ 0) (by simp : 2 ≠ 0)
    exact ⟨a', hrun, hmoved.effect.served⟩

end DvivonOS.Pio
