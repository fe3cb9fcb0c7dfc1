import DvivonOS.Disk.Ata

/-!
# The driver, the drive and the interrupt handlers

`ata_read_sectors` as one party of a system: the driver moves statement by statement, the drive
makes the sectors of the running command ready and raises an interrupt for each, and the handlers of
IRQ 14 and IRQ 15 run between any two statements.

Sectors are counted from the beginning of the request. The drive may make a sector ready as soon as
the host has finished reading the one before.
-/

namespace DvivonOS

/-- The statements of `ata_read_sectors` with those of the functions it calls. -/
inductive ReadPc
  | entry
  | head
  | select
  | waitReady
  | setupLba
  | prepareFirst
  | command
  | waitIrq
  | hlt
  | halted
  | readPio (word : ℕ)
  | prepareNext
  | advance
  | finished (e : AtaError)
  deriving DecidableEq

/-- The driver's variables, the flag `ata_irq_fired`, and the drive: the next sector it makes ready,
the end of the running command, the number of sectors the host has finished reading, and the
interrupts, raised and handled, by the sector they belong to. -/
structure ReadSys where
  total : ℕ
  buffer : ℕ
  pc : ReadPc
  lba : ℕ
  count : ℕ
  chunk : ℕ
  i : ℕ
  fired : Bool
  next : ℕ
  limit : ℕ
  taken : ℕ
  raised : List ℕ
  handled : List ℕ

namespace ReadSys

def first (s : ReadSys) : ℕ := s.total - s.count

def sector (s : ReadSys) : ℕ := s.first + s.i

/-- The next statement of the driver; `ready` is what `ata_wait_ready` finds. -/
def driverStep (ready : Bool) (s : ReadSys) : ReadSys :=
  match s.pc with
  | .entry => if s.buffer = 0 ∨ s.count = 0 then { s with pc := .finished .unknown }
      else { s with pc := .head }
  | .head => if 0 < s.count then
        { s with pc := .select
                 chunk := if ataMaxSectorsPerCmd < s.count then ataMaxSectorsPerCmd else s.count }
      else { s with pc := .finished .none }
  | .select => { s with pc := .waitReady }
  | .waitReady => { s with pc := if ready then .setupLba else .finished .timeout }
  | .setupLba => { s with pc := .prepareFirst }
  | .prepareFirst => { s with pc := .command, fired := false }
  | .command => { s with pc := .waitIrq, i := 0, next := s.first, limit := s.first + s.chunk
                         taken := s.first }
  | .waitIrq => { s with pc := if s.fired then .readPio 0 else .hlt }
  | .hlt => { s with pc := .halted }
  | .halted => s
  | .readPio w => if w + 1 < ataSectorWords then { s with pc := .readPio (w + 1) }
      else { s with pc := if s.i + 1 < s.chunk then .prepareNext else .advance
                    taken := s.sector + 1 }
  | .prepareNext => { s with pc := .waitIrq, i := s.i + 1, fired := false }
  | .advance => { s with pc := .head, count := s.count - s.chunk, lba := s.lba + s.chunk }
  | .finished _ => s

def wake (s : ReadSys) : ReadSys := { s with pc := if s.pc = .halted then .waitIrq else s.pc }

def Waits (s : ReadSys) : Prop := s.pc = .waitIrq ∨ s.pc = .hlt ∨ s.pc = .halted

end ReadSys

inductive ReadEvent
  | driver
  | device
  | irq14
  | irq15
  | other

inductive ReadStep (s : ReadSys) : ReadEvent → ReadSys → Prop
  | driver (ready : Bool) : ReadStep s .driver (s.driverStep ready)
  | device : s.next < s.limit → s.next ≤ s.taken →
      ReadStep s .device { s with next := s.next + 1, raised := s.raised ++ [s.next] }
  | irq14 {k : ℕ} {ks : List ℕ} : s.raised = k :: ks →
      ReadStep s .irq14
        ({ s with raised := ks, handled := k :: s.handled, fired := true } : ReadSys).wake
  | irq15 : ReadStep s .irq15 ({ s with fired := true } : ReadSys).wake
  | other : ReadStep s .other s.wake

namespace ReadSys

/-- The data of a sector is read only when the sector is ready, and the driver does not wait for an
interrupt that has been handled. -/
structure Safe (s : ReadSys) : Prop where
  ready : ∀ w, s.pc = .readPio w → s.sector < s.next
  waits : s.Waits → s.fired = false → s.sector ∉ s.handled

/-- The exact condition on a step. IRQ 14 is not handled between the last word of a sector and the
following `ata_prepare_irq`. IRQ 15 is not handled between `ata_prepare_irq` and the end of the
wait, unless the flag is set or the sector is the last of the request and ready. -/
def Meets (s : ReadSys) : ReadEvent → Prop
  | .irq14 => s.pc ≠ .prepareNext
  | .irq15 => s.fired = true ∨
      s.pc ≠ .command ∧ (s.Waits → s.sector + 1 = s.total ∧ s.sector < s.next)
  | _ => True

def start (total lba buffer : ℕ) (fired : Bool) : ReadSys where
  total := total
  buffer := buffer
  pc := .entry
  lba := lba
  count := total
  chunk := 0
  i := 0
  fired := fired
  next := 0
  limit := 0
  taken := 0
  raised := []
  handled := []

end ReadSys

def GoodStep (s s' : ReadSys) : Prop := ∃ e, ReadStep s e s' ∧ s.Meets e

/-! ## The invariant -/

namespace ReadSys

/-- Between two commands the drive has nothing to do, and nothing is pending unless the request is
over. -/
structure Between (s : ReadSys) : Prop where
  le : s.count ≤ s.total
  idle : s.next = s.limit
  raised : s.raised = [] ∨ s.count = 0
  bound : ∀ k ∈ s.raised, k < s.first
  old : ∀ k ∈ s.handled, k < s.first

structure Chosen (s : ReadSys) : Prop extends Between s where
  pos : 0 < s.chunk
  chunk_le : s.chunk ≤ s.count

structure Running (s : ReadSys) : Prop where
  le : s.count ≤ s.total
  chunk_le : s.chunk ≤ s.count
  i_lt : s.i < s.chunk
  limit : s.limit = s.first + s.chunk

/-- The driver waits for its sector: the interrupt is not raised yet, raised, or handled; IRQ 15 may
have come before it, for the last sector. -/
structure Awaits (s : ReadSys) : Prop extends Running s where
  taken : s.taken = s.sector
  now : (s.fired = false ∧ s.next = s.sector ∧ s.raised = [] ∧ ∀ k ∈ s.handled, k < s.sector) ∨
    (s.fired = false ∧ s.next = s.sector + 1 ∧ s.raised = [s.sector] ∧
      ∀ k ∈ s.handled, k < s.sector) ∨
    (s.fired = true ∧ s.next = s.sector + 1 ∧ (∀ k ∈ s.handled, k < s.sector + 1) ∧
      (s.raised = [] ∨ s.raised = [s.sector] ∧ s.sector + 1 = s.total))

structure Reads (s : ReadSys) : Prop extends Running s where
  taken : s.taken = s.sector
  fired : s.fired = true
  next : s.next = s.sector + 1
  old : ∀ k ∈ s.handled, k < s.sector + 1
  raised : s.raised = [] ∨ s.raised = [s.sector] ∧ s.sector + 1 = s.total

/-- The driver is about to arm the flag for the next sector. -/
structure Rearms (s : ReadSys) : Prop extends Running s where
  more : s.i + 1 < s.chunk
  taken : s.taken = s.sector + 1
  fired : s.fired = true
  old : ∀ k ∈ s.handled, k < s.sector + 1
  now : (s.next = s.sector + 1 ∧ s.raised = []) ∨
    (s.next = s.sector + 2 ∧ s.raised = [s.sector + 1])

structure Ends (s : ReadSys) : Prop where
  le : s.count ≤ s.total
  pos : 0 < s.chunk
  chunk_le : s.chunk ≤ s.count
  idle : s.next = s.limit
  bound : ∀ k ∈ s.raised, k < s.first + s.chunk
  old : ∀ k ∈ s.handled, k < s.first + s.chunk
  raised : s.raised = [] ∨ s.count = s.chunk

def Inv (s : ReadSys) : Prop :=
  match s.pc with
  | .entry | .head => s.Between
  | .select | .waitReady | .setupLba | .prepareFirst => s.Chosen
  | .command => s.Chosen ∧ s.fired = false
  | .waitIrq | .hlt | .halted => s.Awaits
  | .readPio w => w < ataSectorWords ∧ s.Reads
  | .prepareNext => s.Rearms
  | .advance => s.Ends
  | .finished _ => True

theorem Inv.safe {s : ReadSys} (h : s.Inv) : s.Safe := by
  unfold Inv at h
  constructor
  · intro w hpc
    rw [hpc] at h
    have := h.2.next
    omega
  · intro hw hf hmem
    have ha : s.Awaits := by
      rcases hw with hpc | hpc | hpc <;> rw [hpc] at h <;> exact h
    rcases ha.now with ⟨-, -, -, hold⟩ | ⟨-, -, -, hold⟩ | ⟨hf', -⟩
    · exact absurd (hold _ hmem) (lt_irrefl _)
    · exact absurd (hold _ hmem) (lt_irrefl _)
    · rw [hf] at hf'
      cases hf'

theorem inv_start (total lba buffer : ℕ) (fired : Bool) : (start total lba buffer fired).Inv :=
  ⟨le_rfl, rfl, Or.inl rfl, nofun, nofun⟩

end ReadSys

end DvivonOS
