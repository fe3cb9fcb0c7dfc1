import DvivonOS.Disk.Ata
import DvivonOS.Disk.Irq
import DvivonOS.Lib.Bytes

/-!
# Sectors through the data port

`ata_read_sectors` and `ata_write_sectors` with the words they move, against a drive without errors.
The drive takes the address and the number of sectors of a command from its registers, and then
moves one sector after the other, word by word, through the data port. It owes the host an interrupt
for every sector: when a sector can be read, and when a sector that was written is stored.

The handlers of IRQ 14 and IRQ 15 run between any two operations of the driver: `Timing` says when,
and for how long the drive is busy with a command.
-/

namespace DvivonOS.Pio

def ataSectorSize : ℕ := 512

/-- The sectors that a 28-bit address reaches. -/
def lbaSectors : ℕ := 2 ^ 28

/-- Where the driver is between two operations: from `ata_prepare_irq` to the end of the wait, between
the last word of a sector and the `ata_prepare_irq` for the next one, or elsewhere. -/
inductive Moment
  | armed
  | gap
  | other
  deriving DecidableEq

/-- For each command the polls for which the drive is busy, and for each point in time whether the
drive raises an interrupt that it owes and whether the secondary channel raises one. -/
structure Timing where
  delay : ℕ → ℕ
  irq14 : Moment → ℕ → Bool
  irq15 : Moment → ℕ → Bool

/-- The drive raises no interrupt in the gap, where the flag is about to be cleared, and the secondary
channel raises none while the driver waits for one of the drive. -/
structure Timing.InTime (T : Timing) : Prop where
  gap : ∀ n, T.irq14 .gap n = false
  armed : ∀ n, T.irq15 .armed n = false

structure Request where
  cmd : AtaCmd
  first : ℕ
  count : ℕ

/-- The registers of the drive, its running command with the words of the current sector that have
been moved, the interrupt it owes, and what it stores; the driver's flag `ata_irq_fired`, the memory
and the time. The drive keeps a record of its commands and of the sectors it has moved. -/
structure Sys extends TaskFile where
  busy : ℕ
  drq : Bool
  cmd : AtaCmd
  next : ℕ
  left : ℕ
  cursor : ℕ
  pending : Bool
  disk : Bytes
  issued : List Request
  served : List ℕ
  irqFired : Bool
  mem : Bytes
  clock : ℕ

namespace Sys

/-- While it is busy the drive shows nothing else. -/
def status (a : Sys) : BitVec 8 :=
  if 0 < a.busy then ataStatusBusy else ataStatusReady ||| if a.drq then ataStatusDrq else 0

/-- A count of zero asks for 256 sectors. -/
def count (a : Sys) : ℕ := if a.sectorCount = 0 then 256 else a.sectorCount

/-- A write to the command register. `delay` is the time for which the drive is busy with it. -/
def accept (cmd : AtaCmd) (delay : ℕ) (a : Sys) : Sys :=
  { a with
    busy := delay
    drq := cmd = .writeSectors
    cmd := cmd
    next := a.address
    left := a.count
    cursor := 0
    pending := cmd = .readSectors
    issued := a.issued ++ [⟨cmd, a.address, a.count⟩] }

/-- The last word of a sector has been moved. There is an interrupt to come for a sector that has
been written, and for the next one to be read. -/
def sectorDone (a : Sys) : Sys :=
  { a with
    drq := false
    next := (a.next + 1) % lbaSectors
    left := a.left - 1
    cursor := 0
    pending := a.cmd = .writeSectors || decide (1 < a.left)
    served := a.served ++ [a.next] }

def wordDone (a : Sys) : Sys :=
  if a.cursor + 1 < ataSectorWords then { a with cursor := a.cursor + 1 } else a.sectorDone

def Moves (a : Sys) (cmd : AtaCmd) : Prop := a.busy = 0 ∧ a.drq = true ∧ a.cmd = cmd

instance (a : Sys) (cmd : AtaCmd) : Decidable (a.Moves cmd) := by
  unfold Moves
  infer_instance

def place (a : Sys) : ℕ := ataSectorSize * a.next + 2 * a.cursor

/-- The interrupt: a sector can be read, or the next one can be written. -/
def interrupt (a : Sys) : Sys :=
  { a with
    busy := 0
    drq := a.cmd = .readSectors || decide (0 < a.left)
    pending := false
    irqFired := true }

/-- The same but for the flag and the time. -/
def later (a : Sys) (fired : Bool) (clock : ℕ) : Sys := { a with irqFired := fired, clock := clock }

/-- The handlers that run before an operation. -/
def elapse (T : Timing) (m : Moment) (a : Sys) : Sys :=
  if a.pending && T.irq14 m a.clock then a.interrupt.later true (a.clock + 1)
  else a.later (a.irqFired || T.irq15 m a.clock) (a.clock + 1)

end Sys

/-! ## The drive for the driver -/

/-- Computations of the driver; `none` waits for ever. -/
abbrev PioM := StateT Sys Option

section Operations

variable (T : Timing)

def elapse (m : Moment) : PioM Unit := modify (Sys.elapse T m)

def inStatus : PioM (BitVec 8) := do
  elapse T .other
  let a ← get
  set { a with busy := a.busy - 1 }
  return a.status

/-- `inw(ATA_DATA_PORT)`; without a sector to read the bus is floating. -/
def inData : PioM ℕ := do
  elapse T .other
  let a ← get
  if a.Moves .readSectors then
    set a.wordDone
    return a.disk.get16 a.place
  else return 0xFFFF

def outData (word : ℕ) : PioM Unit := do
  elapse T .armed
  let a ← get
  if a.Moves .writeSectors then
    set ({ a with disk := a.disk.put16 a.place word } : Sys).wordDone

/-- `outb(ATA_COMMAND_PORT, cmd)`; for a read the flag has been armed. -/
def outCommand (cmd : AtaCmd) : PioM Unit := do
  elapse T (if cmd = .readSectors then .armed else .other)
  modify fun a => a.accept cmd (T.delay a.issued.length)

/-- `ata_prepare_irq`, in the gap behind a sector that has been read or elsewhere. -/
def ataPrepareIrq (m : Moment) : PioM Unit := do
  elapse T m
  modify fun a => { a with irqFired := false }

/-- The wait for an interrupt, which comes at some time if the drive owes one. -/
def ataWaitIrq : PioM Unit := do
  elapse T .armed
  fun a => if a.irqFired then some ((), a) else if a.pending then some ((), a.interrupt) else none

/-- `for (i = 0; i < ATA_SECTOR_WORDS; i++)` of `ata_read_pio_data`, with the words that are left and
the address of `buffer[i]`. -/
def readWords : ℕ → ℕ → PioM Unit
  | 0, _ => pure ()
  | n + 1, buffer => do
    let word ← inData T
    modify fun a => { a with mem := a.mem.put16 buffer word }
    readWords n (buffer + 2)

def ataReadPioData (buffer : ℕ) : PioM Unit := readWords T ataSectorWords buffer

/-- The loop of `ata_write_pio_data`. -/
def writeWords : ℕ → ℕ → PioM Unit
  | 0, _ => pure ()
  | n + 1, buffer => do
    let a ← get
    outData T (a.mem.get16 buffer)
    writeWords n (buffer + 2)

def ataWritePioData (buffer : ℕ) : PioM Unit := writeWords T ataSectorWords buffer

abbrev Timing.port : AtaPort PioM where
  outTaskFile f := do
    elapse T .other
    modify fun a => { a with toTaskFile := f a.toTaskFile }
  inStatus := inStatus T
  outCommand := outCommand T
  prepareIrq behind := ataPrepareIrq T (if behind then .gap else .other)
  waitIrq := ataWaitIrq T
  readPioData := ataReadPioData T
  writePioData := ataWritePioData T

def ataReadSectors : ℕ → ℕ → ℕ → PioM AtaError := T.port.ataReadSectors

def ataWriteSectors : ℕ → ℕ → ℕ → PioM AtaError := T.port.ataWriteSectors

end Operations

end DvivonOS.Pio
