import Mathlib.Tactic

/-!
# The ATA driver

`ata_read_sectors` and `ata_write_sectors` of `drivers/disk/ata.c`, for any drive: `AtaPort` is what
the driver uses of it.

The first drive has bad sectors: the task file registers, the status bits the driver looks at, and
the sectors of the running command. The words of the sectors are left out, since no status depends
on them. A wait for an interrupt that the drive never raises is the result `none`.
-/

namespace DvivonOS

/-! ## Constants of `ata.h` -/

def ataStatusBusy : BitVec 8 := 0x80

def ataStatusReady : BitVec 8 := 0x40

def ataStatusDrq : BitVec 8 := 0x08

def ataStatusError : BitVec 8 := 0x01

def ataMaster : ℕ := 0xA0

def ataSlave : ℕ := 0xB0

def ataMaxSectorsPerCmd : ℕ := 255

def ataSectorWords : ℕ := 256

/-- The codes `ATA_ERROR_NONE`, ..., `ATA_ERROR_UNKNOWN`. -/
inductive AtaError
  | none
  | busy
  | timeout
  | fault
  | notReady
  | unknown
  deriving DecidableEq, Repr

/-- The commands `ATA_CMD_READ_SECTORS` and `ATA_CMD_WRITE_SECTORS`. -/
inductive AtaCmd
  | readSectors
  | writeSectors
  deriving DecidableEq, Repr

/-! ## The task file -/

/-- The registers that name the sectors of a command. -/
structure TaskFile where
  sectorCount : ℕ
  lbaLow : ℕ
  lbaMid : ℕ
  lbaHigh : ℕ
  driveSelect : ℕ

namespace TaskFile

def address (f : TaskFile) : ℕ :=
  f.lbaLow + 2 ^ 8 * f.lbaMid + 2 ^ 16 * f.lbaHigh + 2 ^ 24 * (f.driveSelect % 16)

/-- `ata_select_drive`. -/
def select (drive : ℕ) (f : TaskFile) : TaskFile :=
  { f with driveSelect := if drive = 0 then ataMaster else ataSlave }

/-- `ata_setup_lba`. -/
def setup (lba count : ℕ) : TaskFile where
  sectorCount := count % 2 ^ 8
  lbaLow := lba % 2 ^ 8
  lbaMid := lba / 2 ^ 8 % 2 ^ 8
  lbaHigh := lba / 2 ^ 16 % 2 ^ 8
  driveSelect := 0xE0 + lba / 2 ^ 24 % 2 ^ 4

theorem setup_address (lba count : ℕ) : (setup lba count).address = lba % 2 ^ 28 := by
  unfold address setup
  dsimp only
  omega

end TaskFile

/-! ## The driver -/

/-- The drive as the driver uses it, and the flag `ata_irq_fired`. -/
structure AtaPort (m : Type → Type) where
  outTaskFile : (TaskFile → TaskFile) → m Unit
  inStatus : m (BitVec 8)
  outCommand : AtaCmd → m Unit
  /-- `ata_prepare_irq`, right behind a sector that has been read or not. -/
  prepareIrq : Bool → m Unit
  waitIrq : m Unit
  readPioData : ℕ → m Unit
  writePioData : ℕ → m Unit

namespace AtaPort

variable {m : Type → Type} [Monad m] (P : AtaPort m)

/-- The polling loop of `ata_wait_ready`. -/
def waitReadyLoop : ℕ → m AtaError
  | 0 => pure .timeout
  | n + 1 => do
    let status ← P.inStatus
    if status &&& ataStatusError ≠ 0 then pure .fault
    else if status &&& ataStatusBusy = 0 ∧ status &&& ataStatusReady ≠ 0 then pure .none
    else waitReadyLoop n

def ataWaitReady (timeoutMs : ℕ) : m AtaError := P.waitReadyLoop (timeoutMs * 1000)

/-- The polling loop of `ata_poll_drq`. -/
def pollDrqLoop : ℕ → m AtaError
  | 0 => pure .timeout
  | n + 1 => do
    let status ← P.inStatus
    if status &&& ataStatusError ≠ 0 then pure .fault
    else if status &&& ataStatusDrq ≠ 0 then pure .none
    else pollDrqLoop n

def ataPollDrq : m AtaError := P.pollDrqLoop 30000

/-- `for (i = 0; i < chunk; i++)` of `ata_read_sectors`, with `chunk - i`; the result is `buffer`. -/
def ataReadLoop : ℕ → ℕ → m ℕ
  | 0, buffer => pure buffer
  | n + 1, buffer => do
    P.waitIrq
    P.readPioData buffer
    if 0 < n then P.prepareIrq true
    ataReadLoop n (buffer + 2 * ataSectorWords)

/-- The body of the `while` loop of `ata_read_sectors`. -/
def ataReadChunk (lba chunk buffer : ℕ) : m (AtaError × ℕ) := do
  P.outTaskFile (.select 0)
  if (← P.ataWaitReady 1000) ≠ .none then return (.timeout, buffer)
  P.outTaskFile fun _ => .setup lba chunk
  P.prepareIrq false
  P.outCommand .readSectors
  return (.none, ← P.ataReadLoop chunk buffer)

/-- `for (i = 0; i < chunk; i++)` of `ata_write_sectors`. -/
def ataWriteLoop : ℕ → ℕ → m ℕ
  | 0, buffer => pure buffer
  | n + 1, buffer => do
    P.prepareIrq false
    P.writePioData buffer
    P.waitIrq
    ataWriteLoop n (buffer + 2 * ataSectorWords)

/-- The body of the `while` loop of `ata_write_sectors`. -/
def ataWriteChunk (lba chunk buffer : ℕ) : m (AtaError × ℕ) := do
  P.outTaskFile (.select 0)
  if (← P.ataWaitReady 1000) ≠ .none then return (.timeout, buffer)
  P.outTaskFile fun _ => .setup lba chunk
  P.outCommand .writeSectors
  let result ← P.ataPollDrq
  if result ≠ .none then return (result, buffer)
  return (.none, ← P.ataWriteLoop chunk buffer)

/-- `while (count > 0)`, of which every round takes at least one sector. -/
def chunkLoop (body : ℕ → ℕ → ℕ → m (AtaError × ℕ)) : ℕ → ℕ → ℕ → ℕ → m AtaError
  | 0, _, _, _ => pure .none
  | fuel + 1, lba, count, buffer =>
    if 0 < count then do
      let chunk := if ataMaxSectorsPerCmd < count then ataMaxSectorsPerCmd else count
      let result ← body lba chunk buffer
      if result.1 ≠ .none then return result.1
      chunkLoop body fuel ((lba + chunk) % 2 ^ 32) (count - chunk) result.2
    else pure .none

def ataReadSectors (lba count buffer : ℕ) : m AtaError :=
  if buffer = 0 ∨ count = 0 then pure .unknown
  else chunkLoop P.ataReadChunk count lba count buffer

def ataWriteSectors (lba count buffer : ℕ) : m AtaError :=
  if buffer = 0 ∨ count = 0 then pure .unknown
  else chunkLoop P.ataWriteChunk count lba count buffer

end AtaPort

/-! ## A drive with bad sectors -/

/-- A drive with bad sectors. It ends a command at a bad sector or goes on with the next one, and
it looks at a sector of a write after it has taken its words or before it asks for them. -/
structure DriveKind where
  bad : ℕ → Bool
  stops : Bool
  ahead : Bool

/-- The registers of the drive, its running command, and the driver's flag `ata_irq_fired`. -/
structure Ata extends TaskFile where
  err : Bool
  drq : Bool
  cmd : AtaCmd
  next : ℕ
  left : ℕ
  irqFired : Bool

namespace Ata

/-- The status register between two sectors: the drive is not busy. -/
def status (a : Ata) : BitVec 8 :=
  ataStatusReady ||| (if a.drq then ataStatusDrq else 0) ||| (if a.err then ataStatusError else 0)

/-- One sector of the running command is done. -/
def advance (a : Ata) : Ata := { a with next := a.next + 1, left := a.left - 1 }

end Ata

namespace DriveKind

variable (D : DriveKind)

/-- The error bit is latched; a drive that stops has no more sectors. -/
def fail (a : Ata) : Ata :=
  { a with err := true, drq := false, left := if D.stops then 0 else a.left }

def looksAhead (cmd : AtaCmd) : Bool := cmd = .writeSectors && D.ahead

/-- A write to the command register, which clears the error bit. -/
def accept (cmd : AtaCmd) (a : Ata) : Ata :=
  let a := { a with err := false, drq := cmd = .writeSectors, cmd := cmd, next := a.address,
                    left := a.sectorCount }
  if D.looksAhead cmd && D.bad a.next then D.fail a else a

/-- The next sector of the command has been fetched or stored, well or not. -/
def serve (a : Ata) : Ata :=
  if D.looksAhead a.cmd then
    if 0 < a.advance.left ∧ D.bad a.advance.next then D.fail a.advance else a.advance
  else if D.bad a.next then D.fail a.advance else a.advance

end DriveKind

/-- Computations of the driver; `none` waits for ever. -/
abbrev AtaM := StateT Ata Option

section Commands

variable (D : DriveKind)

/-- The wait for the interrupt of the next sector. The handler discards the status and sets the
flag; without a sector left no interrupt comes. -/
def ataWaitIrq : AtaM Unit := fun a =>
  if a.irqFired then some ((), a)
  else if a.left = 0 then none
  else some ((), { D.serve a with irqFired := true })

def DriveKind.port : AtaPort AtaM where
  outTaskFile f := modify fun a => { a with toTaskFile := f a.toTaskFile }
  inStatus := return (← get).status
  outCommand cmd := modify (D.accept cmd)
  prepareIrq _ := modify fun a => { a with irqFired := false }
  waitIrq := ataWaitIrq D
  readPioData _ := pure ()
  writePioData _ := pure ()

def ataReadSectors : ℕ → ℕ → ℕ → AtaM AtaError := D.port.ataReadSectors

def ataWriteSectors : ℕ → ℕ → ℕ → AtaM AtaError := D.port.ataWriteSectors

end Commands

end DvivonOS
