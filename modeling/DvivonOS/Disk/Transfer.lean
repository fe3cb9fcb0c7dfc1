import DvivonOS.Disk.Pio

/-!
# Transfers of any length

What a request moves, sector by sector, word by word. A transfer of `m + n` sectors is one of `m`
sectors and one of `n` sectors behind it (`Effect.trans`), so that one sector gives the loop over a
chunk, and a chunk gives the loop over a request.
-/

namespace DvivonOS.Pio

open List Bytes

/-! ## The effect of a transfer -/

/-- The addresses of `n` sectors from `lba` on, in 28 bits. -/
def sectorsFrom (lba n : ℕ) : List ℕ := (List.range n).map fun i => (lba + i) % lbaSectors

def sectorBytes (disk : Bytes) (lba : ℕ) : Bytes := fun i =>
  disk (ataSectorSize * ((lba + i / ataSectorSize) % lbaSectors) + i % ataSectorSize)

/-- The disk with `n` sectors from `lba` on replaced by those of `src`. -/
def storeSectors (disk : Bytes) (lba : ℕ) (src : Bytes) : ℕ → Bytes
  | 0 => disk
  | n + 1 => (storeSectors disk lba src n).copy (ataSectorSize * ((lba + n) % lbaSectors))
      (src.drop (ataSectorSize * n)) ataSectorSize

/-- `n` sectors from `lba` on have been moved from or to the memory at `buffer`. -/
structure Effect (cmd : AtaCmd) (lba n buffer : ℕ) (a a' : Sys) : Prop where
  served : a'.served = a.served ++ sectorsFrom lba n
  mem : a'.mem = if cmd = .readSectors then
    a.mem.copy buffer (sectorBytes a.disk lba) (ataSectorSize * n) else a.mem
  disk : a'.disk = if cmd = .writeSectors then
    storeSectors a.disk lba (a.mem.drop buffer) n else a.disk

section Effect

variable {cmd : AtaCmd} {lba lba' m n buffer : ℕ} {a a' a'' : Sys}

theorem sectorsFrom_add (h : lba' % lbaSectors = (lba + m) % lbaSectors) :
    sectorsFrom lba m ++ sectorsFrom lba' n = sectorsFrom lba (m + n) := by
  unfold sectorsFrom
  rw [range_add, map_append, map_map]
  congr 1
  refine map_congr_left fun i _ => ?_
  rw [Function.comp_apply, Nat.add_mod, h, ← Nat.add_mod, Nat.add_assoc]

theorem sectorBytes_drop (disk : Bytes) (h : lba' % lbaSectors = (lba + m) % lbaSectors) :
    (sectorBytes disk lba).drop (ataSectorSize * m) = sectorBytes disk lba' := by
  funext i
  have hdiv : (ataSectorSize * m + i) / ataSectorSize = m + i / ataSectorSize := by
    unfold ataSectorSize
    omega
  have hmod : (ataSectorSize * m + i) % ataSectorSize = i % ataSectorSize := by
    unfold ataSectorSize
    omega
  unfold Bytes.drop sectorBytes
  rw [hdiv, hmod, ← Nat.add_assoc, Nat.add_mod, ← h, ← Nat.add_mod]

theorem storeSectors_succ (disk src : Bytes) (lba n : ℕ) :
    storeSectors disk lba src (n + 1) =
      (storeSectors disk lba src n).copy (ataSectorSize * ((lba + n) % lbaSectors))
        (src.drop (ataSectorSize * n)) ataSectorSize := rfl

theorem storeSectors_add (disk src : Bytes) (h : lba' % lbaSectors = (lba + m) % lbaSectors) :
    storeSectors (storeSectors disk lba src m) lba' (src.drop (ataSectorSize * m)) n =
      storeSectors disk lba src (m + n) := by
  induction n with
  | zero => rfl
  | succ n ih =>
    have haddr : (lba' + n) % lbaSectors = (lba + (m + n)) % lbaSectors := by
      rw [Nat.add_mod, h, ← Nat.add_mod, Nat.add_assoc]
    rw [storeSectors_succ, ih, haddr, Bytes.drop_drop, ← Nat.mul_add, ← Nat.add_assoc m n 1,
      storeSectors_succ]

theorem Effect.refl (cmd : AtaCmd) (lba buffer : ℕ) (a : Sys) : Effect cmd lba 0 buffer a a where
  served := by simp [sectorsFrom]
  mem := by simp [copy_zero]
  disk := by simp [storeSectors]

theorem Effect.trans (h : Effect cmd lba m buffer a a')
    (h' : Effect cmd lba' n (buffer + ataSectorSize * m) a' a'')
    (hlba : lba' % lbaSectors = (lba + m) % lbaSectors) : Effect cmd lba (m + n) buffer a a'' where
  served := by rw [h'.served, h.served, append_assoc, sectorsFrom_add hlba]
  mem := by
    rw [h'.mem, h.mem, h.disk]
    cases cmd with
    | readSectors =>
      simp only [reduceCtorEq, if_true, if_false]
      rw [← sectorBytes_drop _ hlba, copy_copy, Nat.mul_add]
    | writeSectors => rfl
  disk := by
    rw [h'.disk, h.disk, h.mem]
    cases cmd with
    | readSectors => rfl
    | writeSectors =>
      simp only [reduceCtorEq, if_true, if_false]
      rw [← Bytes.drop_drop, storeSectors_add _ _ hlba]

theorem Effect.congr {b b' : Sys} (h : Effect cmd lba n buffer a a')
    (hs : b.served = a.served ∧ b.mem = a.mem ∧ b.disk = a.disk)
    (hs' : b'.served = a'.served ∧ b'.mem = a'.mem ∧ b'.disk = a'.disk) :
    Effect cmd lba n buffer b b' := by
  obtain ⟨h₁, h₂, h₃⟩ := hs
  obtain ⟨h₁', h₂', h₃'⟩ := hs'
  refine ⟨?_, ?_, ?_⟩
  · rw [h₁', h₁, h.served]
  · rw [h₂', h₂, h₃, h.mem]
  · rw [h₃', h₂, h₃, h.disk]

end Effect

/-! ## One sector -/

theorem bind_of_run {α β : Type} {x : PioM α} {f : α → PioM β} {a a' : Sys} {r : α}
    (h : x a = some (r, a')) : (x >>= f) a = f r a' := by
  show (x a).bind _ = _
  rw [h]
  rfl

theorem get_run (a : Sys) : (get : PioM Sys) a = some (a, a) := rfl

section Elapse

variable {T : Timing} {m : Moment} {a : Sys} {f : Bool} {t : ℕ}

theorem elapse_run (T : Timing) (m : Moment) (a : Sys) : elapse T m a = some ((), a.elapse T m) := rfl

/-- With no interrupt of the drive to come, the handlers can only set the flag. -/
theorem elapse_quiet (T : Timing) (m : Moment) (hp : a.pending = false) :
    ∃ f, elapse T m a = some ((), a.later f (a.clock + 1)) := by
  refine ⟨a.irqFired || T.irq15 m a.clock, ?_⟩
  rw [elapse_run, Sys.elapse, hp, Bool.false_and, if_neg Bool.false_ne_true]

/-- In the gap too, if the drive raises no interrupt there. -/
theorem elapse_gap (hT : T.InTime) (a : Sys) :
    ∃ f, elapse T .gap a = some ((), a.later f (a.clock + 1)) := by
  refine ⟨a.irqFired || T.irq15 .gap a.clock, ?_⟩
  rw [elapse_run, Sys.elapse, hT.gap, Bool.and_false, if_neg Bool.false_ne_true]

/-- While the flag is armed, only the drive sets it. -/
theorem elapse_armed (hT : ∀ n, T.irq15 .armed n = false) (hp : a.pending = false) :
    elapse T .armed a = some ((), a.later a.irqFired (a.clock + 1)) := by
  rw [elapse_run, Sys.elapse, hp, hT, Bool.false_and, Bool.or_false,
    if_neg Bool.false_ne_true]

theorem later_wordDone (a : Sys) (f : Bool) (t : ℕ) :
    (a.later f t).wordDone = a.wordDone.later f t := by
  unfold Sys.wordDone
  split_ifs with h h' h' <;> first | rfl | exact absurd h h' | exact absurd h' h

end Elapse

section Words

variable {n buffer : ℕ} {a : Sys}

theorem wordDone_of_lt (h : a.cursor + 1 < ataSectorWords) :
    a.wordDone = { a with cursor := a.cursor + 1 } := if_pos h

theorem wordDone_last (h : a.cursor + 1 = ataSectorWords) : a.wordDone = a.sectorDone :=
  if_neg (by omega)

theorem place_succ : ({ a with cursor := a.cursor + 1 } : Sys).place = a.place + 2 := by
  unfold Sys.place
  dsimp only
  omega

theorem copy_word (dst src : Bytes) (off o n : ℕ) :
    (dst.put16 off (src.get16 o)).copy (off + 2) (src.drop (o + 2)) (2 * n) =
      dst.copy off (src.drop o) (2 * (n + 1)) := by
  rw [put16_get16_eq_copy, ← Bytes.drop_drop, copy_copy]
  congr 1
  omega

theorem inData_run (T : Timing) (h : a.Moves .readSectors) (hp : a.pending = false) :
    ∃ f, inData T a = some (a.disk.get16 a.place, a.wordDone.later f (a.clock + 1)) := by
  obtain ⟨f, hf⟩ := elapse_quiet T .other hp
  have h' : (a.later f (a.clock + 1)).Moves .readSectors := h
  refine ⟨f, ?_⟩
  unfold inData
  rw [bind_of_run hf, bind_of_run (get_run _), if_pos h', later_wordDone]
  rfl

theorem outData_run {T : Timing} (hT : ∀ n, T.irq15 .armed n = false)
    (h : a.Moves .writeSectors) (hp : a.pending = false) (word : ℕ) :
    outData T word a = some ((), ({ a with disk := a.disk.put16 a.place word } : Sys).wordDone.later
      a.irqFired (a.clock + 1)) := by
  have h' : (a.later a.irqFired (a.clock + 1)).Moves .writeSectors := h
  unfold outData
  rw [bind_of_run (elapse_armed hT hp), bind_of_run (get_run _), if_pos h', ← later_wordDone]
  rfl

theorem readWords_run (T : Timing) (buffer : ℕ) (h : a.Moves .readSectors) (hp : a.pending = false)
    (hn : a.cursor + (n + 1) = ataSectorWords) :
    ∃ f t, readWords T (n + 1) buffer a = some ((), ({ a.sectorDone with
      mem := a.mem.copy buffer (a.disk.drop a.place) (2 * (n + 1)) } : Sys).later f t) := by
  obtain ⟨f, hin⟩ := inData_run T h hp
  induction n generalizing a buffer f with
  | zero =>
    rw [wordDone_last hn] at hin
    refine ⟨f, a.clock + 1, ?_⟩
    unfold readWords
    rw [bind_of_run hin, ← copy_word, copy_zero]
    rfl
  | succ n ih =>
    rw [wordDone_of_lt (by omega)] at hin
    let b : Sys := ({ a with
      cursor := a.cursor + 1
      mem := a.mem.put16 buffer (a.disk.get16 a.place) } : Sys).later f (a.clock + 1)
    obtain ⟨f₁, hin₁⟩ := inData_run (a := b) T h hp
    obtain ⟨f', t, hstep⟩ : ∃ f' t, readWords T (n + 1) (buffer + 2) b = _ :=
      ih (buffer + 2) h hp (show a.cursor + 1 + (n + 1) = _ by omega) f₁ hin₁
    refine ⟨f', t, ?_⟩
    unfold readWords
    rw [bind_of_run hin, ← copy_word, ← place_succ]
    exact hstep

theorem writeWords_run {T : Timing} (hT : ∀ n, T.irq15 .armed n = false) (buffer : ℕ)
    (h : a.Moves .writeSectors) (hp : a.pending = false) (hn : a.cursor + (n + 1) = ataSectorWords) :
    ∃ t, writeWords T (n + 1) buffer a = some ((), ({ a.sectorDone with
      disk := a.disk.copy a.place (a.mem.drop buffer) (2 * (n + 1)) } : Sys).later a.irqFired t) := by
  have hout := outData_run hT h hp (a.mem.get16 buffer)
  induction n generalizing a buffer with
  | zero =>
    have hlast := wordDone_last
      (a := { a with disk := a.disk.put16 a.place (a.mem.get16 buffer) }) hn
    rw [hlast] at hout
    refine ⟨a.clock + 1, ?_⟩
    unfold writeWords
    rw [bind_of_run (get_run a), bind_of_run hout, ← copy_word, copy_zero]
    rfl
  | succ n ih =>
    have hword := wordDone_of_lt
      (a := { a with disk := a.disk.put16 a.place (a.mem.get16 buffer) })
      (show a.cursor + 1 < _ by omega)
    rw [hword] at hout
    let b : Sys := ({ a with
      cursor := a.cursor + 1
      disk := a.disk.put16 a.place (a.mem.get16 buffer) } : Sys).later a.irqFired (a.clock + 1)
    obtain ⟨t, hstep⟩ : ∃ t, writeWords T (n + 1) (buffer + 2) b = _ :=
      ih (buffer + 2) h hp (show a.cursor + 1 + (n + 1) = _ by omega)
        (outData_run (a := b) hT h hp _)
    refine ⟨t, ?_⟩
    unfold writeWords
    rw [bind_of_run (get_run a), bind_of_run hout, ← copy_word, ← place_succ]
    exact hstep

end Words

/-! ## A chunk -/

structure Idle (a : Sys) : Prop where
  busy : a.busy = 0
  drq : a.drq = false
  pending : a.pending = false

/-- A command with `n` sectors left, at the beginning of a sector. -/
structure Runs (cmd : AtaCmd) (n : ℕ) (a : Sys) : Prop where
  cmd : a.cmd = cmd
  left : a.left = n
  cursor : a.cursor = 0
  next : a.next < lbaSectors

/-- The state before a round of the loop over the sectors: one that is to be read has an interrupt
to come, one that is to be written can be written. -/
def Before : AtaCmd → ℕ → Sys → Prop
  | _, 0, a => Idle a
  | .readSectors, n + 1, a => Runs .readSectors (n + 1) a ∧ a.pending = true ∧ a.irqFired = false
  | .writeSectors, n + 1, a =>
    Runs .writeSectors (n + 1) a ∧ a.busy = 0 ∧ a.drq = true ∧ a.pending = false

/-- A round of the loop has moved a sector. -/
structure Round (cmd : AtaCmd) (n buffer : ℕ) (a a' : Sys) : Prop where
  before : Before cmd n a'
  issued : a'.issued = a.issued
  next : a'.next = (a.next + 1) % lbaSectors
  effect : Effect cmd a.next 1 buffer a a'

section Chunk

variable {T : Timing} {cmd : AtaCmd} {n buffer : ℕ} {a : Sys}

/-- The interrupt comes before the wait or in it. -/
theorem ataWaitIrq_run (hT : ∀ n, T.irq15 .armed n = false) (hf : a.irqFired = false) (hp : a.pending = true) :
    ataWaitIrq T a = some ((), a.interrupt.later true (a.clock + 1)) := by
  unfold ataWaitIrq
  rw [bind_of_run (elapse_run T .armed a), Sys.elapse, hp, hf, hT]
  cases T.irq14 .armed a.clock with
  | true => rfl
  | false =>
    show (if false = true then _ else if a.pending = true then _ else _) = _
    rw [if_neg Bool.false_ne_true, if_pos hp]
    rfl

theorem prepareIrq_run (behind : Bool) (h : ∃ f, elapse T (if behind then .gap else .other) a =
      some ((), a.later f (a.clock + 1))) :
    T.port.prepareIrq behind a = some ((), a.later false (a.clock + 1)) := by
  obtain ⟨f, hf⟩ := h
  exact bind_of_run hf

theorem copy_sector (dst disk : Bytes) {next : ℕ} (off : ℕ) (h : next < lbaSectors) :
    dst.copy off (disk.drop (ataSectorSize * next)) ataSectorSize =
      dst.copy off (sectorBytes disk next) (ataSectorSize * 1) := by
  funext i
  by_cases hi : off ≤ i ∧ i < off + ataSectorSize
  · rw [copy_of_mem _ _ hi.1 hi.2, copy_of_mem _ _ hi.1 (by omega), Bytes.drop,
      sectorBytes, Nat.div_eq_of_lt (by omega), Nat.add_zero, Nat.mod_eq_of_lt h,
      Nat.mod_eq_of_lt (by omega)]
  · rw [copy_of_not_mem _ _ (by omega), copy_of_not_mem _ _ (by omega)]

theorem sectorsFrom_one {next : ℕ} (h : next < lbaSectors) : sectorsFrom next 1 = [next] := by
  simp [sectorsFrom, Nat.mod_eq_of_lt h]

theorem storeSectors_one (disk src : Bytes) {next : ℕ} (h : next < lbaSectors) :
    storeSectors disk next src 1 = disk.copy (ataSectorSize * next) src ataSectorSize := by
  rw [storeSectors_succ]
  simp [storeSectors, Nat.mod_eq_of_lt h]

theorem place_of_runs (h : Runs cmd n a) : a.place = ataSectorSize * a.next := by
  rw [Sys.place, h.cursor, Nat.mul_zero, Nat.add_zero]

theorem ataReadPioData_run (T : Timing) (buffer : ℕ) (h : Runs .readSectors n a)
    (hm : a.Moves .readSectors) (hp : a.pending = false) :
    ∃ a' f t, ataReadPioData T buffer a = some ((), a') ∧
      Effect .readSectors a.next 1 buffer a a' ∧
      a' = ({ a.sectorDone with mem := a'.mem } : Sys).later f t := by
  obtain ⟨f, t, hrun⟩ := readWords_run T buffer (n := 255) hm hp (by rw [h.cursor]; rfl)
  refine ⟨_, f, t, hrun, ⟨?_, ?_, rfl⟩, rfl⟩
  · rw [sectorsFrom_one h.next]
    rfl
  · rw [if_pos rfl, place_of_runs h]
    exact copy_sector _ _ _ h.next

theorem ataWritePioData_run (hT : ∀ n, T.irq15 .armed n = false) (buffer : ℕ) (h : Runs .writeSectors n a)
    (hm : a.Moves .writeSectors) (hp : a.pending = false) :
    ∃ a' t, ataWritePioData T buffer a = some ((), a') ∧
      Effect .writeSectors a.next 1 buffer a a' ∧
      a' = ({ a.sectorDone with disk := a'.disk } : Sys).later a.irqFired t := by
  obtain ⟨t, hrun⟩ := writeWords_run hT buffer (n := 255) hm hp (by rw [h.cursor]; rfl)
  refine ⟨_, t, hrun, ⟨?_, rfl, ?_⟩, rfl⟩
  · rw [sectorsFrom_one h.next]
    rfl
  · rw [if_pos rfl, place_of_runs h, storeSectors_one _ _ h.next]
    rfl

theorem lbaSectors_pos : 0 < lbaSectors := by norm_num [lbaSectors]

/-- The wait and the words of a sector. -/
theorem readSector_run (hT : ∀ n, T.irq15 .armed n = false) (buffer : ℕ)
    (h : Before .readSectors (n + 1) a) :
    ∃ a₁, (ataWaitIrq T >>= fun _ => ataReadPioData T buffer) a = some ((), a₁) ∧
      Effect .readSectors a.next 1 buffer a a₁ ∧ a₁.issued = a.issued ∧
      a₁.next = (a.next + 1) % lbaSectors ∧ a₁.cmd = .readSectors ∧ a₁.left = n ∧ a₁.cursor = 0 ∧
      a₁.busy = 0 ∧ a₁.drq = false ∧ a₁.pending = decide (0 < n) := by
  obtain ⟨hr, hp, hf⟩ := h
  have hr₁ : Runs .readSectors (n + 1) (a.interrupt.later true (a.clock + 1)) :=
    ⟨hr.cmd, hr.left, hr.cursor, hr.next⟩
  have hm : (a.interrupt.later true (a.clock + 1)).Moves .readSectors :=
    ⟨rfl, by simp [Sys.interrupt, Sys.later, hr.cmd], hr.cmd⟩
  obtain ⟨a₁, f, t, hrun, heff, ha₁⟩ := ataReadPioData_run T buffer hr₁ hm rfl
  refine ⟨a₁, (bind_of_run (ataWaitIrq_run hT hf hp)).trans hrun, heff.congr ⟨rfl, rfl, rfl⟩
    ⟨rfl, rfl, rfl⟩, ?_⟩
  rw [ha₁]
  exact ⟨rfl, rfl, hr.cmd, by simp [Sys.sectorDone, Sys.later, Sys.interrupt, hr.left], rfl, rfl, rfl,
    by simp [Sys.sectorDone, Sys.later, Sys.interrupt, hr.cmd, hr.left]⟩

theorem ataReadLoop_round (hT : T.InTime) (h : Before .readSectors (n + 1) a) :
    ∃ a', T.port.ataReadLoop (n + 1) buffer a = T.port.ataReadLoop n (buffer + ataSectorSize) a' ∧
      Round .readSectors n buffer a a' := by
  obtain ⟨a₁, hrun, heff, hissued, hnext, hcmd, hleft, hcursor, hbusy, hdrq, hpending⟩ :=
    readSector_run hT.armed buffer h
  rw [AtaPort.ataReadLoop, ← bind_assoc, bind_of_run hrun]
  cases n with
  | zero => exact ⟨a₁, rfl, ⟨hbusy, hdrq, hpending⟩, hissued, hnext, heff⟩
  | succ n =>
    rw [if_pos (Nat.succ_pos n), bind_of_run (prepareIrq_run true (elapse_gap hT a₁))]
    refine ⟨_, rfl, ⟨⟨hcmd, hleft, hcursor, ?_⟩, ?_, rfl⟩, hissued, hnext,
      heff.congr ⟨rfl, rfl, rfl⟩ ⟨rfl, rfl, rfl⟩⟩
    · show a₁.next < _
      rw [hnext]
      exact Nat.mod_lt _ lbaSectors_pos
    · show a₁.pending = true
      rw [hpending]
      simp

theorem bind_of_none {α β : Type} {x : PioM α} {f : α → PioM β} (h : x a = none) :
    (x >>= f) a = none := by
  show (x a).bind _ = _
  rw [h]
  rfl

/-- If the interrupt for the next sector comes before the flag is armed for it, the driver waits for
ever. -/
theorem ataReadLoop_lost (hT : ∀ n, T.irq15 .armed n = false) (hgap : ∀ n, T.irq14 .gap n = true)
    (buffer : ℕ) (h : Before .readSectors (n + 2) a) : T.port.ataReadLoop (n + 2) buffer a = none := by
  obtain ⟨a₁, hrun, -, -, -, -, -, -, -, -, hpending⟩ := readSector_run hT buffer h
  have hprep : T.port.prepareIrq true a₁ = some ((), a₁.interrupt.later false (a₁.clock + 1)) := by
    show ataPrepareIrq T .gap a₁ = _
    unfold ataPrepareIrq
    rw [bind_of_run (elapse_run T .gap a₁), Sys.elapse, hpending, hgap]
    rfl
  rw [AtaPort.ataReadLoop, ← bind_assoc, bind_of_run hrun, if_pos (Nat.succ_pos n), bind_of_run hprep,
    AtaPort.ataReadLoop]
  exact bind_of_none (bind_of_run (elapse_armed hT rfl))

theorem ataWriteLoop_round (hT : T.InTime) (h : Before .writeSectors (n + 1) a) :
    ∃ a', T.port.ataWriteLoop (n + 1) buffer a = T.port.ataWriteLoop n (buffer + ataSectorSize) a' ∧
      Round .writeSectors n buffer a a' := by
  obtain ⟨hr, hb, hq, hp⟩ := h
  have hr₁ : Runs .writeSectors (n + 1) (a.later false (a.clock + 1)) :=
    ⟨hr.cmd, hr.left, hr.cursor, hr.next⟩
  obtain ⟨a₁, t, hrun, heff, ha₁⟩ := ataWritePioData_run hT.armed buffer hr₁ ⟨hb, hq, hr.cmd⟩ hp
  have hfired : a₁.irqFired = false := by
    rw [ha₁]
    rfl
  have hpending : a₁.pending = true := by
    rw [ha₁]
    simp [Sys.sectorDone, Sys.later, hr.cmd]
  have hleft : a₁.left = n := by
    rw [ha₁]
    simp [Sys.sectorDone, Sys.later, hr.left]
  have hcmd : a₁.cmd = .writeSectors := by
    rw [ha₁]
    exact hr.cmd
  have hnext : a₁.next = (a.next + 1) % lbaSectors := by
    rw [ha₁]
    rfl
  have hdrq : a₁.interrupt.drq = decide (0 < n) := by
    simp [Sys.interrupt, hcmd, hleft]
  rw [AtaPort.ataWriteLoop, bind_of_run (prepareIrq_run false (elapse_quiet T .other hp)), bind_of_run hrun,
    bind_of_run (ataWaitIrq_run hT.armed hfired hpending)]
  refine ⟨_, rfl, ?_, ?_, hnext, heff.congr ⟨rfl, rfl, rfl⟩ ⟨rfl, rfl, rfl⟩⟩
  · cases n with
    | zero => exact ⟨rfl, hdrq, rfl⟩
    | succ n =>
      refine ⟨⟨hcmd, hleft, ?_, ?_⟩, rfl, hdrq.trans (by simp), rfl⟩
      · show a₁.cursor = 0
        rw [ha₁]
        rfl
      · show a₁.next < _
        rw [hnext]
        exact Nat.mod_lt _ lbaSectors_pos
  · show a₁.issued = _
    rw [ha₁]
    rfl

theorem sectorLoop_run (loop : ℕ → ℕ → PioM ℕ) (buffer : ℕ)
    (hzero : ∀ buffer a, loop 0 buffer a = some (buffer, a))
    (hround : ∀ n buffer a, Before cmd (n + 1) a →
      ∃ a', loop (n + 1) buffer a = loop n (buffer + ataSectorSize) a' ∧ Round cmd n buffer a a')
    (h : Before cmd n a) :
    ∃ a', loop n buffer a = some (buffer + ataSectorSize * n, a') ∧ Idle a' ∧
      a'.issued = a.issued ∧ Effect cmd a.next n buffer a a' := by
  induction n generalizing a buffer with
  | zero =>
    have hidle : Idle a := by cases cmd <;> exact h
    exact ⟨a, hzero buffer a, hidle, rfl, Effect.refl _ _ _ _⟩
  | succ n ih =>
    obtain ⟨a₁, hrun, hr⟩ := hround n buffer a h
    obtain ⟨a', hloop, hidle, hissued, heff⟩ := ih (buffer + ataSectorSize) hr.before
    have hmul : ataSectorSize * (n + 1) = ataSectorSize + ataSectorSize * n := by
      rw [Nat.mul_succ, Nat.add_comm]
    refine ⟨a', ?_, hidle, hissued.trans hr.issued, ?_⟩
    · rw [hrun, hloop, hmul, Nat.add_assoc]
    · rw [Nat.add_comm n 1]
      exact hr.effect.trans heff (by rw [hr.next, Nat.mod_mod])

end Chunk

/-! ## A request -/

section Polls

variable {n : ℕ} {a : Sys}

theorem inStatus_run (T : Timing) (hp : a.pending = false) :
    ∃ f, inStatus T a = some (a.status, ({ a with busy := a.busy - 1 } : Sys).later f
      (a.clock + 1)) := by
  obtain ⟨f, hf⟩ := elapse_quiet T .other hp
  refine ⟨f, ?_⟩
  unfold inStatus
  rw [bind_of_run hf]
  rfl

theorem ataWaitReady_run (T : Timing) (h : a.busy = 0) (hp : a.pending = false) :
    ∃ f, T.port.ataWaitReady 1000 a = some (.none, a.later f (a.clock + 1)) := by
  obtain ⟨f, hin⟩ := inStatus_run T hp
  have hsame : { a with busy := a.busy - 1 } = a := by
    cases a
    subst h
    rfl
  have hstatus : a.status &&& ataStatusError = 0 ∧ a.status &&& ataStatusBusy = 0 ∧
      a.status &&& ataStatusReady ≠ 0 := by
    unfold Sys.status
    rw [if_neg (by omega)]
    cases a.drq <;> decide
  rw [hsame] at hin
  refine ⟨f, ?_⟩
  unfold AtaPort.ataWaitReady
  rw [show 1000 * 1000 = 999999 + 1 from rfl, AtaPort.waitReadyLoop, bind_of_run hin,
    if_neg (not_not.mpr hstatus.1), if_pos hstatus.2]
  rfl

theorem pollDrqLoop_run (T : Timing) (hq : a.drq = true) (hp : a.pending = false) (hn : a.busy < n) :
    ∃ f t, T.port.pollDrqLoop n a = some (.none, ({ a with busy := 0 } : Sys).later f t) := by
  induction n generalizing a with
  | zero => omega
  | succ n ih =>
    obtain ⟨f, hin⟩ := inStatus_run T hp
    rw [AtaPort.pollDrqLoop, bind_of_run hin]
    by_cases hb : 0 < a.busy
    · have hstatus : a.status = ataStatusBusy := if_pos hb
      rw [hstatus, if_neg (by decide), if_neg (by decide)]
      exact ih (a := ({ a with busy := a.busy - 1 } : Sys).later f (a.clock + 1)) hq hp
        (show a.busy - 1 < n by omega)
    · have hstatus : a.status = ataStatusReady ||| ataStatusDrq := by
        unfold Sys.status
        rw [if_neg hb, if_pos hq]
      have hzero : a.busy - 1 = 0 := by omega
      rw [hstatus, if_neg (by decide), if_pos (by decide), hzero]
      exact ⟨f, _, rfl⟩

end Polls

/-- A request of `n` sectors from `lba` on is done: by commands of 1 to 255 sectors each, that
together ask for these sectors in this order. -/
structure Moved (cmd : AtaCmd) (lba n buffer : ℕ) (a a' : Sys) : Prop where
  idle : Idle a'
  commands : ∃ l, a'.issued = a.issued ++ l ∧
    (∀ r ∈ l, r.cmd = cmd ∧ 1 ≤ r.count ∧ r.count ≤ 255) ∧
    l.flatMap (fun r => sectorsFrom r.first r.count) = sectorsFrom lba n
  effect : Effect cmd lba n buffer a a'

section Request

variable {cmd : AtaCmd} {lba lba' m n buffer : ℕ} {a a' a'' : Sys}

theorem Moved.refl (h : Idle a) : Moved cmd lba 0 buffer a a :=
  ⟨h, ⟨[], by simp [sectorsFrom]⟩, Effect.refl _ _ _ _⟩

theorem Moved.trans (h : Moved cmd lba m buffer a a')
    (h' : Moved cmd lba' n (buffer + ataSectorSize * m) a' a'')
    (hlba : lba' % lbaSectors = (lba + m) % lbaSectors) : Moved cmd lba (m + n) buffer a a'' := by
  obtain ⟨l, hissued, hl, hsectors⟩ := h.commands
  obtain ⟨l', hissued', hl', hsectors'⟩ := h'.commands
  refine ⟨h'.idle, ⟨l ++ l', ?_, fun r hr => ?_, ?_⟩, h.effect.trans h'.effect hlba⟩
  · rw [hissued', hissued, append_assoc]
  · obtain hr | hr := mem_append.mp hr
    · exact hl r hr
    · exact hl' r hr
  · rw [flatMap_append, hsectors, hsectors', sectorsFrom_add hlba]

theorem Effect.of_mod (h : Effect cmd (lba % lbaSectors) n buffer a a') :
    Effect cmd lba n buffer a a' := by
  have htrans := (Effect.refl cmd lba buffer a).trans h (Nat.mod_mod _ _)
  rwa [Nat.zero_add] at htrans

/-- The state when a command is written to the drive. -/
def setup (lba chunk : ℕ) (a : Sys) : Sys := { a with toTaskFile := .setup lba chunk }

theorem setup_address (lba chunk : ℕ) (a : Sys) : (setup lba chunk a).address = lba % lbaSectors :=
  TaskFile.setup_address lba chunk

section

variable {chunk : ℕ} (hpos : 0 < chunk) (hle : chunk ≤ 255)

include hpos hle

theorem setup_count (lba : ℕ) (a : Sys) :
    (setup lba chunk a).count = chunk := by
  unfold Sys.count setup TaskFile.setup
  dsimp only
  rw [if_neg (by omega)]
  omega

theorem runs_accept (lba delay : ℕ) (a : Sys) :
    Runs cmd chunk ((setup lba chunk a).accept cmd delay) :=
  ⟨rfl, setup_count hpos hle lba a, rfl, by
    show (setup lba chunk a).address < _
    rw [setup_address]
    exact Nat.mod_lt _ lbaSectors_pos⟩

theorem accept_issued (lba delay : ℕ) (a : Sys) :
    ((setup lba chunk a).accept cmd delay).issued =
      a.issued ++ [⟨cmd, lba % lbaSectors, chunk⟩] := by
  rw [Sys.accept, setup_address, setup_count hpos hle]
  rfl

theorem moved_of_command {b : Sys}
    (hb : b.next = lba % lbaSectors)
    (hissued : b.issued = a.issued ++ [⟨cmd, lba % lbaSectors, chunk⟩])
    (hsame : b.served = a.served ∧ b.mem = a.mem ∧ b.disk = a.disk)
    (hidle : Idle a') (hi : a'.issued = b.issued) (heff : Effect cmd b.next chunk buffer b a') :
    Moved cmd lba chunk buffer a a' := by
  rw [hb] at heff
  refine ⟨hidle, ⟨_, hi.trans hissued, ?_, ?_⟩, heff.of_mod.congr ?_ ⟨rfl, rfl, rfl⟩⟩
  · intro r hr
    rw [mem_singleton.mp hr]
    exact ⟨rfl, hpos, hle⟩
  · have hmod : _ ++ sectorsFrom (lba % lbaSectors) chunk = sectorsFrom lba (0 + chunk) :=
      sectorsFrom_add (Nat.mod_mod _ _)
    rw [Nat.zero_add] at hmod
    rw [flatMap_singleton, ← hmod]
    rfl
  · obtain ⟨h₁, h₂, h₃⟩ := hsame
    exact ⟨h₁.symm, h₂.symm, h₃.symm⟩

end

theorem outTaskFile_run (T : Timing) (f : TaskFile → TaskFile) (hp : a.pending = false) :
    ∃ b, T.port.outTaskFile f a =
      some ((), ({ a with toTaskFile := f a.toTaskFile } : Sys).later b (a.clock + 1)) := by
  obtain ⟨b, hb⟩ := elapse_quiet T .other hp
  exact ⟨b, bind_of_run hb⟩

theorem outCommand_run {T : Timing} {f : Bool} (cmd : AtaCmd)
    (h : elapse T (if cmd = .readSectors then .armed else .other) a =
      some ((), a.later f (a.clock + 1))) :
    outCommand T cmd a =
      some ((), (a.accept cmd (T.delay a.issued.length)).later f (a.clock + 1)) := by
  unfold outCommand
  rw [bind_of_run h]
  rfl

variable {T : Timing}

/-- The operations before the command leave the drive at rest. -/
theorem beforeCommand_run {α : Type} (T : Timing) (lba chunk : ℕ) (h : Idle a) (k : PioM α) (x : α) :
    ∃ f t, (do
        T.port.outTaskFile (.select 0)
        if (← T.port.ataWaitReady 1000) ≠ .none then return x
        T.port.outTaskFile fun _ => .setup lba chunk
        k : PioM α) a =
      k ((setup lba chunk a).later f t) := by
  obtain ⟨f₁, h₁⟩ := outTaskFile_run T (.select 0) h.pending
  let b : Sys := { a with toTaskFile := .select 0 a.toTaskFile }
  obtain ⟨f₂, h₂⟩ := ataWaitReady_run (a := b.later f₁ (a.clock + 1)) T h.busy h.pending
  obtain ⟨f₃, h₃⟩ := outTaskFile_run (a := b.later f₂ (a.clock + 1 + 1)) T
    (fun _ => .setup lba chunk) h.pending
  refine ⟨f₃, a.clock + 1 + 1 + 1, ?_⟩
  rw [bind_of_run h₁, bind_of_run h₂, if_neg (by simp)]
  exact bind_of_run h₃

/-- A chunk up to the loop over its sectors. -/
theorem ataReadChunk_begin {chunk : ℕ} (hT : ∀ n, T.irq15 .armed n = false) (lba buffer : ℕ)
    (h : Idle a) (hpos : 0 < chunk) (hle : chunk ≤ 255) :
    ∃ b, T.port.ataReadChunk lba chunk buffer a =
        (do return (.none, ← T.port.ataReadLoop chunk buffer) : PioM (AtaError × ℕ)) b ∧
      Before .readSectors chunk b ∧ b.next = lba % lbaSectors ∧
      b.issued = a.issued ++ [⟨.readSectors, lba % lbaSectors, chunk⟩] ∧
      b.served = a.served ∧ b.mem = a.mem ∧ b.disk = a.disk := by
  let c (t : ℕ) : Sys := a.later false t
  obtain ⟨f, t, hx⟩ := beforeCommand_run T lba chunk h (do
    T.port.prepareIrq false
    T.port.outCommand .readSectors
    return (.none, ← T.port.ataReadLoop chunk buffer)) (AtaError.timeout, buffer)
  have hprep := prepareIrq_run false (elapse_quiet
    (a := (setup lba chunk a).later f t) T .other h.pending)
  have hout := outCommand_run (a := setup lba chunk (c (t + 1))) .readSectors
    (elapse_armed hT h.pending)
  refine ⟨_, hx.trans ((bind_of_run hprep).trans (bind_of_run hout)), ?_,
    setup_address lba chunk (c (t + 1)),
    accept_issued hpos hle lba (T.delay a.issued.length) (c (t + 1)), rfl, rfl, rfl⟩
  obtain ⟨n, rfl⟩ := Nat.exists_eq_succ_of_ne_zero hpos.ne'
  have hr : Runs .readSectors (n + 1) _ :=
    runs_accept hpos hle lba (T.delay a.issued.length) (c (t + 1))
  exact ⟨⟨hr.cmd, hr.left, hr.cursor, hr.next⟩, rfl, rfl⟩

theorem ataReadChunk_run {chunk : ℕ} (hT : T.InTime) (h : Idle a) (hpos : 0 < chunk)
    (hle : chunk ≤ 255) :
    ∃ a', T.port.ataReadChunk lba chunk buffer a =
        some ((.none, buffer + ataSectorSize * chunk), a') ∧
      Moved .readSectors lba chunk buffer a a' := by
  obtain ⟨b, hx, hbefore, hnext, hi, hsame⟩ := ataReadChunk_begin hT.armed lba buffer h hpos hle
  obtain ⟨a', hloop, hidle, hissued, heff⟩ := sectorLoop_run (T.port.ataReadLoop)
    buffer (fun _ _ => rfl) (fun _ _ _ => ataReadLoop_round hT) hbefore
  exact ⟨a', hx.trans ((bind_of_run hloop).trans rfl),
    moved_of_command hpos hle hnext hi hsame hidle hissued heff⟩

theorem ataWriteChunk_run {chunk : ℕ} (hT : T.InTime) (hd : ∀ n, T.delay n < 30000) (h : Idle a)
    (hpos : 0 < chunk) (hle : chunk ≤ 255) :
    ∃ a', T.port.ataWriteChunk lba chunk buffer a =
        some ((.none, buffer + ataSectorSize * chunk), a') ∧
      Moved .writeSectors lba chunk buffer a a' := by
  let c (f : Bool) (t : ℕ) : Sys := a.later f t
  obtain ⟨f, t, hx⟩ := beforeCommand_run T lba chunk h (do
    T.port.outCommand .writeSectors
    let result ← T.port.ataPollDrq
    if result ≠ .none then return (result, buffer)
    return (.none, ← T.port.ataWriteLoop chunk buffer)) (AtaError.timeout, buffer)
  obtain ⟨f₁, h₁⟩ := elapse_quiet (a := setup lba chunk (c f t)) T .other h.pending
  have hout := outCommand_run .writeSectors h₁
  obtain ⟨f₂, t₂, hpoll⟩ := pollDrqLoop_run (n := 30000) (a := ((setup lba chunk (c f t)).accept
    .writeSectors (T.delay a.issued.length)).later f₁ (t + 1)) T rfl rfl (hd _)
  let b : Sys := ({ (setup lba chunk (c f t)).accept .writeSectors (T.delay a.issued.length) with
    busy := 0 } : Sys).later f₂ t₂
  have hbefore : Before .writeSectors chunk b := by
    obtain ⟨n, rfl⟩ := Nat.exists_eq_succ_of_ne_zero hpos.ne'
    have hr : Runs .writeSectors (n + 1) _ :=
      runs_accept hpos hle lba (T.delay a.issued.length) (c f t)
    exact ⟨⟨hr.cmd, hr.left, hr.cursor, hr.next⟩, rfl, rfl, rfl⟩
  obtain ⟨a', hloop, hidle, hissued, heff⟩ := sectorLoop_run (T.port.ataWriteLoop)
    buffer (fun _ _ => rfl) (fun _ _ _ => ataWriteLoop_round hT) hbefore
  refine ⟨a', hx.trans ((bind_of_run hout).trans ((bind_of_run hpoll).trans ?_)),
    moved_of_command (b := b) hpos hle (setup_address lba chunk (c f t))
      (accept_issued hpos hle lba (T.delay a.issued.length) (c f t)) ⟨rfl, rfl, rfl⟩ hidle hissued
      heff⟩
  rw [if_neg (by simp)]
  exact (bind_of_run hloop).trans rfl

theorem chunkLoop_run {body : ℕ → ℕ → ℕ → PioM (AtaError × ℕ)}
    (hbody : ∀ lba chunk buffer a, Idle a → 0 < chunk → chunk ≤ 255 →
      ∃ a', body lba chunk buffer a = some ((.none, buffer + ataSectorSize * chunk), a') ∧
        Moved cmd lba chunk buffer a a')
    {fuel count : ℕ} (hfuel : count ≤ fuel) (h : Idle a) :
    ∃ a', AtaPort.chunkLoop body fuel lba count buffer a = some (.none, a') ∧
      Moved cmd lba count buffer a a' := by
  induction fuel generalizing lba count buffer a with
  | zero =>
    obtain rfl : count = 0 := by omega
    exact ⟨a, rfl, .refl h⟩
  | succ fuel ih =>
    rw [AtaPort.chunkLoop]
    by_cases hpos : 0 < count
    · rw [if_pos hpos]
      obtain ⟨chunk, hchunk, hcp, hcl, hcc⟩ : ∃ chunk,
          (if ataMaxSectorsPerCmd < count then ataMaxSectorsPerCmd else count) = chunk ∧
            0 < chunk ∧ chunk ≤ 255 ∧ chunk ≤ count := by
        refine ⟨_, rfl, ?_⟩
        unfold ataMaxSectorsPerCmd
        split_ifs <;> omega
      obtain ⟨a₁, hrun, hmoved⟩ := hbody lba chunk buffer a h hcp hcl
      obtain ⟨a', hloop, hmoved'⟩ : ∃ a', AtaPort.chunkLoop body fuel ((lba + chunk) % 2 ^ 32)
          (count - chunk) (buffer + ataSectorSize * chunk) a₁ = some (.none, a') ∧
            Moved cmd ((lba + chunk) % 2 ^ 32) (count - chunk) (buffer + ataSectorSize * chunk) a₁
              a' := ih (by omega) hmoved.idle
      refine ⟨a', ?_, ?_⟩
      · rw [hchunk, bind_of_run hrun, if_neg (by simp)]
        exact hloop
      · have htrans := hmoved.trans hmoved' (Nat.mod_mod_of_dvd _ (by norm_num [lbaSectors]))
        rwa [Nat.add_sub_cancel' hcc] at htrans
    · rw [if_neg hpos]
      obtain rfl : count = 0 := by omega
      exact ⟨a, rfl, .refl h⟩

theorem ataReadSectors_run (hT : T.InTime) (lba : ℕ) {count : ℕ} (h : Idle a) (hb : buffer ≠ 0)
    (hc : count ≠ 0) :
    ∃ a', ataReadSectors T lba count buffer a = some (.none, a') ∧
      Moved .readSectors lba count buffer a a' := by
  unfold ataReadSectors AtaPort.ataReadSectors
  rw [if_neg (by simp [hb, hc])]
  exact chunkLoop_run (fun _ _ _ _ => ataReadChunk_run hT) le_rfl h

theorem ataWriteSectors_run (hT : T.InTime) (hd : ∀ n, T.delay n < 30000) (lba : ℕ) {count : ℕ}
    (h : Idle a) (hb : buffer ≠ 0) (hc : count ≠ 0) :
    ∃ a', ataWriteSectors T lba count buffer a = some (.none, a') ∧
      Moved .writeSectors lba count buffer a a' := by
  unfold ataWriteSectors AtaPort.ataWriteSectors
  rw [if_neg (by simp [hb, hc])]
  exact chunkLoop_run (fun _ _ _ _ => ataWriteChunk_run hT hd) le_rfl h

end Request

end DvivonOS.Pio
