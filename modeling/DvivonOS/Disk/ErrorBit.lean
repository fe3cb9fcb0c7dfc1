import DvivonOS.Disk.Ata

/-!
# A request as a loop on the error bit

The driver looks at the status before a command and, for a write, before the first sector. What a
chunk of sectors leaves behind is therefore one bit, the latched error, and a request is a loop on
that bit (`DriveKind.requestLoop`), which the code refines.
-/

namespace DvivonOS

/-! ## The loop on the error bit -/

namespace DriveKind

variable (D : DriveKind)

/-- No sector of `lba, ..., lba + n - 1` is bad. -/
def clean : ℕ → ℕ → Bool
  | _, 0 => true
  | lba, n + 1 => !D.bad lba && clean (lba + 1) n

/-- A chunk that starts without an error: its result and the error bit it leaves. -/
def chunk (cmd : AtaCmd) (lba n : ℕ) : Option (AtaError × Bool) :=
  if D.clean lba n then some (.none, false)
  else if D.looksAhead cmd then
    if D.bad lba then some (.fault, true) else if D.stops then none else some (.none, true)
  else if D.stops && !D.clean lba (n - 1) then none else some (.none, true)

/-- A request, from the error bit before it. -/
def requestLoop (cmd : AtaCmd) : ℕ → ℕ → ℕ → Bool → Option (AtaError × Bool)
  | 0, _, _, err => some (.none, err)
  | fuel + 1, lba, count, err =>
    if 0 < count then
      if err then some (.timeout, true)
      else (D.chunk cmd lba (min ataMaxSectorsPerCmd count)).bind fun r =>
        if r.1 ≠ .none then some r
        else requestLoop cmd fuel (lba + min ataMaxSectorsPerCmd count)
          (count - min ataMaxSectorsPerCmd count) r.2
    else some (.none, err)

@[simp] theorem clean_zero (lba : ℕ) : D.clean lba 0 = true := rfl

theorem clean_succ (lba n : ℕ) : D.clean lba (n + 1) = (!D.bad lba && D.clean (lba + 1) n) := rfl

theorem clean_add (lba m n : ℕ) :
    D.clean lba (m + n) = (D.clean lba m && D.clean (lba + m) n) := by
  induction m generalizing lba with
  | zero => simp
  | succ m ih =>
    rw [Nat.succ_add, clean_succ, clean_succ, ih, Bool.and_assoc, Nat.add_assoc lba 1,
      Nat.add_comm 1]

theorem clean_of_le {lba m n : ℕ} (hmn : m ≤ n) (h : D.clean lba n = true) :
    D.clean lba m = true := by
  obtain ⟨k, rfl⟩ := Nat.exists_eq_add_of_le hmn
  rw [clean_add, Bool.and_eq_true] at h
  exact h.1

theorem bad_of_clean {lba n : ℕ} (hn : 0 < n) (h : D.clean lba n = true) : D.bad lba = false := by
  have hfirst := D.clean_of_le hn h
  rw [clean_succ, clean_zero, Bool.and_true, Bool.not_eq_true'] at hfirst
  exact hfirst

end DriveKind

/-! ## The code refines the loop -/

def observe (r : Option (AtaError × Ata)) : Option (AtaError × Bool) := r.map fun p => (p.1, p.2.err)

/-- The same of a chunk, which also returns `buffer`. -/
def observeChunk (r : Option ((AtaError × ℕ) × Ata)) : Option (AtaError × Bool) :=
  r.map fun p => (p.1.1, p.2.err)

section Status

variable (a : Ata)

theorem status_error : a.status &&& ataStatusError ≠ 0 ↔ a.err = true := by
  unfold Ata.status
  cases a.err <;> cases a.drq <;> decide

theorem status_ready : a.status &&& ataStatusBusy = 0 ∧ a.status &&& ataStatusReady ≠ 0 := by
  unfold Ata.status
  cases a.err <;> cases a.drq <;> decide

theorem status_drq : a.status &&& ataStatusDrq ≠ 0 ↔ a.drq = true := by
  unfold Ata.status
  cases a.err <;> cases a.drq <;> decide

theorem ataWaitReady_run (D : DriveKind) :
    (D.port.ataWaitReady 1000).run a = some (if a.err then .fault else .none, a) := by
  unfold AtaPort.ataWaitReady
  rw [show 1000 * 1000 = 999999 + 1 from rfl]
  show (if a.status &&& ataStatusError ≠ 0 then pure .fault else
    if a.status &&& ataStatusBusy = 0 ∧ a.status &&& ataStatusReady ≠ 0 then pure .none
    else D.port.waitReadyLoop 999999 : AtaM AtaError).run a = _
  rw [if_pos (status_ready a)]
  by_cases h : a.err = true
  · rw [if_pos ((status_error a).mpr h), if_pos h]
    rfl
  · rw [if_neg (mt (status_error a).mp h), if_neg h]
    rfl

theorem ataPollDrq_run (D : DriveKind) (h : a.err = true ∨ a.drq = true) :
    D.port.ataPollDrq.run a = some (if a.err then .fault else .none, a) := by
  unfold AtaPort.ataPollDrq
  rw [show 30000 = 29999 + 1 from rfl]
  show (if a.status &&& ataStatusError ≠ 0 then pure .fault else
    if a.status &&& ataStatusDrq ≠ 0 then pure .none
    else D.port.pollDrqLoop 29999 : AtaM AtaError).run a = _
  by_cases he : a.err = true
  · rw [if_pos ((status_error a).mpr he), if_pos he]
    rfl
  · rw [if_neg (mt (status_error a).mp he), if_neg he,
      if_pos ((status_drq a).mpr (h.resolve_left he))]
    rfl

end Status

section Serve

variable (D : DriveKind)

def serveAll : ℕ → Ata → Option Ata
  | 0, a => some a
  | n + 1, a => if a.left = 0 then none else serveAll n (D.serve a)

theorem serve_irqFired (a : Ata) (b : Bool) :
    D.serve { a with irqFired := b } = { D.serve a with irqFired := b } := by
  unfold DriveKind.serve DriveKind.fail Ata.advance
  dsimp only
  split_ifs <;> rfl

theorem serveAll_irqFired (b : Bool) : ∀ n a,
    serveAll D n { a with irqFired := b } =
      (serveAll D n a).map fun a' => { a' with irqFired := b } := by
  intro n
  induction n with
  | zero => intro a; rfl
  | succ n ih =>
    intro a
    unfold serveAll
    dsimp only
    split_ifs with h
    · rfl
    · rw [serve_irqFired, ih]

def fired (a : Ata) : Ata := { a with irqFired := true }

theorem ataWaitIrq_run (a : Ata) (h : a.irqFired = false) :
    (ataWaitIrq D).run a =
      if a.left = 0 then none else some ((), { D.serve a with irqFired := true }) := by
  show (if a.irqFired = true then _ else _) = _
  rw [h]
  rfl

theorem ataReadLoop_run : ∀ n buffer a, a.irqFired = false →
    ((D.port.ataReadLoop (n + 1) buffer).run a).map Prod.snd = (serveAll D (n + 1) a).map fired := by
  intro n
  induction n with
  | zero =>
    intro buffer a h
    show ((ataWaitIrq D).run a >>= _).map Prod.snd = _
    rw [serveAll, ataWaitIrq_run D a h]
    by_cases hl : a.left = 0
    · rw [if_pos hl, if_pos hl]
      rfl
    · rw [if_neg hl, if_neg hl]
      rfl
  | succ n ih =>
    intro buffer a h
    show ((ataWaitIrq D).run a >>= _).map Prod.snd = _
    rw [serveAll, ataWaitIrq_run D a h]
    by_cases hl : a.left = 0
    · rw [if_pos hl, if_pos hl]
      rfl
    · rw [if_neg hl, if_neg hl]
      refine (ih _ { D.serve a with irqFired := false } rfl).trans ?_
      rw [serveAll_irqFired, Option.map_map]
      rfl

theorem ataWriteLoop_run : ∀ n buffer a,
    ((D.port.ataWriteLoop (n + 1) buffer).run a).map Prod.snd =
      (serveAll D (n + 1) a).map fired := by
  intro n
  induction n with
  | zero =>
    intro buffer a
    show ((ataWaitIrq D).run { a with irqFired := false } >>= _).map Prod.snd = _
    rw [ataWaitIrq_run D _ rfl, serveAll, serve_irqFired]
    dsimp only
    split_ifs <;> rfl
  | succ n ih =>
    intro buffer a
    show ((ataWaitIrq D).run { a with irqFired := false } >>= _).map Prod.snd = _
    rw [ataWaitIrq_run D _ rfl, serveAll, serve_irqFired]
    dsimp only
    by_cases hl : a.left = 0
    · rw [if_pos hl, if_pos hl]
      rfl
    · rw [if_neg hl, if_neg hl]
      refine (ih _ { D.serve a with irqFired := true }).trans ?_
      rw [serveAll_irqFired, Option.map_map]
      rfl

theorem fail_left_of_stops (a : Ata) (h : D.stops = true) : (D.fail a).left = 0 := if_pos h

theorem fail_left_of_goes (a : Ata) (h : D.stops = false) : (D.fail a).left = a.left := by
  unfold DriveKind.fail
  rw [h]
  rfl

theorem advance_left {a : Ata} {n : ℕ} (h : a.left = n + 1) : a.advance.left = n :=
  congrArg (· - 1) h

/-- A drive that does not look ahead: it stops before the end exactly at an earlier bad sector. -/
theorem serveAll_late : ∀ n a, D.looksAhead a.cmd = false → a.left = n →
    (serveAll D n a).map Ata.err =
      if D.clean a.next n then some a.err
      else if D.stops && !D.clean a.next (n - 1) then none else some true := by
  intro n
  induction n with
  | zero => intro a _ _; rfl
  | succ n ih =>
    intro a hc hn
    have hserve : D.serve a = if D.bad a.next then D.fail a.advance else a.advance := by
      unfold DriveKind.serve
      rw [hc]
      rfl
    rw [serveAll, if_neg (by omega), hserve, DriveKind.clean_succ, Nat.add_sub_cancel]
    cases hb : D.bad a.next with
    | false =>
      rw [if_neg Bool.false_ne_true, ih a.advance hc (advance_left hn)]
      cases n with
      | zero => rfl
      | succ m =>
        rw [DriveKind.clean_succ D a.next m, hb]
        rfl
    | true =>
      rw [if_pos rfl, Bool.not_true, Bool.false_and, if_neg Bool.false_ne_true]
      cases hst : D.stops with
      | false =>
        rw [ih (D.fail a.advance) hc ((fail_left_of_goes D _ hst).trans (advance_left hn)), hst]
        show (if _ then some true else some true) = some true
        rw [ite_self]
      | true =>
        cases n with
        | zero => rfl
        | succ m =>
          rw [serveAll, if_pos (fail_left_of_stops D _ hst), DriveKind.clean_succ, hb]
          rfl

/-- A drive that looks ahead: with its first sector behind it, it stops at any bad sector. -/
theorem serveAll_ahead : ∀ n a, D.looksAhead a.cmd = true → a.left = n + 1 →
    (serveAll D (n + 1) a).map Ata.err =
      if D.clean (a.next + 1) n then some a.err
      else if D.stops then none else some true := by
  intro n
  induction n with
  | zero =>
    intro a hc hn
    have hserve : D.serve a = a.advance := by
      unfold DriveKind.serve
      rw [if_pos hc, if_neg fun h => absurd h.1 (by rw [advance_left hn]; decide)]
    rw [serveAll, if_neg (by omega), hserve]
    rfl
  | succ n ih =>
    intro a hc hn
    have hserve : D.serve a = if D.bad (a.next + 1) then D.fail a.advance else a.advance := by
      unfold DriveKind.serve
      rw [if_pos hc, advance_left hn]
      simp [Ata.advance]
    rw [serveAll, if_neg (by omega), hserve, DriveKind.clean_succ]
    cases hb : D.bad (a.next + 1) with
    | false =>
      rw [if_neg Bool.false_ne_true, ih a.advance hc (advance_left hn)]
      rfl
    | true =>
      rw [if_pos rfl, Bool.not_true, Bool.false_and, if_neg Bool.false_ne_true]
      cases hst : D.stops with
      | false =>
        rw [ih (D.fail a.advance) hc ((fail_left_of_goes D _ hst).trans (advance_left hn)), hst]
        show (if _ then some true else some true) = some true
        rw [ite_self]
      | true =>
        rw [serveAll, if_pos (fail_left_of_stops D _ hst)]
        rfl

end Serve

section Chunk

variable (D : DriveKind) {lba n : ℕ} (hn : 0 < n) (hn' : n ≤ ataMaxSectorsPerCmd)
  (hlba : lba + n ≤ 2 ^ 28)

/-- The state in which a chunk's command is accepted. -/
def setUp (a : Ata) (lba n : ℕ) : Ata := { a with toTaskFile := .setup lba n }

include hn hlba in
theorem setUp_address (a : Ata) : (setUp a lba n).address = lba :=
  (TaskFile.setup_address lba n).trans (Nat.mod_eq_of_lt (by omega))

include hn' in
theorem setUp_sectorCount (a : Ata) : (setUp a lba n).sectorCount = n := by
  unfold ataMaxSectorsPerCmd at hn'
  exact Nat.mod_eq_of_lt (by omega)

theorem observe_loop (x : Option (ℕ × Ata)) :
    observeChunk (x >>= fun p => some ((.none, p.1), p.2)) =
      (x.map Prod.snd).map fun a => (.none, a.err) := by
  cases x <;> rfl

theorem readChunk_run (buffer : ℕ) (a : Ata) :
    observeChunk ((D.port.ataReadChunk lba n buffer).run a) =
      if a.err then some (.timeout, true)
      else (((D.port.ataReadLoop n buffer).run
        (D.accept .readSectors { setUp a lba n with irqFired := false })).map Prod.snd).map
          fun a => (.none, a.err) := by
  let b : Ata := { a with toTaskFile := .select 0 a.toTaskFile }
  show observeChunk ((D.port.ataWaitReady 1000).run b >>= _) = if b.err = true then _ else _
  rw [ataWaitReady_run]
  cases h : b.err with
  | false => exact observe_loop _
  | true => exact congrArg (fun e => some (AtaError.timeout, e)) h

theorem writeChunk_run (buffer : ℕ) (a : Ata) :
    observeChunk ((D.port.ataWriteChunk lba n buffer).run a) =
      if a.err then some (.timeout, true)
      else if (D.accept .writeSectors (setUp a lba n)).err then some (.fault, true)
      else (((D.port.ataWriteLoop n buffer).run
        (D.accept .writeSectors (setUp a lba n))).map Prod.snd).map fun a => (.none, a.err) := by
  have hdrq : (D.accept .writeSectors (setUp a lba n)).err = true ∨
      (D.accept .writeSectors (setUp a lba n)).drq = true := by
    unfold DriveKind.accept
    dsimp only
    split_ifs
    · exact Or.inl rfl
    · exact Or.inr rfl
  let b : Ata := { a with toTaskFile := .select 0 a.toTaskFile }
  show observeChunk ((D.port.ataWaitReady 1000).run b >>= _) = if b.err = true then _ else _
  rw [ataWaitReady_run]
  cases h : b.err with
  | false =>
    show observeChunk (D.port.ataPollDrq.run (D.accept .writeSectors (setUp a lba n)) >>= _) = _
    rw [ataPollDrq_run _ _ hdrq]
    cases h' : (D.accept .writeSectors (setUp a lba n)).err with
    | false => exact observe_loop _
    | true => exact congrArg (fun e => some (AtaError.fault, e)) h'
  | true => exact congrArg (fun e => some (AtaError.timeout, e)) h

theorem observe_fired (x : Option Ata) :
    (x.map fired).map (fun a => (AtaError.none, a.err)) = (x.map Ata.err).map fun e => (.none, e) := by
  cases x <;> rfl

theorem accept_of_good {cmd : AtaCmd} {t : Ata} (h : (D.looksAhead cmd && D.bad t.address) = false) :
    D.accept cmd t = { t with err := false, drq := cmd = .writeSectors, cmd := cmd,
                              next := t.address, left := t.sectorCount } := by
  unfold DriveKind.accept
  exact if_neg (by rw [h]; decide)

include hn hn' hlba

theorem readChunk_observe (buffer : ℕ) (a : Ata) (h : a.err = false) :
    observeChunk ((D.port.ataReadChunk lba n buffer).run a) = D.chunk .readSectors lba n := by
  obtain ⟨m, rfl⟩ : ∃ m, n = m + 1 := ⟨n - 1, by omega⟩
  have hnext : (D.accept .readSectors { setUp a lba (m + 1) with irqFired := false }).next = lba :=
    setUp_address hn hlba a
  have hleft : (D.accept .readSectors { setUp a lba (m + 1) with irqFired := false }).left = m + 1 :=
    (setUp_sectorCount hn' a : (setUp a lba (m + 1)).sectorCount = m + 1)
  rw [readChunk_run, h, if_neg Bool.false_ne_true, ataReadLoop_run D m _ _ rfl, observe_fired,
    serveAll_late D (m + 1) _ rfl hleft, hnext]
  unfold DriveKind.chunk
  rw [show D.looksAhead .readSectors = false from rfl, if_neg Bool.false_ne_true]
  split_ifs <;> rfl

theorem writeChunk_observe (buffer : ℕ) (a : Ata) (h : a.err = false) :
    observeChunk ((D.port.ataWriteChunk lba n buffer).run a) = D.chunk .writeSectors lba n := by
  obtain ⟨m, rfl⟩ : ∃ m, n = m + 1 := ⟨n - 1, by omega⟩
  have hnext := setUp_address hn hlba a
  have hleft : (setUp a lba (m + 1)).sectorCount = m + 1 := setUp_sectorCount hn' a
  rw [writeChunk_run, h, if_neg Bool.false_ne_true]
  unfold DriveKind.chunk
  cases hla : D.looksAhead .writeSectors with
  | false =>
    have hgood : (D.looksAhead .writeSectors && D.bad (setUp a lba (m + 1)).address) = false := by
      rw [hla]
      rfl
    rw [accept_of_good D hgood, if_neg Bool.false_ne_true, ataWriteLoop_run, observe_fired,
      serveAll_late D (m + 1) _ hla hleft, if_neg Bool.false_ne_true]
    dsimp only
    rw [hnext]
    split_ifs <;> rfl
  | true =>
    rw [if_pos rfl, DriveKind.clean_succ]
    cases hbad : D.bad lba with
    | false =>
      have hgood : (D.looksAhead .writeSectors && D.bad (setUp a lba (m + 1)).address) = false := by
        rw [hnext, hbad, Bool.and_false]
      rw [accept_of_good D hgood, if_neg Bool.false_ne_true, ataWriteLoop_run, observe_fired,
        serveAll_ahead D m _ hla hleft]
      dsimp only
      rw [hnext]
      cases D.clean (lba + 1) m <;> cases D.stops <;> rfl
    | true =>
      have herr : (D.accept .writeSectors (setUp a lba (m + 1))).err = true := by
        unfold DriveKind.accept
        dsimp only
        rw [hla, hnext, hbad]
        rfl
      rw [if_pos herr]
      rfl

end Chunk

section Request

variable (D : DriveKind)

def chunkBody : AtaCmd → ℕ → ℕ → ℕ → AtaM (AtaError × ℕ)
  | .readSectors => D.port.ataReadChunk
  | .writeSectors => D.port.ataWriteChunk

/-- With the error bit set, a chunk fails before its command and leaves the bit. -/
theorem chunkBody_latched (cmd : AtaCmd) {lba n buffer : ℕ} {a : Ata} (h : a.err = true) :
    observeChunk ((chunkBody D cmd lba n buffer).run a) = some (.timeout, true) := by
  cases cmd with
  | readSectors => exact (readChunk_run D buffer a).trans (if_pos h)
  | writeSectors => exact (writeChunk_run D buffer a).trans (if_pos h)

theorem chunkBody_observe (cmd : AtaCmd) {lba n buffer : ℕ} (hn : 0 < n)
    (hn' : n ≤ ataMaxSectorsPerCmd) (hlba : lba + n ≤ 2 ^ 28) {a : Ata} (h : a.err = false) :
    observeChunk ((chunkBody D cmd lba n buffer).run a) = D.chunk cmd lba n := by
  cases cmd with
  | readSectors => exact readChunk_observe D hn hn' hlba buffer a h
  | writeSectors => exact writeChunk_observe D hn hn' hlba buffer a h

theorem observe_bind {x : Option ((AtaError × ℕ) × Ata)}
    {f : (AtaError × ℕ) × Ata → Option (AtaError × Ata)}
    {g : AtaError × Bool → Option (AtaError × Bool)}
    (h : ∀ r a, observe (f (r, a)) = g (r.1, a.err)) :
    observe (x.bind f) = (observeChunk x).bind g := by
  cases x with
  | none => rfl
  | some p => exact h p.1 p.2

/-- **Refinement.** The `while` loop of a request is the loop on the error bit. -/
theorem chunkLoop_observe (cmd : AtaCmd) : ∀ fuel lba count buffer a, lba + count ≤ 2 ^ 28 →
    observe ((AtaPort.chunkLoop (chunkBody D cmd) fuel lba count buffer).run a) =
      D.requestLoop cmd fuel lba count a.err := by
  intro fuel
  induction fuel with
  | zero => intro lba count buffer a _; rfl
  | succ fuel ih =>
    intro lba count buffer a hlba
    unfold AtaPort.chunkLoop DriveKind.requestLoop
    by_cases hpos : 0 < count
    · have hmin : (if ataMaxSectorsPerCmd < count then ataMaxSectorsPerCmd else count) =
          min ataMaxSectorsPerCmd count := by
        rw [min_def]
        split_ifs <;> omega
      rw [if_pos hpos, if_pos hpos]
      dsimp only
      rw [hmin, Nat.mod_eq_of_lt (by omega : lba + min ataMaxSectorsPerCmd count < 2 ^ 32)]
      have hnext : ∀ x : Option ((AtaError × ℕ) × Ata), observe (x.bind fun p => (if p.1.1 ≠ .none
            then pure p.1.1 else AtaPort.chunkLoop (chunkBody D cmd) fuel
              (lba + min ataMaxSectorsPerCmd count) (count - min ataMaxSectorsPerCmd count)
              p.1.2 : AtaM AtaError).run p.2) =
          (observeChunk x).bind fun r => if r.1 ≠ .none then some r else D.requestLoop cmd fuel
            (lba + min ataMaxSectorsPerCmd count) (count - min ataMaxSectorsPerCmd count) r.2 := by
        refine fun x => observe_bind fun r a' => ?_
        by_cases hr : r.1 ≠ .none
        · rw [if_pos hr, if_pos hr]
          rfl
        · rw [if_neg hr, if_neg hr]
          exact ih _ _ _ a' (by omega)
      refine (hnext ((chunkBody D cmd lba (min ataMaxSectorsPerCmd count) buffer).run a)).trans ?_
      cases herr : a.err with
      | true =>
        rw [chunkBody_latched D cmd herr]
        rfl
      | false =>
        have hpos' : 0 < min ataMaxSectorsPerCmd count := lt_min (by decide) hpos
        rw [chunkBody_observe D cmd hpos' (min_le_left _ _) (by omega) herr]
        rfl
    · rw [if_neg hpos, if_neg hpos]
      rfl

end Request

end DvivonOS
