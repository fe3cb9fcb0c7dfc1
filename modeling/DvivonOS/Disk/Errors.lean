import DvivonOS.Disk.ErrorBit

/-!
# Which errors of the drive a request reports

A bad sector is reported only by the chunk after its own, or before the first sector of a write if
the drive looks ahead. The error bit then stays, because only a command clears it and the driver
sends none while the bit is set.
-/

namespace DvivonOS

/-! ## Which requests report -/

section Reported

variable {D : DriveKind} {cmd : AtaCmd}

/-- A bad sector of the request is reported: chunk `c` is the first with a bad sector. Either its
first sector is bad and the drive looks ahead, or another chunk comes after it, and the drive does
not stop before the end of chunk `c`. -/
def Reported (D : DriveKind) (cmd : AtaCmd) (lba count : ℕ) : Prop :=
  ∃ c, ataMaxSectorsPerCmd * c < count ∧ D.clean lba (ataMaxSectorsPerCmd * c) = true ∧
    (D.looksAhead cmd = true ∧ D.bad (lba + ataMaxSectorsPerCmd * c) = true ∨
      ataMaxSectorsPerCmd * (c + 1) < count ∧
        D.clean (lba + ataMaxSectorsPerCmd * c) ataMaxSectorsPerCmd = false ∧
        (D.stops = false ∨ D.looksAhead cmd = false ∧
          D.clean (lba + ataMaxSectorsPerCmd * c) (ataMaxSectorsPerCmd - 1) = true))

/-- A chunk with a bad sector: reported before its first sector, never ended, or passed over. -/
theorem chunk_bad (cmd : AtaCmd) {lba n : ℕ} (h : D.clean lba n = false) :
    (D.chunk cmd lba n = some (.fault, true) ∧ D.looksAhead cmd = true ∧ D.bad lba = true) ∨
    (¬(D.looksAhead cmd = true ∧ D.bad lba = true) ∧
      ((D.chunk cmd lba n = none ∧
          ¬(D.stops = false ∨ D.looksAhead cmd = false ∧ D.clean lba (n - 1) = true)) ∨
        (D.chunk cmd lba n = some (.none, true) ∧
          (D.stops = false ∨ D.looksAhead cmd = false ∧ D.clean lba (n - 1) = true)))) := by
  unfold DriveKind.chunk
  rw [h]
  cases D.looksAhead cmd <;> cases D.bad lba <;> cases D.stops <;> cases D.clean lba (n - 1) <;>
    simp

theorem requestLoop_succ {fuel lba count : ℕ} (h : 0 < count) :
    D.requestLoop cmd (fuel + 1) lba count false =
      (D.chunk cmd lba (min ataMaxSectorsPerCmd count)).bind fun r =>
        if r.1 ≠ .none then some r
        else D.requestLoop cmd fuel (lba + min ataMaxSectorsPerCmd count)
          (count - min ataMaxSectorsPerCmd count) r.2 := by
  rw [DriveKind.requestLoop, if_pos h, if_neg Bool.false_ne_true]

theorem requestLoop_latched {fuel lba count : ℕ} (h : count ≤ fuel) :
    D.requestLoop cmd fuel lba count true =
      some (if 0 < count then .timeout else .none, true) := by
  cases fuel with
  | zero =>
    obtain rfl : count = 0 := by omega
    rfl
  | succ fuel =>
    rw [DriveKind.requestLoop]
    by_cases hpos : 0 < count
    · rw [if_pos hpos, if_pos hpos, if_pos rfl]
    · rw [if_neg hpos, if_neg hpos]

/-- The sectors of a request are those of its first chunk and the others. -/
theorem clean_first (lba count : ℕ) :
    D.clean lba count = (D.clean lba (min ataMaxSectorsPerCmd count) &&
      D.clean (lba + min ataMaxSectorsPerCmd count) (count - min ataMaxSectorsPerCmd count)) := by
  rw [← DriveKind.clean_add]
  congr 1
  omega

theorem requestLoop_clean : ∀ fuel lba count, D.clean lba count = true →
    D.requestLoop cmd fuel lba count false = some (.none, false) := by
  intro fuel
  induction fuel with
  | zero => intro lba count _; rfl
  | succ fuel ih =>
    intro lba count h
    by_cases hpos : 0 < count
    · rw [clean_first, Bool.and_eq_true] at h
      rw [requestLoop_succ hpos, DriveKind.chunk, if_pos h.1]
      exact ih _ _ h.2
    · rw [DriveKind.requestLoop, if_neg hpos]

theorem requestLoop_err : ∀ fuel lba count err r e, count ≤ fuel →
    D.requestLoop cmd fuel lba count err = some (r, e) →
      e = (err || !D.clean lba count) := by
  intro fuel
  induction fuel with
  | zero =>
    intro lba count err r e hf h
    obtain rfl : count = 0 := by omega
    obtain ⟨-, rfl⟩ := Prod.mk.inj (Option.some.inj h)
    rw [DriveKind.clean_zero, Bool.not_true, Bool.or_false]
  | succ fuel ih =>
    intro lba count err r e hf h
    cases err with
    | true =>
      rw [requestLoop_latched hf] at h
      exact (Prod.mk.inj (Option.some.inj h)).2.symm
    | false =>
      by_cases hpos : 0 < count
      · have hmin : 0 < min ataMaxSectorsPerCmd count := lt_min (by decide) hpos
        rw [requestLoop_succ hpos] at h
        rw [clean_first]
        cases hc : D.clean lba (min ataMaxSectorsPerCmd count) with
        | true =>
          rw [DriveKind.chunk, if_pos hc] at h
          exact ih _ _ false r e (by omega) h
        | false =>
          rcases chunk_bad cmd hc with ⟨heq, -⟩ | ⟨-, ⟨heq, -⟩ | ⟨heq, -⟩⟩
          · rw [heq] at h
            exact (Prod.mk.inj (Option.some.inj h)).2.symm
          · rw [heq] at h
            cases h
          · rw [heq] at h
            exact ih _ _ true r e (by omega) h
      · obtain rfl : count = 0 := by omega
        exact (Prod.mk.inj (Option.some.inj h)).2.symm

theorem not_reported_zero {lba : ℕ} : ¬Reported D cmd lba 0 := by
  rintro ⟨c, hc, -⟩
  exact Nat.not_lt_zero _ hc

theorem reported_next {lba count : ℕ}
    (h : D.clean lba (min ataMaxSectorsPerCmd count) = true) :
    Reported D cmd lba count ↔ Reported D cmd (lba + min ataMaxSectorsPerCmd count)
      (count - min ataMaxSectorsPerCmd count) := by
  rcases Nat.lt_or_ge ataMaxSectorsPerCmd count with hlt | hge
  · rw [min_eq_left hlt.le] at h ⊢
    constructor
    · rintro ⟨c, h1, h2, h3⟩
      cases c with
      | zero =>
        -- the first chunk has no bad sector
        rw [Nat.mul_zero, Nat.add_zero, D.bad_of_clean (by decide) h, h] at h3
        rcases h3 with ⟨-, h3⟩ | ⟨-, h3, -⟩ <;> cases h3
      | succ c =>
        rw [Nat.mul_succ] at h1 h2 h3
        rw [Nat.mul_succ ataMaxSectorsPerCmd (c + 1), Nat.mul_succ] at h3
        rw [Nat.add_comm _ ataMaxSectorsPerCmd] at h2
        rw [DriveKind.clean_add, Bool.and_eq_true] at h2
        refine ⟨c, by omega, h2.2, ?_⟩
        rw [show lba + ataMaxSectorsPerCmd + ataMaxSectorsPerCmd * c =
          lba + (ataMaxSectorsPerCmd * c + ataMaxSectorsPerCmd) by omega]
        refine h3.imp_right fun h4 => ⟨?_, h4.2⟩
        rw [Nat.mul_succ]
        omega
    · rintro ⟨c, h1, h2, h3⟩
      refine ⟨c + 1, by rw [Nat.mul_succ]; omega, ?_, ?_⟩
      · rw [Nat.mul_succ, Nat.add_comm _ ataMaxSectorsPerCmd, DriveKind.clean_add, h, h2]
        rfl
      · rw [Nat.mul_succ ataMaxSectorsPerCmd (c + 1), Nat.mul_succ]
        rw [show lba + ataMaxSectorsPerCmd + ataMaxSectorsPerCmd * c =
          lba + (ataMaxSectorsPerCmd * c + ataMaxSectorsPerCmd) by omega, Nat.mul_succ] at h3
        exact h3.imp_right fun h4 => ⟨by omega, h4.2⟩
  · rw [min_eq_right hge] at h ⊢
    rw [Nat.sub_self]
    refine iff_of_false ?_ not_reported_zero
    rintro ⟨c, h1, -, h3⟩
    cases c with
    | zero =>
      rw [Nat.mul_zero, Nat.add_zero, D.bad_of_clean (by omega) h] at h3
      rcases h3 with ⟨-, h3⟩ | ⟨h3, -⟩
      · cases h3
      · omega
    | succ c =>
      rw [Nat.mul_succ] at h1
      omega

theorem reported_first {lba count : ℕ} (hpos : 0 < count)
    (h : D.clean lba (min ataMaxSectorsPerCmd count) = false) :
    Reported D cmd lba count ↔ D.looksAhead cmd = true ∧ D.bad lba = true ∨
      ataMaxSectorsPerCmd < count ∧ (D.stops = false ∨ D.looksAhead cmd = false ∧
        D.clean lba (min ataMaxSectorsPerCmd count - 1) = true) := by
  constructor
  · rintro ⟨c, h1, h2, h3⟩
    cases c with
    | zero =>
      rw [Nat.mul_zero, Nat.add_zero] at h3
      refine h3.imp_right fun h4 => ?_
      have hlt : ataMaxSectorsPerCmd < count := by omega
      rw [min_eq_left hlt.le]
      exact ⟨hlt, h4.2.2⟩
    | succ c =>
      have hle : min ataMaxSectorsPerCmd count ≤ ataMaxSectorsPerCmd * (c + 1) :=
        (min_le_left _ _).trans (Nat.le_mul_of_pos_right _ c.succ_pos)
      rw [D.clean_of_le hle h2] at h
      cases h
  · intro h3
    refine ⟨0, by omega, rfl, ?_⟩
    rw [Nat.mul_zero, Nat.add_zero]
    refine h3.imp_right fun ⟨h4, h5⟩ => ?_
    rw [min_eq_left h4.le] at h h5
    exact ⟨by omega, h, h5⟩

/-- A request from a clear error bit returns an error exactly if it reports. -/
theorem requestLoop_error_iff : ∀ fuel lba count, count ≤ fuel →
    ((∃ r e, D.requestLoop cmd fuel lba count false = some (r, e) ∧ r ≠ .none) ↔
      Reported D cmd lba count) := by
  intro fuel
  induction fuel with
  | zero =>
    intro lba count hf
    obtain rfl : count = 0 := by omega
    refine iff_of_false ?_ not_reported_zero
    rintro ⟨r, e, h, hr⟩
    exact hr (Prod.mk.inj (Option.some.inj h)).1.symm
  | succ fuel ih =>
    intro lba count hf
    by_cases hpos : 0 < count
    · have hmin : 0 < min ataMaxSectorsPerCmd count := lt_min (by decide) hpos
      rw [requestLoop_succ hpos]
      cases hc : D.clean lba (min ataMaxSectorsPerCmd count) with
      | true =>
        rw [reported_next hc, DriveKind.chunk, if_pos hc]
        exact ih _ _ (by omega)
      | false =>
        rw [reported_first hpos hc]
        rcases chunk_bad cmd hc with ⟨heq, hb⟩ | ⟨hb, ⟨heq, hp⟩ | ⟨heq, hp⟩⟩
        · rw [heq]
          exact iff_of_true ⟨.fault, true, rfl, nofun⟩ (Or.inl hb)
        · rw [heq]
          refine iff_of_false ?_ ?_
          · rintro ⟨r, e, h, -⟩
            cases h
          · rintro (h | h)
            · exact hb h
            · exact hp h.2
        · rw [heq]
          show (∃ r e, D.requestLoop cmd fuel _ _ true = some (r, e) ∧ r ≠ .none) ↔ _
          rw [requestLoop_latched (by omega)]
          by_cases hlt : ataMaxSectorsPerCmd < count
          · rw [if_pos (by omega)]
            exact iff_of_true ⟨.timeout, true, rfl, nofun⟩ (Or.inr ⟨hlt, hp⟩)
          · rw [if_neg (by omega)]
            refine iff_of_false ?_ ?_
            · rintro ⟨r, e, h, hr⟩
              exact hr (Prod.mk.inj (Option.some.inj h)).1.symm
            · rintro (h | h)
              · exact hb h
              · exact hlt h.1
    · obtain rfl : count = 0 := by omega
      refine iff_of_false ?_ not_reported_zero
      rintro ⟨r, e, h, hr⟩
      exact hr (Prod.mk.inj (Option.some.inj h)).1.symm

end Reported

/-! ## Sequences of requests -/

/-- A call of `ata_read_sectors` or `ata_write_sectors` within the 28-bit addresses. -/
structure AtaRequest where
  cmd : AtaCmd
  lba : ℕ
  count : ℕ
  buffer : ℕ
  buffer_ne : buffer ≠ 0
  count_pos : 1 ≤ count
  le_lba : lba + count ≤ 2 ^ 28

namespace AtaRequest

variable (D : DriveKind)

def exec (r : AtaRequest) : AtaM AtaError :=
  match r.cmd with
  | .readSectors => ataReadSectors D r.lba r.count r.buffer
  | .writeSectors => ataWriteSectors D r.lba r.count r.buffer

def Clean (r : AtaRequest) : Prop := ∀ s, r.lba ≤ s → s < r.lba + r.count → D.bad s = false

theorem exec_observe (r : AtaRequest) (a : Ata) :
    observe ((r.exec D).run a) = D.requestLoop r.cmd r.count r.lba r.count a.err := by
  have hpos := r.count_pos
  have hb := r.buffer_ne
  have hcond : ¬(r.buffer = 0 ∨ r.count = 0) := by omega
  have hloop := chunkLoop_observe D r.cmd r.count r.lba r.count r.buffer a r.le_lba
  rw [← hloop]
  unfold exec ataReadSectors ataWriteSectors AtaPort.ataReadSectors AtaPort.ataWriteSectors
  rw [if_neg hcond, if_neg hcond]
  cases r.cmd <;> rfl

theorem clean_iff (r : AtaRequest) : r.Clean D ↔ D.clean r.lba r.count = true := by
  have hall : ∀ n lba, D.clean lba n = true ↔ ∀ s, lba ≤ s → s < lba + n → D.bad s = false := by
    intro n
    induction n with
    | zero => intro lba; exact iff_of_true rfl fun s h1 h2 => by omega
    | succ n ih =>
      intro lba
      rw [DriveKind.clean_succ, Bool.and_eq_true, Bool.not_eq_true', ih]
      constructor
      · rintro ⟨h1, h2⟩ s hs hs'
        rcases Nat.eq_or_lt_of_le hs with rfl | hlt
        · exact h1
        · exact h2 s hlt (by omega)
      · intro h
        exact ⟨h lba le_rfl (by omega), fun s hs hs' => h s (by omega) (by omega)⟩
  exact (hall r.count r.lba).symm

end AtaRequest

/-- Every request of the sequence returns, and it returns `ATA_ERROR_NONE` exactly if none of its
sectors is bad. -/
def ReportsErrors (D : DriveKind) : List AtaRequest → Ata → Prop
  | [], _ => True
  | r :: rs, a => ∃ e a', (r.exec D).run a = some (e, a') ∧ (e = .none ↔ r.Clean D) ∧
      ReportsErrors D rs a'

/-- The exact condition: until the first request with bad sectors there is nothing to report, that
request reports, and all later requests have bad sectors. -/
def OnlyLateErrors (D : DriveKind) : Bool → List AtaRequest → Prop
  | _, [] => True
  | false, r :: rs => (r.Clean D ∧ OnlyLateErrors D false rs) ∨
      (¬r.Clean D ∧ Reported D r.cmd r.lba r.count ∧ OnlyLateErrors D true rs)
  | true, r :: rs => ¬r.Clean D ∧ OnlyLateErrors D true rs

theorem observe_iff {x : Option (AtaError × Ata)} {Q : AtaError → Bool → Prop} :
    (∃ e a, x = some (e, a) ∧ Q e a.err) ↔ ∃ e b, observe x = some (e, b) ∧ Q e b := by
  constructor
  · rintro ⟨e, a, rfl, hq⟩
    exact ⟨e, a.err, rfl, hq⟩
  · rintro ⟨e, b, hx, hq⟩
    obtain ⟨⟨e', a⟩, rfl, heq⟩ := Option.map_eq_some_iff.mp hx
    obtain ⟨rfl, rfl⟩ := Prod.mk.inj heq
    exact ⟨e', a, rfl, hq⟩

/-- One request: it returns the right code exactly if the error bit was clear and it has no bad
sector or reports one, or the bit was set and it has a bad sector. -/
theorem request_reports_iff (D : DriveKind) (r : AtaRequest) (a : Ata) {P : Bool → Prop} :
    (∃ e a', (r.exec D).run a = some (e, a') ∧ (e = .none ↔ r.Clean D) ∧ P a'.err) ↔
      if a.err then ¬r.Clean D ∧ P true
      else (r.Clean D ∧ P false) ∨
        (¬r.Clean D ∧ Reported D r.cmd r.lba r.count ∧ P true) := by
  have hpos : 0 < r.count := r.count_pos
  rw [observe_iff (Q := fun e b => (e = .none ↔ r.Clean D) ∧ P b), r.exec_observe D a]
  cases a.err with
  | true =>
    rw [requestLoop_latched le_rfl, if_pos hpos, if_pos rfl]
    constructor
    · rintro ⟨e, b, heq, h1, h2⟩
      obtain ⟨rfl, rfl⟩ := Prod.mk.inj (Option.some.inj heq)
      exact ⟨fun hc => (nomatch h1.mpr hc), h2⟩
    · rintro ⟨h1, h2⟩
      exact ⟨.timeout, true, rfl, iff_of_false nofun h1, h2⟩
  | false =>
    rw [if_neg Bool.false_ne_true]
    by_cases hc : r.Clean D
    · rw [requestLoop_clean _ _ _ ((r.clean_iff D).mp hc)]
      constructor
      · rintro ⟨e, b, heq, -, h2⟩
        obtain ⟨rfl, rfl⟩ := Prod.mk.inj (Option.some.inj heq)
        exact Or.inl ⟨hc, h2⟩
      · rintro (h | h)
        · exact ⟨.none, false, rfl, iff_of_true rfl hc, h.2⟩
        · exact absurd hc h.1
    · have hbad : D.clean r.lba r.count = false := Bool.eq_false_iff.mpr (mt (r.clean_iff D).mpr hc)
      have herr : ∀ e b, D.requestLoop r.cmd r.count r.lba r.count false = some (e, b) →
          b = true := by
        intro e b h
        have := requestLoop_err _ _ _ _ e b le_rfl h
        rwa [hbad] at this
      constructor
      · rintro ⟨e, b, heq, h1, h2⟩
        obtain rfl := herr e b heq
        exact Or.inr ⟨hc, (requestLoop_error_iff _ _ _ le_rfl).mp ⟨e, true, heq, mt h1.mp hc⟩, h2⟩
      · rintro (h | h)
        · exact absurd h.1 hc
        · obtain ⟨e, b, heq, hne⟩ := (requestLoop_error_iff _ _ _ le_rfl).mpr h.2.1
          obtain rfl := herr e b heq
          exact ⟨e, true, heq, iff_of_false hne hc, h.2.2⟩

/-- **Errors of the drive.** For every drive, every state and every sequence of requests: each
request returns, with `ATA_ERROR_NONE` exactly if it has no bad sector, if and only if the condition
holds. In particular a bad sector in the last chunk of a request is reported as success, and one
bad sector makes all later requests fail. -/
theorem ata_requests_report (D : DriveKind) (rs : List AtaRequest) (a : Ata) :
    ReportsErrors D rs a ↔ OnlyLateErrors D a.err rs := by
  induction rs generalizing a with
  | nil =>
    unfold ReportsErrors OnlyLateErrors
    rfl
  | cons r rs ih =>
    unfold ReportsErrors
    simp only [ih]
    rw [request_reports_iff D r a (P := fun b => OnlyLateErrors D b rs)]
    cases a.err <;> rfl

def idleAta : Ata where
  sectorCount := 0
  lbaLow := 0
  lbaMid := 0
  lbaHigh := 0
  driveSelect := ataMaster
  err := false
  drq := false
  cmd := .readSectors
  next := 0
  left := 0
  irqFired := false

def badDrive : DriveKind := ⟨(· == 7), true, false⟩

def readOne (lba : ℕ) (h : lba + 1 ≤ 2 ^ 28) : AtaRequest :=
  ⟨.readSectors, lba, 1, 0x1000, by decide, le_rfl, h⟩

/-- **A bad sector is read without an error, and no good sector can be read after it.** -/
theorem bad_sector_passes :
    observe ((ataReadSectors badDrive 7 1 0x1000).run idleAta) = some (.none, true) ∧
      observe ((do
        let _ ← ataReadSectors badDrive 7 1 0x1000
        ataReadSectors badDrive 8 1 0x1000).run idleAta) = some (.timeout, true) ∧
      ¬ReportsErrors badDrive [readOne 7 (by decide), readOne 8 (by decide)] idleAta := by
  refine ⟨by decide +kernel, by decide +kernel, ?_⟩
  rintro ⟨e, a, heq, hiff, -⟩
  have hobs : observe ((ataReadSectors badDrive 7 1 0x1000).run idleAta) = some (.none, true) := by
    decide +kernel
  have hnone : e = .none := by
    have := congrArg observe heq
    exact (Prod.mk.inj (Option.some.inj (this.symm.trans hobs))).1
  exact absurd ((hiff.mp hnone) 7 le_rfl (by decide)) (by decide)

end DvivonOS
