import DvivonOS.Disk.Irq

/-!
# Interleavings of the driver, the drive and the handlers

Every step that meets the condition preserves the invariant, so every state reached by such steps is
safe. A step that does not meet it leads to an unsafe state: an interrupt that is handled just before
`ata_prepare_irq` is lost, and a flag that IRQ 15 sets early lets the driver read a sector before it
is ready, this one or, with the interrupt of this one still pending, the next.
-/

namespace DvivonOS

open List

namespace ReadSys

/-! ## What a step preserves -/

section Steps

variable {s : ReadSys}

theorem Between.at (h : s.Between) (pc : ReadPc) : ({ s with pc := pc } : ReadSys).Between :=
  ⟨h.le, h.idle, h.raised, h.bound, h.old⟩

theorem Chosen.at (h : s.Chosen) (pc : ReadPc) : ({ s with pc := pc } : ReadSys).Chosen :=
  ⟨h.toBetween.at pc, h.pos, h.chunk_le⟩

theorem Awaits.at (h : s.Awaits) (pc : ReadPc) : ({ s with pc := pc } : ReadSys).Awaits :=
  ⟨⟨h.le, h.chunk_le, h.i_lt, h.limit⟩, h.taken, h.now⟩

theorem Reads.at (h : s.Reads) (pc : ReadPc) : ({ s with pc := pc } : ReadSys).Reads :=
  ⟨⟨h.le, h.chunk_le, h.i_lt, h.limit⟩, h.taken, h.fired, h.next, h.old, h.raised⟩

theorem Chosen.command (h : s.Chosen) (hf : s.fired = false) :
    ({ s with pc := .waitIrq, i := 0, next := s.first, limit := s.first + s.chunk
              taken := s.first } : ReadSys).Awaits where
  le := h.le
  chunk_le := h.chunk_le
  i_lt := h.pos
  limit := rfl
  taken := rfl
  now := Or.inl ⟨hf, rfl, h.raised.resolve_right (by have := h.pos; have := h.chunk_le; omega), h.old⟩

theorem Awaits.fires (h : s.Awaits) (hf : s.fired = true) :
    ({ s with pc := .readPio 0 } : ReadSys).Reads := by
  rcases h.now with ⟨hf', -⟩ | ⟨hf', -⟩ | ⟨-, hn, hold, hr⟩
  · rw [hf] at hf'
    cases hf'
  · rw [hf] at hf'
    cases hf'
  · exact ⟨⟨h.le, h.chunk_le, h.i_lt, h.limit⟩, h.taken, hf, hn, hold, hr⟩

theorem Reads.rearms (h : s.Reads) (hi : s.i + 1 < s.chunk) :
    ({ s with pc := .prepareNext, taken := s.sector + 1 } : ReadSys).Rearms where
  le := h.le
  chunk_le := h.chunk_le
  i_lt := h.i_lt
  limit := h.limit
  more := hi
  taken := rfl
  fired := h.fired
  old := h.old
  now := by
    refine Or.inl ⟨h.next, h.raised.resolve_right fun hr => ?_⟩
    -- the last sector of the request is the last of its chunk
    have h1 := hr.2
    have h2 := h.chunk_le
    have h3 := h.le
    unfold sector first at h1
    omega

theorem Reads.ends (h : s.Reads) (hi : ¬s.i + 1 < s.chunk) :
    ({ s with pc := .advance, taken := s.sector + 1 } : ReadSys).Ends := by
  have hlt := h.i_lt
  have hlast : s.sector + 1 = s.first + s.chunk := by unfold sector; omega
  refine ⟨h.le, by show 0 < s.chunk; omega, h.chunk_le, ?_, ?_, ?_, ?_⟩
  · show s.next = s.limit
    rw [h.next, h.limit, hlast]
  · intro k hk
    show k < s.first + s.chunk
    rcases h.raised with hr | ⟨hr, -⟩
    · rw [hr] at hk
      cases hk
    · rw [hr, mem_singleton] at hk
      omega
  · intro k hk
    exact hlast ▸ h.old k hk
  · refine h.raised.imp id fun hr => ?_
    show s.count = s.chunk
    have h1 := hr.2
    have h2 := h.chunk_le
    have h3 := h.le
    unfold first at hlast
    omega

theorem Rearms.next_sector (h : s.Rearms) :
    ({ s with pc := .waitIrq, i := s.i + 1, fired := false } : ReadSys).Awaits where
  le := h.le
  chunk_le := h.chunk_le
  i_lt := h.more
  limit := h.limit
  taken := h.taken
  now := by
    rcases h.now with ⟨hn, hr⟩ | ⟨hn, hr⟩
    · exact Or.inl ⟨rfl, hn, hr, h.old⟩
    · exact Or.inr (Or.inl ⟨rfl, hn, hr, h.old⟩)

theorem Ends.next_chunk (h : s.Ends) :
    ({ s with pc := .head, count := s.count - s.chunk, lba := s.lba + s.chunk } : ReadSys).Between := by
  have h1 := h.le
  have h2 := h.chunk_le
  have hfirst : s.total - (s.count - s.chunk) = s.first + s.chunk := by unfold first; omega
  refine ⟨by show s.count - s.chunk ≤ s.total; omega, h.idle, ?_, ?_, ?_⟩
  · refine h.raised.imp id fun hc => ?_
    show s.count - s.chunk = 0
    omega
  · intro k hk
    show k < s.total - (s.count - s.chunk)
    rw [hfirst]
    exact h.bound k hk
  · intro k hk
    show k < s.total - (s.count - s.chunk)
    rw [hfirst]
    exact h.old k hk

theorem Between.chooses (h : s.Between) (hpos : 0 < s.count) :
    ({ s with pc := .select
              chunk := if ataMaxSectorsPerCmd < s.count then ataMaxSectorsPerCmd
                else s.count } : ReadSys).Chosen := by
  refine ⟨⟨h.le, h.idle, h.raised, h.bound, h.old⟩, ?_, ?_⟩
  · show 0 < if ataMaxSectorsPerCmd < s.count then ataMaxSectorsPerCmd else s.count
    split_ifs
    · decide
    · exact hpos
  · show (if ataMaxSectorsPerCmd < s.count then ataMaxSectorsPerCmd else s.count) ≤ s.count
    split_ifs <;> omega

theorem Inv.driver (hinv : s.Inv) (ready : Bool) : (s.driverStep ready).Inv := by
  have h := hinv
  unfold Inv at h
  unfold driverStep
  cases hpc : s.pc with
  | entry =>
    rw [hpc] at h
    dsimp only
    split_ifs
    · trivial
    · exact h.at .head
  | head =>
    rw [hpc] at h
    dsimp only
    by_cases hpos : 0 < s.count
    · rw [if_pos hpos]
      exact h.chooses hpos
    · rw [if_neg hpos]
      trivial
  | select => rw [hpc] at h; exact h.at .waitReady
  | waitReady =>
    rw [hpc] at h
    cases ready with
    | true => exact h.at .setupLba
    | false => trivial
  | setupLba => rw [hpc] at h; exact h.at .prepareFirst
  | prepareFirst =>
    rw [hpc] at h
    exact ⟨⟨⟨h.le, h.idle, h.raised, h.bound, h.old⟩, h.pos, h.chunk_le⟩, rfl⟩
  | command => rw [hpc] at h; exact h.1.command h.2
  | waitIrq =>
    rw [hpc] at h
    dsimp only
    by_cases hf : s.fired = true
    · rw [if_pos hf]
      exact ⟨by decide, h.fires hf⟩
    · rw [if_neg hf]
      exact h.at .hlt
  | hlt => rw [hpc] at h; exact h.at .halted
  | halted => exact hinv
  | readPio w =>
    rw [hpc] at h
    dsimp only
    split_ifs with hw hi
    · exact ⟨hw, h.2.at _⟩
    · exact h.2.rearms hi
    · exact h.2.ends hi
  | prepareNext => rw [hpc] at h; exact h.next_sector
  | advance => rw [hpc] at h; exact h.next_chunk
  | finished e => exact hinv

theorem wake_pc (s : ReadSys) : s.wake.pc = s.pc ∨ s.pc = .halted ∧ s.wake.pc = .waitIrq := by
  by_cases h : s.pc = .halted
  · exact Or.inr ⟨h, if_pos h⟩
  · exact Or.inl (if_neg h)

theorem Inv.of_phases {s' : ReadSys} (h : s.Inv)
    (hpc : s'.pc = s.pc ∨ s.pc = .halted ∧ s'.pc = .waitIrq)
    (hbetween : s.Between → s'.Between) (hchosen : s.Chosen → s'.Chosen)
    (hcommand : s.pc = .command → s.Chosen → s.fired = false → s'.fired = false)
    (hawaits : s.Waits → s.Awaits → s'.Awaits) (hreads : s.Reads → s'.Reads)
    (hrearms : s.pc = .prepareNext → s.Rearms → s'.Rearms) (hends : s.Ends → s'.Ends) : s'.Inv := by
  unfold Inv at h ⊢
  rcases hpc with hpc | ⟨hs, hpc⟩
  swap
  · rw [hs] at h
    rw [hpc]
    exact hawaits (Or.inr (Or.inr hs)) h
  rw [hpc]
  cases hs : s.pc with
  | entry => rw [hs] at h; exact hbetween h
  | head => rw [hs] at h; exact hbetween h
  | select => rw [hs] at h; exact hchosen h
  | waitReady => rw [hs] at h; exact hchosen h
  | setupLba => rw [hs] at h; exact hchosen h
  | prepareFirst => rw [hs] at h; exact hchosen h
  | command => rw [hs] at h; exact ⟨hchosen h.1, hcommand hs h.1 h.2⟩
  | waitIrq => rw [hs] at h; exact hawaits (Or.inl hs) h
  | hlt => rw [hs] at h; exact hawaits (Or.inr (Or.inl hs)) h
  | halted => rw [hs] at h; exact hawaits (Or.inr (Or.inr hs)) h
  | readPio w => rw [hs] at h; exact ⟨h.1, hreads h.2⟩
  | prepareNext => rw [hs] at h; exact hrearms hs h
  | advance => rw [hs] at h; exact hends h
  | finished e => trivial

/-- The drive makes the next sector ready, which is the one the driver waits for or will wait for
next. -/
theorem Inv.device (h : s.Inv) (h1 : s.next < s.limit) (h2 : s.next ≤ s.taken) :
    ({ s with next := s.next + 1, raised := s.raised ++ [s.next] } : ReadSys).Inv := by
  refine h.of_phases (Or.inl rfl) (fun hb => absurd hb.idle h1.ne) (fun hb => absurd hb.idle h1.ne)
    (fun _ _ hf => hf) (fun _ ha => ?_) (fun hr => ?_) (fun _ hr => ?_)
    (fun he => absurd he.idle h1.ne)
  · refine ⟨⟨ha.le, ha.chunk_le, ha.i_lt, ha.limit⟩, ha.taken, ?_⟩
    rcases ha.now with ⟨hf, hn, hr, hold⟩ | ⟨-, hn, -⟩ | ⟨-, hn, -⟩
    · refine Or.inr (Or.inl ⟨hf, congrArg (· + 1) hn, ?_, hold⟩)
      show s.raised ++ [s.next] = [s.sector]
      rw [hr, hn]
      rfl
    · have := ha.taken
      omega
    · have := ha.taken
      omega
  · have := hr.taken
    have := hr.next
    omega
  · refine ⟨⟨hr.le, hr.chunk_le, hr.i_lt, hr.limit⟩, hr.more, hr.taken, hr.fired, hr.old, ?_⟩
    rcases hr.now with ⟨hn, hr'⟩ | ⟨hn, -⟩
    · refine Or.inr ⟨congrArg (· + 1) hn, ?_⟩
      show s.raised ++ [s.next] = [s.sector + 1]
      rw [hr', hn]
      rfl
    · have := hr.taken
      omega

/-- The handler of IRQ 14 runs, but not just before `ata_prepare_irq`. -/
theorem Inv.irq14 (h : s.Inv) {k : ℕ} {ks : List ℕ} (hk : s.raised = k :: ks)
    (hm : s.pc ≠ .prepareNext) :
    ({ s with raised := ks, handled := k :: s.handled, fired := true } : ReadSys).wake.Inv := by
  have hne : s.raised ≠ [] := by
    rw [hk]
    exact cons_ne_nil k ks
  have hold : ∀ {b : ℕ}, (∀ j ∈ s.raised, j < b) → (∀ j ∈ s.handled, j < b) →
      (∀ j ∈ ks, j < b) ∧ ∀ j ∈ k :: s.handled, j < b := by
    intro b hr hh
    rw [hk] at hr
    exact ⟨fun j hj => hr j (mem_cons_of_mem k hj), forall_mem_cons.mpr
      ⟨hr k mem_cons_self, hh⟩⟩
  have hbetween : s.Between → (({ s with raised := ks, handled := k :: s.handled, fired := true } :
      ReadSys).wake).Between := fun hb =>
    ⟨hb.le, hb.idle, Or.inr (hb.raised.resolve_left hne), (hold hb.bound hb.old).1,
      (hold hb.bound hb.old).2⟩
  refine h.of_phases (wake_pc _) hbetween (fun hc => ?_) (fun _ hc => ?_) (fun _ ha => ?_)
    (fun hr => ?_) (fun hpc => absurd hpc hm) (fun he => ?_)
  · exact ⟨hbetween hc.toBetween, hc.pos, hc.chunk_le⟩
  · have h1 := hc.raised.resolve_left hne
    have h2 := hc.pos
    have h3 := hc.chunk_le
    omega
  · refine ⟨⟨ha.le, ha.chunk_le, ha.i_lt, ha.limit⟩, ha.taken, Or.inr (Or.inr ?_)⟩
    rcases ha.now with ⟨-, -, hr, -⟩ | ⟨-, hn, hr, hh⟩ | ⟨-, hn, hh, hr | ⟨hr, -⟩⟩
    · exact absurd hr hne
    · obtain ⟨rfl, rfl⟩ := List.cons.inj (hk.symm.trans hr)
      exact ⟨rfl, hn, forall_mem_cons.mpr
        ⟨Nat.lt_succ_self _, fun j hj => Nat.lt_succ_of_lt (hh j hj)⟩, Or.inl rfl⟩
    · exact absurd hr hne
    · obtain ⟨rfl, rfl⟩ := List.cons.inj (hk.symm.trans hr)
      exact ⟨rfl, hn, forall_mem_cons.mpr ⟨Nat.lt_succ_self _, hh⟩, Or.inl rfl⟩
  · obtain ⟨rfl, rfl⟩ := List.cons.inj (hk.symm.trans (hr.raised.resolve_left hne).1)
    exact ⟨⟨hr.le, hr.chunk_le, hr.i_lt, hr.limit⟩, hr.taken, rfl, hr.next,
      forall_mem_cons.mpr ⟨Nat.lt_succ_self _, hr.old⟩, Or.inl rfl⟩
  · exact ⟨he.le, he.pos, he.chunk_le, he.idle, (hold he.bound he.old).1, (hold he.bound he.old).2,
      Or.inr (he.raised.resolve_left hne)⟩

theorem Inv.irq15 (h : s.Inv) (hm : s.Meets .irq15) :
    ({ s with fired := true } : ReadSys).wake.Inv := by
  refine h.of_phases (wake_pc _) (fun hb => ?_) (fun hc => ?_) (fun hpc _ hf => ?_)
    (fun hw ha => ?_) (fun hr => ?_) (fun _ hr => ?_) (fun he => ?_)
  · exact ⟨hb.le, hb.idle, hb.raised, hb.bound, hb.old⟩
  · exact ⟨⟨hc.le, hc.idle, hc.raised, hc.bound, hc.old⟩, hc.pos, hc.chunk_le⟩
  · rcases hm with hf' | ⟨hne, -⟩
    · rw [hf] at hf'
      cases hf'
    · exact absurd hpc hne
  · refine ⟨⟨ha.le, ha.chunk_le, ha.i_lt, ha.limit⟩, ha.taken, Or.inr (Or.inr ?_)⟩
    rcases ha.now with ⟨hf, hn, -, -⟩ | ⟨hf, hn, hr, hh⟩ | ⟨-, hn, hh, hr⟩
    · rcases hm with hf' | ⟨-, hlast⟩
      · rw [hf] at hf'
        cases hf'
      · have := (hlast hw).2
        omega
    · rcases hm with hf' | ⟨-, hlast⟩
      · rw [hf] at hf'
        cases hf'
      · exact ⟨rfl, hn, fun j hj => Nat.lt_succ_of_lt (hh j hj), Or.inr ⟨hr, (hlast hw).1⟩⟩
    · exact ⟨rfl, hn, hh, hr⟩
  · exact ⟨⟨hr.le, hr.chunk_le, hr.i_lt, hr.limit⟩, hr.taken, rfl, hr.next, hr.old, hr.raised⟩
  · exact ⟨⟨hr.le, hr.chunk_le, hr.i_lt, hr.limit⟩, hr.more, hr.taken, rfl, hr.old, hr.now⟩
  · exact ⟨he.le, he.pos, he.chunk_le, he.idle, he.bound, he.old, he.raised⟩

theorem Inv.wake (h : s.Inv) : s.wake.Inv := by
  refine h.of_phases s.wake_pc (fun hb => hb.at _) (fun hc => hc.at _) (fun _ _ hf => hf)
    (fun _ ha => ha.at _) (fun hr => hr.at _) (fun _ hr => ?_) (fun he => ?_)
  · exact ⟨⟨hr.le, hr.chunk_le, hr.i_lt, hr.limit⟩, hr.more, hr.taken, hr.fired, hr.old, hr.now⟩
  · exact ⟨he.le, he.pos, he.chunk_le, he.idle, he.bound, he.old, he.raised⟩

theorem Inv.step {s' : ReadSys} (h : s.Inv) (hs : GoodStep s s') : s'.Inv := by
  obtain ⟨e, hs, hm⟩ := hs
  cases hs with
  | driver ready => exact h.driver ready
  | device h1 h2 => exact h.device h1 h2
  | irq14 hk => exact h.irq14 hk hm
  | irq15 => exact h.irq15 hm
  | other => exact h.wake

theorem Inv.run {s' : ReadSys} (h : s.Inv) (hr : Relation.ReflTransGen GoodStep s s') : s'.Inv := by
  induction hr with
  | refl => exact h
  | tail _ hs ih => exact ih.step hs

end Steps

/-! ## The condition is exact -/

section Exact

variable {s : ReadSys}

/-- An unsafe state is reached by steps that meet the condition. -/
def Doomed (s : ReadSys) : Prop := ∃ s', Relation.ReflTransGen GoodStep s s' ∧ ¬s'.Safe

theorem Doomed.of_run {s' : ReadSys} (h : s'.Doomed) (hr : Relation.ReflTransGen GoodStep s s') :
    s.Doomed := by
  obtain ⟨u, hu, hn⟩ := h
  exact ⟨u, hr.trans hu, hn⟩

theorem Doomed.of_driver (ready : Bool) (h : (s.driverStep ready).Doomed) : s.Doomed :=
  h.of_run (.single ⟨.driver, .driver ready, trivial⟩)

theorem words_read (n : ℕ) : ∀ w, w + n + 1 = ataSectorWords →
    Relation.ReflTransGen GoodStep { s with pc := .readPio w }
      { s with pc := if s.i + 1 < s.chunk then .prepareNext else .advance, taken := s.sector + 1 } := by
  induction n with
  | zero =>
    intro w hw
    have hstep : ({ s with pc := .readPio w } : ReadSys).driverStep true =
        { s with pc := if s.i + 1 < s.chunk then .prepareNext else .advance
                 taken := s.sector + 1 } := if_neg (by omega)
    rw [← hstep]
    exact .single ⟨.driver, .driver true, trivial⟩
  | succ n ih =>
    intro w hw
    have hstep : ({ s with pc := .readPio w } : ReadSys).driverStep true =
        { s with pc := .readPio (w + 1) } := if_pos (by omega)
    refine Relation.ReflTransGen.head ⟨.driver, .driver true, trivial⟩ ?_
    rw [hstep]
    exact ih (w + 1) (by omega)

theorem doomed_of_early (hpc : s.pc = .waitIrq) (hf : s.fired = true) (hn : s.next ≤ s.sector) :
    s.Doomed := by
  refine Doomed.of_driver true ⟨_, .refl, fun h => ?_⟩
  have hstep : s.driverStep true = { s with pc := .readPio 0 } := by
    unfold driverStep
    rw [hpc]
    dsimp only
    rw [if_pos hf]
  rw [hstep] at h
  have : s.sector < s.next := h.ready 0 rfl
  omega

theorem doomed_of_fired_command (hpc : s.pc = .command) (hf : s.fired = true) : s.Doomed := by
  refine Doomed.of_driver true ?_
  have hstep : s.driverStep true =
      { s with pc := .waitIrq, i := 0, next := s.first, limit := s.first + s.chunk
               taken := s.first } := by
    unfold driverStep
    rw [hpc]
  rw [hstep]
  exact doomed_of_early rfl hf le_rfl

theorem eq_with_pc {pc : ReadPc} (h : s.pc = pc) : s = { s with pc := pc } := by
  subst h
  rfl

theorem waits_run (hw : s.Waits) :
    Relation.ReflTransGen GoodStep s { s with pc := .waitIrq } := by
  have hwake : GoodStep { s with pc := .halted } { s with pc := .waitIrq } :=
    ⟨.other, .other, trivial⟩
  have hhlt : GoodStep { s with pc := .hlt } { s with pc := .halted } :=
    ⟨.driver, .driver true, trivial⟩
  rcases hw with hpc | hpc | hpc
  · rw [← eq_with_pc hpc]
  · have hrun : Relation.ReflTransGen GoodStep { s with pc := .hlt } { s with pc := .waitIrq } :=
      .head hhlt (.single hwake)
    rwa [← eq_with_pc hpc] at hrun
  · have hrun : Relation.ReflTransGen GoodStep { s with pc := .halted } { s with pc := .waitIrq } :=
      .single hwake
    rwa [← eq_with_pc hpc] at hrun

/-- An interrupt that is handled just before `ata_prepare_irq` is lost. -/
theorem doomed_of_lost (hpc : s.pc = .prepareNext) (hmem : s.sector + 1 ∈ s.handled) :
    s.Doomed := by
  refine Doomed.of_driver true ⟨_, .refl, fun h => ?_⟩
  have hstep : s.driverStep true = { s with pc := .waitIrq, i := s.i + 1, fired := false } := by
    unfold driverStep
    rw [hpc]
  rw [hstep] at h
  exact h.waits (Or.inl rfl) rfl hmem

/-- An interrupt that is still pending when its sector has been read comes too early for the next
one. -/
theorem doomed_of_pending (hpc : s.pc = .readPio 0) {k : ℕ} (hk : s.raised = [k])
    (hn : s.next = s.sector + 1) (hc : s.chunk ≤ s.count) (hi : s.i < s.chunk)
    (hle : s.count ≤ s.total) (hlast : s.sector + 1 ≠ s.total) : s.Doomed := by
  have hread := words_read (s := s) 255 0 rfl
  rw [← eq_with_pc hpc] at hread
  refine Doomed.of_run ?_ hread
  by_cases hmore : s.i + 1 < s.chunk
  · rw [if_pos hmore]
    refine Doomed.of_driver true ?_
    -- armed for the next sector, the handler of this one runs
    refine Doomed.of_run ?_ (.single ⟨.irq14, .irq14 hk, nofun⟩)
    exact doomed_of_early rfl rfl hn.le
  · rw [if_neg hmore]
    have hcount : 0 < s.count - s.chunk := by
      unfold sector first at hlast
      omega
    refine Doomed.of_driver true ?_
    -- the next chunk, up to its `ata_prepare_irq`
    refine Doomed.of_driver true ?_
    have hstep : ∀ t : ReadSys, t.pc = .head → 0 < t.count → t.driverStep true =
        { t with pc := .select
                 chunk := if ataMaxSectorsPerCmd < t.count then ataMaxSectorsPerCmd
                   else t.count } := by
      intro t ht hpos
      unfold driverStep
      rw [ht]
      dsimp only
      rw [if_pos hpos]
    rw [hstep _ rfl hcount]
    refine Doomed.of_driver true (Doomed.of_driver true (Doomed.of_driver true
      (Doomed.of_driver true ?_)))
    refine Doomed.of_run ?_ (.single ⟨.irq14, .irq14 hk, nofun⟩)
    exact doomed_of_fired_command rfl rfl

/-- A step that does not meet the condition leads to an unsafe state. -/
theorem Inv.doomed (h : s.Inv) {e : ReadEvent} {s' : ReadSys} (hs : ReadStep s e s')
    (hm : ¬s.Meets e) : s'.Doomed := by
  cases hs with
  | driver ready => exact absurd trivial hm
  | device h1 h2 => exact absurd trivial hm
  | irq14 hk =>
    have hpc : s.pc = .prepareNext := not_not.mp hm
    unfold Inv at h
    rw [hpc] at h
    rcases h.now with ⟨-, hr⟩ | ⟨-, hr⟩
    · rw [hr] at hk
      cases hk
    · obtain ⟨rfl, rfl⟩ := List.cons.inj (hk.symm.trans hr)
      refine doomed_of_lost ?_ mem_cons_self
      show (if s.pc = .halted then ReadPc.waitIrq else s.pc) = .prepareNext
      rw [hpc]
      rfl
  | irq15 =>
    have hm' := not_or.mp hm
    have hf : s.fired = false := Bool.eq_false_iff.mpr hm'.1
    by_cases hpc : s.pc = .command
    · refine doomed_of_fired_command ?_ rfl
      show (if s.pc = .halted then ReadPc.waitIrq else s.pc) = .command
      rw [hpc]
      rfl
    · have hw : s.Waits ∧ ¬(s.sector + 1 = s.total ∧ s.sector < s.next) := by
        by_contra hno
        exact hm'.2 ⟨hpc, fun hw => not_not.mp fun hn => hno ⟨hw, hn⟩⟩
      have ha : s.Awaits := by
        unfold Inv at h
        rcases hw.1 with hpc | hpc | hpc <;> rw [hpc] at h <;> exact h
      have hwaits : (({ s with fired := true } : ReadSys).wake).Waits := by
        rcases wake_pc { s with fired := true } with hp | hp
        · exact Eq.mp (by unfold Waits; rw [hp]) hw.1
        · exact Or.inl hp.2
      refine Doomed.of_run ?_ (waits_run hwaits)
      rcases ha.now with ⟨-, hn, -⟩ | ⟨-, hn, hr, -⟩ | ⟨hf', -⟩
      · exact doomed_of_early rfl rfl hn.le
      · refine Doomed.of_driver true (doomed_of_pending rfl hr hn ha.chunk_le ha.i_lt ha.le ?_)
        intro hlast
        exact hw.2 ⟨hlast, by omega⟩
      · rw [hf] at hf'
        cases hf'
  | other => exact absurd trivial hm

end Exact

end ReadSys

/-- **Reading sectors under interrupts.** In every state that is reached from a call of
`ata_read_sectors` by steps of the driver, the drive and the handlers that meet the condition, the
driver reads only a sector that is ready and does not wait for an interrupt that has been handled.
The condition is exact: a further step keeps all this, whatever good steps follow, if and only if it
meets the condition. -/
theorem ata_read_in_step {total lba buffer : ℕ} {fired : Bool} {s : ReadSys}
    (hr : Relation.ReflTransGen GoodStep (ReadSys.start total lba buffer fired) s) :
    s.Safe ∧ ∀ e s', ReadStep s e s' →
      (s.Meets e ↔ ∀ t, Relation.ReflTransGen GoodStep s' t → t.Safe) := by
  have hinv := (ReadSys.inv_start total lba buffer fired).run hr
  refine ⟨hinv.safe, fun e s' hs => ⟨fun hm t ht => ?_, fun hall => ?_⟩⟩
  · exact ((hinv.step ⟨e, hs, hm⟩).run ht).safe
  · by_contra hm
    obtain ⟨t, ht, hn⟩ := hinv.doomed hs hm
    exact hn (hall t ht)

/-! ## A request for two sectors -/

section TwoSectors

def firstWait : ReadSys where
  total := 2
  buffer := 0x1000
  pc := .waitIrq
  lba := 0
  count := 2
  chunk := 2
  i := 0
  fired := false
  next := 0
  limit := 2
  taken := 0
  raised := []
  handled := []

def betweenSectors : ReadSys :=
  { firstWait with pc := .prepareNext, fired := true, next := 2, taken := 1, raised := [1]
                   handled := [0] }

theorem firstWait_reached :
    Relation.ReflTransGen GoodStep (ReadSys.start 2 0 0x1000 false) firstWait := by
  have hdriver : ∀ s : ReadSys, GoodStep s (s.driverStep true) := fun s =>
    ⟨.driver, .driver true, trivial⟩
  exact .head (hdriver _) (.head (hdriver _) (.head (hdriver _) (.head (hdriver _)
    (.head (hdriver _) (.head (hdriver _) (.single (hdriver _)))))))

theorem betweenSectors_reached :
    Relation.ReflTransGen GoodStep (ReadSys.start 2 0 0x1000 false) betweenSectors := by
  refine firstWait_reached.trans ?_
  refine .head ⟨.device, .device (by decide) (by decide), trivial⟩ ?_
  refine .head ⟨.irq14, .irq14 rfl, nofun⟩ ?_
  refine .head ⟨.driver, .driver true, trivial⟩ ?_
  refine (ReadSys.words_read 255 0 rfl).trans ?_
  exact .single ⟨.device, .device (by decide) (by decide), trivial⟩

theorem ata_read_in_step_two :
    betweenSectors.Safe ∧ (betweenSectors.driverStep true).Safe := by
  have h := ata_read_in_step betweenSectors_reached
  exact ⟨h.1, (h.2 .driver _ (.driver true)).mp trivial _ .refl⟩

/-- **An interrupt is lost, and a sector is read before it is ready.** The handler of IRQ 14 runs
for the second sector just before `ata_prepare_irq`; and the handler of IRQ 15 runs while the driver
waits for the first. -/
theorem ata_read_out_of_step :
    (∃ s, Relation.ReflTransGen (fun s s' => ∃ e, ReadStep s e s')
        (ReadSys.start 2 0 0x1000 false) s ∧
      s.pc = .waitIrq ∧ s.fired = false ∧ s.sector ∈ s.handled) ∧
    ∃ s, Relation.ReflTransGen (fun s s' => ∃ e, ReadStep s e s')
        (ReadSys.start 2 0 0x1000 false) s ∧
      s.pc = .readPio 0 ∧ s.next ≤ s.sector := by
  have hany : ∀ {s}, Relation.ReflTransGen GoodStep (ReadSys.start 2 0 0x1000 false) s →
      Relation.ReflTransGen (fun s s' => ∃ e, ReadStep s e s') (ReadSys.start 2 0 0x1000 false) s :=
    fun h => Relation.ReflTransGen.mono (fun _ _ ⟨e, hs, _⟩ => ⟨e, hs⟩) _ _ h
  constructor
  · refine ⟨_, ((hany betweenSectors_reached).tail ⟨.irq14, .irq14 rfl⟩).tail
      ⟨.driver, .driver true⟩, rfl, rfl, by decide⟩
  · refine ⟨_, ((hany firstWait_reached).tail ⟨.irq15, .irq15⟩).tail ⟨.driver, .driver true⟩, rfl,
      by decide⟩

end TwoSectors

end DvivonOS
