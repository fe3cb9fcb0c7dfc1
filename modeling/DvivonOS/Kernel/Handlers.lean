import Mathlib.Tactic

/-!
# The interrupt handler table

`isr_table_start` has four slots for each of the 256 vectors. `isrCommonHandler` calls every slot
that is not null and `isrUnregisterHandler` clears the first slot with the handler, but
`isrRegisterHandler` always writes slot 0.

`dispatch_right_iff`: along a run of registrations, an interrupt calls exactly the handlers that are
registered, at every point of the run, exactly when no handler is registered on a vector that has
another one. Starting the scheduler is such a registration: it is on vector 32, with the clock.
-/

namespace DvivonOS.Handlers

open Function

def maxHandelers : ℕ := 4

/-- The address of a handler: not null. -/
structure Handler where
  addr : ℕ
  ne_null : addr ≠ 0
  fits : addr < 2 ^ 32
deriving DecidableEq

/-- `isr_table_start`: the words of the table. -/
abbrev Table := ℕ → ℕ

inductive Effect
  | call (addr : ℕ)
  | outb (port value : ℕ)
deriving DecidableEq

def isrCommonHandler (intNo : ℕ) (t : Table) : List Effect :=
  ((List.range maxHandelers).flatMap fun i =>
    if t (intNo * maxHandelers + i) ≠ 0 then [.call (t (intNo * maxHandelers + i))] else []) ++
  (if intNo ≥ 40 then [.outb 0xA0 0x20] else []) ++ [.outb 0x20 0x20]

def isrRegisterHandler (num : Fin 256) (handler : Handler) (t : Table) : Table :=
  update t (num * maxHandelers) handler.addr

/-- The loop of `isr_unregister_handler`, from slot `i` on with `n` slots left. -/
def unregisterLoop (num : Fin 256) (handler : Handler) (t : Table) : ℕ → ℕ → Table
  | _, 0 => t
  | i, n + 1 =>
    if t (num * maxHandelers + i) = handler.addr then
      update t (num * maxHandelers + i) 0
    else unregisterLoop num handler t (i + 1) n

def isrUnregisterHandler (num : Fin 256) (handler : Handler) (t : Table) : Table :=
  unregisterLoop num handler t 0 maxHandelers

def emptyTable : Table := fun _ => 0

/-! ## What is registered -/

inductive Call
  | register (num : Fin 256) (handler : Handler)
  | unregister (num : Fin 256) (handler : Handler)
deriving DecidableEq

/-- The table, and the handlers that are registered for each vector and not since unregistered. -/
structure State where
  table : Table
  registered : Fin 256 → Finset Handler

def Call.exec (c : Call) (s : State) : State :=
  match c with
  | .register num handler =>
    ⟨isrRegisterHandler num handler s.table,
      update s.registered num (insert handler (s.registered num))⟩
  | .unregister num handler =>
    ⟨isrUnregisterHandler num handler s.table,
      update s.registered num ((s.registered num).erase handler)⟩

/-- The handlers that an interrupt calls, in order. -/
def called (intNo : ℕ) (t : Table) : List ℕ :=
  (isrCommonHandler intNo t).filterMap fun
    | .call addr => some addr
    | .outb _ _ => none

/-- An interrupt on any vector calls exactly its registered handlers, each once. -/
def State.Right (s : State) : Prop :=
  ∀ num : Fin 256, (called num s.table).Nodup ∧
    ∀ addr, addr ∈ called num s.table ↔ ∃ handler ∈ s.registered num, handler.addr = addr

/-- The call registers no handler beside another one. -/
def Sole (c : Call) (s : State) : Prop :=
  ∀ num handler, c = .register num handler → ∀ other ∈ s.registered num, other = handler

def states : List Call → State → List State
  | [], s => [s]
  | c :: cs, s => s :: states cs (c.exec s)

/-- The calls of a run, each with the state before it. -/
def steps : List Call → State → List (Call × State)
  | [], _ => []
  | c :: cs, s => (c, s) :: steps cs (c.exec s)

/-! ## One slot in use -/

variable {t : Table} {s : State} {num : Fin 256} {handler : Handler}

/-- Of the vector's slots at most the first is in use, by the handler `o`. -/
structure Slots (t : Table) (num : Fin 256) (o : Option Handler) : Prop where
  first : t (num * maxHandelers) = o.elim 0 Handler.addr
  rest : ∀ i, 0 < i → i < maxHandelers → t (num * maxHandelers + i) = 0

/-- The vector has at most one handler, in its first slot. -/
def Single (s : State) : Prop :=
  ∀ num, ∃ o : Option Handler, s.registered num = o.toFinset ∧ Slots s.table num o

theorem Slots.called {o : Option Handler} (h : Slots t num o) :
    called num t = o.toList.map Handler.addr := by
  have h1 := h.rest 1 (by decide) (by decide)
  have h2 := h.rest 2 (by decide) (by decide)
  have h3 := h.rest 3 (by decide) (by decide)
  have h0 := h.first
  unfold Handlers.called isrCommonHandler
  simp only [maxHandelers, List.range_succ, List.range_zero] at *
  cases o with
  | none => simp [h0, h1, h2, h3]
  | some handler => simp [h0, h1, h2, h3, handler.ne_null]

theorem slot_ne {num num' : Fin 256} (hne : num ≠ num') {i : ℕ} (hi : i < maxHandelers) :
    (num * maxHandelers + i : ℕ) ≠ num' * maxHandelers := by
  unfold maxHandelers at *
  have : (num : ℕ) ≠ num' := fun h => hne (Fin.ext h)
  omega

theorem Slots.of_eq {t' : Table} {o : Option Handler} (h : Slots t num o)
    (heq : ∀ i < maxHandelers, t' (num * maxHandelers + i) = t (num * maxHandelers + i)) :
    Slots t' num o :=
  ⟨(heq 0 (by decide)).trans h.first, fun i hpos hi => (heq i hi).trans (h.rest i hpos hi)⟩

theorem slots_register {o : Option Handler} (h : Slots t num o) (handler : Handler) :
    Slots (isrRegisterHandler num handler t) num (some handler) := by
  refine ⟨by simp [isrRegisterHandler], fun i hpos hi => ?_⟩
  rw [isrRegisterHandler, update_of_ne (by omega)]
  exact h.rest i hpos hi

theorem slots_register_of_ne {num' : Fin 256} {o : Option Handler} (h : Slots t num' o)
    (hne : num' ≠ num) (handler : Handler) : Slots (isrRegisterHandler num handler t) num' o :=
  h.of_eq fun i hi => by
    rw [isrRegisterHandler, update_of_ne (slot_ne hne hi)]

/-- Unregistering takes the handler out of the first slot, or leaves the table as it is. -/
theorem unregister_eq {o : Option Handler} (h : Slots t num o) (handler : Handler) :
    isrUnregisterHandler num handler t =
      if o = some handler then update t (num * maxHandelers) 0 else t := by
  have h1 := h.rest 1 (by decide) (by decide)
  have h2 := h.rest 2 (by decide) (by decide)
  have h3 := h.rest 3 (by decide) (by decide)
  have hnull : ¬0 = handler.addr := fun h => handler.ne_null h.symm
  have hfirst : t (num * maxHandelers) = handler.addr ↔ o = some handler := by
    rw [h.first]
    cases o with
    | none => simpa using hnull
    | some other =>
      cases other
      cases handler
      simp
  unfold isrUnregisterHandler
  simp only [maxHandelers] at *
  simp [unregisterLoop, maxHandelers, hfirst, h1, h2, h3, hnull]

theorem slots_unregister {o : Option Handler} (h : Slots t num o) (handler : Handler) :
    Slots (isrUnregisterHandler num handler t) num (o.filter (· ≠ handler)) := by
  rw [unregister_eq h]
  by_cases ho : o = some handler
  · rw [if_pos ho]
    subst ho
    refine ⟨by simp [Option.filter], fun i hpos hi => ?_⟩
    rw [update_of_ne (by omega)]
    exact h.rest i hpos hi
  · rw [if_neg ho]
    have hsame : o.filter (· ≠ handler) = o := by
      cases o with
      | none => rfl
      | some other =>
        have hne : other ≠ handler := fun he => ho (he ▸ rfl)
        simp [hne]
    rwa [hsame]

theorem slots_unregister_of_ne {num' : Fin 256} {o o' : Option Handler} (h : Slots t num o)
    (h' : Slots t num' o') (hne : num' ≠ num) (handler : Handler) :
    Slots (isrUnregisterHandler num handler t) num' o' := by
  rw [unregister_eq h]
  split_ifs
  · exact h'.of_eq fun i hi => update_of_ne (slot_ne hne hi) _ _
  · exact h'

theorem Single.right (h : Single s) : s.Right := by
  intro num
  obtain ⟨o, hreg, hslots⟩ := h num
  rw [hslots.called, hreg]
  cases o <;> simp [eq_comm]

/-! ## Runs -/

theorem single_register (h : Single s) (hsole : Sole (.register num handler) s) :
    Single ((Call.register num handler).exec s) := by
  intro num'
  obtain ⟨o, hreg, hslots⟩ := h num'
  by_cases hnum : num' = num
  · subst hnum
    refine ⟨some handler, ?_, slots_register hslots handler⟩
    have hall := hsole _ _ rfl
    ext other
    simp only [Call.exec, update_self, Finset.mem_insert, Option.toFinset_some,
      Finset.mem_singleton]
    exact ⟨fun hor => hor.elim id (hall other), Or.inl⟩
  · refine ⟨o, ?_, slots_register_of_ne hslots hnum handler⟩
    simp only [Call.exec, update_of_ne hnum, hreg]

theorem single_unregister (h : Single s) : Single ((Call.unregister num handler).exec s) := by
  intro num'
  obtain ⟨o, hreg, hslots⟩ := h num
  by_cases hnum : num' = num
  · subst hnum
    refine ⟨o.filter (· ≠ handler), ?_, slots_unregister hslots handler⟩
    ext other
    simp [Call.exec, hreg, Option.filter_eq_some_iff, and_comm]
  · obtain ⟨o', hreg', hslots'⟩ := h num'
    refine ⟨o', ?_, slots_unregister_of_ne hslots hslots' hnum handler⟩
    simp only [Call.exec, update_of_ne hnum, hreg']

theorem register_not_right (h : Single s) {other : Handler} (hmem : other ∈ s.registered num)
    (hne : other ≠ handler) : ¬((Call.register num handler).exec s).Right := by
  intro hright
  obtain ⟨o, hreg, hslots⟩ := h num
  have hcalled := (slots_register hslots handler).called
  have hcall : other.addr ∈ called num ((Call.register num handler).exec s).table :=
    ((hright num).2 other.addr).mpr ⟨other, by simp [Call.exec, hmem], rfl⟩
  rw [Call.exec, hcalled] at hcall
  have heq : other.addr = handler.addr := by simpa using hcall
  cases other
  cases handler
  exact hne (by simpa using heq)

theorem step_single (c : Call) (h : Single s) :
    (Sole c s → Single (c.exec s)) ∧ (¬Sole c s → ¬(c.exec s).Right) := by
  cases c with
  | register num handler =>
    refine ⟨single_register h, fun hsole => ?_⟩
    unfold Sole at hsole
    push Not at hsole
    obtain ⟨num', handler', hc, other, hmem, hne⟩ := hsole
    cases hc
    exact register_not_right h hmem hne
  | unregister num handler =>
    have hsole : Sole (.unregister num handler) s := fun _ _ hc => by cases hc
    exact ⟨fun _ => single_unregister h, fun hn => absurd hsole hn⟩

theorem run_right_of_single (cs : List Call) (h : Single s) :
    (∀ s' ∈ states cs s, s'.Right) ↔ ∀ p ∈ steps cs s, Sole p.1 p.2 := by
  induction cs generalizing s with
  | nil => simpa [states, steps] using h.right
  | cons c cs ih =>
    simp only [states, steps, List.forall_mem_cons]
    obtain ⟨hgood, hbad⟩ := step_single c h
    by_cases hsole : Sole c s
    · rw [ih (hgood hsole)]
      simp [h.right, hsole]
    · have hfirst : c.exec s ∈ states cs (c.exec s) := by cases cs <;> simp [states]
      exact iff_of_false (fun hall => hbad hsole (hall.2 _ hfirst)) fun hall => hsole hall.1

def State.init : State := ⟨emptyTable, fun _ => ∅⟩

theorem single_init : Single .init := fun _ => ⟨none, rfl, rfl, fun _ _ _ => rfl⟩

/-- **Dispatch.** In a run after `idt_init`, an interrupt calls exactly the registered handlers in
every state exactly when each registration finds no other handler on its vector. -/
theorem dispatch_right_iff (cs : List Call) :
    (∀ s ∈ states cs .init, s.Right) ↔ ∀ p ∈ steps cs .init, Sole p.1 p.2 :=
  run_right_of_single cs single_init

/-! ## The clock and the scheduler -/

/-- `irq_to_vector(0)`. -/
def irq0 : Fin 256 := 32

/-- `system_ticks` after `n` timer interrupts: `timer_interrupt_handler` adds one for each call. -/
def systemTicks (timer : Handler) (t : Table) : ℕ → ℕ
  | 0 => 0
  | n + 1 => systemTicks timer t n + (called irq0 t).count timer.addr

def timerInterruptHandler : Handler := ⟨0xC0101000, by decide, by decide⟩

def schedule : Handler := ⟨0xC0102000, by decide, by decide⟩

/-- `clock_init` and `scheduler_init`. -/
def boot : List Call := [.register irq0 timerInterruptHandler, .register irq0 schedule]

def booted : State := boot.foldl (fun s c => c.exec s) .init

/-- After the scheduler has started, a hundred timer interrupts count no tick. -/
theorem scheduler_stops_clock :
    called irq0 booted.table = [schedule.addr] ∧
      booted.registered irq0 = {timerInterruptHandler, schedule} ∧
      systemTicks timerInterruptHandler booted.table 100 = 0 ∧
      ¬∀ s ∈ states boot .init, s.Right := by
  refine ⟨by decide +kernel, by decide +kernel, by decide +kernel, fun h => ?_⟩
  rw [run_right_of_single boot single_init] at h
  have hsole := h (.register irq0 schedule, (Call.register irq0 timerInterruptHandler).exec .init)
    (by simp [boot, steps])
  have heq := hsole irq0 schedule rfl timerInterruptHandler (by decide)
  exact absurd heq (by decide)

end DvivonOS.Handlers
