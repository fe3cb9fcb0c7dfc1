import Mathlib.Tactic

/-!
# Interrupts in service

The two interrupt controllers, `isr_common_handler` of `arch/i686/cpu/idt.c` with its end-of-interrupt
writes, and the scheduler: `schedule`, `process_exit` and what `switch_to_stack` finds on the stack it
switches to.

A kernel stack is a list of activations, the newest first; it is empty in user mode. The handlers of
IRQs and exceptions run with interrupts off, a system call (a trap gate) with interrupts on, so that
an IRQ may come in at any point of it. A process that is switched away from stays in its timer
handler; a process that has never run is left for user mode by `fork_ret`, which writes no end of
interrupt.
-/

namespace DvivonOS

open Function

/-! ## The controllers -/

/-- The in-service bits of the two controllers, by line. The second one is on line 2 of the first. -/
structure Pic where
  master : ℕ → Bool
  slave : ℕ → Bool

namespace Pic

def clear : Pic := ⟨fun _ => false, fun _ => false⟩

def inService (p : Pic) (irq : ℕ) : Bool := if irq < 8 then p.master irq else p.slave (irq - 8)

/-- A bit in service blocks its own line and those of lower priority. -/
def Accepts (p : Pic) (irq : ℕ) : Prop :=
  if irq < 8 then ∀ k ≤ irq, p.master k = false
  else (∀ k ≤ 2, p.master k = false) ∧ ∀ k ≤ irq - 8, p.slave k = false

def deliver (p : Pic) (irq : ℕ) : Pic :=
  if irq < 8 then { p with master := update p.master irq true }
  else ⟨update p.master 2 true, update p.slave (irq - 8) true⟩

/-- The write of `0x20` to a controller: its line in service of the highest priority is done. -/
def eoi (lines : ℕ → Bool) : ℕ → Bool :=
  match (List.range 8).find? lines with
  | some k => update lines k false
  | none => lines

end Pic

/-! ## Activations -/

/-- What brings the processor into the kernel. -/
inductive Cause
  | irq (n : ℕ)
  | exception (n : ℕ)
  | syscall
  deriving DecidableEq

/-- The vector: the controllers are remapped to 32, system calls are `SYSCALL_INT`. -/
def Cause.vector : Cause → ℕ
  | .irq n => 32 + n
  | .exception n => n
  | .syscall => 0x67

/-- Where an activation is in `isr_common_handler` and its stub. -/
inductive Stage
  | handler
  | slaveEoi
  | masterEoi
  | iret
  deriving DecidableEq

structure Activation where
  cause : Cause
  stage : Stage
  deriving DecidableEq

/-- Behind the handlers: `if (frame->int_no >= 40) outb(0xA0, 0x20); outb(0x20, 0x20);`. -/
def Cause.handled (c : Cause) : Activation :=
  ⟨c, if 40 ≤ c.vector then .slaveEoi else .masterEoi⟩

/-- Interrupts are on in user mode, in the idle loop before the first process, and in system
calls. -/
def interruptsOn : List Activation → Prop
  | [] => True
  | a :: _ => a.cause = .syscall

/-! ## The scheduler -/

/-- `SCHED_STATE_STARTING`, `SCHED_STATE_RUNNING`, or the processor has left the code. -/
inductive Phase
  | starting
  | running
  | wild
  deriving DecidableEq

/-- `processes` is the circular list from `process_list` on; `saved` is what is on the stack that
the `kernel_esp` of a process points to, `none` for the frame of a process that has never run. -/
structure Scheduler where
  pic : Pic
  phase : Phase
  processes : List ℕ
  current : ℕ
  stack : List Activation
  saved : ℕ → Option (List Activation)

namespace Scheduler

def next (s : Scheduler) : ℕ :=
  match s.processes.dropWhile (· ≠ s.current) with
  | _ :: p :: _ => p
  | _ => s.processes.headD s.current

/-- `switch_to_stack` to the stack of process `p`: its handler goes on, or `fork_ret` enters user
mode. -/
def switchTo (s : Scheduler) (p : ℕ) : Scheduler :=
  { s with current := p, stack := (s.saved p).getD [] }

/-- The stack pointer of the current process is saved in its `kernel_esp`. -/
def save (s : Scheduler) (stack : List Activation) : Scheduler :=
  { s with saved := update s.saved s.current (some stack) }

def InUser (s : Scheduler) : Prop := s.phase = .running ∧ s.stack = []

def Wild (s : Scheduler) : Prop := s.phase = .wild ∧ s.stack = []

/-- `scheduler_start` has been called: no process has run and no interrupt is in service. -/
structure Initial (s : Scheduler) : Prop where
  phase : s.phase = .starting
  stack : s.stack = []
  saved : ∀ p, s.saved p = none
  pic : s.pic = .clear

end Scheduler

/-- What happens. A switch is labelled with the kind of the process it leads to. -/
inductive Event
  | irq (n : ℕ)
  | exception (n : ℕ)
  | syscall
  | handled
  | slaveEoi
  | masterEoi
  | iret
  | start
  | tickToNew
  | tickToPreempted
  | tickToSelf
  | tickToStale
  | exitToNew
  | exitToPreempted
  deriving DecidableEq

/-- The stack of a process whose timer handler comes back from `switch_to_stack`. -/
def resumedTick (rest : List Activation) : List Activation := (Cause.irq 0).handled :: rest

inductive Step : Scheduler → Event → Scheduler → Prop
  | irq {s : Scheduler} {n : ℕ} : n < 16 → s.phase ≠ .wild → interruptsOn s.stack →
      s.pic.Accepts n →
      Step s (.irq n) { s with
        pic := s.pic.deliver n
        stack := ⟨.irq n, .handler⟩ :: s.stack }
  /-- An exception of the process or of a system call; no handler is registered for it. -/
  | exception {s : Scheduler} {n : ℕ} : n < 32 → s.phase = .running → interruptsOn s.stack →
      Step s (.exception n) { s with stack := ⟨.exception n, .handler⟩ :: s.stack }
  | syscall {s : Scheduler} : s.InUser → Step s .syscall { s with stack := [⟨.syscall, .handler⟩] }
  /-- A handler returns that is not `schedule` and does not end the process. -/
  | handled {s : Scheduler} {c : Cause} {rest : List Activation} : c ≠ .irq 0 →
      s.stack = ⟨c, .handler⟩ :: rest → Step s .handled { s with stack := c.handled :: rest }
  | slaveEoi {s : Scheduler} {c : Cause} {rest : List Activation} :
      s.stack = ⟨c, .slaveEoi⟩ :: rest →
      Step s .slaveEoi { s with
        pic := { s.pic with slave := Pic.eoi s.pic.slave }
        stack := ⟨c, .masterEoi⟩ :: rest }
  | masterEoi {s : Scheduler} {c : Cause} {rest : List Activation} :
      s.stack = ⟨c, .masterEoi⟩ :: rest →
      Step s .masterEoi { s with
        pic := { s.pic with master := Pic.eoi s.pic.master }
        stack := ⟨c, .iret⟩ :: rest }
  | iret {s : Scheduler} {c : Cause} {rest : List Activation} :
      s.stack = ⟨c, .iret⟩ :: rest → Step s .iret { s with stack := rest }
  /-- `schedule` in `SCHED_STATE_STARTING`: the stack of the idle loop is given up. -/
  | start {s : Scheduler} {rest : List Activation} : s.phase = .starting →
      s.stack = ⟨.irq 0, .handler⟩ :: rest →
      Step s .start { s.switchTo s.current with phase := .running }
  /-- `schedule` in `SCHED_STATE_RUNNING`: with `PROCESS_MAX_TICKS` 1 every tick switches to the
  next process. -/
  | tickToNew {s : Scheduler} {rest : List Activation} : s.phase = .running →
      s.stack = ⟨.irq 0, .handler⟩ :: rest → s.next ≠ s.current → s.saved s.next = none →
      Step s .tickToNew ((s.save (resumedTick rest)).switchTo s.next)
  | tickToPreempted {s : Scheduler} {rest : List Activation} : s.phase = .running →
      s.stack = ⟨.irq 0, .handler⟩ :: rest → s.next ≠ s.current → s.saved s.next ≠ none →
      Step s .tickToPreempted ((s.save (resumedTick rest)).switchTo s.next)
  /-- A switch of the only process to itself loads the stack pointer of its last save, since the
  argument `to->kernel_esp` is read before the new one is stored. Here the two are the same. -/
  | tickToSelf {s : Scheduler} {rest : List Activation} : s.phase = .running →
      s.stack = ⟨.irq 0, .handler⟩ :: rest → s.next = s.current →
      s.saved s.current = some (resumedTick rest) →
      Step s .tickToSelf { s with stack := resumedTick rest }
  /-- Here they differ, and `ret` takes a word of the stack that is no return address. Inside a
  system call the same activations may be at another depth of the stack. -/
  | tickToStale {s : Scheduler} {rest : List Activation} : s.phase = .running →
      s.stack = ⟨.irq 0, .handler⟩ :: rest → s.next = s.current →
      (s.saved s.current ≠ some (resumedTick rest) ∨ rest ≠ []) →
      Step s .tickToStale { s with phase := .wild, stack := [] }
  /-- `process_exit` of the current process, with other processes left; the last process to exit
  stays in its system call. -/
  | exitToNew {s : Scheduler} {p : ℕ} {ps : List ℕ} : s.phase = .running →
      s.stack = [⟨.syscall, .handler⟩] → s.processes.erase s.current = p :: ps →
      s.saved p = none →
      Step s .exitToNew ({ s with processes := p :: ps }.switchTo p)
  | exitToPreempted {s : Scheduler} {p : ℕ} {ps : List ℕ} : s.phase = .running →
      s.stack = [⟨.syscall, .handler⟩] → s.processes.erase s.current = p :: ps →
      s.saved p ≠ none →
      Step s .exitToPreempted ({ s with processes := p :: ps }.switchTo p)

/-- A run with its events, the last one first. -/
inductive Run (s₀ : Scheduler) : List Event → Scheduler → Prop
  | refl : Run s₀ [] s₀
  | step {l : List Event} {e : Event} {s s' : Scheduler} :
      Run s₀ l s → Step s e s' → Run s₀ (e :: l) s'

/-- A tick that leads to a process that has never run leaves its handler for good. -/
def Event.leaves : Event → Bool → Bool
  | .start, _ => true
  | .tickToNew, _ => true
  | .masterEoi, _ => false
  | _, u => u

/-- A timer interrupt has been left by `fork_ret`, and no handler has written an end of interrupt
since. -/
def unacknowledged (l : List Event) : Bool := l.foldr Event.leaves false

/-! ## What is in service -/

namespace Pic

theorem eoi_none : eoi (fun _ => false) = fun _ => false := rfl

theorem eoi_single {k : ℕ} (hk : k < 8) :
    eoi (update (fun _ => false) k true) = fun _ => false := by
  have hfind : (List.range 8).find? (update (fun _ => false) k true) = some k := by
    interval_cases k <;> rfl
  simp only [eoi, hfind, update_idem]
  exact update_eq_self k (fun _ => false)

theorem eoi_deliver_slave {n : ℕ} (hn : n < 16) :
    eoi (clear.deliver n).slave = fun _ => false := by
  unfold deliver
  split
  · exact eoi_none
  · exact eoi_single (by omega)

theorem eoi_deliver_master (n : ℕ) : eoi (clear.deliver n).master = fun _ => false := by
  unfold deliver
  split
  case isTrue h => exact eoi_single h
  case isFalse => exact eoi_single (by norm_num)

/-- The timer has the highest priority: nothing is accepted over it. -/
theorem not_accepts_timer (n : ℕ) : ¬(clear.deliver 0).Accepts n := by
  unfold Accepts
  split
  · intro h
    exact absurd (h 0 (Nat.zero_le n)) (by simp [deliver])
  · intro h
    exact absurd (h.1 0 (Nat.zero_le 2)) (by simp [deliver])

theorem clear_inService (n : ℕ) : clear.inService n = false := by simp [inService, clear]

end Pic

/-- What is in service where no IRQ handler is active: the timer, if it was left by `fork_ret`. -/
def left (u : Bool) : Pic := if u then Pic.clear.deliver 0 else .clear

theorem left_accepts {u : Bool} {n : ℕ} (h : (left u).Accepts n) : u = false := by
  cases u with
  | false => rfl
  | true => exact absurd h (Pic.not_accepts_timer n)

theorem left_inService_iff (u : Bool) :
    (∀ n < 16, (left u).inService n = false) ↔ u = false := by
  cases u with
  | false => exact iff_of_true (fun n _ => Pic.clear_inService n) rfl
  | true =>
    refine iff_of_false (fun h => ?_) (by simp)
    exact absurd (h 0 (by norm_num)) (by simp [left, Pic.inService, Pic.deliver])

/-- What the newest activation has in service. A timer handler that `process_exit` switches back to
finds its interrupt acknowledged, or left over. -/
def Activation.Serves (u : Bool) (p : Pic) : Activation → Prop
  | ⟨.irq n, .handler⟩ => n < 16 ∧ u = false ∧ p = Pic.clear.deliver n
  | ⟨.irq n, .slaveEoi⟩ => n < 16 ∧ u = false ∧ p = Pic.clear.deliver n
  | ⟨.irq n, .masterEoi⟩ =>
    p = ⟨(Pic.clear.deliver n).master, fun _ => false⟩ ∨ n = 0 ∧ p = left u
  | ⟨_, .iret⟩ => u = false ∧ p = .clear
  | ⟨_, _⟩ => p = left u

/-- What an IRQ or an exception interrupts. -/
def Below (l : List Activation) : Prop := l = [] ∨ ∃ st, l = [⟨.syscall, st⟩]

/-- System calls come from user mode; handlers that run with interrupts off are not interrupted. -/
def Nested : List Activation → Prop
  | [] => True
  | ⟨.syscall, _⟩ :: rest => rest = []
  | _ :: rest => Below rest

def Serving (u : Bool) (p : Pic) : List Activation → Prop
  | [] => p = left u
  | a :: _ => a.Serves u p

/-- `u` says that a timer interrupt was left by `fork_ret`. -/
structure Scheduler.Sound (u : Bool) (s : Scheduler) : Prop where
  nested : Nested s.stack
  serving : Serving u s.pic s.stack
  saved : ∀ p l, s.saved p = some l → ∃ rest, l = resumedTick rest ∧ Below rest
  starting : s.phase = .starting → ∀ p, s.saved p = none

theorem Scheduler.Initial.sound {s : Scheduler} (h : s.Initial) : s.Sound false where
  nested := by rw [h.stack]; trivial
  serving := by rw [h.stack]; exact h.pic
  saved p l hl := by simp [h.saved p] at hl
  starting _ := h.saved

section Step

variable {u : Bool} {p : Pic} {l rest : List Activation} {c : Cause} {st : Stage} {n : ℕ}

theorem Below.nested (h : Below l) : Nested l := by
  obtain rfl | ⟨st, rfl⟩ := h
  · trivial
  · rfl

theorem Nested.below (h : Nested (⟨c, st⟩ :: rest)) : Below rest := by
  cases c with
  | irq n => exact h
  | exception n => exact h
  | syscall => exact .inl h

theorem Nested.restage (h : Nested (⟨c, st⟩ :: rest)) (st' : Stage) :
    Nested (⟨c, st'⟩ :: rest) := by
  cases c <;> exact h

theorem Nested.below_of_interruptsOn (h : Nested l) (hon : interruptsOn l) : Below l := by
  match l, h, hon with
  | [], _, _ => exact .inl rfl
  | ⟨_, st⟩ :: _, h, rfl =>
    obtain rfl : _ = [] := h
    exact .inr ⟨st, rfl⟩

theorem nested_resumedTick (h : Below rest) : Nested (resumedTick rest) := h

/-- Once an activation is done nothing is in service, whatever it interrupted. -/
theorem Below.serving (h : Below l) : Serving false .clear l := by
  obtain rfl | ⟨st, rfl⟩ := h
  · rfl
  · cases st <;> simp [Serving, Activation.Serves, left]

/-- Where interrupts are on no IRQ handler is active. -/
theorem Serving.eq_left (h : Serving u p l) (hon : interruptsOn l) : p = left u := by
  match l, h, hon with
  | [], h, _ => exact h
  | ⟨.syscall, .iret⟩ :: _, ⟨hu, hp⟩, _ => rw [hu, hp]; rfl
  | ⟨.syscall, .handler⟩ :: _, h, _ => exact h
  | ⟨.syscall, .slaveEoi⟩ :: _, h, _ => exact h
  | ⟨.syscall, .masterEoi⟩ :: _, h, _ => exact h

/-! One lemma for each way in which an activation goes on. -/

theorem Serving.irq (h : Serving u p l) (hon : interruptsOn l) (hn : n < 16) (ha : p.Accepts n) :
    Serving u (p.deliver n) (⟨.irq n, .handler⟩ :: l) := by
  obtain rfl := h.eq_left hon
  obtain rfl := left_accepts ha
  exact ⟨hn, rfl, rfl⟩

theorem Serving.handled (h : Serving u p (⟨c, .handler⟩ :: rest)) :
    Serving u p (c.handled :: rest) := by
  cases c with
  | irq n =>
    obtain ⟨hn, rfl, rfl⟩ := h
    unfold Cause.handled
    split
    · exact ⟨hn, rfl, rfl⟩
    case isFalse hlt =>
      have hlt' : n < 8 := by
        simp only [Cause.vector] at hlt
        omega
      refine .inl ?_
      simp [Pic.deliver, hlt', Pic.clear]
  | exception n =>
    unfold Cause.handled
    split <;> exact h
  | syscall => exact h

theorem left_slaveEoi (u : Bool) : { left u with slave := Pic.eoi (left u).slave } = left u := by
  cases u <;> rfl

theorem Serving.slaveEoi (h : Serving u p (⟨c, .slaveEoi⟩ :: rest)) :
    Serving u { p with slave := Pic.eoi p.slave } (⟨c, .masterEoi⟩ :: rest) := by
  cases c with
  | irq n =>
    obtain ⟨hn, rfl, rfl⟩ := h
    exact .inl (by rw [Pic.eoi_deliver_slave hn])
  | exception n =>
    obtain rfl : p = left u := h
    exact left_slaveEoi u
  | syscall =>
    obtain rfl : p = left u := h
    exact left_slaveEoi u

theorem left_masterEoi (u : Bool) : { left u with master := Pic.eoi (left u).master } = .clear := by
  cases u with
  | false => rfl
  | true => rw [show (left true).master = (Pic.clear.deliver 0).master from rfl,
      Pic.eoi_deliver_master]; rfl

theorem Serving.masterEoi (h : Serving u p (⟨c, .masterEoi⟩ :: rest)) :
    Serving false { p with master := Pic.eoi p.master } (⟨c, .iret⟩ :: rest) := by
  cases c with
  | irq n =>
    obtain rfl | ⟨rfl, rfl⟩ := h
    · exact ⟨rfl, by rw [Pic.eoi_deliver_master]; rfl⟩
    · exact ⟨rfl, left_masterEoi u⟩
  | exception n =>
    obtain rfl : p = left u := h
    exact ⟨rfl, left_masterEoi u⟩
  | syscall =>
    obtain rfl : p = left u := h
    exact ⟨rfl, left_masterEoi u⟩

theorem Serving.iret (h : Serving u p (⟨c, .iret⟩ :: rest)) (hr : Below rest) :
    Serving u p rest := by
  obtain ⟨rfl, rfl⟩ : u = false ∧ p = .clear := by
    cases c <;> exact h
  exact hr.serving

/-- The timer handler is active: the timer alone is in service, and nothing was left before. -/
theorem Serving.timer (h : Serving u p (⟨.irq 0, .handler⟩ :: rest)) :
    u = false ∧ p = left true := h.2

end Step

section Run

variable {u : Bool} {s₀ s s' : Scheduler} {e : Event} {a : Activation} {rest : List Activation}

namespace Scheduler.Sound

theorem top (h : s.Sound u) (hs : s.stack = a :: rest) :
    Nested (a :: rest) ∧ Serving u s.pic (a :: rest) := by
  rw [← hs]
  exact ⟨h.nested, h.serving⟩

/-- A process that was preempted goes on in its timer handler. -/
theorem resumed (h : s.Sound u) {p : ℕ} (hp : s.saved p ≠ none) :
    ∃ rest, s.saved p = some (resumedTick rest) ∧ Below rest := by
  obtain ⟨l, hl⟩ := Option.ne_none_iff_exists'.mp hp
  obtain ⟨rest, rfl, hr⟩ := h.saved p l hl
  exact ⟨rest, hl, hr⟩

theorem saved_save (h : s.Sound u) (hs : s.stack = ⟨.irq 0, .handler⟩ :: rest) (q : ℕ)
    (l : List Activation)
    (hl : update s.saved s.current (some (resumedTick rest)) q = some l) :
    ∃ rest, l = resumedTick rest ∧ Below rest := by
  by_cases hq : q = s.current
  · rw [hq, update_self, Option.some_inj] at hl
    exact ⟨rest, hl.symm, (h.top hs).1⟩
  · rw [update_of_ne hq] at hl
    exact h.saved q l hl

end Scheduler.Sound

theorem switchTo_save_stack {p : ℕ} (hp : p ≠ s.current) (l : List Activation) :
    ((s.save l).switchTo p).stack = (s.saved p).getD [] := by
  simp only [Scheduler.switchTo, Scheduler.save, update_of_ne hp]

/-- **One step.** Where the processor does not leave the code, what is in service is the interrupt
of the newest handler, or the timer interrupt that `fork_ret` left. -/
theorem Step.sound (hst : Step s e s') (h : s.Sound u) :
    s'.Wild ∨ s'.Sound (e.leaves u) := by
  cases hst with
  | irq hn hw hon ha =>
    exact .inr ⟨h.nested.below_of_interruptsOn hon, h.serving.irq hon hn ha, h.saved, h.starting⟩
  | exception hn hrun hon =>
    exact .inr ⟨h.nested.below_of_interruptsOn hon, h.serving.eq_left hon, h.saved, h.starting⟩
  | syscall hu =>
    have hs := h.serving
    rw [hu.2] at hs
    exact .inr ⟨rfl, hs, h.saved, h.starting⟩
  | handled hc hs =>
    obtain ⟨hn, hp⟩ := h.top hs
    exact .inr ⟨hn.restage _, hp.handled, h.saved, h.starting⟩
  | slaveEoi hs =>
    obtain ⟨hn, hp⟩ := h.top hs
    exact .inr ⟨hn.restage _, hp.slaveEoi, h.saved, h.starting⟩
  | masterEoi hs =>
    obtain ⟨hn, hp⟩ := h.top hs
    exact .inr ⟨hn.restage _, hp.masterEoi, h.saved, h.starting⟩
  | iret hs =>
    obtain ⟨hn, hp⟩ := h.top hs
    exact .inr ⟨hn.below.nested, hp.iret hn.below, h.saved, h.starting⟩
  | start hph hs =>
    obtain ⟨-, hp⟩ := h.top hs
    have hstack : (s.switchTo s.current).stack = [] := by
      simp only [Scheduler.switchTo, h.starting hph, Option.getD_none]
    refine .inr ⟨?_, ?_, h.saved, by simp⟩
    · simp only [hstack, Nested]
    · simp only [hstack]
      exact hp.timer.2
  | tickToNew hrun hs hne hnew =>
    obtain ⟨-, hp⟩ := h.top hs
    have hstack (l) : ((s.save l).switchTo s.next).stack = [] := by
      rw [switchTo_save_stack hne, hnew, Option.getD_none]
    refine .inr ⟨?_, ?_, h.saved_save hs, fun hph => ?_⟩
    · rw [hstack]
      trivial
    · rw [hstack]
      exact hp.timer.2
    · simp [Scheduler.switchTo, Scheduler.save, hrun] at hph
  | tickToPreempted hrun hs hne hold =>
    obtain ⟨-, hp⟩ := h.top hs
    obtain ⟨r, hr, hb⟩ := h.resumed hold
    have hstack (l) : ((s.save l).switchTo s.next).stack = resumedTick r := by
      rw [switchTo_save_stack hne, hr, Option.getD_some]
    refine .inr ⟨?_, ?_, h.saved_save hs, fun hph => ?_⟩
    · rw [hstack]
      exact nested_resumedTick hb
    · rw [hstack]
      exact .inl hp.timer.2
    · simp [Scheduler.switchTo, Scheduler.save, hrun] at hph
  | tickToSelf hrun hs heq hsv =>
    obtain ⟨hn, hp⟩ := h.top hs
    exact .inr ⟨nested_resumedTick hn, .inl hp.timer.2, h.saved, h.starting⟩
  | tickToStale hrun hs heq hsv => exact .inl ⟨rfl, rfl⟩
  | exitToNew hrun hs hps hnew =>
    obtain ⟨-, hp⟩ := h.top hs
    refine .inr ⟨?_, ?_, h.saved, h.starting⟩
    · simp only [Scheduler.switchTo, hnew, Option.getD_none, Nested]
    · simp only [Scheduler.switchTo, hnew, Option.getD_none]
      exact hp
  | exitToPreempted hrun hs hps hold =>
    obtain ⟨-, hp⟩ := h.top hs
    obtain ⟨r, hr, hb⟩ := h.resumed hold
    refine .inr ⟨?_, ?_, h.saved, h.starting⟩
    · simp only [Scheduler.switchTo, hr, Option.getD_some]
      exact nested_resumedTick hb
    · simp only [Scheduler.switchTo, hr, Option.getD_some]
      exact .inr ⟨rfl, hp⟩

theorem Scheduler.Wild.no_step (h : s.Wild) : ¬Step s e s' := by
  obtain ⟨hw, hs⟩ := h
  intro hst
  cases hst <;> simp_all [Scheduler.InUser]

theorem Run.sound {l : List Event} (h₀ : s₀.Initial) (h : Run s₀ l s) :
    s.Wild ∨ s.Sound (unacknowledged l) := by
  induction h with
  | refl => exact .inr h₀.sound
  | step _ hst ih =>
    obtain hw | hs := ih
    · exact absurd hst hw.no_step
    · exact hst.sound hs

/-- **Returns to user mode.** In every run, whenever a process is in user mode, no IRQ is in service
exactly if no timer interrupt was left by `fork_ret` without an end of interrupt since. -/
theorem user_mode_none_in_service_iff {l : List Event} (h₀ : s₀.Initial) (h : Run s₀ l s)
    (hu : s.InUser) : (∀ n < 16, s.pic.inService n = false) ↔ unacknowledged l = false := by
  obtain ⟨hw, -⟩ | hs := h.sound h₀
  · exact absurd (hw.symm.trans hu.1) (by simp)
  · have hp := hs.serving
    rw [hu.2] at hp
    rw [show s.pic = left _ from hp]
    exact left_inService_iff _

end Run

def oneProcess : Scheduler := ⟨.clear, .starting, [1], 1, [], fun _ => none⟩

theorem oneProcess_initial : oneProcess.Initial := ⟨rfl, rfl, fun _ => rfl, rfl⟩

def firstEntered : Scheduler :=
  { oneProcess with pic := Pic.clear.deliver 0, phase := .running }

theorem firstEntered_run : Run oneProcess [.start, .irq 0] firstEntered :=
  .step (.step .refl (.irq (by norm_num) (by simp [oneProcess]) trivial
    (by simp [Pic.Accepts, oneProcess, Pic.clear]))) (.start rfl rfl)

/-- A system call of the process is over: its end of interrupt was that of the timer. -/
theorem user_mode_none_in_service_iff_call :
    ∃ l s, Run oneProcess l s ∧ s.InUser ∧ unacknowledged l = false ∧
      ∀ n < 16, s.pic.inService n = false := by
  have h₁ : Run oneProcess _ _ := firstEntered_run.step (.syscall ⟨rfl, rfl⟩)
  have h₂ : Run oneProcess _ _ := h₁.step (.handled (by simp) rfl)
  have h₃ : Run oneProcess _ _ := h₂.step (.slaveEoi rfl)
  have h₄ : Run oneProcess _ _ := h₃.step (.masterEoi rfl)
  have h₅ : Run oneProcess _ _ := h₄.step (.iret rfl)
  exact ⟨_, _, h₅, ⟨rfl, rfl⟩, rfl,
    (user_mode_none_in_service_iff oneProcess_initial h₅ ⟨rfl, rfl⟩).mpr rfl⟩

/-- The first process is entered with the timer in service, which blocks every further IRQ. -/
theorem first_process_with_timer_in_service :
    oneProcess.Initial ∧ Run oneProcess [.start, .irq 0] firstEntered ∧ firstEntered.InUser ∧
      firstEntered.pic.inService 0 = true ∧ ∀ n, ¬firstEntered.pic.Accepts n :=
  ⟨oneProcess_initial, firstEntered_run, ⟨rfl, rfl⟩, rfl, Pic.not_accepts_timer⟩

end DvivonOS
