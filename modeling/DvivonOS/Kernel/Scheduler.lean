import DvivonOS.Lib.Circle

/-!
# The ring of processes

`scheduler_add_process`, `schedule` and `process_exit` of `kernel/scheduler/scheduler.c` on the
`next` pointers of the processes. The two search loops may go on for ever on pointers that do not
come back to `process_list`; they are given fuel, and a run returns nothing when it is used up.

`ring_of_run`: along every run of additions, ticks and exits the loops end, the pointers from
`process_list` form one circle through the processes added and not yet exited, in the order in which
they were added, and the current process is on it; then as many ticks as there are processes run
each of them once.
-/

namespace DvivonOS.Scheduling

open DvivonOS.Circle Function List

inductive SchedulerState
  | off
  | ready
  | starting
  | running
deriving DecidableEq

def processMaxTicks : ℕ := 1

/-- The scheduler's variables, and the field `next` of every process. A process is its address, and
`0` is the null pointer. -/
structure Scheduler where
  next : ℕ → ℕ
  processList : ℕ
  currentProcess : ℕ
  ticks : ℕ
  state : SchedulerState

/-- `context_switch`: from now on `proc` runs. -/
def contextSwitch (proc : ℕ) (s : Scheduler) : Scheduler := { s with currentProcess := proc }

def schedule (s : Scheduler) : Scheduler :=
  if s.state = .starting then { s with state := .running }
  else if s.state ≠ .running ∨ s.currentProcess = 0 then s
  else
    let ticks := (s.ticks + 1) % 2 ^ 32
    if processMaxTicks ≤ ticks then
      let nextProc := s.next s.currentProcess
      contextSwitch (if nextProc = 0 then s.processList else nextProc) { s with ticks := 0 }
    else { s with ticks := ticks }

def schedulerAddProcess (fuel proc : ℕ) (s : Scheduler) : Option Scheduler :=
  if s.processList = 0 then
    some { s with processList := proc, next := update s.next proc proc }
  else
    (seek s.next (· = s.processList) fuel s.processList).map fun last =>
      { s with next :=
          update (update s.next last proc) proc s.processList }

/-- `scheduler_start` and `scheduler_init`, up to the loop that waits for the first tick. -/
def schedulerStart (s : Scheduler) : Scheduler :=
  if s.processList = 0 then s
  else { s with currentProcess := s.processList, state := .starting }

/-- `proc` is taken out of the circle: `p` is the node the search loop stops at. -/
def unlink (p proc : ℕ) (s : Scheduler) : Scheduler :=
  if s.next p = proc then
    { s with
      next := update s.next p (s.next proc)
      processList :=
        if s.processList = proc then update s.next p (s.next proc) proc
        else s.processList }
  else s

/-- `process_exit`. The last process halts the system. A process that is not the current one is
freed, and the heap may then put any word in place of its `next`. -/
def processExit (fuel proc junk : ℕ) (s : Scheduler) : Option Scheduler :=
  if s.next proc = proc then none
  else
    (seek s.next (fun q => q = proc ∨ q = s.processList) fuel s.processList).map fun p =>
      let s := unlink p proc s
      if proc = s.currentProcess then { s with currentProcess := s.processList }
      else { s with next := update s.next proc junk }

/-! ## The circle -/

/-- The processes of the ring, from `process_list` on. -/
structure Rings (s : Scheduler) (l : List ℕ) : Prop where
  nodup : l.Nodup
  nonnull : 0 ∉ l
  empty : l = [] → s.processList = 0
  circle : l ≠ [] → Leads s.next s.processList l s.processList
  current : s.currentProcess ≠ 0 → s.currentProcess ∈ l
  active : s.state = .starting ∨ s.state = .running → s.currentProcess ≠ 0
  ticks : s.ticks = 0

variable {s : Scheduler} {l l₁ l₂ : List ℕ} {proc fuel junk : ℕ}

theorem Rings.processList_cons (h : Rings s (proc :: l)) : s.processList = proc :=
  (h.circle (by simp)).head_eq

theorem Rings.processList_ne (h : Rings s l) (hl : l ≠ []) : s.processList ≠ 0 := by
  cases l with
  | nil => exact absurd rfl hl
  | cons p l => exact h.processList_cons ▸ fun he => h.nonnull (he ▸ by simp)

theorem Rings.tail_ne (h : Rings s l) {p : ℕ} (hp : p ∈ l.tail) : p ≠ s.processList := by
  cases l with
  | nil => simp at hp
  | cons q l =>
    rw [h.processList_cons]
    exact fun he => (nodup_cons.mp h.nodup).1 (he ▸ hp)

theorem Rings.next_mem (h : Rings s l) (hp : proc ∈ l) : s.next proc ∈ l := by
  obtain ⟨l₁, l₂, rfl⟩ := append_of_mem hp
  have hturn := (h.circle (by simp)).turn.2
  cases l₂ with
  | nil =>
    cases l₁ with
    | nil => simp [show s.next proc = proc from hturn]
    | cons p l₁ => exact hturn.1 ▸ by simp
  | cons p l₂ => exact hturn.1 ▸ by simp

/-! ## Adding a process -/

theorem rings_add (h : Rings s l) (hproc : proc ≠ 0) (hnew : proc ∉ l) (hfuel : l.length ≤ fuel) :
    ∃ s', schedulerAddProcess fuel proc s = some s' ∧ Rings s' (l ++ [proc]) := by
  have hnodup : (l ++ [proc]).Nodup := by
    rw [← concat_eq_append]
    exact h.nodup.concat hnew
  have hnonnull : 0 ∉ l ++ [proc] := by
    simp [h.nonnull, hproc.symm]
  rcases eq_nil_or_concat l with rfl | ⟨l', last, rfl⟩
  · rw [schedulerAddProcess, if_pos (h.empty rfl)]
    refine ⟨_, rfl, hnodup, hnonnull, by simp, fun _ => ⟨rfl, update_self _ _ _⟩,
      fun hc => ?_, h.active, h.ticks⟩
    simpa using h.current hc
  · rw [concat_eq_append] at *
    have hcircle := h.circle (by simp)
    have hseek : seek s.next (· = s.processList) fuel s.processList = some last :=
      hcircle.seek_last (by simp) (fun p hp => by simpa using h.tail_ne hp) (by simpa using hfuel)
    rw [schedulerAddProcess, if_neg (h.processList_ne (by simp)), hseek]
    exact ⟨_, rfl, hnodup, hnonnull, by simp,
      fun _ => hcircle.insert_last h.nodup hnew,
      fun hc => mem_append_left _ (h.current hc), h.active, h.ticks⟩

/-! ## Exit -/

theorem Rings.next_ne (h : Rings s l) (hp : proc ∈ l) (hlen : 2 ≤ l.length) :
    s.next proc ≠ proc := by
  obtain ⟨l₁, l₂, rfl⟩ := append_of_mem hp
  have hnodup : (proc :: (l₂ ++ l₁)).Nodup := h.nodup.perm perm_append_comm
  have hturn := (h.circle (by simp)).turn.2
  rw [nodup_cons] at hnodup
  cases hrest : l₂ ++ l₁ with
  | nil =>
    rw [append_eq_nil_iff] at hrest
    simp [hrest.1, hrest.2] at hlen
  | cons p rest =>
    rw [hrest] at hturn hnodup
    exact fun he => hnodup.1 (by rw [← he, hturn.1]; simp)

/-- The search finds the process before `proc`, and unlinking closes the circle without `proc`. -/
theorem Rings.unlink (h : Rings s l) (hp : proc ∈ l) (hlen : 2 ≤ l.length)
    (hfuel : l.length ≤ fuel) :
    ∃ p, seek s.next (fun q => q = proc ∨ q = s.processList) fuel s.processList = some p ∧
      Leads (unlink p proc s).next (unlink p proc s).processList (l.erase proc)
        (unlink p proc s).processList := by
  obtain ⟨l₁, l₂, rfl⟩ := append_of_mem hp
  have hnodup := h.nodup
  obtain ⟨hnd₁, hnd₂, hapart⟩ := nodup_append.mp hnodup
  have hnot : proc ∉ l₁ := fun hm => hapart proc hm proc (by simp) rfl
  have herase : (l₁ ++ proc :: l₂).erase proc = l₁ ++ l₂ := by
    rw [erase_append_right _ hnot, erase_cons_head]
  rw [herase]
  have hcircle := h.circle (by simp)
  rcases eq_nil_or_concat l₁ with rfl | ⟨l₁', z, rfl⟩
  · -- `proc` is `process_list`: the node before it is the last one
    rcases eq_nil_or_concat l₂ with rfl | ⟨l₂', z, rfl⟩
    · simp at hlen
    obtain rfl : s.processList = proc := h.processList_cons
    simp only [concat_eq_append, nil_append] at *
    have hrest : ∀ p ∈ l₂' ++ [z], p ≠ s.processList := fun p hp => h.tail_ne hp
    have hend : s.next z = s.processList :=
      ((Leads.concat (l := s.processList :: l₂')).mp hcircle).2
    have hzp : s.processList ≠ z := (hrest z (by simp)).symm
    refine ⟨z, ?_, ?_⟩
    · refine Leads.seek_last (l := s.processList :: l₂') hcircle (by simp) (fun p hp => ?_)
        (by simpa using hfuel)
      simpa using hrest p hp
    · rw [Scheduling.unlink, if_pos hend]
      simp only [if_true, update_of_ne hzp]
      exact hcircle.2.relink_last (nodup_cons.mp hnd₂).2 (s.next s.processList)
  · rw [concat_eq_append] at *
    have hseg : Leads s.next s.processList (l₁' ++ [z]) proc := by
      obtain ⟨m, h₁, h₂⟩ := Leads.append.mp hcircle
      exact h₂.1 ▸ h₁
    have hend : s.next z = proc := (Leads.concat.mp hseg).2
    have htail : (l₁' ++ [z] ++ proc :: l₂).tail = (l₁' ++ [z]).tail ++ proc :: l₂ :=
      tail_append_of_ne_nil (by simp)
    have hhead : s.processList ≠ proc := (h.tail_ne (by rw [htail]; simp)).symm
    refine ⟨z, ?_, ?_⟩
    · refine hseg.seek_last (by simp) (fun p hp => ?_) ?_
      · have hproc : p ≠ proc := fun he => hnot (he ▸ mem_of_mem_tail hp)
        have hfirst : p ≠ s.processList := h.tail_ne (by rw [htail]; simp [hp])
        simp [hproc, hfirst]
      · simp only [length_append, length_cons] at hfuel
        omega
    · rw [Scheduling.unlink, if_pos hend]
      simp only [hhead, if_false]
      exact hcircle.bypass hnodup

@[simp] theorem unlink_currentProcess (p : ℕ) :
    (unlink p proc s).currentProcess = s.currentProcess := by
  unfold unlink
  split <;> rfl

@[simp] theorem unlink_ticks (p : ℕ) : (unlink p proc s).ticks = s.ticks := by
  unfold unlink
  split <;> rfl

@[simp] theorem unlink_state (p : ℕ) : (unlink p proc s).state = s.state := by
  unfold unlink
  split <;> rfl

theorem rings_exit (h : Rings s l) (hp : proc ∈ l) (hlen : 2 ≤ l.length) (hfuel : l.length ≤ fuel) :
    ∃ s', processExit fuel proc junk s = some s' ∧ Rings s' (l.erase proc) := by
  obtain ⟨p, hseek, hcircle⟩ := h.unlink hp hlen hfuel
  have hnodup : (l.erase proc).Nodup := h.nodup.erase proc
  have hnonnull : 0 ∉ l.erase proc := fun hz => h.nonnull (mem_of_mem_erase hz)
  have hout : proc ∉ l.erase proc := h.nodup.not_mem_erase
  have hne : l.erase proc ≠ [] := by
    intro he
    have hcount := length_erase_of_mem hp
    rw [he, length_nil] at hcount
    omega
  have hfirst : (unlink p proc s).processList ∈ l.erase proc := by
    cases hl : l.erase proc with
    | nil => exact absurd hl hne
    | cons q rest =>
      rw [hl] at hcircle
      simp [hcircle.head_eq]
  rw [processExit, if_neg (h.next_ne hp hlen), hseek]
  refine ⟨_, rfl, ?_⟩
  simp only [unlink_currentProcess]
  by_cases hcurrent : proc = s.currentProcess
  · rw [if_pos hcurrent]
    exact ⟨hnodup, hnonnull, fun he => absurd he hne, fun _ => hcircle, fun _ => hfirst,
      fun _ he => hnonnull (he ▸ hfirst), by simpa using h.ticks⟩
  · rw [if_neg hcurrent]
    refine ⟨hnodup, hnonnull, fun he => absurd he hne, fun _ => hcircle.congr fun q hq => ?_,
      fun hc => ?_, fun ha => ?_, by simpa using h.ticks⟩
    · have hqp : q ≠ proc := fun he => hout (he ▸ hq)
      exact update_of_ne hqp _ _
    · exact (mem_erase_of_ne (Ne.symm hcurrent)).mpr (h.current hc)
    · simp only [unlink_state] at ha
      simpa using h.active ha

/-! ## Ticks -/

theorem schedule_running (h : Rings s l) (hrun : s.state = .running) :
    schedule s = { s with currentProcess := s.next s.currentProcess } := by
  have hcurrent := h.active (.inr hrun)
  have hnext : s.next s.currentProcess ≠ 0 :=
    fun he => h.nonnull (he ▸ h.next_mem (h.current hcurrent))
  have hticks := h.ticks
  cases s
  simp_all [schedule, contextSwitch, processMaxTicks]

theorem rings_schedule (h : Rings s l) : Rings (schedule s) l := by
  by_cases hrun : s.state = .running
  · have hmem : s.next s.currentProcess ∈ l := h.next_mem (h.current (h.active (.inr hrun)))
    rw [schedule_running h hrun]
    exact ⟨h.nodup, h.nonnull, h.empty, h.circle, fun _ => hmem,
      fun _ he => h.nonnull (he ▸ hmem), h.ticks⟩
  · by_cases hstart : s.state = .starting
    · rw [schedule, if_pos hstart]
      exact ⟨h.nodup, h.nonnull, h.empty, h.circle, h.current, fun _ => h.active (.inl hstart),
        h.ticks⟩
    · rw [schedule, if_neg hstart, if_pos (.inl hrun)]
      exact h

def ranIn : ℕ → Scheduler → List ℕ
  | 0, _ => []
  | n + 1, s => (schedule s).currentProcess :: ranIn n (schedule s)

theorem ranIn_eq_iterate (h : Rings s l) (hrun : s.state = .running) (n : ℕ) :
    ranIn n s = List.iterate s.next (s.next s.currentProcess) n := by
  induction n generalizing s with
  | zero => rfl
  | succ n ih =>
    have hnext := schedule_running h hrun
    have hrings := rings_schedule h
    rw [hnext] at hrings
    rw [ranIn, hnext, ih hrings hrun, List.iterate]

/-- **Round robin.** As many ticks as there are processes run each of them once. -/
theorem ranIn_perm (h : Rings s l) (hrun : s.state = .running) : (ranIn l.length s).Perm l := by
  rw [ranIn_eq_iterate h hrun]
  obtain ⟨l₁, l₂, rfl⟩ := append_of_mem (h.current (h.active (.inr hrun)))
  have hturn := (h.circle (by simp)).turn
  have hclosed : Leads s.next (s.next s.currentProcess) (l₂ ++ l₁ ++ [s.currentProcess])
      (s.next s.currentProcess) := Leads.concat.mpr ⟨hturn.2, rfl⟩
  have hlen : (l₁ ++ s.currentProcess :: l₂).length = (l₂ ++ l₁ ++ [s.currentProcess]).length := by
    simp only [length_append, length_cons, length_nil]
    omega
  rw [hlen, hclosed.iterate.1]
  have hback : (s.currentProcess :: l₂ ++ l₁).Perm (l₁ ++ s.currentProcess :: l₂) :=
    perm_append_comm
  exact (perm_append_singleton _ _).trans hback

/-! ## Runs -/

inductive Op
  | add (proc : ℕ)
  | start
  | tick
  | exit (proc junk : ℕ)

def Op.exec (fuel : ℕ) (op : Op) (s : Scheduler) : Option Scheduler :=
  match op with
  | .add proc => schedulerAddProcess fuel proc s
  | .start => some (schedulerStart s)
  | .tick => some (schedule s)
  | .exit proc junk => processExit fuel proc junk s

/-- The processes added and not yet exited, in the order of addition. -/
def Op.alive (op : Op) (l : List ℕ) : List ℕ :=
  match op with
  | .add proc => l ++ [proc]
  | .exit proc _ => l.erase proc
  | _ => l

/-- A new process is added, or a process exits that is not the last one. -/
def Op.Allowed (op : Op) (l : List ℕ) : Prop :=
  match op with
  | .add proc => proc ≠ 0 ∧ proc ∉ l
  | .exit proc _ => proc ∈ l ∧ 2 ≤ l.length
  | _ => True

def run (fuel : ℕ) : List Op → Scheduler → Option Scheduler
  | [], s => some s
  | op :: ops, s => (op.exec fuel s).bind (run fuel ops)

def aliveAfter (ops : List Op) (l : List ℕ) : List ℕ := ops.foldl (fun l op => op.alive l) l

def AllAllowed : List Op → List ℕ → Prop
  | [], _ => True
  | op :: ops, l => op.Allowed l ∧ AllAllowed ops (op.alive l)

theorem rings_start (h : Rings s l) : Rings (schedulerStart s) l := by
  unfold schedulerStart
  by_cases hl : l = []
  · rw [if_pos (h.empty hl)]
    exact h
  · have hne := h.processList_ne hl
    have hmem : s.processList ∈ l := by
      cases l with
      | nil => exact absurd rfl hl
      | cons p l => simp [h.processList_cons]
    rw [if_neg hne]
    exact ⟨h.nodup, h.nonnull, h.empty, h.circle, fun _ => hmem, fun _ => hne, h.ticks⟩

theorem alive_length (op : Op) : (op.alive l).length ≤ l.length + 1 := by
  cases op with
  | add proc => simp [Op.alive]
  | exit proc junk => exact (length_erase_le).trans (Nat.le_succ _)
  | start => exact Nat.le_succ _
  | tick => exact Nat.le_succ _

/-- **One step** ends, and keeps the ring. -/
theorem rings_step (op : Op) (h : Rings s l) (hop : op.Allowed l) (hfuel : l.length ≤ fuel) :
    ∃ s', op.exec fuel s = some s' ∧ Rings s' (op.alive l) := by
  cases op with
  | add proc => exact rings_add h hop.1 hop.2 hfuel
  | start => exact ⟨_, rfl, rings_start h⟩
  | tick => exact ⟨_, rfl, rings_schedule h⟩
  | exit proc junk => exact rings_exit h hop.1 hop.2 hfuel

theorem rings_run (ops : List Op) (h : Rings s l) (hops : AllAllowed ops l)
    (hfuel : l.length + ops.length ≤ fuel) :
    ∃ s', run fuel ops s = some s' ∧ Rings s' (aliveAfter ops l) := by
  induction ops generalizing s l with
  | nil => exact ⟨s, rfl, h⟩
  | cons op ops ih =>
    rw [length_cons] at hfuel
    have hle : l.length ≤ fuel := by omega
    obtain ⟨s₁, hexec, h₁⟩ := rings_step op h hops.1 hle
    have hlen := alive_length (l := l) op
    obtain ⟨s₂, hrun, h₂⟩ := ih h₁ hops.2 (by omega)
    exact ⟨s₂, by rw [run, hexec, Option.bind_some, hrun], h₂⟩

def Scheduler.init (next : ℕ → ℕ) : Scheduler := ⟨next, 0, 0, 0, .off⟩

theorem rings_init (next : ℕ → ℕ) : Rings (.init next) [] :=
  ⟨nodup_nil, by simp, fun _ => rfl, by simp, fun h => absurd rfl h, by simp [Scheduler.init],
    rfl⟩

/-- **The ring.** From no processes, a run of allowed steps ends; the pointers from `process_list`
visit the processes added and not yet exited, each once and in the order of addition, and come
back; the current process, if there is one, is among them; and a running scheduler switches to each
of them once in as many ticks as there are. -/
theorem ring_of_run (next : ℕ → ℕ) (ops : List Op) (hops : AllAllowed ops []) (fuel : ℕ)
    (hfuel : ops.length ≤ fuel) :
    ∃ s, run fuel ops (.init next) = some s ∧
      (aliveAfter ops []).Nodup ∧
      (aliveAfter ops [] ≠ [] →
        List.iterate s.next s.processList (aliveAfter ops []).length = aliveAfter ops [] ∧
        s.next^[(aliveAfter ops []).length] s.processList = s.processList) ∧
      (s.currentProcess ≠ 0 → s.currentProcess ∈ aliveAfter ops []) ∧
      (s.state = .running →
        s.currentProcess ≠ 0 ∧ (ranIn (aliveAfter ops []).length s).Perm (aliveAfter ops [])) := by
  obtain ⟨s, hrun, h⟩ := rings_run ops (rings_init next) hops (by simpa using hfuel)
  exact ⟨s, hrun, h.nodup, fun hne => (h.circle hne).iterate, h.current,
    fun hstate => ⟨h.active (.inr hstate), ranIn_perm h hstate⟩⟩

def sampleOps : List Op := [.add 8, .add 16, .add 24, .start, .tick, .tick, .exit 16 0]

theorem ring_of_sample :
    AllAllowed sampleOps [] ∧ aliveAfter sampleOps [] = [8, 24] ∧
      ∃ s, run 7 sampleOps (.init fun _ => 0) = some s ∧
        List.iterate s.next s.processList 2 = [8, 24] ∧
        s.next^[2] s.processList = s.processList := by
  have hops : AllAllowed sampleOps [] := by simp [sampleOps, AllAllowed, Op.Allowed, Op.alive]
  obtain ⟨s, hrun, -, hring, -⟩ := ring_of_run (fun _ => 0) sampleOps hops 7 le_rfl
  exact ⟨hops, rfl, s, hrun, hring (cons_ne_nil 8 [24])⟩

end DvivonOS.Scheduling
