import DvivonOS.Heap.Generic
import DvivonOS.Heap.Refine

/-!
# What the allocator reads and writes

The functions of `heap-allocator.c` with a record of every word they load or store, each with the
value of `heap_max` at that time (`RecordM`). They do what they do without the record, and every
recorded word lies in `[KHEAP_START, heap_max)`: in a reachable heap no other page is present
(`Tight`), so an access elsewhere would fault, and the only fault of a call is that of the page table
at `PTS_SCRATCH_WINDOW`, which is no access of the allocator.
-/

namespace DvivonOS

open HeapCode

structure Access where
  write : Bool
  addr : ℕ
  heapMax : ℕ

def Access.Inside (e : Access) : Prop := kheapStart ≤ e.addr ∧ e.addr + 4 ≤ e.heapMax

/-- Computations on the heap with a record that survives a fault. -/
abbrev RecordM := StateT Heap (ExceptT Stop (StateM (List Access)))

namespace RecordM

variable {α β : Type}

/-- The outcome of a computation, and the record before it with its accesses in front. -/
def exec (y : RecordM α) (h : Heap) (l : List Access) : Except Stop (α × Heap) × List Access :=
  (y.run h).run.run l

def onHeap (x : HeapM α) : RecordM α := fun h => ExceptT.mk (pure (x.run h))

def record (write : Bool) (a : ℕ) : RecordM Unit := do
  let h ← get
  modifyThe (List Access) (⟨write, a, h.heapMax⟩ :: ·)

instance : HeapCode.HeapOps RecordM where
  load a := do
    record false a
    onHeap (load a)
  store a v := do
    record true a
    onHeap (store a v)
  freeListHead := onHeap freeListHead
  setFreeListHead b := onHeap (setFreeListHead b)
  heapMax := onHeap heapMax
  nextPage := onHeap nextPage
  stop := onHeap stop

theorem exec_bind_ok {y : RecordM α} {g : α → RecordM β} {h h' : Heap} {l l' : List Access} {a : α}
    (hy : y.exec h l = (.ok (a, h'), l')) : (y >>= g).exec h l = (g a).exec h' l' := by
  unfold exec at *
  rw [StateT.run_bind, ExceptT.run_bind, StateT.run_bind, hy]
  rfl

theorem exec_bind_error {y : RecordM α} {g : α → RecordM β} {h : Heap} {l l' : List Access}
    {e : Stop} (hy : y.exec h l = (.error e, l')) : (y >>= g).exec h l = (.error e, l') := by
  unfold exec at *
  rw [StateT.run_bind, ExceptT.run_bind, StateT.run_bind, hy]
  rfl

end RecordM

/-! ## The pages that are present -/

/-- The pages of the heap are the only ones that are present. -/
structure Tight (h : Heap) : Prop where
  aligned : pageSize ∣ h.heapMax
  start : kheapStart ≤ h.heapMax
  page : ∀ p, h.mapped p = true → kheapStart / pageSize ≤ p ∧ p < h.heapMax / pageSize

section Tight

variable {h : Heap} {a : ℕ}

theorem Tight.inside (ht : Tight h) (h1 : h.mapped (a / pageSize) = true)
    (h2 : h.mapped ((a + 3) / pageSize) = true) (write : Bool) :
    (Access.mk write a h.heapMax).Inside := by
  have hlo := (ht.page _ h1).1
  have hhi := (ht.page _ h2).2
  have hal := ht.aligned
  unfold Access.Inside kheapStart at *
  unfold pageSize at *
  dsimp only
  omega

theorem tight_initial (mem : Bytes) (pmm : Pmm) : Tight (Heap.empty mem pmm) where
  aligned := by show pageSize ∣ kheapStart; decide
  start := le_rfl
  page _ hp := Bool.noConfusion hp

theorem Tight.nextHeapPage (ht : Tight h) :
    Wp nextHeapPage (fun _ h' => Tight h') (fun _ => True) h := by
  unfold DvivonOS.nextHeapPage vmmAllocKernelPageAt
  simp only [wp_bind, wp_get, wp_set]
  by_cases hphys : (pmmAllocPage h.pmm).1 = 0
  · rw [if_pos hphys]
    simp only [wp_pure, Bool.not_false, if_true]
    exact ⟨ht.aligned, ht.start, ht.page⟩
  rw [if_neg hphys]
  by_cases hwin : ptsScratchWindow ≤ h.heapMax
  · rw [if_pos hwin, wp_throw]
    trivial
  rw [if_neg hwin]
  simp only [wp_bind, wp_modify, wp_pure, Bool.not_true, Bool.false_eq_true, if_false]
  have hal := ht.aligned
  have hst := ht.start
  have hmax : add32 h.heapMax pageSize = h.heapMax + pageSize := by
    unfold add32 pageSize
    unfold ptsScratchWindow at hwin
    omega
  refine ⟨?_, ?_, fun p hp => ?_⟩
  · show pageSize ∣ add32 h.heapMax pageSize
    rw [hmax]
    exact dvd_add hal dvd_rfl
  · show kheapStart ≤ add32 h.heapMax pageSize
    omega
  · show kheapStart / pageSize ≤ p ∧ p < add32 h.heapMax pageSize / pageSize
    rw [hmax]
    have hp' : Function.update h.mapped (h.heapMax / pageSize) true p = true := hp
    by_cases hpe : p = h.heapMax / pageSize
    · unfold kheapStart at *
      unfold pageSize at *
      omega
    · rw [Function.update_of_ne hpe] at hp'
      have := ht.page p hp'
      unfold pageSize at *
      omega

end Tight

/-! ## Records -/

/-- From `h` on, `y` does what `x` does, with a record of accesses inside the heap. -/
def LogsAt {α : Type} (x : HeapM α) (y : RecordM α) (h : Heap) : Prop :=
  (∀ a h', x.run h = .ok (a, h') → Tight h') ∧
    ∀ l, ∃ l', y.exec h l = (x.run h, l' ++ l) ∧ ∀ e ∈ l', e.Inside

/-- Where `x` returns from a heap without other pages, `y` does what `x` does. -/
def Logs {α : Type} (x : HeapM α) (y : RecordM α) : Prop :=
  ∀ h r, Tight h → x.run h = .ok r → LogsAt x y h

section Logs

variable {α β : Type} {h : Heap}

theorem LogsAt.bind {x : HeapM α} {y : RecordM α} {f : α → HeapM β} {g : α → RecordM β}
    (hx : LogsAt x y h)
    (hf : ∀ a h', Tight h' → x.run h = .ok (a, h') → LogsAt (f a) (g a) h') :
    LogsAt (x >>= f) (y >>= g) h := by
  cases hxr : x.run h with
  | error e =>
    have hrun : (x >>= f).run h = .error e := by rw [StateT.run_bind, hxr]; rfl
    refine ⟨fun b h' hb => absurd (hrun.symm.trans hb) (by simp), fun l => ?_⟩
    obtain ⟨l', hy, hin⟩ := hx.2 l
    rw [hxr] at hy
    exact ⟨l', by rw [hrun, RecordM.exec_bind_error hy], hin⟩
  | ok r =>
    obtain ⟨a, h₁⟩ := r
    have hrun : (x >>= f).run h = (f a).run h₁ := by rw [StateT.run_bind, hxr]; rfl
    have hfa := hf a h₁ (hx.1 a h₁ hxr) hxr
    refine ⟨fun b h' hb => hfa.1 b h' (hrun.symm.trans hb), fun l => ?_⟩
    obtain ⟨l₁, hy, hin₁⟩ := hx.2 l
    rw [hxr] at hy
    obtain ⟨l₂, hg, hin₂⟩ := hfa.2 (l₁ ++ l)
    refine ⟨l₂ ++ l₁, by rw [hrun, RecordM.exec_bind_ok hy, hg, List.append_assoc], fun e he => ?_⟩
    rcases List.mem_append.mp he with he | he
    · exact hin₂ e he
    · exact hin₁ e he

theorem logsAt_pure (ht : Tight h) (a : α) : LogsAt (pure a) (pure a) h := by
  refine ⟨fun b h' hr => ?_, fun l => ⟨[], rfl, by simp⟩⟩
  cases hr
  exact ht

theorem logsAt_onHeap {x : HeapM α} (hx : ∀ a h', x.run h = .ok (a, h') → Tight h') :
    LogsAt x (RecordM.onHeap x) h :=
  ⟨hx, fun _ => ⟨[], rfl, by simp⟩⟩

theorem logsAt_access {x : HeapM α} {write : Bool} {a : ℕ}
    (hx : ∀ b h', x.run h = .ok (b, h') → Tight h')
    (hin : (Access.mk write a h.heapMax).Inside) :
    LogsAt x (do
      RecordM.record write a
      RecordM.onHeap x) h := by
  refine ⟨hx, fun l => ⟨[⟨write, a, h.heapMax⟩], rfl, fun e he => ?_⟩⟩
  rw [List.mem_singleton.mp he]
  exact hin

theorem Logs.bind {x : HeapM α} {y : RecordM α} {f : α → HeapM β} {g : α → RecordM β}
    (hx : Logs x y) (hf : ∀ a, Logs (f a) (g a)) : Logs (x >>= f) (y >>= g) := by
  intro h r ht hr
  rw [StateT.run_bind] at hr
  cases hxr : x.run h with
  | error e => rw [hxr] at hr; cases hr
  | ok s =>
    rw [hxr] at hr
    refine (hx h s ht hxr).bind fun a h' ht' ha => ?_
    rw [hxr] at ha
    cases ha
    exact hf a h' r ht' hr

theorem logs_load (a : ℕ) : Logs (load a) (load a) := by
  intro h r ht hr
  rw [run_load] at hr
  split_ifs at hr with hm
  refine logsAt_access (fun b h' hb => ?_) (ht.inside hm.1 hm.2 false)
  rw [run_load, if_pos hm] at hb
  cases hb
  exact ht

theorem logs_store (a v : ℕ) : Logs (store a v) (store a v) := by
  intro h r ht hr
  rw [run_store] at hr
  split_ifs at hr with hm
  refine logsAt_access (fun b h' hb => ?_) (ht.inside hm.1 hm.2 true)
  rw [run_store, if_pos hm] at hb
  cases hb
  exact ⟨ht.aligned, ht.start, ht.page⟩

theorem logsAt_freeListHead (ht : Tight h) : LogsAt freeListHead HeapCode.freeListHead h :=
  logsAt_onHeap fun _ _ hr => by cases hr; exact ht

theorem logsAt_heapMax (ht : Tight h) : LogsAt heapMax HeapCode.heapMax h :=
  logsAt_onHeap fun _ _ hr => by cases hr; exact ht

theorem logsAt_setFreeListHead (ht : Tight h) (b : ℕ) :
    LogsAt (setFreeListHead b) (HeapCode.setFreeListHead b) h :=
  logsAt_onHeap fun _ _ hr => by cases hr; exact ⟨ht.aligned, ht.start, ht.page⟩

/-- The page that is entered for the heap is no access of `heap-allocator.c`. -/
theorem logsAt_nextPage (ht : Tight h) : LogsAt nextPage HeapCode.nextPage h :=
  logsAt_onHeap fun _ _ hr => ht.nextHeapPage.of_run hr

/-- The recorded functions do what the model does, inside the heap. -/
theorem recording : HeapCode.Simulation HeapM RecordM Logs where
  pure a _ _ ht _ := logsAt_pure ht a
  bind := Logs.bind
  load := logs_load
  store := logs_store
  freeListHead _ _ ht _ := logsAt_freeListHead ht
  setFreeListHead b _ _ ht _ := logsAt_setFreeListHead ht b
  heapMax _ _ ht _ := logsAt_heapMax ht
  nextPage _ _ ht _ := logsAt_nextPage ht
  stop _ _ _ hr := by cases hr

end Logs

/-! ## Calls that fault -/

section Faults

variable {h : Heap} {bs : List Blk} {fl : List ℕ}

/-- Where the next page can be entered, `allocate_new_heap_page` does not fault. -/
theorem Inv.allocate_returns (inv : Inv h bs fl) {r : Bool × Heap}
    (hpage : nextHeapPage.run h = .ok r) :
    ∃ b h', (allocateNewHeapPage : HeapM Bool).run h = .ok (b, h') := by
  have hw : Wp (allocateNewHeapPage : HeapM Bool) (fun _ _ => True) (fun _ => False) h := by
    refine allocateNewHeapPage_wp inv (fun hphys hmax => ?_) (fun _ => trivial)
      fun _ _ _ _ _ _ _ => trivial
    have hfault : Wp nextHeapPage (fun _ _ => False) (fun _ => True) h := by
      unfold nextHeapPage vmmAllocKernelPageAt
      simp only [wp_bind, wp_get, wp_set]
      rw [if_neg hphys, if_pos hmax.ge, wp_throw]
      trivial
    exact hfault.of_run hpage
  obtain ⟨b, h', hrun, -⟩ := hw.returns
  exact ⟨b, h', hrun⟩

theorem Inv.logsAt_allocate (inv : Inv h bs fl) (ht : Tight h) :
    LogsAt allocateNewHeapPage HeapCode.allocateNewHeapPage h := by
  cases hr : (allocateNewHeapPage : HeapM Bool).run h with
  | ok r => exact recording.allocateNewHeapPage h r ht hr
  | error e =>
    refine (logsAt_heapMax ht).bind fun _ h₁ ht₁ hmax => (logsAt_nextPage ht₁).bind
      fun page h' _ hpage => ?_
    cases hmax
    obtain ⟨b, h'', hrun⟩ := inv.allocate_returns hpage
    rw [hr] at hrun
    cases hrun

theorem Inv.firstFit_returns (inv : Inv h bs fl) (size : ℕ) :
    ∃ r h', (firstFit (wantedSize size) h.heapMax h.freeListHead : HeapM (Option ℕ)).run h =
      .ok (r, h') ∧ (r = none → h' = h) := by
  obtain ⟨h12, h4⟩ := wantedSize_spec size
  exact (firstFit_wp (E := fun _ => False) (Q := fun r h' => r = none → h' = h) inv h12 h4
    (fun _ _ => rfl) (fun _ _ _ _ _ _ _ _ hr => by cases hr) fl [] 0 _ _ rfl (by simp) inv.linked
    inv.toOk.length_lt).returns

theorem Inv.allocated (inv : Inv h bs fl) {h' : Heap}
    (hr : (allocateNewHeapPage : HeapM Bool).run h = .ok (true, h')) :
    (∃ bs' fl', Inv h' bs' fl') ∧ h'.heapMax = h.heapMax + pageSize := by
  have hw : Wp allocateNewHeapPage (fun b h' => b = true →
      (∃ bs' fl', Inv h' bs' fl') ∧ h'.heapMax = h.heapMax + pageSize) (fun _ => True) h :=
    allocateNewHeapPage_wp inv (fun _ _ => trivial) (fun _ hb => Bool.noConfusion hb)
      fun _ _ bs' fl' inv' _ ha _ => ⟨⟨bs', fl', inv'⟩, congrArg Arena.heapMax ha⟩
  exact hw.of_run hr rfl

theorem Inv.logsAt_search (inv : Inv h bs fl) (ht : Tight h) (size : ℕ)
    {next : Option ℕ → HeapM ℕ} {next' : Option ℕ → RecordM ℕ} {rest : HeapM ℕ} {rest' : RecordM ℕ}
    (hsome : ∀ ptr, next (some ptr) = pure ptr) (hsome' : ∀ ptr, next' (some ptr) = pure ptr)
    (hnone : next none = (do
      if !(← allocateNewHeapPage) then return 0
      else rest))
    (hnone' : next' none = (do
      if !(← allocateNewHeapPage) then return 0
      else rest'))
    (hrest : ∀ h' bs' fl', Inv h' bs' fl' → Tight h' → h'.heapMax = h.heapMax + pageSize →
      LogsAt rest rest' h') :
    LogsAt (do firstFit (wantedSize size) (← heapMax) (← freeListHead) >>= next)
      (do firstFit (wantedSize size) (← heapMax) (← freeListHead) >>= next') h := by
  obtain ⟨r, h₁, hrun, hsame⟩ := inv.firstFit_returns size
  refine (logsAt_heapMax ht).bind fun _ _ _ hmax => ?_
  cases hmax
  refine (logsAt_freeListHead ht).bind fun _ _ _ hhead => ?_
  cases hhead
  refine (recording.firstFit _ _ _ h (r, h₁) ht hrun).bind fun found h₂ ht₂ hfound => ?_
  rw [hrun] at hfound
  cases hfound
  cases r with
  | some ptr =>
    rw [hsome, hsome']
    exact logsAt_pure ht₂ ptr
  | none =>
    rw [hsame rfl] at ht₂ ⊢
    rw [hnone, hnone']
    refine (inv.logsAt_allocate ht₂).bind fun grown h₃ ht₃ hgrown => ?_
    cases grown with
    | false => exact logsAt_pure ht₃ 0
    | true =>
      obtain ⟨⟨bs₃, fl₃, inv₃⟩, hmax₃⟩ := inv.allocated hgrown
      exact hrest h₃ bs₃ fl₃ inv₃ ht₃ hmax₃

theorem logsAt_kmallocFuel : ∀ {fuel : ℕ} {h : Heap} {bs : List Blk} {fl : List ℕ} (size : ℕ),
    Inv h bs fl → Tight h → (ptsScratchWindow - h.heapMax) / pageSize < fuel →
    LogsAt (kmallocFuel fuel size) (HeapCode.kmallocFuel fuel size) h
  | 0, _, _, _, _, _, _, hf => absurd hf (Nat.not_lt_zero _)
  | fuel + 1, h, bs, fl, size, inv, ht, hf => by
    -- every page on the way leaves less to go
    have hrest : ∀ h' bs' fl', Inv h' bs' fl' → Tight h' → h.heapMax + pageSize ≤ h'.heapMax →
        LogsAt (kmallocFuel fuel (sub32 (wantedSize size) (2 * sizeofHeader)))
          (HeapCode.kmallocFuel fuel (sub32 (wantedSize size) (2 * sizeofHeader))) h' := by
      intro h' bs' fl' inv' ht' hmax
      refine logsAt_kmallocFuel _ inv' ht' ?_
      have hb := inv'.bound
      unfold pageSize at *
      omega
    unfold kmallocFuel
    refine (logsAt_freeListHead ht).bind fun _ _ _ hhead => ?_
    cases hhead
    by_cases h0 : h.freeListHead = 0
    · rw [if_pos h0, if_pos h0]
      refine (inv.logsAt_allocate ht).bind fun ready h₁ ht₁ hready => ?_
      cases ready with
      | false => exact logsAt_pure ht₁ 0
      | true =>
        obtain ⟨⟨bs₁, fl₁, inv₁⟩, hmax₁⟩ := inv.allocated hready
        exact inv₁.logsAt_search ht₁ size (fun _ => rfl) (fun _ => rfl) rfl rfl
          fun h' bs' fl' inv' ht' hmax => hrest h' bs' fl' inv' ht' (by omega)
    · rw [if_neg h0, if_neg h0]
      refine (logsAt_pure ht true).bind fun ready h₁ ht₁ hready => ?_
      cases hready
      exact inv.logsAt_search ht size (fun _ => rfl) (fun _ => rfl) rfl rfl
        fun h' bs' fl' inv' ht' hmax => hrest h' bs' fl' inv' ht' (by omega)

theorem Inv.logsAt_kmalloc (inv : Inv h bs fl) (ht : Tight h) (size : ℕ) :
    LogsAt (kmalloc size) (HeapCode.kmalloc size) h := by
  refine (logsAt_heapMax ht).bind fun _ _ _ hmax => ?_
  cases hmax
  exact logsAt_kmallocFuel size inv ht (by omega)

end Faults

/-! ## Reachable heaps -/

theorem Tight.step {P : Call → Client → Prop} {s s' : Client} (ht : Tight s.heap)
    (hstep : HeapStep P s s') : Tight s'.heap := by
  cases hstep with
  | call _ hcall =>
    cases hcall with
    | kmalloc _ hr => exact (recording.kmalloc _ _ _ ht hr).1 _ _ hr
    | kfree _ hr => exact (recording.kfree _ _ _ ht hr).1 _ _ hr
  | write => exact ⟨ht.aligned, ht.start, ht.page⟩
  | frames => exact ⟨ht.aligned, ht.start, ht.page⟩

theorem tight_of_steps {mem : Bytes} {pmm : Pmm} {s : Client}
    (hr : Relation.ReflTransGen (HeapStep anyCall) (Client.initial mem pmm) s) : Tight s.heap := by
  induction hr with
  | refl => exact tight_initial mem pmm
  | tail _ hstep ih => exact ih.step hstep

/-- **Accesses.** In every reachable heap, `kmalloc` of any size and `kfree` of a live pointer load
and store words of `[KHEAP_START, heap_max)` only, whether the call returns or faults at the
page-table window. -/
theorem heap_accesses_inside {mem : Bytes} {pmm : Pmm} {s : Client} (hok : pmm.Ok)
    (hr : Relation.ReflTransGen (HeapStep anyCall) (Client.initial mem pmm) s) :
    (∀ size, ∃ log, (HeapCode.kmalloc size : RecordM ℕ).exec s.heap [] =
        ((kmalloc size).run s.heap, log) ∧ ∀ e ∈ log, e.Inside) ∧
    ∀ a ∈ s.live, ∃ h' log, (kfree a.1).run s.heap = .ok ((), h') ∧
      (HeapCode.kfree a.1 : RecordM Unit).exec s.heap [] = (.ok ((), h'), log) ∧
      ∀ e ∈ log, e.Inside := by
  obtain ⟨bs, fl, h⟩ := reached_of_steps hok hr
  have ht := tight_of_steps hr
  constructor
  · intro size
    obtain ⟨log, hrec, hin⟩ := (h.holds.inv.logsAt_kmalloc ht size).2 []
    rw [List.append_nil] at hrec
    exact ⟨log, hrec, hin⟩
  · intro a ha
    obtain ⟨h', hrun⟩ := h.holds.calls_return.2 a ha
    obtain ⟨log, hrec, hin⟩ := (recording.kfree a.1 s.heap _ ht hrun).2 []
    rw [List.append_nil, hrun] at hrec
    exact ⟨h', log, hrun, hrec, hin⟩

/-- One block allocated and freed, with what its `kfree` reads and writes. -/
theorem heap_accesses_inside_small :
    ∃ s : Client, s.live = [(kheapStart + 4, 5)] ∧
      (∀ size, ∃ log, (HeapCode.kmalloc size : RecordM ℕ).exec s.heap [] =
        ((kmalloc size).run s.heap, log) ∧ ∀ e ∈ log, e.Inside) ∧
      ∃ h' log, (kfree (kheapStart + 4)).run s.heap = .ok ((), h') ∧
        (HeapCode.kfree (kheapStart + 4) : RecordM Unit).exec s.heap [] = (.ok ((), h'), log) ∧
        ∀ e ∈ log, e.Inside := by
  have s1 : CallStep (.kmalloc 5) (Client.initial Bytes.zero smallPmm)
      ⟨smallHeap.after (kmalloc 5), [(kheapStart + 4, 5)]⟩ :=
    .kmalloc (by norm_num) (run_after (a := kheapStart + 4) (by decide +kernel))
  have hin := heap_accesses_inside smallPmm_ok (.single (.call trivial s1))
  exact ⟨_, rfl, hin.1, hin.2 (kheapStart + 4, 5) (by simp)⟩

end DvivonOS
