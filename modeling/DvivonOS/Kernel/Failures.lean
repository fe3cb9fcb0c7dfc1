import DvivonOS.Kernel.Safety

/-!
# Allocations that fail in `load_elf`

`process_init` returns early when the kernel stack or a page of the user stack cannot be allocated,
but has no result to say so, and `load_elf` looks at the result of no allocation. Whatever runs out,
the call stops at a fault, does not end, or returns zero with the process in the run queue.
-/

namespace DvivonOS

/-- What a call that fails should leave: a result that says so, and the run queue, the address space,
its mappings and the page bitmap as they were. -/
structure Undone (m : Machine) (r : ℤ) (m' : Machine) : Prop where
  result : r ≠ 0
  runQueue : m'.runQueue = m.runQueue
  cr3 : m'.cr3 = m.cr3
  mappings : ∀ v, m'.translate v = m.translate v
  frames : m'.pmm.bitmap = m.pmm.bitmap

/-! ## The run queue -/

/-- The computation leaves the run queue as it is, and stops at a fault only or as `E` allows. -/
def Ends {α : Type} (E : VmStop → Prop) (f : VmM α) : Prop := ∀ m,
  Wp f (fun _ m' => m'.runQueue = m.runQueue) (fun e => e = .pageFault ∨ E e) m

theorem Touches.ends {α : Type} {E : VmStop → Prop} {w : Prop} {f : VmM α} (h : Touches E w f) :
    Ends E f := fun m => (h m).mono fun _ _ h => h.2.1

namespace Ends

variable {α β : Type} {E : VmStop → Prop} {f : VmM α} {g : α → VmM β}

theorem pure (a : α) : Ends E (pure a : VmM α) := fun _ => rfl

theorem bind (hf : Ends E f) (hg : ∀ a, Ends E (g a)) : Ends E (f >>= g) := by
  intro m
  rw [wp_bind]
  apply (hf m).mono
  intro a m₁ h₁
  apply (hg a m₁).mono
  exact fun _ _ h₂ => h₂.trans h₁

theorem get : Ends E (get : VmM Machine) := fun _ => rfl

theorem vmmSwitchAddressSpace (d : ℕ) : Ends E (vmmSwitchAddressSpace d) := by
  unfold DvivonOS.vmmSwitchAddressSpace
  split_ifs with hd
  · exact fun _ => rfl
  · exact pure ()

theorem vmmCreateAddressSpace : Ends E vmmCreateAddressSpace := by
  unfold DvivonOS.vmmCreateAddressSpace
  refine Touches.allocFrame.ends.bind fun f => ?_
  split_ifs with hf
  · exact pure 0
  · exact fun _ => rfl

theorem allocStack : ∀ n, Ends E (allocStack n)
  | 0 => pure true
  | n + 1 => by
    unfold DvivonOS.allocStack
    refine (Touches.vmmAllocUserPageAt _).ends.bind fun ok => ?_
    split_ifs with hok
    · exact allocStack n
    · exact pure false

theorem processInit (kstack entry : ℕ) : Ends E (processInit kstack entry) := by
  have hpid : Ends E (modify fun m => { m with nextPid := m.nextPid + 1 } : VmM Unit) :=
    fun _ => rfl
  unfold DvivonOS.processInit
  refine get.bind fun m => hpid.bind fun _ => ?_
  split_ifs with hk
  · exact pure _
  · exact vmmCreateAddressSpace.bind fun d => get.bind fun m' =>
      (vmmSwitchAddressSpace d).bind fun _ => (allocStack _).bind fun ok =>
        (vmmSwitchAddressSpace _).bind fun _ => pure _

theorem loadElf_accepted {m : Machine} {b : Bytes} {proc kstack size : ℕ} (hmagic : Magic b)
    (hproc : proc ≠ 0) (hpages : ∀ h ∈ elfSegments b,
      Touches E False (allocPages ((h.vaddr + h.memsz) % 2 ^ 32) (2 ^ 20 + 1) h.vaddr)) :
    Wp (loadElf proc kstack b size) (fun r m' => r = 0 ∧ ∃ p, m'.runQueue = m.runQueue ++ [p])
      (fun e => e = .pageFault ∨ E e) m := by
  apply DvivonOS.loadElf_accepted hmagic hproc
  intro l _
  unfold loadAccepted
  rw [wp_bind]
  apply (processInit _ _ _).mono
  intro p m₁ h₁
  rw [wp_bind, wp_get, wp_bind]
  apply (vmmSwitchAddressSpace _ _).mono
  intro _ m₂ h₂
  rw [wp_bind, wp_of_run (noteReads_run ..), wp_bind, wp_of_run (noteReads_run ..), wp_bind]
  apply ((Touches.loadSegments hpages).ends _).mono
  intro _ m₃ h₃
  rw [wp_bind]
  apply (vmmSwitchAddressSpace _ _).mono
  intro _ m₄ h₄
  have hqueue : m₄.runQueue = m.runQueue := h₄.trans (h₃.trans (h₂.trans h₁))
  exact ⟨rfl, p, congrArg (· ++ [p]) hqueue⟩

end Ends

/-! ## Failures -/

section Failures

variable {m : Machine} {b : Bytes} {proc kstack size : ℕ}

/-- Every call that returns has queued a process, and says that it has loaded one. -/
theorem loadElf_queues (hmagic : Magic b) (hproc : proc ≠ 0) :
    Wp (loadElf proc kstack b size) (fun r m' => r = 0 ∧ ∃ p, m'.runQueue = m.runQueue ++ [p])
      (fun _ => True) m := by
  apply (Ends.loadElf_accepted (E := fun _ => True) hmagic hproc fun h _ =>
    .allocPages trivial _ _ _).weaken fun _ _ h => h
  exact fun _ _ => trivial

/-- **No failure is reported.** For every file with the right magic number, whatever `kmalloc` and
`pmm_alloc_page` have left to give: if `load_elf` returns at all it returns zero and has queued a
process, so that no call leaves what a failed call should. -/
theorem load_elf_hides_failures (hmagic : Magic b) (m : Machine) (proc kstack size : ℕ) :
    (∀ r m', (loadElf proc kstack b size).run m = .ok (r, m') →
      r = 0 ∧ ∃ p, m'.runQueue = m.runQueue ++ [p]) ∧
    ¬∃ r m', (loadElf proc kstack b size).run m = .ok (r, m') ∧ Undone m r m' := by
  have hreturns {r : ℤ} {m' : Machine} (hrun : (loadElf proc kstack b size).run m = .ok (r, m')) :
      r = 0 ∧ ∃ p, m'.runQueue = m.runQueue ++ [p] := by
    have hproc : proc ≠ 0 := fun hproc => (loadElf_faults hmagic hproc).of_run hrun
    exact (loadElf_queues hmagic hproc).of_run hrun
  refine ⟨fun r m' => hreturns, ?_⟩
  rintro ⟨r, m', hrun, hundone⟩
  exact hundone.result (hreturns hrun).1

end Failures

theorem load_elf_hides_failures_empty :
    Magic emptyFile ∧ ¬∃ r m', (loadElf 1 0 emptyFile 46).run bootMachine = .ok (r, m') ∧
      Undone bootMachine r m' :=
  ⟨by decide, (load_elf_hides_failures (by decide) bootMachine 1 0 46).2⟩

/-- Without a kernel stack: the call returns zero, and a process without an address space and
without a stack is in the run queue. -/
theorem process_without_stack_queued : ∃ p m',
    (loadElf 1 0 emptyFile 46).run bootMachine = .ok (0, m') ∧
      m'.runQueue = bootMachine.runQueue ++ [p] ∧ p.pdPhys = 0 ∧ p.kernelStackBase = 0 :=
  ⟨⟨_, 0, 0, 0, none⟩, _, rfl, rfl, rfl, rfl⟩

end DvivonOS
