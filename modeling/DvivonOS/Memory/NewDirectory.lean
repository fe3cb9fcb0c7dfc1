import DvivonOS.Memory.SpaceRuns

/-!
# The entries of a new directory

`vmm_create_address_space` fills the new directory through the scratch slot, in a frame with whatever
`pmm_alloc_page` has found there. It writes every entry of it but 1022, which is then that of the
frame, and at the end it clears slot 1022 of the current directory.
-/

namespace DvivonOS.Windows

open Paging

/-- The current directory is a used frame with itself in its last slot, and every access is
translated by the tables. -/
structure Running (s : Mmu Pmm) : Prop where
  noCache : NoCache s
  pmm : s.rest.Ok
  self : SelfMapped s.mem s.cr3
  used : testBit (s.cr3 / pageSize) s.rest.bitmap = true

/-- All entries of the new directory `N` are determined, and the current one is as it was. -/
structure Determined (c : View Pmm) (N : ℕ) (c' : View Pmm) : Prop where
  user : ∀ i < 768, entry c'.mem N i = 0
  kernel : ∀ i, KernelSlot i → entry c'.mem N i = entry c.mem c.cr3 i
  scratch : ¬IsPresent (entry c'.mem N 1022)
  self : SelfMapped c'.mem N
  cr3 : c'.cr3 = c.cr3
  current : ∀ i < 1024, entry c'.mem c.cr3 i = entry c.mem c.cr3 i

/-- `vmm_create_address_space` returns zero and has changed nothing, or returns a directory all of
whose entries are determined. -/
def CreateRight (s : Mmu Pmm) : Prop :=
  ∃ N s', exec vmmCreateAddressSpace s = (.ok N, s') ∧
    (N = 0 ∧ s'.toView = s.toView ∨ N ≠ 0 ∧ Determined s.toView N s'.toView)

section Create

variable {c : View Pmm} {s : Mmu Pmm}

theorem Running.create (h : Running s) :
    ∃ s', exec vmmCreateAddressSpace s = (.ok (pmmAllocPage s.rest).1, s') ∧
      ((pmmAllocPage s.rest).1 = 0 ∧ s'.toView = s.toView ∨ (pmmAllocPage s.rest).1 ≠ 0 ∧
        Aligned (pmmAllocPage s.rest).1 ∧ s'.cr3 = s.cr3 ∧
        Filled s.toView (pmmAllocPage s.rest).1 s'.mem) := by
  obtain ⟨N, s', hx, -, rfl, hr⟩ := spec_returns (spec_createFilled (known_false fun _ => ∅)
    (settled_false _ _ _) h.pmm h.self h.used (by simp)) h.noCache
  refine ⟨s', hx, hr.imp_right ?_⟩
  rintro ⟨hne, ⟨n, ht⟩, -, hcr3, hf⟩
  exact ⟨hne, (frame_of_takes h.pmm ht).2.1, hcr3, hf⟩

theorem Filled.selfMapped {N : ℕ} {mem' : Bytes} (hf : Filled c N mem') (hN : Aligned N) :
    SelfMapped mem' N := selfMapped_of_entry hf.self hN (by norm_num) (by norm_num)

/-- The directory is determined exactly if its frame had no present entry 1022, and the scratch slot
of the current one was empty. -/
theorem Filled.determined_iff {N : ℕ} {c' : View Pmm} (hf : Filled c N c'.mem) (hN : Aligned N)
    (hcr3 : c'.cr3 = c.cr3) :
    Determined c N c' ↔ ¬IsPresent (entry c.mem N 1022) ∧ entry c.mem c.cr3 1022 = 0 := by
  constructor
  · intro h
    have hslot := hf.current 1022 (by norm_num)
    rw [if_pos rfl, h.current 1022 (by norm_num)] at hslot
    exact ⟨hf.scratch ▸ h.scratch, hslot⟩
  · rintro ⟨hstale, hslot⟩
    refine ⟨hf.user, hf.kernel, hf.scratch ▸ hstale, hf.selfMapped hN, hcr3, fun i hi => ?_⟩
    rw [hf.current i hi]
    split_ifs with hi'
    · rw [hi', hslot]
    · rfl

/-- **`vmm_create_address_space`** gives a directory of which all entries are determined exactly if
no frame is left, or the frame it takes has no present word 1022 and the scratch slot of the current
directory is empty. -/
theorem create_right_iff (h : Running s) :
    CreateRight s ↔ (pmmAllocPage s.rest).1 = 0 ∨
      ¬IsPresent (entry s.mem (pmmAllocPage s.rest).1 1022) ∧ entry s.mem s.cr3 1022 = 0 := by
  obtain ⟨s', hx, hr⟩ := h.create
  have hiff : CreateRight s ↔ ((pmmAllocPage s.rest).1 = 0 ∧ s'.toView = s.toView ∨
      (pmmAllocPage s.rest).1 ≠ 0 ∧
        Determined s.toView (pmmAllocPage s.rest).1 s'.toView) := by
    constructor
    · rintro ⟨N, s'', hx', hright⟩
      rw [hx] at hx'
      cases hx'
      exact hright
    · exact fun hright => ⟨_, s', hx, hright⟩
  rw [hiff]
  obtain ⟨hzero, hsame⟩ | ⟨hne, hal, hcr3, hf⟩ := hr
  · exact iff_of_true (Or.inl ⟨hzero, hsame⟩) (Or.inl hzero)
  · rw [or_iff_right fun h => hne h.1, or_iff_right hne, and_iff_right hne]
    exact hf.determined_iff hal hcr3

end Create

/-! The sample machine, and one in which the next free frame has held other things. -/

theorem running_of_booted {tables : ℕ} {s : Mmu Pmm} (h : Booted tables s.toView)
    (hs : NoCache s) : Running s where
  noCache := hs
  pmm := h.pmm
  self := h.spaces.self _ h.spaces.current
  used := h.pdUsed

theorem sampleMachine_running : Running sampleMachine :=
  running_of_booted sampleView_booted sampleMachine_noCache

theorem samplePmm_alloc : (pmmAllocPage samplePmm).1 = 0x800000 := by decide

theorem create_right_sample : Running sampleMachine ∧ CreateRight sampleMachine := by
  refine ⟨sampleMachine_running, (create_right_iff sampleMachine_running).mpr (Or.inr ⟨?_, ?_⟩)⟩
  · have hword : entry sampleMem (pmmAllocPage samplePmm).1 1022 = 0 := by
      rw [samplePmm_alloc, entry, show 0x800000 + 4 * 1022 = 4 * (2048 * 1024 + 1022) by norm_num]
      exact (Bytes.get32_ofWords _ _).trans rfl
    show ¬IsPresent (entry sampleMem (pmmAllocPage samplePmm).1 1022)
    rw [hword]
    exact not_present_zero
  · exact sampleMem_entry (by norm_num)

def recycledMachine : Mmu Pmm :=
  { sampleMachine with mem := sampleMem.put32 (0x800000 + 4 * 1022) 1 }

theorem recycledMachine_running : Running recycledMachine where
  noCache := sampleMachine_noCache
  pmm := samplePmm_ok
  self := by
    have hsame : entry recycledMachine.mem 0x200000 1023 = entry sampleMem 0x200000 1023 :=
      (onlyIn_put32 (t := 0x800000) rfl (by norm_num) 1).entry rfl (by norm_num) (by norm_num)
    exact sampleMachine_running.self.congr hsame
  used := sampleMachine_running.used

/-- The new directory has a present entry 1022, which names frame 0. -/
theorem create_keeps_stale_entry : ∃ N s', exec vmmCreateAddressSpace recycledMachine = (.ok N, s') ∧
    N ≠ 0 ∧ entry s'.mem N 1022 = 1 := by
  obtain ⟨s', hx, hr⟩ := recycledMachine_running.create
  obtain ⟨hzero, -⟩ | ⟨hne, -, -, hf⟩ := hr
  · rw [show recycledMachine.rest = samplePmm from rfl, samplePmm_alloc] at hzero
    cases hzero
  · refine ⟨_, s', hx, hne, hf.scratch.trans ?_⟩
    rw [show recycledMachine.rest = samplePmm from rfl, samplePmm_alloc]
    exact entry_put32_self (by norm_num)

end DvivonOS.Windows
