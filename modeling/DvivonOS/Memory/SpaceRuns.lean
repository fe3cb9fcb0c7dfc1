import DvivonOS.Memory.SpaceCalls

/-!
# Runs of the address space functions

Any sequence of `vmm_create_address_space`, `vmm_switch_address_space`, `vmm_alloc_user_page_at` and
`vmm_free_user_page`, from the page directory of the boot code on, on a processor that translates
every access by the tables.
-/

namespace DvivonOS.Windows

open List Paging

/-! ## Runs -/

inductive VmmCall
  | create
  | switchTo (pdPhys : ℕ)
  | alloc (vaddr : ℕ)
  | free (vaddr : ℕ)

/-- The result of `vmm_create_address_space` is kept, the other results are not. -/
def VmmCall.run : VmmCall → VmmM ℕ
  | .create => vmmCreateAddressSpace
  | .switchTo pdPhys => do
    vmmSwitchAddressSpace pdPhys
    return 0
  | .alloc vaddr => do
    let _ ← vmmAllocUserPageAt vaddr
    return 0
  | .free vaddr => do
    vmmFreeUserPage vaddr
    return 0

/-- Switches are to directories that exist, addresses are in the user half. -/
def VmmCall.Allowed (dirs : List ℕ) : VmmCall → Prop
  | .create => True
  | .switchTo pdPhys => pdPhys ∈ dirs
  | .alloc vaddr => vaddr < kernelHigherHalf
  | .free vaddr => vaddr < kernelHigherHalf

/-- The directories after a call that returned `r`. -/
def addDir (dirs : List ℕ) (r : ℕ) : List ℕ := if r = 0 then dirs else r :: dirs

/-- The states between the calls, with the directories that exist. -/
inductive VmmRun (s₀ : Mmu Pmm) : List ℕ → Mmu Pmm → Prop
  | start : VmmRun s₀ [s₀.cr3] s₀
  | call {dirs : List ℕ} {s s' : Mmu Pmm} {call : VmmCall} {r : ℕ} :
      VmmRun s₀ dirs s → call.Allowed dirs → exec call.run s = (.ok r, s') →
      VmmRun s₀ (addDir dirs r) s'

/-- What `boot.s` and `pmm_init` leave: a directory with an empty user half, the kernel's 254 page
tables one behind the other at `tables`, and the directory in its last slot. The first page of the
kernel half is not mapped. -/
structure Booted (tables : ℕ) (c : View Pmm) : Prop where
  pmm : c.rest.Ok
  pd : Aligned c.cr3 ∧ c.cr3 ≠ 0 ∧ c.cr3 < 2 ^ 32
  aligned : Aligned tables
  apart : c.cr3 < tables ∨ tables + 254 * pageSize ≤ c.cr3
  user : ∀ i < 768, entry c.mem c.cr3 i = 0
  kernel : ∀ i, KernelSlot i → entry c.mem c.cr3 i = tables + (i - 768) * pageSize + 0x003
  self : entry c.mem c.cr3 1023 = c.cr3 + 0x003
  gap : entry c.mem tables 0 = 0
  pdUsed : testBit (c.cr3 / pageSize) c.rest.bitmap = true
  tablesUsed : ∀ i, KernelSlot i →
    testBit ((tables + (i - 768) * pageSize) / pageSize) c.rest.bitmap = true

/-- The kernel of the boot code. -/
def bootKernel (tables pd : ℕ) : Kernel := ⟨pd, fun i => tables + (i - 768) * pageSize⟩

section Boot

variable {tables : ℕ} {c : View Pmm} {u : Use} {f : ℕ}

theorem aligned_kernelTable (h : Aligned tables) (i : ℕ) :
    Aligned (tables + (i - 768) * pageSize) := by
  unfold Aligned at *
  unfold pageSize
  omega

theorem Booted.serves (h : Booted tables c) (hu : Serves c.mem [c.cr3] u f) :
    u = .dir c.cr3 ∧ f = c.cr3 := by
  have hnone {i : ℕ} (hi : i < 768) : named c.mem c.cr3 i = none :=
    named_of_not_present (h.user i hi ▸ not_present_zero)
  cases u with
  | dir d =>
    obtain ⟨hd, rfl⟩ := hu
    rw [mem_singleton.mp hd]
    exact ⟨rfl, rfl⟩
  | table d i =>
    obtain ⟨hd, hi, ht⟩ := hu
    rw [mem_singleton.mp hd, hnone hi] at ht
    cases ht
  | page d i j =>
    obtain ⟨hd, hi, -, t, ht, -⟩ := hu
    rw [mem_singleton.mp hd, hnone hi] at ht
    cases ht

theorem Booted.spaces (h : Booted tables c) :
    Spaces (bootKernel tables c.cr3) [c.cr3] c where
  unique u u' f hu hu' := by rw [(h.serves hu).1, (h.serves hu').1]
  used u f hu := by
    rw [(h.serves hu).2]
    exact h.pdUsed
  pmm := h.pmm
  current := mem_singleton.mpr rfl
  frame d hd := by
    rw [mem_singleton.mp hd]
    exact ⟨h.pd.1, h.pd.2.2⟩
  self d hd := by
    rw [mem_singleton.mp hd]
    exact selfMapped_of_entry h.self h.pd.1 (by norm_num) (by norm_num)
  selfGlobal d hd := by
    have hpd := h.pd.1
    unfold Aligned at hpd
    rw [mem_singleton.mp hd, h.self]
    simp only [isGlobal, bootKernel, ne_eq, not_true_eq_false, decide_false, decide_eq_false_iff_not]
    omega
  boot := mem_singleton.mpr rfl
  kernel d hd i hi := by
    rw [mem_singleton.mp hd]
    exact named_of_entry (h.kernel i hi) (aligned_kernelTable h.aligned i) (by norm_num)
      (by norm_num)
  plain d hd i hi := by
    rw [mem_singleton.mp hd]
    by_cases hu : i < 768
    · rw [h.user i hu]
      rfl
    · have ha := aligned_kernelTable h.aligned i
      rw [h.kernel i ⟨by omega, hi⟩]
      unfold Aligned at ha
      simp only [isGlobal, decide_eq_false_iff_not]
      omega
  reserved i hi := h.tablesUsed i hi
  apart i hi u f hu := by
    have hapart := h.apart
    obtain ⟨hlo, hhi⟩ := hi
    rw [(h.serves hu).2]
    unfold bootKernel
    unfold pageSize at *
    dsimp only
    omega
  nonzero u f hu := by
    rw [(h.serves hu).2]
    exact h.pd.2.1

end Boot

/-! ## Isolation -/

section Isolation

variable {K : Kernel} {dirs : List ℕ} {tables : ℕ} {c : View Pmm} {s₀ s : Mmu Pmm}

def SpacesGap (K : Kernel) (dirs : List ℕ) (c : View Pmm) : Prop :=
  Spaces K dirs c ∧ named c.mem (K.table 768) 0 = none

theorem known_false (A : Stale) : Known false A := ⟨by simp, by simp⟩

theorem settled_false (A : Stale) (c : View Pmm) (p : ℕ) : Settled false A c p := by
  intro h
  cases h

theorem steps_false (A A' : Stale) (c c' : View Pmm) : Steps false A c A' c' := by
  intro h
  cases h

theorem spec_anyCache {α : Type} {A A' : Stale} (B : Stale) {x : VmmM α}
    {R : α → View Pmm → Prop} {F : View Pmm → Prop} (h : Spec false A c x A' R F) :
    Spec false B c x B R F := h

theorem SpacesGap.call (h : SpacesGap K dirs c) {call : VmmCall} (hc : call.Allowed dirs) (A : Stale) :
    Spec false A c call.run A (fun r c' => SpacesGap K (addDir dirs r) c')
      (fun c' => SpacesGap K dirs c') := by
  obtain ⟨hs, hgap⟩ := h
  have hA := known_false A
  have hpd := settled_false A c (windowPage 1023)
  have hkeep {c' : View Pmm} (hs' : Spaces K dirs c') (hk : SameKernel K c.mem c'.mem) :
      SpacesGap K dirs c' := ⟨hs', hk.gap.trans hgap⟩
  cases call with
  | create =>
    refine (spec_vmmCreateAddressSpace hA hpd hs).post ?_
    rintro N c' (⟨-, rfl, rfl⟩ | ⟨hN, -, hs', -, hk, -⟩)
    · exact ⟨hs, hgap⟩
    · refine ?_
      rw [addDir, if_neg hN]
      exact ⟨hs', hk.kernel.gap.trans hgap⟩
  | switchTo d =>
    refine (spec_vmmSwitchAddressSpace A hs hc (by simp)).bind ?_
    rintro _ c' ⟨rfl, hs'⟩
    exact spec_pure ⟨hs', hgap⟩
  | alloc v =>
    refine (spec_vmmAllocUserPageAt hA hpd hs hc (by simp)
      (.inr fun f hf => by cases hgap.symm.trans hf) (by simp)
      fun c' hs' hk => hkeep hs' hk).bind ?_
    rintro _ c' ⟨hs', -, hk, -⟩
    exact spec_pure (hkeep hs' hk.kernel)
  | free v =>
    refine (spec_vmmFreeUserPage hA hpd hs hc).bind ?_
    rintro _ c' ⟨hs', -, hk⟩
    exact spec_pure (hkeep hs' hk.kernel)

theorem spec_noCache {α : Type} {A : Stale} {x : VmmM α} {R : α → View Pmm → Prop}
    {F : View Pmm → Prop} (h : Spec false A s.toView x A R F) (hs : NoCache s) :
    (∀ r s', exec x s = (.ok r, s') → NoCache s' ∧ R r s'.toView) ∧
      ∀ e s', exec x s = (.error e, s') → F s'.toView := by
  obtain ⟨hok, herr⟩ := h s rfl hs
  refine ⟨fun r s' hx => ?_, fun e s' hx => (herr e s' hx).2⟩
  obtain ⟨hs', -, hR⟩ := hok r s' hx
  exact ⟨hs', hR⟩

theorem spec_returns {α : Type} {A : Stale} {x : VmmM α} {R : α → View Pmm → Prop}
    (h : Spec false A s.toView x A R fun _ => False) (hs : NoCache s) :
    ∃ r s', exec x s = (.ok r, s') ∧ NoCache s' ∧ R r s'.toView := h.returns hs

theorem VmmRun.spaces (hboot : Booted tables s₀.toView) (hcache : NoCache s₀)
    (h : VmmRun s₀ dirs s) :
    NoCache s ∧ SpacesGap (bootKernel tables s₀.cr3) dirs s.toView := by
  induction h with
  | start =>
    refine ⟨hcache, hboot.spaces, ?_⟩
    have hgap : named s₀.mem (tables + (768 - 768) * pageSize) 0 = none := by
      rw [Nat.sub_self, Nat.zero_mul, Nat.add_zero]
      exact named_of_not_present (by rw [hboot.gap]; exact not_present_zero)
    exact hgap
  | call _ hc hx ih =>
    obtain ⟨hs, hi⟩ := ih
    exact (spec_noCache (hi.call hc fun _ => ∅) hs).1 _ _ hx

end Isolation

/-! A machine behind the boot code: the directory at 2 MiB with the page tables behind it, the first
8 MiB used and the next 8 MiB free. -/

def sampleEntry (i : ℕ) : ℕ :=
  if i < 768 then 0
  else if i < 1022 then 0x201000 + (i - 768) * pageSize + 0x003
  else if i = 1023 then 0x200000 + 0x003
  else 0

/-- The first page table maps the second and third MiB. The frame at `0x802000` is free and holds what
it held last: an entry for `0x200000`. -/
def sampleMem : Bytes :=
  Bytes.ofWords fun k =>
    if k / 1024 = 512 then sampleEntry (k % 1024)
    else if k / 1024 = 513 ∧ 256 ≤ k % 1024 ∧ k % 1024 < 768 then k % 1024 * pageSize + 0x103
    else if k = 0x200800 then 0x200007
    else 0

def samplePmm : Pmm where
  bitmap w := if w < 64 then bitmapAllBitsSet else 0
  usableEndWords := 128
  lastAlloc := 64

def sampleView : View Pmm := ⟨sampleMem, 0x200000, samplePmm⟩

theorem sampleMem_entry {i : ℕ} (hi : i < 1024) : entry sampleMem 0x200000 i = sampleEntry i := by
  have hlt : sampleEntry i < 2 ^ 32 := by
    unfold sampleEntry pageSize
    split_ifs <;> omega
  have ha : 0x200000 + 4 * i = 4 * (512 * 1024 + i) := by omega
  have hdiv : (512 * 1024 + i) / 1024 = 512 := by omega
  have hmod : (512 * 1024 + i) % 1024 = i := by omega
  simp only [entry, sampleMem, ha, Bytes.get32_ofWords, hdiv, hmod, if_true]
  exact Nat.mod_eq_of_lt hlt

theorem samplePmm_used {n : ℕ} (hn : n < 2048) : testBit n samplePmm.bitmap = true := by
  refine testBit_all (if_pos ?_)
  unfold bitmapEntryBits
  omega

theorem samplePmm_ok : samplePmm.Ok :=
  ⟨by decide, by decide, by decide, samplePmm_used (by norm_num)⟩

theorem sampleDirectory_frame :
    Aligned 0x200000 ∧ 0x200000 ≠ 0 ∧ 0x200000 < 2 ^ 32 ∧ 0x200000 / pageSize < 2048 :=
  ⟨rfl, by decide, by decide, by decide⟩

/-- Whatever the tables of the kernel map behind their first page, and whichever frames behind the
first 8 MiB are free. -/
theorem booted_of_entries {mem : Bytes} {p : Pmm} (hok : p.Ok)
    (hused : ∀ n < 2048, testBit n p.bitmap = true)
    (hdir : ∀ i < 1024, entry mem 0x200000 i = sampleEntry i) (hgap : entry mem 0x201000 0 = 0) :
    Booted 0x201000 ⟨mem, 0x200000, p⟩ where
  pmm := hok
  pd := ⟨sampleDirectory_frame.1, sampleDirectory_frame.2.1, sampleDirectory_frame.2.2.1⟩
  aligned := rfl
  apart := .inl (show 0x200000 < 0x201000 by decide)
  user i hi := by
    refine (hdir i (by omega)).trans ?_
    exact if_pos hi
  kernel i hi := by
    obtain ⟨hlo, hhi⟩ := hi
    refine (hdir i (by omega)).trans ?_
    unfold sampleEntry
    rw [if_neg (by omega), if_pos hhi]
  self := hdir 1023 (by norm_num)
  gap := hgap
  pdUsed := hused _ sampleDirectory_frame.2.2.2
  tablesUsed i hi := by
    obtain ⟨hlo, hhi⟩ := hi
    refine hused _ ?_
    unfold pageSize
    omega

theorem sampleMem_gap : entry sampleMem 0x201000 0 = 0 := by
  show Bytes.get32 (Bytes.ofWords _) (4 * (513 * 1024)) = 0
  rw [Bytes.get32_ofWords]
  rfl

theorem sampleView_booted : Booted 0x201000 sampleView :=
  booted_of_entries samplePmm_ok (fun _ hn => samplePmm_used hn) (fun _ hi => sampleMem_entry hi)
    sampleMem_gap

def sampleMachine : Mmu Pmm := ⟨sampleView, fun _ => none, fun _ _ _ => none, 0, []⟩

theorem sampleMachine_noCache : NoCache sampleMachine := ⟨fun _ => rfl, fun _ _ _ => rfl⟩

theorem sampleMachine_create : ∃ N s, N ≠ 0x200000 ∧ s.cr3 = 0x200000 ∧
    VmmRun sampleMachine [N, 0x200000] s := by
  have hspec := spec_vmmCreateAddressSpace (F := fun _ => False) (known_false fun _ => ∅)
    (settled_false _ _ _) sampleView_booted.spaces
  obtain ⟨N, s, hx, -, hr⟩ := spec_returns (s := sampleMachine) hspec sampleMachine_noCache
  obtain ⟨hfull, -⟩ | ⟨hN, hnot, -, hcr3, -⟩ := hr
  · exact absurd hfull (by decide)
  · have hallowed : VmmCall.create.Allowed [sampleMachine.cr3] := trivial
    have hrun := VmmRun.start.call hallowed hx
    rw [addDir, if_neg hN] at hrun
    exact ⟨N, s, fun he => hnot (mem_singleton.mpr he), hcr3, hrun⟩

end DvivonOS.Windows
