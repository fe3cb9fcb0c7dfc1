import DvivonOS.Memory.SpaceRuns

/-!
# Destroying an address space

`vmm_destroy_address_space` on the states of the runs. `vmm_set_pde_at` is given the address of
`PD_SCRATCH_WINDOW`, which is in the range of slot 1023 and not of slot 1022, so that the reference
of the current directory to itself is replaced; what is read through the scratch windows afterwards
goes through slot 1022 of the victim, and the last write goes to a user address.
-/

namespace DvivonOS.Windows

open Paging

/-- Use `u` belongs to the address space `d`. -/
def Use.Of (d : ℕ) : Use → Prop
  | .dir d' => d' = d
  | .table d' _ => d' = d
  | .page d' _ _ => d' = d

/-- What destroying `pd` should do: the bits of its pages, its tables and its directory are cleared
and no others, the current directory is as before, and so is the memory it maps. -/
structure Destroys (dirs : List ℕ) (pd : ℕ) (s s' : Mmu Pmm) : Prop where
  bits : ∀ n, testBit n s'.rest.bitmap = true ↔ testBit n s.rest.bitmap = true ∧
    ¬∃ u f, u.Of pd ∧ Serves s.mem dirs u f ∧ f / pageSize = n
  current : ∀ i < 1024, entry s'.mem s.cr3 i = entry s.mem s.cr3 i
  mapped : ∀ p t, lookup s.mem s.cr3 p = some t →
    ∀ o < pageSize, s'.mem (t.frame + o) = s.mem (t.frame + o)

section Destroy

variable {K : Kernel} {dirs : List ℕ} {A : Stale} {c : View Pmm} {mem : Bytes} {d pd tables : ℕ}
  {s₀ s s' : Mmu Pmm}

/-- Memory and `cr3` are as given. -/
abbrev IsAt (mem : Bytes) (d : ℕ) (c : View Pmm) : Prop := c.mem = mem ∧ c.cr3 = d

theorem spec_load_any (v : ℕ) (h : IsAt mem d c) :
    Spec false A c (load32 v) A (fun _ c' => IsAt mem d c') (fun _ => True) :=
  spec_load32 (settled_false _ _ _) (by simp) (fun _ => trivial) fun _ _ => h

theorem spec_freePage (a : ℕ) (h : IsAt mem d c) {F : View Pmm → Prop} :
    Spec false A c (freePage a) A (fun _ c' => IsAt mem d c') F := spec_onRest _ h

theorem spec_destroyTable (i : ℕ) (h : IsAt mem d c) :
    Spec false A c (destroyTable i) A (fun _ c' => IsAt mem d c') (fun _ => True) := by
  unfold destroyTable
  refine (spec_load_any _ h).bind fun pde c₁ h₁ => ?_
  split
  · refine (spec_repeatTo (fun _ c' => IsAt mem d c') h₁ fun j _ c₂ h₂ => ?_).bind
      fun _ c₃ h₃ => ?_
    · refine (spec_load_any _ h₂).bind fun pte c₄ h₄ => ?_
      split
      · exact (spec_load_any _ h₄).bind fun _ _ h₅ => spec_freePage _ h₅
      · exact spec_pure h₄
    · exact (spec_load_any _ h₃).bind fun _ _ h₄ => spec_freePage _ h₄
  · exact spec_pure h₁

/-- The address of the last write, `PD_WINDOW[PD_SCRATCH_WINDOW >> 12]`, is in the user half. -/
theorem lastWrite : wordAt pdWindow (pdScratchWindow / 2 ^ 12) = 0x003FEFF8 := by decide

/-- The page of the last write is no directory, also with another entry in slot 1023. -/
theorem Spaces.lastWrite_page (h : Spaces K dirs c) {e : ℕ} {t : Translation}
    (ht : lookup (c.mem.put32 (c.cr3 + 4 * 1023) e) c.cr3 0x3FE = some t) :
    t.frame ≠ c.cr3 ∧ Aligned t.frame := by
  have hcr3 := (h.frame c.cr3 h.current).1
  have hpde : entry (c.mem.put32 (c.cr3 + 4 * 1023) e) c.cr3 0 = entry c.mem c.cr3 0 :=
    entry_put32_of_ne e (by norm_num)
  have hlook : lookup c.mem c.cr3 0x3FE = some t := by
    by_cases hp : IsPresent (entry c.mem c.cr3 0)
    · have htable := named_of_present hp
      have hne := h.table_ne (by norm_num) htable
      have honly : OnlyIn c.cr3 c.mem (c.mem.put32 (c.cr3 + 4 * 1023) e) :=
        onlyIn_put32 hcr3 (by norm_num) e
      have hpte := honly.entry (aligned_of_named htable) hne (show 0x3FE < 1024 by norm_num)
      rw [← ht]
      simp only [lookup, Nat.reduceDiv, Nat.reduceMod, hpde, hpte]
    · simp [lookup, hpde, hp] at ht
  refine ⟨fun he => h.page_not_isTable (h.user_page (by norm_num) hlook)
    (he ▸ .inl (.inl h.current)), ?_⟩
  simp only [lookup] at hlook
  split at hlook
  · cases hlook
    exact aligned_frameOf _
  · cases hlook

/-- **`vmm_destroy_address_space`**, if it returns, leaves the victim in slot 1023 of the current
directory. -/
theorem spec_vmmDestroyAddressSpace (h : Spaces K dirs c) (hpd : Aligned pd) (hlt : pd < 2 ^ 32) :
    Spec false A c (vmmDestroyAddressSpace pd) A
      (fun _ c' => entry c'.mem c.cr3 1023 = pd + 3) (fun _ => True) := by
  have hself := h.self c.cr3 h.current
  have hcr3 := (h.frame c.cr3 h.current).1
  have hframe : frameOf pd = pd := by
    unfold frameOf
    unfold Aligned at hpd
    omega
  have hslot : pdScratchWindow / 2 ^ 22 = 1023 := rfl
  have hentry : entry (c.mem.put32 (c.cr3 + 4 * 1023) (pd + 3)) c.cr3 1023 = pd + 3 :=
    entry_put32_self (by unfold Aligned at hpd; omega)
  unfold vmmDestroyAddressSpace vmmSetPdeAt vmmSetPteAt
  rw [hslot, wordAt_pdWindow (by norm_num), lastWrite, frameOf_or (by decide), hframe]
  refine (spec_store_window hself (by norm_num) (by norm_num) hself.1 (settled_false _ _ _) _
    (steps_false A A _ _)).bind fun _ c₁ hc₁ => ?_
  rw [hself.2] at hc₁
  have hat : IsAt (c.mem.put32 (c.cr3 + 4 * 1023) (pd + 3)) c.cr3 c₁ := by
    rw [hc₁]
    exact ⟨rfl, rfl⟩
  refine (spec_repeatTo (fun _ c' => IsAt _ c.cr3 c') hat fun i _ c' h' =>
    spec_destroyTable i h').bind ?_
  rintro _ c₂ ⟨hmem, hcr3₂⟩
  refine Spec.bind (R := fun _ c' => entry c'.mem c.cr3 1023 = pd + 3) ?_
    fun _ _ h' => spec_onRest _ h'
  refine (spec_store32 (Q := fun _ c' => entry c'.mem c.cr3 1023 = pd + 3) (settled_false _ _ _)
    (by simp) (fun _ => trivial) _ fun t ht => ⟨steps_false A A _ _, ?_⟩).bind fun _ c₃ h₃ => ?_
  · rw [hmem, hcr3₂] at ht
    obtain ⟨hne, hal⟩ := h.lastWrite_page ht
    have hput : OnlyIn t.frame c₂.mem (c₂.mem.put32 (t.frame + 4 * 1022) (frameOf 0 ||| 0)) :=
      onlyIn_put32 hal (by norm_num) _
    rw [hput.entry hcr3 hne.symm (by norm_num), hmem, hentry]
  · rw [if_neg (by decide)]
    exact spec_pure h₃

/-- **Never.** In no state of any run does `vmm_destroy_address_space` of a directory that is not
current do what it should: it stops at a page fault, or slot 1023 of the current directory has
changed. -/
theorem destroy_address_space_fails (hboot : Booted tables s₀.toView) (hcache : NoCache s₀)
    (hrun : VmmRun s₀ dirs s) (hpd : pd ∈ dirs) (hne : pd ≠ s.cr3) :
    ¬∃ s', exec (vmmDestroyAddressSpace pd) s = (.ok (), s') ∧ Destroys dirs pd s s' := by
  rintro ⟨s', hx, hd⟩
  obtain ⟨hs, hsp, -⟩ := hrun.spaces hboot hcache
  obtain ⟨hal, hlt⟩ := hsp.frame pd hpd
  have hspec := spec_vmmDestroyAddressSpace (A := fun _ => ∅) hsp hal hlt
  have hnew := ((spec_noCache hspec hs).1 () s' hx).2
  have hold := (hsp.self s.cr3 hsp.current).2
  rw [← hd.current 1023 (by norm_num), hnew, frameOf_add hal (by norm_num)] at hold
  exact hne hold

end Destroy

/-- A new address space beside that of the boot code. -/
theorem destroy_address_space_fails_new : ∃ N s, VmmRun sampleMachine [N, 0x200000] s ∧
    N ≠ s.cr3 ∧ ¬∃ s', exec (vmmDestroyAddressSpace N) s = (.ok (), s') ∧
      Destroys [N, 0x200000] N s s' := by
  obtain ⟨N, s, hN, hcr3, hrun⟩ := sampleMachine_create
  have hne : N ≠ s.cr3 := hcr3 ▸ hN
  exact ⟨N, s, hrun, hne, destroy_address_space_fails sampleView_booted sampleMachine_noCache hrun
    List.mem_cons_self hne⟩

/-- Destroying the new address space does not return with slot 1023 of the current directory as it
was: it names the victim then. -/
theorem destroy_replaces_self_entry : ∃ N s, VmmRun sampleMachine [N, 0x200000] s ∧ N ≠ s.cr3 ∧
    ¬∃ s', exec (vmmDestroyAddressSpace N) s = (.ok (), s') ∧
      entry s'.mem s.cr3 1023 = entry s.mem s.cr3 1023 := by
  obtain ⟨N, s, hN, hcr3, hrun⟩ := sampleMachine_create
  obtain ⟨hs, hsp, -⟩ := hrun.spaces sampleView_booted sampleMachine_noCache
  obtain ⟨hal, hlt⟩ := hsp.frame N List.mem_cons_self
  refine ⟨N, s, hrun, hcr3 ▸ hN, ?_⟩
  rintro ⟨s', hx, he⟩
  have hspec := spec_vmmDestroyAddressSpace (A := fun _ => ∅) hsp hal hlt
  have hself := (hsp.self s.cr3 hsp.current).2
  rw [← he, ((spec_noCache hspec hs).1 () s' hx).2, frameOf_add hal (by norm_num)] at hself
  exact hN (hself.trans hcr3)

end DvivonOS.Windows
