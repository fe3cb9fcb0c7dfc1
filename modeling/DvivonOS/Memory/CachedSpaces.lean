import DvivonOS.Memory.Tlb

/-!
# Address spaces and the translation cache

Any sequence of `vmm_create_address_space`, `vmm_switch_address_space`, `vmm_alloc_user_page_at` and
`vmm_free_user_page` on a processor with a translation cache. The address spaces are kept apart as
long as `PD_WINDOW` shows the current directory where it is used. Behind a switch away from a created
directory it may still show that one: `vmm_map_user_page` then enters a page table there, clears
another one through `PTS_WINDOW`, and what was in the frame of the new table counts as its entries
(`stale_window_enters_table`).
-/

namespace DvivonOS.Windows

open Function List Paging

/-! ## Runs -/

/-- The created directories that have been loaded, after a call. -/
def VmmCall.loaded (boot : ℕ) (loaded : List ℕ) : VmmCall → List ℕ
  | .switchTo pdPhys => addLoaded boot loaded pdPhys
  | _ => loaded

/-- The condition under which a call goes right: where it uses `PD_WINDOW`, no created directory but
the current one has ever been loaded; a page is asked for at its address, and if it gets a frame and
needs a page table, there is a frame for that too. -/
def VmmCall.Covered (loaded : List ℕ) (c : View Pmm) : VmmCall → Prop
  | .switchTo _ => True
  | .create => ∀ d ∈ loaded, d = c.cr3
  | .free _ => ∀ d ∈ loaded, d = c.cr3
  | .alloc vaddr => (∀ d ∈ loaded, d = c.cr3) ∧ vaddr % pageSize = 0 ∧
      ((pmmAllocPage c.rest).1 ≠ 0 → IsPresent (entry c.mem c.cr3 (vaddr / 2 ^ 22)) ∨
        (pmmAllocPage (pmmAllocPage c.rest).2).1 ≠ 0)

/-- The states between calls that all meet `P`, with the directories that exist and the created ones
that have been loaded. -/
inductive CachedRun (P : List ℕ → View Pmm → VmmCall → Prop) (s₀ : Mmu Pmm) :
    List ℕ → List ℕ → Mmu Pmm → Prop
  | start : CachedRun P s₀ [s₀.cr3] [] s₀
  | call {dirs loaded : List ℕ} {s s' : Mmu Pmm} {call : VmmCall} {r : ℕ} :
      CachedRun P s₀ dirs loaded s → call.Allowed dirs → P loaded s.toView call →
      exec call.run s = (.ok r, s') →
      CachedRun P s₀ (addDir dirs r) (call.loaded s₀.cr3 loaded) s'

section Runs

variable {K : Kernel} {dirs loaded : List ℕ} {c : View Pmm} {tables : ℕ} {sharp : Prop}
  {s₀ s : Mmu Pmm}

/-- **One call.** It keeps the address spaces apart, also where it stops at a page fault, and leaves
the kernel's page tables and the frames without a use alone. -/
theorem Windowed.vmm (h : Windowed K dirs loaded c) {call : VmmCall} (ha : call.Allowed dirs)
    (hc : call.Covered loaded c) :
    Spec true (windowStale sharp loaded) c call.run (windowStale sharp (call.loaded K.boot loaded))
      (fun r c' => Windowed K (addDir dirs r) (call.loaded K.boot loaded) c' ∧
        Leaves (fun g => ¬GapFrame K c.mem g) K dirs c (addDir dirs r) c' ∧
        ∀ g, Spare K dirs c g → Spare K (addDir dirs r) c' g) fun c' => Spaces K dirs c' := by
  have hA := known_windowStale sharp loaded
  have hpd (hone : ∀ d ∈ loaded, d = c.cr3) :
      Settled true (windowStale sharp loaded) c (windowPage 1023) :=
    h.spaces.settled_pdWindow h.boot hone
  cases call with
  | create =>
    refine (spec_vmmCreateAddressSpace hA (hpd hc) h.spaces).post ?_
    rintro N c' (⟨-, rfl, rfl⟩ | ⟨hN, -, hs', hcr3, hl, -⟩)
    · exact ⟨h, Leaves.refl _ _ _ _, fun _ hg => hg⟩
    · rw [addDir, if_neg hN]
      exact ⟨⟨hs', h.boot, hcr3 ▸ h.current⟩, hl.of_spare fun _ _ _ => trivial,
        fun g hg => hl.spare g trivial hg⟩
  | switchTo d =>
    refine (h.switchTo (.inr ha)).bind ?_
    rintro _ c' ⟨hmem, hrest, h'⟩
    have hspare (g : ℕ) (hg : Spare K dirs c g) : Spare K dirs c' g :=
      ⟨hg.aligned, hg.lt, hrest ▸ hg.used, hmem ▸ hg.unserved, hg.apart, hg.nonzero⟩
    exact spec_pure ⟨h', ⟨fun _ _ _ _ => by rw [hmem], fun g _ hg => hspare g hg,
      fun _ _ _ _ _ => by rw [hmem]⟩, hspare⟩
  | alloc v =>
    obtain ⟨hone, halign, hroom⟩ := hc
    have hv : v < 0xC0000000 := ha
    unfold pageSize at halign
    refine (spec_vmmAllocUserPageAt hA (hpd hone) h.spaces hv (fun _ => halign) (.inl (by omega))
      (fun _ => hroom) fun c' hs' _ => hs').bind ?_
    rintro _ c' ⟨hs', hcr3, hl, hspare⟩
    exact spec_pure ⟨⟨hs', h.boot, hcr3 ▸ h.current⟩, hl, hspare⟩
  | free v =>
    refine (spec_vmmFreeUserPage hA (hpd hc) h.spaces ha).bind ?_
    rintro _ c' ⟨hs', hcr3, hl⟩
    exact spec_pure ⟨⟨hs', h.boot, hcr3 ▸ h.current⟩, hl.of_spare fun _ _ _ => trivial,
      fun g hg => hl.spare g trivial hg⟩

theorem CachedRun.windowed (hboot : Booted tables s₀.toView) (hcache : BootCache s₀)
    (h : CachedRun VmmCall.Covered s₀ dirs loaded s) :
    Sync true (windowStale False loaded) s ∧
      Windowed (bootKernel tables s₀.cr3) dirs loaded s.toView := by
  induction h with
  | start =>
    exact ⟨hcache.sync False.elim, hboot.spaces, not_mem_nil, fun hne => absurd rfl hne⟩
  | call _ ha hc hx ih =>
    obtain ⟨hs, hw⟩ := ih
    obtain ⟨hs', -, hw', -⟩ := (hw.vmm ha hc _ rfl hs).1 _ _ hx
    exact ⟨hs', hw'⟩

/-- **Isolation.** In every state of every run of calls that meet the condition, whatever the cache
does, no frame is used twice, as a directory, a user page table or a user page, in one or in several
address spaces, and every frame with a use is marked in the bitmap. The same holds where a call stops
at a page fault. -/
theorem address_spaces_isolated (hboot : Booted tables s₀.toView) (hcache : BootCache s₀)
    (h : CachedRun VmmCall.Covered s₀ dirs loaded s) :
    Isolated dirs s.toView ∧ ∀ call : VmmCall, call.Allowed dirs → call.Covered loaded s.toView →
      ∀ e s', exec call.run s = (.error e, s') → Isolated dirs s'.toView := by
  obtain ⟨hs, hw⟩ := h.windowed hboot hcache
  refine ⟨hw.spaces.toIsolated, fun call ha hc e s' hx => ?_⟩
  have hspec : Spec true (windowStale False loaded) _ _ _ _ _ := hw.vmm ha hc
  exact ((hspec s rfl hs).2 e s' hx).2.toIsolated

end Runs

/-- Two address spaces on a processor that caches every translation at once. -/
theorem address_spaces_isolated_two : ∃ N s, N ≠ 0x200000 ∧
    CachedRun VmmCall.Covered (cachedMachine fun _ _ _ => some true) [N, 0x200000] [] s ∧
      Isolated [N, 0x200000] s.toView := by
  obtain ⟨s, hx, -⟩ := cachedMachine_create fun _ _ _ => some true
  have hallowed : VmmCall.create.Allowed [sampleView.cr3] := trivial
  have hcov : VmmCall.create.Covered [] (cachedMachine fun _ _ _ => some true).toView :=
    fun d hd => absurd hd not_mem_nil
  have hrun := CachedRun.start.call hallowed hcov hx
  rw [addDir, if_neg (by norm_num)] at hrun
  exact ⟨_, s, by norm_num, hrun,
    (address_spaces_isolated sampleView_booted (bootCache_cachedMachine _) hrun).1⟩

/-! ## A table in the wrong directory -/

/-- While the boot directory is loaded, this cache does nothing. -/
theorem createdHw_tick {s : Mmu Pmm} (hhw : s.hw = createdHw) (hcr3 : s.cr3 = 0x200000) :
    s.tick.tlb = s.tlb := by
  funext p
  have hnone : s.hw s.clock s.cr3 p = none := by
    rw [hhw, hcr3]
    exact if_neg fun h => h.1 rfl
  simp only [Mmu.tick, hnone]

theorem createdHw_reach_none {s : Mmu Pmm} {p : ℕ} (hhw : s.hw = createdHw)
    (hcr3 : s.cr3 = 0x200000) (htlb : s.tlb p = none) (hl : lookup s.mem s.cr3 p = none) :
    s.tick.reach p = none := by
  rw [Mmu.reach, createdHw_tick hhw hcr3, htlb]
  exact hl

/-- The machine behind the switch back from the created directory, which `PD_WINDOW` still shows. -/
structure ShowsOld (s : Mmu Pmm) : Prop where
  hw : s.hw = createdHw
  cr3 : s.cr3 = 0x200000
  tlb : s.tlb (windowPage 1023) = some ⟨0x800000, true⟩

theorem ShowsOld.reach {s : Mmu Pmm} (h : ShowsOld s) :
    s.tick.reach (wordAt pdWindow 0 / 4096) = some ⟨0x800000, true⟩ := by
  have hpage : wordAt pdWindow 0 / 4096 = windowPage 1023 := rfl
  rw [Mmu.reach, createdHw_tick h.hw h.cr3, hpage, h.tlb]

theorem ShowsOld.note {s : Mmu Pmm} (h : ShowsOld s) (t : Translation) (mem : Bytes) (p : Pmm) :
    ShowsOld { s.tick.note (wordAt pdWindow 0 / 4096) t with mem := mem, rest := p } :=
  ⟨h.hw, h.cr3, (congrFun (createdHw_tick h.hw h.cr3) _).trans h.tlb⟩

/-- The page table is entered in the created directory, and the window that should show it is not
mapped. -/
theorem ShowsOld.exec_mapUserPage {s : Mmu Pmm} (h : ShowsOld s) (phys : ℕ)
    (halloc : (pmmAllocPage s.rest).1 = 0x802000) (hempty : entry s.mem 0x800000 0 = 0)
    (hself : SelfMapped s.mem 0x200000) (hslot : entry s.mem 0x200000 0 = 0) :
    ∃ s', exec (vmmMapUserPage 0 phys) s = (.error .pageFault, s') ∧
      s'.mem = s.mem.put32 (0x800000 + 4 * 0) (0x802000 + 7) := by
  have honly : OnlyIn 0x800000 s.mem (s.mem.put32 (0x800000 + 4 * 0) (0x802000 + 7)) :=
    onlyIn_put32 (show 0x800000 % 4096 = 0 by norm_num) (by norm_num) _
  have hsame {i : ℕ} (hi : i < 1024) := honly.entry (t := 0x200000) rfl (by norm_num) hi
  have h₁ : ShowsOld { s.tick.note (wordAt pdWindow 0 / 4096) ⟨0x800000, true⟩ with
      rest := (pmmAllocPage s.rest).2 } := h.note _ s.mem _
  have hx₁ : exec allocPage (s.tick.note (wordAt pdWindow 0 / 4096) ⟨0x800000, true⟩) =
      (.ok (pmmAllocPage s.rest).1, { s.tick.note (wordAt pdWindow 0 / 4096) ⟨0x800000, true⟩ with
        rest := (pmmAllocPage s.rest).2 }) := rfl
  obtain ⟨s₂, hx₂, h₂, hmem⟩ : ∃ s₂, exec (store32 (wordAt pdWindow 0) (frameOf 0x802000 |||
      (pagePresent ||| pageRw ||| pageUser))) { s.tick.note (wordAt pdWindow 0 / 4096)
        ⟨0x800000, true⟩ with rest := (pmmAllocPage s.rest).2 } = (.ok (), s₂) ∧ ShowsOld s₂ ∧
      s₂.mem = s.mem.put32 (0x800000 + 4 * 0) (0x802000 + 7) :=
    ⟨_, exec_store32 _ h₁.reach, h₁.note _ _ _, rfl⟩
  have hx₃ : exec (invlpg ptsWindow) s₂ = (.ok (), { s₂.tick with
      tlb := update s₂.tick.tlb (ptsWindow / 4096) none }) := rfl
  -- the window on the table in slot 0 of the boot directory, which has none
  have hnone : Mmu.reach (Mmu.tick { s₂.tick with
      tlb := update s₂.tick.tlb (ptsWindow / 4096) none }) (add32 ptsWindow 0 / 4096) =
      none := by
    have hlook : lookup s₂.mem s₂.cr3 (windowPage 0) = none := by
      refine lookup_windowPage_none (c := s₂.toView) ?_ (by norm_num) ?_
      · rw [h₂.cr3, hmem]
        exact hself.congr (hsame (by norm_num))
      · rw [h₂.cr3, hmem, hsame (by norm_num), hslot]
        exact not_present_zero
    have htlb : update s₂.tick.tlb (ptsWindow / 4096) none (ptsWindow / 4096) = none :=
      update_self _ _ _
    exact createdHw_reach_none h₂.hw h₂.cr3 htlb hlook
  unfold vmmMapUserPage vmmSetPdeAt
  simp only [Nat.zero_div, Nat.zero_mul, Nat.add_zero]
  have hpde : s.mem.get32 (Translation.frame ⟨0x800000, true⟩ + wordAt pdWindow 0 % 4096) = 0 :=
    hempty
  rw [exec_bind_ok (exec_load32 h.reach), hpde, if_pos not_present_zero, exec_bind_ok hx₁, halloc,
    if_neg (by norm_num), exec_bind_ok hx₂, exec_bind_ok hx₃]
  refine ⟨_, exec_bind_error (exec_repeatTo_error (exec_bind_error (exec_translate_none hnone))
    4095), ?_⟩
  exact hmem

/-- A directory is created and loaded, and the boot directory is loaded again. -/
theorem cachedMachine_switched : ∃ s,
    CachedRun (fun _ _ _ => True) (cachedMachine createdHw) [0x800000, 0x200000] [0x800000] s ∧
      ShowsOld s ∧ s.rest = (pmmAllocPage samplePmm).2 ∧ Filled sampleView 0x800000 s.mem := by
  obtain ⟨s, hx, hhw, hcr3, hrest, hf⟩ := cachedMachine_create createdHw
  have hcreate : VmmCall.create.Allowed [(cachedMachine createdHw).cr3] := trivial
  have hto : (VmmCall.switchTo 0x800000).Allowed [0x800000, 0x200000] := mem_cons_self
  have hback : (VmmCall.switchTo 0x200000).Allowed [0x800000, 0x200000] :=
    mem_cons_of_mem _ mem_cons_self
  have hloaded : addLoaded 0x200000 [] 0x800000 = [0x800000] := if_neg (by norm_num)
  have hrun := (CachedRun.start (P := fun _ _ _ => True)).call hcreate trivial hx
  rw [addDir, if_neg (by norm_num)] at hrun
  have hrun' := (hrun.call hto trivial (exec_switchTo (by norm_num))).call hback trivial
    (exec_switchTo (by norm_num))
  refine ⟨switchedBack s, ?_, ⟨hhw, rfl, ?_⟩, hrest, hf⟩
  · rw [← hloaded]
    exact hrun'
  · rw [← createdHw_tick]
    exacts [switchedBack_tlb hhw hf, hhw, rfl]

/-- A page is asked for behind the switches. Its page table is entered in the created directory and is
not cleared: what the frame held before makes the boot directory a user page. -/
theorem stale_window_enters_table : ∃ s s' e,
    Booted 0x201000 (cachedMachine createdHw).toView ∧ BootCache (cachedMachine createdHw) ∧
      CachedRun (fun _ _ _ => True) (cachedMachine createdHw) [0x800000, 0x200000] [0x800000] s ∧
      exec (VmmCall.run (.alloc 0)) s = (.error e, s') ∧
      ¬Isolated [0x800000, 0x200000] s'.toView := by
  obtain ⟨s, hrun, hs, hrest, hf⟩ := cachedMachine_switched
  have hb := sampleView_booted
  have hcur {i : ℕ} (hi : i < 1024) (hne : i ≠ 1022) :
      entry s.mem 0x200000 i = entry sampleMem 0x200000 i := (hf.current i hi).trans (if_neg hne)
  have hself : SelfMapped s.mem 0x200000 :=
    (hb.spaces.self _ hb.spaces.current).congr (hcur (by norm_num) (by norm_num))
  have hslot : entry s.mem 0x200000 0 = 0 :=
    (hcur (by norm_num) (by norm_num)).trans (hb.user 0 (by norm_num))
  have hfirst : (pmmAllocPage s.rest).1 = 0x801000 := by
    rw [hrest]
    decide
  have hsecond : (pmmAllocPage (pmmAllocPage s.rest).2).1 = 0x802000 := by
    rw [hrest]
    decide
  have hx : exec allocPage s = (.ok (pmmAllocPage s.rest).1,
    { s with rest := (pmmAllocPage s.rest).2 }) := rfl
  obtain ⟨s', hx', hmem⟩ := ShowsOld.exec_mapUserPage
    (s := { s with rest := (pmmAllocPage s.rest).2 }) ⟨hs.hw, hs.cr3, hs.tlb⟩ 0x801000 hsecond
    (hf.user 0 (by norm_num)) hself hslot
  refine ⟨s, s', .pageFault, hb, bootCache_cachedMachine _, hrun, ?_, fun hi => ?_⟩
  · unfold VmmCall.run vmmAllocUserPageAt
    refine exec_bind_error ?_
    rw [exec_bind_ok hx, hfirst, if_neg (by norm_num)]
    exact exec_bind_error hx'
  · have hpde : entry s'.mem 0x800000 0 = 0x802007 := by
      rw [hmem]
      exact entry_put32_self (by norm_num)
    have hpte : entry s'.mem 0x802000 0 = 0x200007 := by
      rw [hmem, (onlyIn_put32 (t := 0x800000) rfl (by norm_num) _).entry (t := 0x802000) rfl
        (by norm_num) (by norm_num)]
      have hjunk : entry sampleMem 0x802000 0 = 0x200007 :=
        (Bytes.get32_ofWords _ 0x200800).trans rfl
      refine Eq.trans (Bytes.get32_congr fun a h₁ h₂ => hf.other a ?_ ?_) hjunk
      · show frameOf a ≠ 0x200000
        unfold frameOf
        omega
      · unfold frameOf
        omega
    have huse : Serves s'.mem [0x800000, 0x200000] (.page 0x800000 0 0) 0x200000 := by
      refine ⟨mem_cons_self, by norm_num, by norm_num, 0x802000, ?_, ?_⟩
      · rw [named, hpde]
        rfl
      · rw [named, hpte]
        rfl
    cases hi.unique _ (.dir 0x200000) _ huse ⟨mem_cons_of_mem _ mem_cons_self, rfl⟩

end DvivonOS.Windows
