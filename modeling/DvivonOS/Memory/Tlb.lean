import DvivonOS.Memory.KernelPages

/-!
# The windows and the translation cache

Runs of `vmm_create_address_space`, `vmm_switch_address_space`, `vmm_alloc_kernel_page_at` and
`vmm_alloc_user_page_at` on a processor with a translation cache that keeps global translations over
writes of `cr3`. The slot of a created directory for itself is marked global, so once such a
directory has been loaded the cache may show it in `PD_WINDOW` for ever: no code invalidates that
page.
-/

namespace DvivonOS.Windows

open List Paging

/-! ## Pages at any address below the windows -/

section Pages

variable {K : Kernel} {dirs : List ℕ} {b : Bool} {A : Stale} {c : View Pmm}
  {F : View Pmm → Prop} {v phys flags : ℕ}

section

variable (hA : Known b A) (h : Spaces K dirs c) (hK : K.Distinct)

include hA h hK

/-- An entry of a page table of the kernel is set to a frame without a use. -/
theorem spec_mapKernel
    (hlo : 0xC0000000 ≤ v) (hv : v < 0xFF800000) (hphys : Spare K dirs c phys) (hflags : flags < 4096) :
    Spec b A c (vmmSetPteAt ptsWindow v phys flags) (Function.update A (v / 4096) ∅)
      (fun _ c' => Spaces K dirs c' ∧ c'.cr3 = c.cr3 ∧
        ∀ t, lookup c'.mem c'.cr3 (v / 4096) = some t → ¬IsTable K c'.mem dirs t.frame) F := by
  have hslot : KernelSlot (v / 2 ^ 22) := ⟨by omega, by omega⟩
  have hdiv : v / 4096 / 1024 = v / 2 ^ 22 := by omega
  have hmod : v / 4096 % 1024 < 1024 := Nat.mod_lt _ (by norm_num)
  have hal := hphys.aligned
  have hlt := hphys.lt
  have hframe := hal.frameOf_eq
  have htable := h.kernel c.cr3 h.current _ hslot
  have he : phys + flags < 2 ^ 32 := by
    unfold Aligned at hal
    omega
  obtain ⟨hset, hsame⟩ := h.setKernelEntry hslot hmod he
  refine (spec_vmmSetPteAt hA (h.self _ h.current) hv htable (h.table_ne (by omega) htable)
    hflags fun _ q hq hne r hr => ?_).post ?_
  · rw [hframe, ← hdiv]
    exact (h.setKernel_lookup hK (hdiv ▸ hslot) he hq hne).trans hr
  rintro _ _ rfl
  rw [hframe]
  refine ⟨h.data hsame, rfl, fun t ht => ?_⟩
  have hpde := hsame c.cr3 (.inl h.current) (v / 2 ^ 22) (by omega)
  have hpte := hset (K.table (v / 2 ^ 22)) (.inr ⟨_, hslot, rfl⟩) (v / 4096 % 1024) hmod
  rw [if_pos ⟨rfl, rfl⟩] at hpte
  simp only [Paging.lookup, hdiv, hpde, ← (named_eq_some htable).2, hpte] at ht
  split at ht
  · cases ht
    rw [frameOf_add hal hflags]
    exact (hphys.data hsame).not_isTable
  · cases ht

/-- The same in both halves. Without a page table the store stops at a page fault. -/
theorem spec_mapPage
    (hv : v < 0xFF800000) (hphys : Spare K dirs c phys) (hflags : flags < 4096) (hF : F c) :
    Spec b A c (vmmSetPteAt ptsWindow v phys flags) (Function.update A (v / 4096) ∅)
      (fun _ c' => Spaces K dirs c' ∧ c'.cr3 = c.cr3 ∧
        ∀ t, lookup c'.mem c'.cr3 (v / 4096) = some t → ¬IsTable K c'.mem dirs t.frame) F := by
  by_cases hlo : 0xC0000000 ≤ v
  · exact spec_mapKernel hA h hK hlo hv hphys hflags
  have hself := h.self c.cr3 h.current
  by_cases hp : IsPresent (entry c.mem c.cr3 (v / 2 ^ 22))
  · refine (spec_mapUser hA h (by omega) (named_of_present hp) hphys.aligned hphys.lt
      hflags).post ?_
    intro _ c' hs
    obtain ⟨h', hcr3, -⟩ := hs.keeps h hphys hflags
    exact ⟨h', hcr3, fun t ht =>
      h'.page_not_isTable (h'.user_page (by omega) ht)⟩
  · have hslot : v / 2 ^ 12 / 1024 = v / 2 ^ 22 := by omega
    have hmod : v / 2 ^ 12 % 1024 < 1024 := Nat.mod_lt _ (by norm_num)
    have hnone := lookup_windowPage_none hself (by omega) hp
    unfold vmmSetPteAt
    rw [wordAt_ptsWindow (by omega), hslot]
    have hstore (w : ℕ) : Spec b A c (store32 (windowWord (v / 2 ^ 22) (v / 2 ^ 12 % 1024)) w) A
        (fun _ _ => False) F := by
      refine spec_store32 ?_ (fun _ => hself) (fun _ => hF) w fun t ht => ?_
      · rw [windowWord_page hmod]
        exact hA.settled (by omega)
      · rw [windowWord_page hmod, hnone] at ht
        cases ht
    exact (hstore _).bind fun _ _ hfalse => hfalse.elim

theorem spec_mapPage_memset
    (hv : v < 0xFF800000) (halign : v % 4096 = 0) (hphys : Spare K dirs c phys) (hflags : flags < 4096)
    (hF : ∀ c', Spaces K dirs c' → F c') :
    Spec b A c (do
        vmmSetPteAt ptsWindow v phys flags
        memset v 0 pageSize
        return true) A (fun _ c' => Spaces K dirs c' ∧ c'.cr3 = c.cr3) F := by
  refine (spec_mapPage hA h hK hv hphys hflags (hF c h)).bind ?_
  rintro _ c₁ ⟨h₁, hcr3, hlook⟩
  have hdata (i : ℕ) (hi : i < 4096) (t : Translation)
      (ht : lookup c₁.mem c₁.cr3 ((v + i) / 4096) = some t) : ¬IsTable K c₁.mem dirs t.frame := by
    rw [show (v + i) / 4096 = v / 4096 by omega] at ht
    exact hlook t ht
  refine (spec_memset_data hA h₁ (by omega) (fun _ => halign) hdata fun mem' hs _ =>
    hF _ (h₁.data hs.user)).bind ?_
  rintro _ _ ⟨mem', rfl, hs, -⟩
  refine (spec_pure (R := fun _ c' => c' = { c₁ with mem := mem' }) rfl).mono ?_ fun _ hc => hc
  rintro _ _ rfl
  exact ⟨steps_forget, h₁.data hs.user, hcr3⟩

theorem spec_vmmAllocKernelPageAt
    (hv : v < 0xFF800000) (halign : v % 4096 = 0) (hF : ∀ c', Spaces K dirs c' → F c') :
    Spec b A c (vmmAllocKernelPageAt v) A (fun _ c' => Spaces K dirs c' ∧ c'.cr3 = c.cr3) F := by
  unfold vmmAllocKernelPageAt
  refine (spec_allocPage h.pmm).bind ?_
  rintro phys c₁ (⟨-, rfl, hc₁⟩ | ⟨hphys, ⟨n, ht⟩, hc₁⟩)
  · rw [if_pos rfl, hc₁]
    exact spec_pure ⟨h, rfl⟩
  · rw [if_neg hphys, hc₁]
    generalize (pmmAllocPage c.rest).2 = p' at ht
    obtain ⟨h₁, hsp⟩ := h.take ht
    exact spec_mapPage_memset (c := { c with rest := p' }) hA h₁ hK hv halign hsp (by decide) hF

end

theorem spec_vmmAllocUserPageAt_page (hA : Known b A) (hpd : Settled b A c (windowPage 1023))
    (h : Spaces K dirs c) (hK : K.Distinct) (hv : v < 0xFF800000) (halign : v % 4096 = 0)
    (hroom : IsPresent (entry c.mem c.cr3 (v / 2 ^ 22)) ∨
      (pmmAllocPage (pmmAllocPage c.rest).2).1 ≠ 0)
    (hF : ∀ c', Spaces K dirs c' → F c') :
    Spec b A c (vmmAllocUserPageAt v) A (fun _ c' => Spaces K dirs c' ∧ c'.cr3 = c.cr3) F := by
  by_cases hlo : v < 0xC0000000
  · refine (spec_vmmAllocUserPageAt hA hpd h hlo (fun _ => halign) (.inl (by omega))
      (fun _ _ => hroom)
      fun c' h' _ => hF c' h').post ?_
    rintro _ c' ⟨h', hcr3, -⟩
    exact ⟨h', hcr3⟩
  have hself := h.self c.cr3 h.current
  have hkernel := h.kernel c.cr3 h.current (v / 2 ^ 22) ⟨by omega, by omega⟩
  unfold vmmAllocUserPageAt
  refine (spec_allocPage h.pmm).bind ?_
  rintro phys c₁ (⟨-, rfl, hc₁⟩ | ⟨hphys, ⟨n, ht⟩, hc₁⟩)
  · rw [if_pos rfl, hc₁]
    exact spec_pure ⟨h, rfl⟩
  · rw [if_neg hphys, hc₁]
    generalize (pmmAllocPage c.rest).2 = p' at ht
    obtain ⟨h₁, hsp⟩ := h.take ht
    -- the tables of the kernel exist, so the entry of the directory is not touched
    unfold vmmMapUserPage
    dsimp only
    rw [wordAt_pdWindow (by omega), bind_assoc]
    refine (spec_load_window (c := { c with rest := p' }) hself (by norm_num) (by omega) hself.1
      hpd).bind ?_
    rintro pde c₂ ⟨hc₂, hpde⟩
    rw [hself.2] at hpde
    have hp : IsPresent pde := hpde ▸ (named_eq_some hkernel).1
    rw [if_neg (not_not.mpr hp), hc₂]
    exact spec_mapPage_memset (c := { c with rest := p' }) hA h₁ hK hv halign hsp (by decide) hF

end Pages

/-! ## Runs -/

inductive WindowCall
  | create
  | switchTo (pdPhys : ℕ)
  | allocKernel (vaddr : ℕ)
  | allocUser (vaddr : ℕ)

/-- The result of `vmm_create_address_space` is kept, the other results are not. -/
def WindowCall.run : WindowCall → VmmM ℕ
  | .create => vmmCreateAddressSpace
  | .switchTo pdPhys => do
    vmmSwitchAddressSpace pdPhys
    return 0
  | .allocKernel vaddr => do
    let _ ← vmmAllocKernelPageAt vaddr
    return 0
  | .allocUser vaddr => do
    let _ ← vmmAllocUserPageAt vaddr
    return 0

/-- The created directories that have been in `cr3`, after a switch. -/
def addLoaded (boot : ℕ) (loaded : List ℕ) (pdPhys : ℕ) : List ℕ :=
  if pdPhys = 0 ∨ pdPhys = boot then loaded else pdPhys :: loaded

/-- The same after any call. -/
def WindowCall.loaded (boot : ℕ) (loaded : List ℕ) : WindowCall → List ℕ
  | .switchTo pdPhys => addLoaded boot loaded pdPhys
  | _ => loaded

/-- Switches are to directories that exist; a switch to 0 does nothing. -/
def WindowCall.Allowed (dirs : List ℕ) : WindowCall → Prop
  | .switchTo pdPhys => pdPhys = 0 ∨ pdPhys ∈ dirs
  | _ => True

/-- A page below the windows. -/
def PageBelow (vaddr : ℕ) : Prop := vaddr % 4096 = 0 ∧ vaddr < 0xFF800000

/-- The condition under which a call goes right: where it uses `PD_WINDOW`, no created directory but
the current one has ever been loaded; the address is that of a page below the windows; and if
`vmm_map_user_page` needs a page table, there is a frame for it. -/
def WindowCall.Covered (loaded : List ℕ) (c : View Pmm) : WindowCall → Prop
  | .create => ∀ d ∈ loaded, d = c.cr3
  | .switchTo _ => True
  | .allocKernel vaddr => PageBelow vaddr
  | .allocUser vaddr => (∀ d ∈ loaded, d = c.cr3) ∧ PageBelow vaddr ∧
      (IsPresent (entry c.mem c.cr3 (vaddr / 2 ^ 22)) ∨
        (pmmAllocPage (pmmAllocPage c.rest).2).1 ≠ 0)

/-- The states between calls that all meet `P`, with the directories that exist and the created ones
that have been loaded. -/
inductive WindowRun (P : List ℕ → View Pmm → WindowCall → Prop) (s₀ : Mmu Pmm) :
    List ℕ → List ℕ → Mmu Pmm → Prop
  | start : WindowRun P s₀ [s₀.cr3] [] s₀
  | call {dirs loaded : List ℕ} {s s' : Mmu Pmm} {call : WindowCall} {r : ℕ} :
      WindowRun P s₀ dirs loaded s → call.Allowed dirs → P loaded s.toView call →
      exec call.run s = (.ok r, s') →
      WindowRun P s₀ (addDir dirs r) (call.loaded s₀.cr3 loaded) s'

/-! ## The cache in a run -/

/-- What the cache may hold: of the user pages and of the scratch window anything, of the kernel half
anything or (`sharp`) nothing out of date, in `PD_WINDOW` the created directories that have been
loaded. -/
def windowStale (sharp : Prop) (loaded : List ℕ) : Stale := fun p =>
  {t | (p / 1024 ≠ 1023 ∨ p = windowPage 1022) ∧ ¬(sharp ∧ KernelSlot (p / 1024)) ∨
    p = windowPage 1023 ∧ t.isGlobal = true ∧ t.frame ∈ loaded}

section Stale

variable {K : Kernel} {dirs loaded : List ℕ} {c : View Pmm} {sharp : Prop}

theorem known_windowStale (sharp : Prop) (loaded : List ℕ) :
    Known true (windowStale sharp loaded) where
  wide _ p hp := by
    by_cases hk : KernelSlot (p / 1024)
    · exact .inr hk
    · exact .inl (Set.eq_univ_of_forall fun t => .inl ⟨hp, fun h => hk h.2⟩)
  narrow _ k hk := by
    refine Set.eq_empty_of_forall_notMem fun t ht => ?_
    obtain ⟨hp, -⟩ | ⟨hp, -⟩ := ht
    all_goals
      unfold windowPage at hp
      omega

theorem sharp_windowStale (loaded : List ℕ) : Sharp true (windowStale True loaded) where
  toKnown := known_windowStale True loaded
  kernel _ p hp := by
    refine Set.eq_empty_of_forall_notMem fun t ht => ?_
    obtain ⟨-, hnot⟩ | ⟨rfl, -⟩ := ht
    · exact hnot ⟨trivial, hp⟩
    · unfold KernelSlot windowPage at hp
      omega

theorem mem_windowStale_pdWindow {t : Translation} :
    t ∈ windowStale sharp loaded (windowPage 1023) ↔ t.isGlobal = true ∧ t.frame ∈ loaded := by
  constructor
  · rintro (⟨hp, -⟩ | ⟨-, h⟩)
    · exact absurd hp (by decide)
    · exact h
  · exact fun h => .inr ⟨rfl, h⟩

theorem windowStale_mono {loaded' : List ℕ} (h : ∀ f ∈ loaded, f ∈ loaded') {p : ℕ}
    {t : Translation} (ht : t ∈ windowStale sharp loaded p) : t ∈ windowStale sharp loaded' p := by
  obtain hwide | ⟨hp, hg, hf⟩ := ht
  · exact .inl hwide
  · exact .inr ⟨hp, hg, h _ hf⟩

theorem Spaces.lookup_pdWindow (h : Spaces K dirs c) {d : ℕ} (hd : d ∈ dirs) :
    lookup c.mem d (windowPage 1023) = some ⟨d, decide (d ≠ K.boot)⟩ := by
  have hself := h.self d hd
  rw [windowPage, lookup_last_block hself (by norm_num) hself.1, hself.2, h.selfGlobal d hd]

/-- `PD_WINDOW` is as the tables say if no other created directory has been loaded. -/
theorem Spaces.settled_pdWindow (h : Spaces K dirs c) (hboot : K.boot ∉ loaded)
    (hone : ∀ d ∈ loaded, d = c.cr3) :
    Settled true (windowStale sharp loaded) c (windowPage 1023) := by
  rintro - ⟨f, g⟩ ht
  obtain ⟨hg, hf⟩ := mem_windowStale_pdWindow.mp ht
  dsimp only at hg hf
  have hne : f ≠ K.boot := fun he => hboot (he ▸ hf)
  rw [h.lookup_pdWindow h.current, ← hone f hf, hg, decide_eq_true hne]

/-- A switch: of the windows only a created directory in `PD_WINDOW` stays cached, and of the kernel
half what the new directory has too. -/
theorem Spaces.stale_of_global (h : Spaces K dirs c) (hcur : c.cr3 ≠ K.boot → c.cr3 ∈ loaded)
    {d p : ℕ} (hd : d ∈ dirs) {t : Translation} (hg : t.isGlobal = true)
    (ht : lookup c.mem c.cr3 p = some t ∨ t ∈ windowStale sharp loaded p) :
    lookup c.mem d p = some t ∨ t ∈ windowStale sharp loaded p := by
  obtain hl | hs := ht
  case inr => exact .inr hs
  by_cases hslot : KernelSlot (p / 1024)
  · rw [h.lookup_kernel h.current hslot] at hl
    rw [h.lookup_kernel hd hslot]
    exact .inl hl
  refine .inr ?_
  by_cases hwide : p / 1024 ≠ 1023 ∨ p = windowPage 1022
  · exact .inl ⟨hwide, fun h => hslot h.2⟩
  have hself := h.self c.cr3 h.current
  obtain ⟨k, hk, rfl⟩ : ∃ k < 1024, p = windowPage k :=
    ⟨p % 1024, Nat.mod_lt _ (by norm_num), by unfold windowPage; omega⟩
  have hp : IsPresent (entry c.mem c.cr3 k) := by
    by_contra hp
    rw [lookup_windowPage_none hself hk hp] at hl
    cases hl
  by_cases hlast : k = 1023
  · subst hlast
    rw [h.lookup_pdWindow h.current] at hl
    cases hl
    exact mem_windowStale_pdWindow.mpr ⟨hg, hcur (of_decide_eq_true hg)⟩
  · have hk' : k < 1022 := by
      unfold windowPage at hwide
      omega
    rw [windowPage, lookup_last_block hself hk hp] at hl
    cases hl
    rw [h.plain c.cr3 h.current k hk'] at hg
    cases hg

end Stale

structure Windowed (K : Kernel) (dirs loaded : List ℕ) (c : View Pmm) : Prop where
  spaces : Spaces K dirs c
  boot : K.boot ∉ loaded
  current : c.cr3 ≠ K.boot → c.cr3 ∈ loaded

section Runs

variable {K : Kernel} {dirs loaded : List ℕ} {c : View Pmm} {tables : ℕ} {sharp : Prop}
  {F : View Pmm → Prop} {s₀ s : Mmu Pmm}

theorem Windowed.switchTo (h : Windowed K dirs loaded c) {d : ℕ} (hd : d = 0 ∨ d ∈ dirs) :
    Spec true (windowStale sharp loaded) c (vmmSwitchAddressSpace d)
      (windowStale sharp (addLoaded K.boot loaded d))
      (fun _ c' => c'.mem = c.mem ∧ c'.rest = c.rest ∧
        Windowed K dirs (addLoaded K.boot loaded d) c') F := by
  by_cases hd0 : d = 0
  · have hl : addLoaded K.boot loaded d = loaded := if_pos (.inl hd0)
    rw [hl, vmmSwitchAddressSpace, if_neg (not_not.mpr hd0)]
    exact spec_pure ⟨rfl, rfl, h⟩
  have hmem := hd.resolve_left hd0
  have hsub : ∀ f ∈ loaded, f ∈ addLoaded K.boot loaded d := by
    intro f hf
    unfold addLoaded
    split
    · exact hf
    · exact mem_cons_of_mem _ hf
  refine (spec_vmmSwitchAddressSpace (windowStale sharp (addLoaded K.boot loaded d)) h.spaces hmem
    fun _ p t hg ht => (h.spaces.stale_of_global h.current hmem hg ht).imp_right
      (windowStale_mono hsub)).post ?_
  rintro _ _ ⟨rfl, hs'⟩
  refine ⟨rfl, rfl, hs', ?_, fun hne => ?_⟩
  · unfold addLoaded
    split
    case isTrue => exact h.boot
    case isFalse hor =>
      rw [mem_cons, not_or]
      exact ⟨fun he => hor (.inr he.symm), h.boot⟩
  · rw [addLoaded, if_neg (not_or.mpr ⟨hd0, hne⟩)]
    exact mem_cons_self

theorem Windowed.call (h : Windowed K dirs loaded c) (hK : K.Distinct) {call : WindowCall}
    (ha : call.Allowed dirs) (hc : call.Covered loaded c) :
    Spec true (windowStale sharp loaded) c call.run (windowStale sharp (call.loaded K.boot loaded))
      (fun r c' => Windowed K (addDir dirs r) (call.loaded K.boot loaded) c') fun _ => True := by
  have hA := known_windowStale sharp loaded
  have hkeep {c' : View Pmm} (hs' : Spaces K dirs c') (hcr3 : c'.cr3 = c.cr3) :
      Windowed K (addDir dirs 0) loaded c' := ⟨hs', h.boot, hcr3 ▸ h.current⟩
  have hpd (hone : ∀ d ∈ loaded, d = c.cr3) :
      Settled true (windowStale sharp loaded) c (windowPage 1023) :=
    h.spaces.settled_pdWindow h.boot hone
  cases call with
  | create =>
    refine (spec_vmmCreateAddressSpace hA (hpd hc) h.spaces).post ?_
    rintro N c' (⟨-, rfl, rfl⟩ | ⟨hN, -, hs', hcr3, -, -⟩)
    · exact h
    · rw [addDir, if_neg hN]
      exact ⟨hs', h.boot, hcr3 ▸ h.current⟩
  | switchTo d =>
    refine (h.switchTo ha).bind ?_
    rintro _ c' ⟨-, -, h'⟩
    exact spec_pure h'
  | allocKernel v =>
    refine (spec_vmmAllocKernelPageAt hA h.spaces hK hc.2 hc.1 fun _ _ => trivial).bind ?_
    rintro _ c' ⟨hs', hcr3⟩
    exact spec_pure (hkeep hs' hcr3)
  | allocUser v =>
    obtain ⟨hone, hpage, hroom⟩ := hc
    refine (spec_vmmAllocUserPageAt_page hA (hpd hone) h.spaces hK hpage.2 hpage.1 hroom
      fun _ _ => trivial).bind ?_
    rintro _ c' ⟨hs', hcr3⟩
    exact spec_pure (hkeep hs' hcr3)

/-- What the boot code leaves in the cache of the windows is what the tables say. -/
def BootCache (s : Mmu Pmm) : Prop :=
  ∀ p t, p / 1024 = 1023 → s.tlb p = some t → lookup s.mem s.cr3 p = some t

/-- And so is what it leaves of the kernel half. -/
def KernelCache (s : Mmu Pmm) : Prop :=
  ∀ p t, KernelSlot (p / 1024) → s.tlb p = some t → lookup s.mem s.cr3 p = some t

theorem BootCache.sync (h : BootCache s) (hk : sharp → KernelCache s) :
    Sync true (windowStale sharp []) s := by
  intro p t ht
  by_cases hp : p / 1024 = 1023
  · exact .inl (h p t hp ht)
  by_cases hs : sharp ∧ KernelSlot (p / 1024)
  · exact .inl (hk hs.1 p t hs.2 ht)
  · exact .inr (.inl ⟨.inl hp, hs⟩)

theorem WindowRun.windowed (hboot : Booted tables s₀.toView) (hcache : BootCache s₀)
    (hlog : s₀.log = []) (h : WindowRun WindowCall.Covered s₀ dirs loaded s) :
    Sync true (windowStale False loaded) s ∧ Logged true s ∧
      Windowed (bootKernel tables s₀.cr3) dirs loaded s.toView := by
  induction h with
  | start =>
    refine ⟨hcache.sync False.elim, ?_, hboot.spaces, not_mem_nil, fun hne => absurd rfl hne⟩
    simp [Logged, hlog]
  | call _ ha hc hx ih =>
    obtain ⟨hs, hl, hw⟩ := ih
    obtain ⟨hs', hl', hw'⟩ := (hw.call (bootKernel_distinct _ _) ha hc _ rfl hs).1 _ _ hx
    exact ⟨hs', hl' hl, hw'⟩

/-- **The windows.** In every run of calls that meet the condition, whatever the cache does, every
access through `PD_WINDOW`, `PTS_WINDOW` or `PD_SCRATCH_WINDOW` reaches the directory in `cr3`, the
page table in its slot, or the directory in its slot 1022. -/
theorem window_accesses_right (hboot : Booted tables s₀.toView) (hcache : BootCache s₀)
    (hlog : s₀.log = []) (h : WindowRun WindowCall.Covered s₀ dirs loaded s) :
    (∀ a ∈ s.log, a.Right) ∧ ∀ call : WindowCall, call.Allowed dirs →
      call.Covered loaded s.toView → ∀ a ∈ (exec call.run s).2.log, a.Right := by
  obtain ⟨hs, hl, hw⟩ := h.windowed hboot hcache hlog
  refine ⟨hl rfl, fun call ha hc => ?_⟩
  obtain ⟨hok, herr⟩ := hw.call (bootKernel_distinct _ _) ha hc s rfl hs
  cases hx : exec call.run s with
  | mk r s' =>
    cases r with
    | ok r => exact (hok r s' hx).2.1 hl rfl
    | error e => exact (herr e s' hx).1 hl rfl

end Runs

/-! ## Runs on the sample machine -/

section Sample

variable {s : Mmu Pmm} {d : ℕ}

/-- What a write of `cr3` makes of the machine. -/
def loadCr3 (d : ℕ) (s : Mmu Pmm) : Mmu Pmm :=
  { s.tick with cr3 := d, tlb := fun p => (s.tick.tlb p).filter (·.isGlobal) }

theorem exec_vmmSwitchAddressSpace (hd : d ≠ 0) :
    exec (vmmSwitchAddressSpace d) s = (.ok (), loadCr3 d (loadCr3 d s)) := by
  unfold vmmSwitchAddressSpace
  rw [if_pos hd]
  rfl

theorem grows_fillDirectory (N e : ℕ) : Grows (do
    invlpg pdScratchWindow
    repeatTo 768 fun i => store32 (wordAt pdScratchWindow i) 0
    repeatTo 254 fun n => copyEntry (768 + n)
    store32 (wordAt pdScratchWindow 1023) e
    store32 (wordAt pdWindow 1022) 0
    invlpg pdScratchWindow
    return N : VmmM ℕ) := by
  have hcopy (i : ℕ) : Grows (copyEntry i) := (grows_load32 _).bind fun _ => grows_store32 _ _
  refine (grows_invlpg _).bind fun _ => ?_
  refine (grows_repeatTo fun _ => grows_store32 _ _).bind fun _ => ?_
  refine (grows_repeatTo fun _ => hcopy _).bind fun _ => ?_
  refine (grows_store32 _ _).bind fun _ => (grows_store32 _ _).bind fun _ => ?_
  exact (grows_invlpg _).bind fun _ => grows_pure N

theorem grows_vmmCreateAddressSpace : Grows vmmCreateAddressSpace := by
  refine (grows_onRest _).bind fun N => ?_
  dsimp only
  split
  · exact grows_pure 0
  · exact (grows_store32 _ _).bind fun _ => grows_fillDirectory N _

/-- If there is a frame, `vmm_create_address_space` stores to `PD_WINDOW`, wherever that leads. -/
theorem mem_log_vmmCreateAddressSpace (hroom : (pmmAllocPage s.rest).1 ≠ 0) {t : Translation}
    (ht : s.tick.reach (windowPage 1023) = some t) :
    ⟨windowPage 1023, t.frame, s.cr3, entry s.mem s.cr3 1023⟩ ∈
      (exec vmmCreateAddressSpace s).2.log := by
  have hpage : wordAt pdWindow 1022 / 4096 = windowPage 1023 := rfl
  have halloc : exec allocPage s =
      (.ok (pmmAllocPage s.rest).1, { s with rest := (pmmAllocPage s.rest).2 }) := rfl
  unfold vmmCreateAddressSpace
  rw [exec_bind_ok halloc, if_neg hroom]
  have hmem := mem_log_store32 (s := { s with rest := (pmmAllocPage s.rest).2 })
    (v := wordAt pdWindow 1022)
    (w := (pmmAllocPage s.rest).1 ||| pagePresent ||| pageRw ||| pageGlobal) (t := t)
    (by rw [hpage]; exact ht)
  rw [hpage] at hmem
  exact mem_log_bind (fun _ => grows_fillDirectory _ _) hmem

/-- The machine behind the boot code, with an empty cache that then does as `hw` says. -/
def cachedMachine (hw : ℕ → ℕ → ℕ → Option Bool) : Mmu Pmm :=
  ⟨sampleView, fun _ => none, hw, 0, []⟩

theorem bootCache_cachedMachine (hw : ℕ → ℕ → ℕ → Option Bool) : BootCache (cachedMachine hw) := by
  intro p t _ ht
  cases ht

theorem cachedMachine_create (hw : ℕ → ℕ → ℕ → Option Bool) : ∃ s,
    exec vmmCreateAddressSpace (cachedMachine hw) = (.ok 0x800000, s) ∧ s.hw = hw ∧
      s.cr3 = 0x200000 ∧ s.rest = (pmmAllocPage samplePmm).2 ∧ Filled sampleView 0x800000 s.mem := by
  have hs := sampleView_booted.spaces
  have hpd : Settled true (windowStale False []) sampleView (windowPage 1023) :=
    hs.settled_pdWindow not_mem_nil fun d hd => absurd hd not_mem_nil
  have hspec := spec_createFilled (F := fun _ => False) (known_windowStale False []) hpd hs.pmm
    (hs.self _ hs.current) (hs.used (.dir _) _ ⟨hs.current, rfl⟩) fun _ n ht =>
      ⟨hs.offKernel (hs.take ht).2.apart, hs.offKernel hs.current_apart⟩
  obtain ⟨N, s, hx, -, hN, hr⟩ :=
    hspec.returns (s := cachedMachine hw) ((bootCache_cachedMachine hw).sync False.elim)
  have halloc : (pmmAllocPage samplePmm).1 = 0x800000 := by decide
  have hN' : N = 0x800000 := hN.trans halloc
  have hhw := (grows_vmmCreateAddressSpace (cachedMachine hw)).2
  rw [hx] at hhw
  subst hN'
  obtain ⟨hfull, -⟩ | ⟨-, -, hrest, hcr3, hf⟩ := hr
  · cases hfull
  · exact ⟨s, hx, hhw, hcr3, hrest, hf⟩

theorem exec_switchTo (hd : d ≠ 0) : exec (do vmmSwitchAddressSpace d; return 0 : VmmM ℕ) s =
    (.ok 0, loadCr3 d (loadCr3 d s)) := by
  rw [exec_bind_ok (exec_vmmSwitchAddressSpace hd)]
  rfl

end Sample

/-- On a processor that caches every translation at once. -/
theorem window_accesses_right_create : ∃ N s, N ≠ 0 ∧
    WindowRun WindowCall.Covered (cachedMachine fun _ _ _ => some true) [N, 0x200000] [] s ∧
      ∀ a ∈ s.log, a.Right := by
  obtain ⟨s, hx, -⟩ := cachedMachine_create fun _ _ _ => some true
  have hcov : WindowCall.create.Covered [] (cachedMachine fun _ _ _ => some true).toView :=
    fun d hd => absurd hd not_mem_nil
  have hallowed : WindowCall.create.Allowed [sampleView.cr3] := trivial
  have hrun := WindowRun.start.call hallowed hcov hx
  rw [addDir, if_neg (by norm_num)] at hrun
  exact ⟨_, s, by norm_num, hrun, (window_accesses_right sampleView_booted
    (bootCache_cachedMachine _) rfl hrun).1⟩

/-- A cache that loads the translation of `PD_WINDOW` under created directories only. -/
def createdHw : ℕ → ℕ → ℕ → Option Bool := fun _ d p =>
  if d ≠ 0x200000 ∧ p = windowPage 1023 then some true else none

/-- The machine behind the switch to the created directory and the one back. -/
def switchedBack (s : Mmu Pmm) : Mmu Pmm :=
  loadCr3 0x200000 (loadCr3 0x200000 (loadCr3 0x800000 (loadCr3 0x800000 s)))

/-- The created directory is cached while it is loaded, and stays cached behind the switch back. -/
theorem switchedBack_tlb {s : Mmu Pmm} (hhw : s.hw = createdHw)
    (hf : Filled sampleView 0x800000 s.mem) :
    (switchedBack s).tick.tlb (windowPage 1023) = some ⟨0x800000, true⟩ := by
  have hself : SelfMapped s.mem 0x800000 := selfMapped_of_entry hf.self rfl (by norm_num) rfl
  have hlook : lookup s.mem 0x800000 (windowPage 1023) = some ⟨0x800000, true⟩ := by
    rw [windowPage, lookup_last_block hself (by norm_num) hself.1, hf.self]
    rfl
  have hcreated : createdHw = fun _ d p =>
    if d ≠ 0x200000 ∧ p = windowPage 1023 then some true else none := rfl
  simp [switchedBack, loadCr3, Mmu.tick, hhw, hcreated, hlook]

/-- A directory is created and loaded, the boot directory is loaded again, and the next call of
`vmm_create_address_space` writes to the created directory in place of the boot directory. -/
theorem pd_window_reaches_old_directory : ∃ N s,
    Booted 0x201000 (cachedMachine createdHw).toView ∧ BootCache (cachedMachine createdHw) ∧
      WindowRun (fun _ _ _ => True) (cachedMachine createdHw) [N, 0x200000] [N] s ∧
      ∃ a ∈ (exec vmmCreateAddressSpace s).2.log,
        a.page = windowPage 1023 ∧ a.dir = 0x200000 ∧ a.frame = N ∧ ¬a.Right := by
  obtain ⟨s, hx, hhw, hcr3, hrest, hf⟩ := cachedMachine_create createdHw
  have hcreate : WindowCall.create.Allowed [(cachedMachine createdHw).cr3] := trivial
  have hto : (WindowCall.switchTo 0x800000).Allowed [0x800000, 0x200000] := .inr mem_cons_self
  have hback : (WindowCall.switchTo 0x200000).Allowed [0x800000, 0x200000] :=
    .inr (mem_cons_of_mem _ mem_cons_self)
  have hrun := (WindowRun.start (P := fun _ _ _ => True)).call hcreate trivial hx
  rw [addDir, if_neg (by norm_num)] at hrun
  have hrun' := (hrun.call hto trivial (exec_switchTo (by norm_num))).call hback trivial
    (exec_switchTo (by norm_num))
  have hloaded : addLoaded 0x200000 [] 0x800000 = [0x800000] := if_neg (by norm_num)
  have hmem := mem_log_vmmCreateAddressSpace (s := switchedBack s) (t := ⟨0x800000, true⟩)
    (by show (pmmAllocPage s.rest).1 ≠ 0; rw [hrest]; decide)
    (by rw [Mmu.reach, switchedBack_tlb hhw hf])
  refine ⟨_, _, sampleView_booted, bootCache_cachedMachine _, ?_, _, hmem, rfl, rfl, rfl, ?_⟩
  · rw [← hloaded]
    exact hrun'
  · exact fun hright => absurd ((right_last_iff rfl).mp hright) (show 0x800000 ≠ 0x200000 by decide)

end DvivonOS.Windows
