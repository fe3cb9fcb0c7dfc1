import DvivonOS.Memory.SpaceRuns

/-!
# Pages of the kernel half

All directories name the same page tables for the kernel half, so a walk there depends on these
tables and not on the directory (`Spaces.lookup_kernel`). `vmm_alloc_kernel_page_at` of a page
address changes one of their entries, and clears a frame that had no use.
-/

namespace DvivonOS.Windows

open Paging

/-- The frame of a page of the kernel half. -/
def kernelFrame (K : Kernel) (mem : Bytes) (p : ℕ) : Option ℕ :=
  named mem (K.table (p / 1024)) (p % 1024)

def Kernel.Distinct (K : Kernel) : Prop :=
  ∀ i j, KernelSlot i → KernelSlot j → K.table i = K.table j → i = j

theorem bootKernel_distinct (tables pd : ℕ) : (bootKernel tables pd).Distinct := by
  intro i j hi hj he
  obtain ⟨hi, -⟩ := hi
  obtain ⟨hj, -⟩ := hj
  unfold bootKernel pageSize at he
  dsimp only at he
  omega

section Lookup

variable {K : Kernel} {dirs : List ℕ} {c : View Pmm} {mem' : Bytes} {d p f : ℕ}

/-- **The walk in the kernel half** is the same under every directory. -/
theorem Spaces.lookup_kernel (h : Spaces K dirs c) (hd : d ∈ dirs) (hp : KernelSlot (p / 1024)) :
    lookup c.mem d p = (kernelFrame K c.mem p).map fun f =>
      ⟨f, isGlobal (entry c.mem (K.table (p / 1024)) (p % 1024))⟩ := by
  obtain ⟨hpde, htable⟩ := named_eq_some (h.kernel d hd _ hp)
  unfold lookup kernelFrame named
  simp only [← htable, hpde, true_and]
  split <;> rfl

theorem Spaces.lookup_kernel_some (h : Spaces K dirs c) (hp : KernelSlot (p / 1024))
    (hf : kernelFrame K c.mem p = some f) : ∃ g, lookup c.mem c.cr3 p = some ⟨f, g⟩ := by
  rw [h.lookup_kernel h.current hp, hf]
  exact ⟨_, rfl⟩

/-- The boot code leaves the first page of the kernel half out. -/
theorem Booted.first_page {tables : ℕ} (h : Booted tables c) :
    kernelFrame (bootKernel tables c.cr3) c.mem (768 * 1024) = none := by
  have hempty : ¬IsPresent (entry c.mem tables 0) := by
    rw [h.gap]
    exact not_present_zero
  exact named_of_not_present hempty

theorem kernelFrame_congr (hs : SameKernel K c.mem mem') (hp : KernelSlot (p / 1024)) :
    kernelFrame K mem' p = kernelFrame K c.mem p :=
  named_congr (hs _ ⟨_, hp, rfl⟩ _ (Nat.mod_lt _ (by norm_num)))

end Lookup

/-- Nothing out of date is cached of the kernel half. -/
structure Sharp (b : Bool) (A : Stale) : Prop extends Known b A where
  kernel : b = true → ∀ p, KernelSlot (p / 1024) → A p = ∅

theorem Sharp.settled_kernel {b : Bool} {A : Stale} (h : Sharp b A) {c : View Pmm} {p : ℕ}
    (hp : KernelSlot (p / 1024)) : Settled b A c p := by
  intro hb t ht
  rw [h.kernel hb p hp] at ht
  cases ht

theorem sharp_false (A : Stale) : Sharp false A := ⟨known_false A, by simp⟩

/-! ## `vmm_alloc_kernel_page_at` -/

section Alloc

variable {K : Kernel} {dirs : List ℕ} {c : View Pmm} {b : Bool} {A : Stale}
  {F : View Pmm → Prop} {v p f : ℕ}

/-- Page `p` of the kernel half is mapped to frame `f`, which is clear; the other pages of the
kernel half are mapped as before, and the frames without a use are as before. -/
structure KernelPage (K : Kernel) (dirs : List ℕ) (c : View Pmm) (p f : ℕ) (c' : View Pmm) :
    Prop where
  spaces : Spaces K dirs c'
  spare : Spare K dirs c' f
  page : kernelFrame K c'.mem p = some f
  clear : ∀ a, frameOf a = f → c'.mem a = 0
  other : ∀ q, KernelSlot (q / 1024) → q ≠ p → kernelFrame K c'.mem q = kernelFrame K c.mem q
  keeps : ∀ g, g ≠ f → Spare K dirs c g →
    Spare K dirs c' g ∧ ∀ a, frameOf a = g → c'.mem a = c.mem a
  cr3 : c'.cr3 = c.cr3
  directory : ∀ d ∈ dirs, ∀ i < 1024, entry c'.mem d i = entry c.mem d i

section

variable (h : Spaces K dirs c) (hK : K.Distinct) (hp : KernelSlot (p / 1024))

include h hK hp

theorem Spaces.setKernelPte
    {e : ℕ} (he : e < 2 ^ 32) {mem' : Bytes}
    (hm : mem' = c.mem.put32 (K.table (p / 1024) + 4 * (p % 1024)) e) :
    SameTables (UserTable c.mem dirs) c.mem mem' ∧
      kernelFrame K mem' p = (if IsPresent e then some (frameOf e) else none) ∧
      ∀ q, KernelSlot (q / 1024) → q ≠ p → kernelFrame K mem' q = kernelFrame K c.mem q := by
  subst hm
  have hmod : p % 1024 < 1024 := Nat.mod_lt _ (by norm_num)
  obtain ⟨hset, hsame⟩ := h.setKernelEntry (e := e) hp hmod he
  have hpte := hset _ (.inr ⟨_, hp, rfl⟩) _ hmod
  rw [if_pos ⟨rfl, rfl⟩] at hpte
  refine ⟨hsame, ?_, fun q hq hne => named_congr ?_⟩
  · unfold kernelFrame named
    rw [hpte]
  · rw [hset _ (.inr ⟨_, hq, rfl⟩) _ (Nat.mod_lt _ (by norm_num)), if_neg]
    rintro ⟨ht, hj⟩
    have := hK _ _ hq hp ht
    omega

/-- The entry of a page of the kernel half has no part in the walks of the others. -/
theorem Spaces.setKernel_lookup
    {e : ℕ} (he : e < 2 ^ 32) {q : ℕ} (hq : KernelSlot (q / 1024)) (hne : q ≠ p) :
    lookup (c.mem.put32 (K.table (p / 1024) + 4 * (p % 1024)) e) c.cr3 q = lookup c.mem c.cr3 q := by
  have hslot := hq
  unfold KernelSlot at hslot
  obtain ⟨hset, hsame⟩ := h.setKernelEntry (e := e) hp (Nat.mod_lt p (by norm_num)) he
  refine lookup_congr_entries (hsame _ (.inl h.current) _ (by omega)) fun t ht => ?_
  rw [h.kernel _ h.current _ hq] at ht
  cases ht
  rw [hset _ (.inr ⟨_, hq, rfl⟩) _ (Nat.mod_lt _ (by norm_num)), if_neg]
  rintro ⟨ht, hj⟩
  have := hK _ _ hq hp ht
  omega

theorem Spaces.setKernelPage
    (hf : Spare K dirs c f) {mem' : Bytes}
    (hm : mem' = c.mem.put32 (K.table (p / 1024) + 4 * (p % 1024)) (f + 0x103)) :
    Spaces K dirs { c with mem := mem' } ∧
      (∀ g, Spare K dirs c g → Spare K dirs { c with mem := mem' } g) ∧
      kernelFrame K mem' p = some f ∧
      (∀ q, KernelSlot (q / 1024) → q ≠ p → kernelFrame K mem' q = kernelFrame K c.mem q) ∧
      SameTables (UserTable c.mem dirs) c.mem mem' := by
  have hal := hf.aligned
  have hlt := hf.lt
  unfold Aligned at hal
  obtain ⟨hsame, hpage, hother⟩ := h.setKernelPte hK hp (by omega) hm
  refine ⟨h.data hsame, fun g hg => hg.data hsame, ?_, hother, hsame⟩
  have hpres : IsPresent (f + 0x103) := by
    unfold IsPresent
    omega
  rw [hpage, if_pos hpres, frameOf_add hf.aligned (by norm_num)]

theorem Spaces.clearKernelPage
    (hf : Spare K dirs c f) {mem₁ : Bytes}
    (hm : mem₁ = c.mem.put32 (K.table (p / 1024) + 4 * (p % 1024)) (f + 0x103)) :
    KernelPage K dirs c p f { c with mem := mem₁.fill f 0 4096 } := by
  obtain ⟨h₁, hspare, hpage, hother, hsame⟩ := h.setKernelPage hK hp hf hm
  have hf₁ := hspare f hf
  have honly : OnlyIn f mem₁ (mem₁.fill f 0 4096) := onlyIn_fill hf.aligned 0 le_rfl
  have hs : SameTables (IsTable K mem₁ dirs) mem₁ (mem₁.fill f 0 4096) :=
    h₁.sameTables hf₁.not_isTable honly
  have hk {q : ℕ} (hq : KernelSlot (q / 1024)) :
      kernelFrame K (mem₁.fill f 0 4096) q = kernelFrame K mem₁ q :=
    kernelFrame_congr (c := { c with mem := mem₁ }) (fun t ht => hs t (.inr ht)) hq
  have hal := hf.aligned
  refine ⟨h₁.data hs.user, hf₁.data hs.user, (hk hp).trans hpage, fun a ha => ?_,
    fun q hq hne => (hk hq).trans (hother q hq hne), fun g hne hg => ?_, rfl, fun d hd i hi => ?_⟩
  · unfold Aligned at hal
    unfold frameOf at ha
    exact Bytes.fill_of_mem _ _ (by omega) (by omega)
  · refine ⟨(hspare g hg).data hs.user, fun a ha => ?_⟩
    have htable : Aligned (K.table (p / 1024)) := h.aligned (.inr ⟨_, hp, rfl⟩)
    refine (honly a (by rwa [ha])).trans ?_
    rw [hm]
    refine onlyIn_put32 htable (Nat.mod_lt _ (by norm_num)) _ a ?_
    rw [ha]
    exact hg.apart _ hp
  · exact (hs d (.inl (.inl hd)) i hi).trans (hsame d (.inl hd) i hi)

end

theorem spec_allocKernelPage (hA : Known b A) (h : Spaces K dirs c) (hK : K.Distinct)
    (hlo : 0xC0000000 ≤ v) (hv : v < 0xFF800000) (halign : v % 4096 = 0) :
    Spec b A c (vmmAllocKernelPageAt v) A (fun r c' =>
      (r = false ∧ pmmAllocPage c.rest = (0, c.rest) ∧ c' = c) ∨
      (r = true ∧ (pmmAllocPage c.rest).1 ≠ 0 ∧ c'.rest = (pmmAllocPage c.rest).2 ∧
        ∃ n f, Takes c.rest n f c'.rest ∧
          KernelPage K dirs { c with rest := c'.rest } (v / 4096) f c')) F := by
  have hslot : KernelSlot (v / 4096 / 1024) := ⟨by omega, by omega⟩
  have hdiv : v / 2 ^ 22 = v / 4096 / 1024 := by omega
  unfold vmmAllocKernelPageAt
  refine (spec_allocPage h.pmm).bind ?_
  rintro f c₁ (⟨hfull, rfl, hc₁⟩ | ⟨hf0, ⟨n, ht⟩, hc₁⟩)
  · rw [if_pos rfl, hc₁]
    obtain ⟨n, ht⟩ | ⟨he, -⟩ := h.pmm.alloc
    · exact absurd hfull (ht.ne_zero h.pmm)
    · exact spec_pure (.inl ⟨rfl, he, rfl⟩)
  · have hphys := h.pmm.alloc_ne_zero ht
    rw [if_neg hf0, hc₁]
    generalize (pmmAllocPage c.rest).2 = p' at ht ⊢
    obtain ⟨h₁, hf⟩ := h.take ht
    have hal := hf.aligned.frameOf_eq
    obtain ⟨h₂, hspare, hpage, -⟩ := h₁.setKernelPage hK hslot hf rfl
    have hclear := h₁.clearKernelPage hK hslot hf rfl
    have htable := h₁.kernel c.cr3 h₁.current _ hslot
    unfold vmmMapKernelPage
    rw [← hdiv] at htable
    have hlt : f + 0x103 < 2 ^ 32 := by
      have := hf.lt
      have := hf.aligned
      unfold Aligned at this
      omega
    have hflags : pagePresent ||| pageRw ||| pageGlobal = 0x103 := rfl
    rw [hflags]
    refine (spec_vmmSetPteAt (c := { c with rest := p' }) hA (h₁.self _ h₁.current) hv htable
      (h₁.table_ne (by omega) htable) (by norm_num) fun _ q hq hne r hr => ?_).bind ?_
    · rw [hal, hdiv]
      exact (h₁.setKernel_lookup hK hslot hlt hq hne).trans hr
    rintro _ _ rfl
    rw [hal, hdiv]
    refine (spec_memset_page (c := ⟨_, c.cr3, p'⟩) hA (h₂.self _ h₂.current)
      (h₂.kernel c.cr3 h₂.current _ hslot) hdiv.symm halign hv hpage
      (fun he => (hspare f hf).unserved (.dir f) ⟨he ▸ h₂.current, rfl⟩) (hf.apart _ hslot)
      fun _ => h₂.offKernel hf.apart).bind ?_
    rintro _ _ rfl
    refine (spec_pure (R := fun r c' => r = true ∧ c' = _) ⟨rfl, rfl⟩).mono ?_ fun _ hc => hc
    rintro _ _ ⟨rfl, rfl⟩
    exact ⟨steps_forget, .inr ⟨rfl, hphys, rfl, n, f, ht, hclear⟩⟩

theorem Spaces.release (h : Spaces K dirs c) (hf : Spare K dirs c f) :
    Spaces K dirs { c with rest := pmmFreePage c.rest f } ∧
      ∀ g, g ≠ f → Spare K dirs c g → Spare K dirs { c with rest := pmmFreePage c.rest f } g := by
  have hkeep {g : ℕ} (hg : Aligned g) (hne : g ≠ f)
      (hu : testBit (g / pageSize) c.rest.bitmap = true) :
      testBit (g / pageSize) (pmmFreePage c.rest f).bitmap = true :=
    testBit_free (o := 0) hf.aligned hg hne (by norm_num) hu
  have hne {u : Use} {g : ℕ} (hu : Serves c.mem dirs u g) : g ≠ f := by
    rintro rfl
    exact hf.unserved u hu
  constructor
  · exact { h with
      used := fun u g hu => hkeep (h.serves_aligned hu) (hne hu) (h.used u g hu)
      pmm := ⟨h.pmm.pos, h.pmm.le, h.pmm.cursor,
        hkeep (g := 0) rfl hf.nonzero.symm h.pmm.zero⟩
      reserved := fun i hi =>
        hkeep (h.aligned (.inr ⟨i, hi, rfl⟩)) (hf.apart i hi).symm (h.reserved i hi) }
  · intro g hgf hg
    exact { hg with used := hkeep hg.aligned hgf hg.used }

end Alloc

end DvivonOS.Windows
