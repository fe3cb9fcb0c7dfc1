import DvivonOS.Heap.Generic
import DvivonOS.Heap.Runs
import DvivonOS.Memory.KernelPages

/-!
# The kernel heap on the machine

The functions of `heap-allocator.c` on the machine: every access is translated by the tables of the
current directory and every new page is entered by `vmm_alloc_kernel_page_at`. `Heap.Model` has them
on a memory of its own; `Sim` says that each of them does the same on both, as long as the pages of
the heap have frames that have no other use (`Shows`).

The heap lies below `PTS_SCRATCH_WINDOW`: a computation that leaves this region stops.
-/

namespace DvivonOS.Windows.Paged

open Function Paging

/-- The globals of `heap-allocator.c`. -/
structure HeapVars where
  freeListHead : ℕ
  heapMax : ℕ

abbrev PagedM := StateT HeapVars VmmM

/-! ## Words -/

/-- A word may lie in two pages, so its bytes are translated one by one. -/
def loadWord (a : ℕ) : VmmM ℕ := do
  let b₀ ← load8 a
  let b₁ ← load8 (a + 1)
  let b₂ ← load8 (a + 2)
  let b₃ ← load8 (a + 3)
  return b₀.toNat + 256 * b₁.toNat + 65536 * (b₂.toNat + 256 * b₃.toNat)

def storeWord (a v : ℕ) : VmmM Unit := do
  store8 a (UInt8.ofNat v)
  store8 (a + 1) (UInt8.ofNat (v / 256))
  store8 (a + 2) (UInt8.ofNat (v / 65536))
  store8 (a + 3) (UInt8.ofNat (v / 65536 / 256))

def load (a : ℕ) : PagedM ℕ :=
  if ptsScratchWindow ≤ a then throw .pageFault else liftM (loadWord a)

def store (a v : ℕ) : PagedM Unit :=
  if ptsScratchWindow ≤ a then throw .pageFault else liftM (storeWord a v)

/-- The next page of the heap, below the window. -/
def nextPage : PagedM Bool := do
  let addr := (← get).heapMax
  if ptsScratchWindow ≤ addr then throw .pageFault
  else
    let page ← Windows.vmmAllocKernelPageAt addr
    if !page then return false
    else
      modify fun s => { s with heapMax := add32 s.heapMax pageSize }
      return page

instance : HeapCode.HeapOps PagedM where
  load := load
  store := store
  freeListHead := do return (← get).freeListHead
  setFreeListHead b := modify fun s => { s with freeListHead := b }
  heapMax := do return (← get).heapMax
  nextPage := nextPage
  stop := throw .pageFault

def kmalloc (size : ℕ) : PagedM ℕ := HeapCode.kmalloc size

def kfree (ptr : ℕ) : PagedM Unit := HeapCode.kfree ptr

/-! ## The heap in the frames -/

/-- The pages whose frames are kept apart: those of the heap and the first page of the kernel half,
which a `memset` of the last user page may reach. -/
def Owned (h : Heap) (p : ℕ) : Prop := h.mapped p = true ∨ p = 768 * 1024

/-- The machine has the bytes of the heap in frames that have no use in the user halves. -/
structure Shows (K : Kernel) (dirs : List ℕ) (h : Heap) (c : View Pmm) : Prop where
  spaces : Spaces K dirs c
  rest : c.rest = h.pmm
  heapMax : h.heapMax % 4096 = 0 ∧ kheapStart ≤ h.heapMax ∧ h.heapMax ≤ ptsScratchWindow
  range : ∀ p, h.mapped p = true → kheapStart / 4096 ≤ p ∧ p < h.heapMax / 4096
  page : ∀ a, h.mapped (a / 4096) = true →
    ∃ f, kernelFrame K c.mem (a / 4096) = some f ∧ c.mem (f + a % 4096) = h.mem a
  own : ∀ p f, Owned h p → kernelFrame K c.mem p = some f → Spare K dirs c f
  inj : ∀ p q f, Owned h p → Owned h q → kernelFrame K c.mem p = some f →
    kernelFrame K c.mem q = some f → p = q

section Shows

variable {K : Kernel} {dirs dirs' : List ℕ} {h h' : Heap} {c c' : View Pmm} {a p f n : ℕ}

section

variable (hs : Shows K dirs h c)

include hs

theorem Shows.slot (hp : Owned h p) : KernelSlot (p / 1024) := by
  obtain hp | rfl := hp
  · obtain ⟨hlo, hhi⟩ := hs.range p hp
    have hmax := hs.heapMax.2.2
    unfold kheapStart at hlo
    unfold ptsScratchWindow at hmax
    exact ⟨by omega, by omega⟩
  · exact ⟨by omega, by omega⟩

theorem Shows.ne_first (hp : h.mapped p = true) : p ≠ 768 * 1024 := by
  rintro rfl
  obtain ⟨hlo, -⟩ := hs.range _ hp
  unfold kheapStart at hlo
  omega

theorem Shows.put8 (ha : h.mapped (a / 4096) = true)
    (hf : kernelFrame K c.mem (a / 4096) = some f) (x : UInt8) :
    Shows K dirs { h with mem := h.mem.put8 a x }
      { c with mem := c.mem.put8 (f + a % 4096) x } := by
  have hspare := hs.own _ f (.inl ha) hf
  have hframe : frameOf (f + a % 4096) = f :=
    frameOf_add hspare.aligned (Nat.mod_lt _ (by norm_num))
  have honly : OnlyIn f c.mem (c.mem.put8 (f + a % 4096) x) := by
    nth_rw 1 [← hframe]
    exact onlyIn_put8 x
  have htab := hs.spaces.sameTables hspare.not_isTable honly
  have hk {q : ℕ} (hq : Owned h q) :
      kernelFrame K (c.mem.put8 (f + a % 4096) x) q = kernelFrame K c.mem q :=
    kernelFrame_congr (fun t ht => htab t (.inr ht)) (hs.slot hq)
  refine ⟨hs.spaces.data htab.user, hs.rest, hs.heapMax, hs.range, fun b hb => ?_,
    fun q g hq hg => ?_, fun q q' g hq hq' hg hg' => ?_⟩
  · obtain ⟨g, hg, hbyte⟩ := hs.page b hb
    refine ⟨g, (hk (.inl hb)).trans hg, ?_⟩
    by_cases hab : b = a
    · subst hab
      rw [hf] at hg
      cases hg
      simp [Bytes.put8]
    · -- another address lies in another frame, or elsewhere in this one
      have hg' := (hs.own _ g (.inl hb) hg).aligned
      have hf' := hspare.aligned
      have hne : g + b % 4096 ≠ f + a % 4096 := by
        intro he
        unfold Aligned at hf' hg'
        have hgf : g = f := by omega
        have hpage := hs.inj _ _ f (.inl hb) (.inl ha) (hgf ▸ hg) hf
        omega
      exact (Bytes.put8_of_ne _ _ hne).trans (hbyte.trans (Bytes.put8_of_ne _ _ hab).symm)
  · exact (hs.own q g hq ((hk hq).symm.trans hg)).data htab.user
  · exact hs.inj q q' g hq hq' ((hk hq).symm.trans hg) ((hk hq').symm.trans hg')

theorem Shows.newPage (ht : Takes c.rest n f c'.rest)
    (hk : KernelPage K dirs { c with rest := c'.rest } p f c') (hpmm : c'.rest = h'.pmm)
    (hmax : h'.heapMax % 4096 = 0 ∧ kheapStart ≤ h'.heapMax ∧ h'.heapMax ≤ ptsScratchWindow)
    (hle : h.heapMax ≤ h'.heapMax) (hother : ∀ q, q ≠ p → h'.mapped q = h.mapped q)
    (hp : h'.mapped p = true → kheapStart / 4096 ≤ p ∧ p < h'.heapMax / 4096)
    (hmem : ∀ a, h'.mapped (a / 4096) = true → h'.mem a = if a / 4096 = p then 0 else h.mem a) :
    Shows K dirs h' c' := by
  -- what is owned besides the page has kept its frame, which is not the new one
  have hold {q g : ℕ} (hq : Owned h' q) (hne : q ≠ p) (hg : kernelFrame K c'.mem q = some g) :
      Owned h q ∧ kernelFrame K c.mem q = some g ∧ g ≠ f ∧
        Spare K dirs { c with rest := c'.rest } g := by
    have hq' : Owned h q := hq.imp_left fun hm => (hother q hne).symm.trans hm
    have hg' := (hk.other q (hs.slot hq') hne).symm.trans hg
    obtain ⟨hsp, hgf⟩ := (hs.own q g hq' hg').take hs.spaces ht
    exact ⟨hq', hg', hgf, hsp⟩
  refine ⟨hk.spaces, hpmm, hmax, fun q hq => ?_, fun a ha => ?_, fun q g hq hg => ?_,
    fun q q' g hq hq' hg hg' => ?_⟩
  · by_cases hqp : q = p
    · exact hqp ▸ hp (hqp ▸ hq)
    · obtain ⟨hlo, hhi⟩ := hs.range q ((hother q hqp).symm.trans hq)
      exact ⟨hlo, by omega⟩
  · rw [hmem a ha]
    by_cases hap : a / 4096 = p
    · rw [if_pos hap, hap]
      exact ⟨f, hk.page, hk.clear _ (frameOf_add hk.spare.aligned (Nat.mod_lt _ (by norm_num)))⟩
    · rw [if_neg hap]
      obtain ⟨g, hg, hbyte⟩ := hs.page a ((hother _ hap).symm.trans ha)
      have hg' := (hk.other _ (hs.slot (.inl ((hother _ hap).symm.trans ha))) hap).trans hg
      obtain ⟨-, -, hgf, hsp⟩ := hold (.inl ha) hap hg'
      refine ⟨g, hg', ((hk.keeps g hgf hsp).2 _ ?_).trans hbyte⟩
      exact frameOf_add hsp.aligned (Nat.mod_lt _ (by norm_num))
  · by_cases hqp : q = p
    · rw [hqp, hk.page] at hg
      cases hg
      exact hk.spare
    · obtain ⟨-, -, hgf, hsp⟩ := hold hq hqp hg
      exact (hk.keeps g hgf hsp).1
  · by_cases hqp : q = p
    · by_cases hqp' : q' = p
      · rw [hqp, hqp']
      · rw [hqp, hk.page] at hg
        cases hg
        exact absurd rfl (hold hq' hqp' hg').2.2.1
    · by_cases hqp' : q' = p
      · rw [hqp', hk.page] at hg'
        cases hg'
        exact absurd rfl (hold hq hqp hg).2.2.1
      · obtain ⟨hq₁, hg₁, -⟩ := hold hq hqp hg
        obtain ⟨hq₂, hg₂, -⟩ := hold hq' hqp' hg'
        exact hs.inj q q' g hq₁ hq₂ hg₁ hg₂

/-- The functions on user pages and directories leave the heap alone. -/
theorem Shows.leaves (hspaces : Spaces K dirs' c')
    (hl : Leaves (fun g => ¬GapFrame K c.mem g) K dirs c dirs' c')
    (hspare : ∀ g, Spare K dirs c g → Spare K dirs' c' g) :
    Shows K dirs' { h with pmm := c'.rest } c' := by
  have hk {q : ℕ} (hq : Owned h q) : kernelFrame K c'.mem q = kernelFrame K c.mem q :=
    kernelFrame_congr hl.kernel (hs.slot hq)
  refine ⟨hspaces, rfl, hs.heapMax, hs.range, fun a ha => ?_, fun q g hq hg => ?_,
    fun q q' g hq hq' hg hg' => ?_⟩
  · obtain ⟨g, hg, hbyte⟩ := hs.page a ha
    have hsp := hs.own _ g (.inl ha) hg
    refine ⟨g, (hk (.inl ha)).trans hg, (hl.bytes g (fun hgap => ?_) hsp _ ?_).trans hbyte⟩
    · exact hs.ne_first ha (hs.inj _ _ g (.inl ha) (.inr rfl) hg hgap)
    · exact frameOf_add hsp.aligned (Nat.mod_lt _ (by norm_num))
  · exact hspare g (hs.own q g hq ((hk hq).symm.trans hg))
  · exact hs.inj q q' g hq hq' ((hk hq).symm.trans hg) ((hk hq').symm.trans hg')

end

end Shows

/-! ## What is not of the heap -/

/-- Between two states the heap has grown and its pages have been written: the other pages of the
kernel half are mapped as before, and the other frames without a use are as before. -/
structure Apart (K : Kernel) (dirs : List ℕ) (h : Heap) (c : View Pmm) (h' : Heap)
    (c' : View Pmm) : Prop where
  cr3 : c'.cr3 = c.cr3
  scratch : entry c'.mem c.cr3 1022 = entry c.mem c.cr3 1022
  mapped : ∀ p, h.mapped p = true → h'.mapped p = true
  page : ∀ p, KernelSlot (p / 1024) → h'.mapped p ≠ true →
    kernelFrame K c'.mem p = kernelFrame K c.mem p
  frame : ∀ f, Spare K dirs c f → (∀ p, h.mapped p = true → kernelFrame K c.mem p ≠ some f) →
    Spare K dirs c' f ∧ (∀ p, h'.mapped p = true → kernelFrame K c'.mem p ≠ some f) ∧
      ∀ a, frameOf a = f → c'.mem a = c.mem a

section Apart

variable {K : Kernel} {dirs : List ℕ} {h h' h'' : Heap} {c c' c'' : View Pmm} {a f n : ℕ}

theorem Apart.refl (K : Kernel) (dirs : List ℕ) (h : Heap) (c : View Pmm) : Apart K dirs h c h c :=
  ⟨rfl, rfl, fun _ hp => hp, fun _ _ _ => rfl, fun _ hf hp => ⟨hf, hp, fun _ _ => rfl⟩⟩

theorem Apart.trans (h₁ : Apart K dirs h c h' c') (h₂ : Apart K dirs h' c' h'' c'') :
    Apart K dirs h c h'' c'' := by
  refine ⟨h₂.cr3.trans h₁.cr3, ?_, fun p hp => h₂.mapped p (h₁.mapped p hp), fun p hp hm => ?_,
    fun f hf hp => ?_⟩
  · rw [← h₁.scratch, ← h₁.cr3]
    exact h₂.scratch
  · rw [h₂.page p hp hm, h₁.page p hp fun hm' => hm (h₂.mapped p hm')]
  · obtain ⟨hf₁, hp₁, hb₁⟩ := h₁.frame f hf hp
    obtain ⟨hf₂, hp₂, hb₂⟩ := h₂.frame f hf₁ hp₁
    exact ⟨hf₂, hp₂, fun a ha => (hb₂ a ha).trans (hb₁ a ha)⟩

theorem Shows.apart_put8 (hs : Shows K dirs h c) (ha : h.mapped (a / 4096) = true)
    (hf : kernelFrame K c.mem (a / 4096) = some f) (x : UInt8) :
    Apart K dirs h c { h with mem := h.mem.put8 a x }
      { c with mem := c.mem.put8 (f + a % 4096) x } := by
  have hspare := hs.own _ f (.inl ha) hf
  have hframe : frameOf (f + a % 4096) = f :=
    frameOf_add hspare.aligned (Nat.mod_lt _ (by norm_num))
  have honly : OnlyIn f c.mem (c.mem.put8 (f + a % 4096) x) := by
    nth_rw 1 [← hframe]
    exact onlyIn_put8 x
  have htab := hs.spaces.sameTables hspare.not_isTable honly
  have hk {q : ℕ} (hq : KernelSlot (q / 1024)) :
      kernelFrame K (c.mem.put8 (f + a % 4096) x) q = kernelFrame K c.mem q :=
    kernelFrame_congr (fun t ht => htab t (.inr ht)) hq
  refine ⟨rfl, htab _ (.inl (.inl hs.spaces.current)) _ (by norm_num), fun _ hp => hp,
    fun p hp _ => hk hp, fun g hg hnot => ⟨hg.data htab.user, fun p hp => ?_, fun b hb => ?_⟩⟩
  · show kernelFrame K (c.mem.put8 (f + a % 4096) x) p ≠ some g
    rw [hk (hs.slot (.inl hp))]
    exact hnot p hp
  · refine honly b fun he => hnot _ ha ?_
    rw [hf, ← he, hb]

end Apart

/-! ## Simulation -/

/-- The globals of the model. -/
def varsOf (h : Heap) : HeapVars := ⟨h.freeListHead, h.heapMax⟩

/-- The heap does not end before where it has ended. -/
def Grows {α : Type} (x : HeapM α) : Prop := ∀ h r, x.run h = .ok r → h.heapMax ≤ r.2.heapMax

/-- Where `x` returns or stops at the window on the heap of the model, `y` returns what `x` returns,
or stops, on a machine that shows this heap, and leaves what is not of the heap alone. It stops
only where `x` stops or the heap ends at the window. -/
def Sim {α : Type} (b : Bool) (A : Stale) (K : Kernel) (dirs : List ℕ) (x : HeapM α)
    (y : PagedM α) : Prop :=
  Grows x ∧ ∀ h c, Shows K dirs h c → (∀ e, x.run h = .error e → e = windowFault) →
    Spec b A c (y.run (varsOf h)) A
      (fun r c' => ∃ h', x.run h = .ok (r.1, h') ∧ r.2 = varsOf h' ∧ Shows K dirs h' c' ∧
        Apart K dirs h c h' c') fun _ => ∀ r, x.run h = .ok r → ptsScratchWindow ≤ r.2.heapMax

section Sim

variable {α β : Type} {b : Bool} {A : Stale} {K : Kernel} {dirs : List ℕ} {h : Heap}
  {c : View Pmm} {F : View Pmm → Prop}

theorem sim_pure (a : α) : Sim b A K dirs (pure a) (pure a) := by
  refine ⟨fun h r hr => ?_, fun h c hs _ => ?_⟩
  · cases hr
    exact le_rfl
  exact spec_pure ⟨h, rfl, rfl, hs, Apart.refl _ _ _ _⟩

theorem Sim.bind {x : HeapM α} {y : PagedM α} {f : α → HeapM β} {g : α → PagedM β}
    (hx : Sim b A K dirs x y) (hf : ∀ a, Sim b A K dirs (f a) (g a)) :
    Sim b A K dirs (x >>= f) (y >>= g) := by
  -- the two parts of a computation that returns
  have hparts {h : Heap} {r : β × Heap} (hr : (x >>= f).run h = .ok r) :
      ∃ r', x.run h = .ok r' ∧ (f r'.1).run r'.2 = .ok r := by
    rw [StateT.run_bind] at hr
    cases hrun : x.run h with
    | error e =>
      rw [hrun] at hr
      cases hr
    | ok r' =>
      rw [hrun] at hr
      exact ⟨r', rfl, hr⟩
  refine ⟨fun h r hr => ?_, fun h c hs he => ?_⟩
  · obtain ⟨r', hr', hr⟩ := hparts hr
    exact (hx.1 h r' hr').trans ((hf _).1 _ r hr)
  have hx' := hx.2 h c hs fun e hxe => he e (by rw [StateT.run_bind, hxe]; rfl)
  rw [StateT.run_bind]
  refine (hx'.mono (fun _ _ hr => ⟨Steps.refl _ _ _, hr⟩) fun c' hF r hr => ?_).bind
    fun r c' hr => ?_
  · obtain ⟨r', hr', hr⟩ := hparts hr
    exact (hF r' hr').trans ((hf _).1 _ r hr)
  obtain ⟨h', hrun, hvars, hs', hap⟩ := hr
  have hcont : (x >>= f).run h = (f r.1).run h' := by rw [StateT.run_bind, hrun]; rfl
  rw [hvars]
  simp only [hcont] at he ⊢
  refine ((hf r.1).2 h' c' hs' he).post ?_
  rintro r' c'' ⟨h'', hrun', hvars', hs'', hap'⟩
  exact ⟨h'', hrun', hvars', hs'', hap.trans hap'⟩

theorem sim_head : Sim b A K dirs HeapCode.freeListHead HeapCode.freeListHead := by
  refine ⟨fun h r hr => ?_, fun h c hs _ => spec_pure ⟨h, rfl, rfl, hs, Apart.refl _ _ _ _⟩⟩
  cases hr
  exact le_rfl

theorem sim_max : Sim b A K dirs HeapCode.heapMax HeapCode.heapMax := by
  refine ⟨fun h r hr => ?_, fun h c hs _ => spec_pure ⟨h, rfl, rfl, hs, Apart.refl _ _ _ _⟩⟩
  cases hr
  exact le_rfl

theorem sim_setHead (x : ℕ) :
    Sim b A K dirs (HeapCode.setFreeListHead x) (HeapCode.setFreeListHead x) := by
  refine ⟨fun h r hr => ?_, fun h c hs _ => ?_⟩
  · cases hr
    exact le_rfl
  exact spec_pure ⟨_, rfl, rfl,
    ⟨hs.spaces, hs.rest, hs.heapMax, hs.range, hs.page, hs.own, hs.inj⟩,
    ⟨rfl, rfl, fun _ hp => hp, fun _ _ _ => rfl, fun _ hf hp => ⟨hf, hp, fun _ _ => rfl⟩⟩⟩

/-! ### Words -/

theorem spec_heapByte (hA : Sharp b A) (hs : Shows K dirs h c) {a : ℕ}
    (ha : h.mapped (a / 4096) = true) :
    Spec b A c (load8 a) A (fun r c' => r = h.mem a ∧ c' = c) F := by
  obtain ⟨f, hf, hbyte⟩ := hs.page a ha
  obtain ⟨g, hg⟩ := hs.spaces.lookup_kernel_some (hs.slot (.inl ha)) hf
  refine spec_load8 (hA.settled_kernel (hs.slot (.inl ha)))
    (fun _ => hs.spaces.self _ hs.spaces.current) (fun hnone => ?_) fun t ht => ?_
  · rw [hg] at hnone
    cases hnone
  · rw [hg] at ht
    cases ht
    exact ⟨hbyte, rfl⟩

theorem spec_putHeapByte (hA : Sharp b A) (hs : Shows K dirs h c) {a : ℕ}
    (ha : h.mapped (a / 4096) = true) (x : UInt8) :
    Spec b A c (store8 a x) A
      (fun _ c' => Shows K dirs { h with mem := h.mem.put8 a x } c' ∧
        Apart K dirs h c { h with mem := h.mem.put8 a x } c') F := by
  obtain ⟨f, hf, -⟩ := hs.page a ha
  obtain ⟨g, hg⟩ := hs.spaces.lookup_kernel_some (hs.slot (.inl ha)) hf
  have hself := hs.spaces.self _ hs.spaces.current
  have hspare := hs.own _ f (.inl ha) hf
  have honly : OnlyIn f c.mem (c.mem.put8 (f + a % 4096) x) := by
    nth_rw 1 [← frameOf_add hspare.aligned (Nat.mod_lt a (by norm_num : 0 < 4096))]
    exact onlyIn_put8 x
  have htab := hs.spaces.sameTables hspare.not_isTable honly
  refine spec_store8 (hA.settled_kernel (hs.slot (.inl ha))) (fun _ => hself) (fun hnone => ?_) x
    fun t ht => ?_
  · rw [hg] at hnone
    cases hnone
  · rw [hg] at ht
    cases ht
    exact ⟨hA.steps hself honly (fun _ => hs.spaces.offKernel hspare.apart)
      fun k hk _ _ => htab _ (.inl (.inl hs.spaces.current)) k hk, hs.put8 ha hf x,
      hs.apart_put8 ha hf x⟩

theorem mapped_word {a i : ℕ} (ha : h.mapped (a / pageSize) = true)
    (ha' : h.mapped ((a + 3) / pageSize) = true) (hi : i ≤ 3) :
    h.mapped ((a + i) / 4096) = true := by
  unfold pageSize at ha ha'
  by_cases hp : (a + i) / 4096 = a / 4096
  · rw [hp, ha]
  · rw [show (a + i) / 4096 = (a + 3) / 4096 by omega, ha']

section

variable (hA : Sharp b A) (hs : Shows K dirs h c) {a : ℕ} (ha : h.mapped (a / pageSize) = true)
  (ha' : h.mapped ((a + 3) / pageSize) = true)

include hA hs ha ha'

theorem spec_loadWord :
    Spec b A c (loadWord a) A (fun r c' => r = h.mem.get32 a ∧ c' = c) F := by
  have hb {i : ℕ} (hi : i ≤ 3) := spec_heapByte (F := F) hA hs (mapped_word ha ha' hi)
  unfold loadWord
  refine (hb (i := 0) (by omega)).bind ?_
  rintro _ _ ⟨rfl, rfl⟩
  refine (hb (i := 1) (by omega)).bind ?_
  rintro _ _ ⟨rfl, rfl⟩
  refine (hb (i := 2) (by omega)).bind ?_
  rintro _ _ ⟨rfl, rfl⟩
  refine (hb (i := 3) (by omega)).bind ?_
  rintro _ _ ⟨rfl, rfl⟩
  exact spec_pure ⟨rfl, rfl⟩

theorem spec_storeWord (v : ℕ) :
    Spec b A c (storeWord a v) A
      (fun _ c' => Shows K dirs { h with mem := h.mem.put32 a v } c' ∧
        Apart K dirs h c { h with mem := h.mem.put32 a v } c') F := by
  have hm {i : ℕ} (hi : i ≤ 3) := mapped_word ha ha' hi
  unfold storeWord
  refine (spec_putHeapByte hA hs (hm (i := 0) (by omega)) _).bind ?_
  rintro _ c₁ ⟨h₁, hap₁⟩
  refine (spec_putHeapByte hA h₁ (hm (i := 1) (by omega)) _).bind ?_
  rintro _ c₂ ⟨h₂, hap₂⟩
  refine (spec_putHeapByte hA h₂ (hm (i := 2) (by omega)) _).bind ?_
  rintro _ c₃ ⟨h₃, hap₃⟩
  rw [Bytes.put32_eq_put8]
  refine (spec_putHeapByte hA h₃ (hm (i := 3) (by omega)) _).post ?_
  rintro _ c₄ ⟨h₄, hap₄⟩
  exact ⟨h₄, ((hap₁.trans hap₂).trans hap₃).trans hap₄⟩

end

/-- Outside the heap of the model the machine stops too: such a word would be that of the window. -/
theorem window_of_fault {a : ℕ} (he : Stop.fault a = windowFault) : ptsScratchWindow ≤ a := by
  unfold windowFault at he
  rw [Stop.fault.inj he]
  decide

theorem below_window (hs : Shows K dirs h c) {a : ℕ} (ha : h.mapped (a / pageSize) = true) :
    ¬ptsScratchWindow ≤ a := by
  have hr := (hs.range _ ha).2
  have hmax := hs.heapMax.2.2
  unfold ptsScratchWindow pageSize at *
  omega

theorem spec_throw {R : α × HeapVars → View Pmm → Prop} (s : HeapVars)
    (hF : ∀ c, F c) :
    Spec b A c ((throw .pageFault : PagedM α).run s) A R F := by
  intro m _ _
  refine ⟨fun a m' hx => ?_, fun e m' hx => ?_⟩
  · cases hx
  · cases hx
    exact ⟨id, hF _⟩

theorem spec_lift {S : Type} {x : VmmM α} {s : S} {R : α → View Pmm → Prop}
    (hx : Spec b A c x A R F) :
    Spec b A c ((liftM x : StateT S VmmM α).run s) A (fun r c' => R r.1 c' ∧ r.2 = s) F :=
  hx.bind fun _ _ hr => spec_pure ⟨hr, rfl⟩

theorem sim_load (hA : Sharp b A) (a : ℕ) : Sim b A K dirs (HeapCode.load a) (load a) := by
  refine ⟨fun h r hr => ?_, fun h c hs he => ?_⟩
  · rw [run_load] at hr
    split at hr <;> cases hr
    exact le_rfl
  rw [run_load] at he ⊢
  unfold load
  by_cases hm : h.mapped (a / pageSize) ∧ h.mapped ((a + 3) / pageSize)
  · rw [if_pos hm, if_neg (below_window hs hm.1)]
    refine (spec_loadWord hA hs hm.1 hm.2).bind ?_
    rintro _ _ ⟨rfl, rfl⟩
    exact spec_pure ⟨h, rfl, rfl, hs, Apart.refl _ _ _ _⟩
  · rw [if_neg hm] at he ⊢
    rw [if_pos (window_of_fault (he _ rfl))]
    exact spec_throw _ fun _ r hr => by cases hr

theorem sim_store (hA : Sharp b A) (a v : ℕ) :
    Sim b A K dirs (HeapCode.store a v) (store a v) := by
  refine ⟨fun h r hr => ?_, fun h c hs he => ?_⟩
  · rw [run_store] at hr
    split at hr <;> cases hr
    exact le_rfl
  rw [run_store] at he ⊢
  unfold store
  by_cases hm : h.mapped (a / pageSize) ∧ h.mapped ((a + 3) / pageSize)
  · rw [if_pos hm, if_neg (below_window hs hm.1)]
    exact (spec_storeWord hA hs hm.1 hm.2 v).bind fun _ c' hs' =>
      spec_pure ⟨_, rfl, rfl, hs'.1, hs'.2⟩
  · rw [if_neg hm] at he ⊢
    rw [if_pos (window_of_fault (he _ rfl))]
    exact spec_throw _ fun _ r hr => by cases hr

/-! ### The next page -/

/-- The heap of the model with a new page at its end. -/
def growTo (h : Heap) (pmm : Pmm) : Heap :=
  { h with
    pmm := pmm
    mapped := update h.mapped (h.heapMax / pageSize) true
    mem := h.mem.fill h.heapMax 0 pageSize
    heapMax := add32 h.heapMax pageSize }

theorem run_page_none (hnone : (pmmAllocPage h.pmm).1 = 0) :
    nextHeapPage.run h = .ok (false, { h with pmm := (pmmAllocPage h.pmm).2 }) := by
  have hrun : (DvivonOS.vmmAllocKernelPageAt h.heapMax).run h =
      .ok (false, { h with pmm := (pmmAllocPage h.pmm).2 }) := by
    change (if (pmmAllocPage h.pmm).1 = 0 then _ else _ : HeapM Bool).run
      { h with pmm := (pmmAllocPage h.pmm).2 } = _
    rw [if_pos hnone]
    rfl
  unfold nextHeapPage
  simp only [StateT.run_bind, StateT.run_get, pure_bind, hrun]
  rfl

theorem run_page_some (hphys : (pmmAllocPage h.pmm).1 ≠ 0) (hwin : ¬ptsScratchWindow ≤ h.heapMax) :
    nextHeapPage.run h = .ok (true, growTo h (pmmAllocPage h.pmm).2) := by
  have hrun : (DvivonOS.vmmAllocKernelPageAt h.heapMax).run h = .ok (true, { h with
      pmm := (pmmAllocPage h.pmm).2
      mapped := update h.mapped (h.heapMax / pageSize) true
      mem := h.mem.fill h.heapMax 0 pageSize }) := by
    change (if (pmmAllocPage h.pmm).1 = 0 then _ else _ : HeapM Bool).run
      { h with pmm := (pmmAllocPage h.pmm).2 } = _
    rw [if_neg hphys, if_neg hwin]
    rfl
  unfold nextHeapPage
  simp only [StateT.run_bind, StateT.run_get, pure_bind, hrun]
  rfl

section

variable (hs : Shows K dirs h c) {c' : View Pmm} {n f : ℕ} (ht : Takes c.rest n f c'.rest)
  (hk : KernelPage K dirs { c with rest := c'.rest } (h.heapMax / 4096) f c')

include hs ht hk

/-- The new page of the model is the page that has been mapped. -/
theorem Shows.grow
    (hwin : ¬ptsScratchWindow ≤ h.heapMax) : Shows K dirs (growTo h c'.rest) c' := by
  obtain ⟨hal, hlo, -⟩ := hs.heapMax
  unfold kheapStart at hlo
  unfold ptsScratchWindow at hwin
  have hmax : (growTo h c'.rest).heapMax = h.heapMax + 4096 := by
    change add32 h.heapMax pageSize = _
    unfold add32 pageSize
    omega
  refine hs.newPage ht hk rfl ⟨?_, ?_, ?_⟩ (by omega) (fun q hq => update_of_ne hq _ _)
    (fun _ => ⟨?_, by omega⟩) fun a ha => ?_
  · omega
  · unfold kheapStart
    omega
  · unfold ptsScratchWindow
    omega
  · unfold kheapStart
    omega
  · change h.mem.fill h.heapMax 0 pageSize a = _
    unfold Bytes.fill pageSize
    exact if_congr (by omega) rfl rfl

theorem Shows.apart_grow :
    Apart K dirs h c (growTo h c'.rest) c' := by
  have hold {p : ℕ} (hp : p ≠ h.heapMax / 4096) : (growTo h c'.rest).mapped p = h.mapped p :=
    update_of_ne hp _ _
  have hnew : (growTo h c'.rest).mapped (h.heapMax / 4096) = true := update_self _ _ _
  refine ⟨hk.cr3, hk.directory _ hs.spaces.current _ (by norm_num), fun p hp => ?_,
    fun p hp hm => ?_, fun g hg hnot => ?_⟩
  · by_cases he : p = h.heapMax / 4096
    · rw [he, hnew]
    · rw [hold he, hp]
  · exact hk.other p hp fun he => hm (he ▸ hnew)
  · obtain ⟨hsp, hgf⟩ := hg.take hs.spaces ht
    obtain ⟨hsp', hbytes⟩ := hk.keeps g hgf hsp
    refine ⟨hsp', fun p hp hpage => ?_, hbytes⟩
    by_cases he : p = h.heapMax / 4096
    · rw [he, hk.page] at hpage
      exact hgf (Option.some.inj hpage).symm
    · rw [hold he] at hp
      rw [hk.other p (hs.slot (.inl hp)) he] at hpage
      exact hnot p hp hpage

end

theorem run_page_window (hphys : (pmmAllocPage h.pmm).1 ≠ 0) (hwin : ptsScratchWindow ≤ h.heapMax) :
    ∃ e, nextHeapPage.run h = .error e := by
  have hrun : ∃ e, (DvivonOS.vmmAllocKernelPageAt h.heapMax).run h = .error e := by
    change ∃ e, (if (pmmAllocPage h.pmm).1 = 0 then _ else _ : HeapM Bool).run
      { h with pmm := (pmmAllocPage h.pmm).2 } = _
    rw [if_neg hphys, if_pos hwin]
    exact ⟨_, rfl⟩
  obtain ⟨e, hrun⟩ := hrun
  refine ⟨e, ?_⟩
  unfold nextHeapPage
  simp only [StateT.run_bind, StateT.run_get, pure_bind, hrun]
  rfl

/-- The end of the heap moves by a page, below the window, or not at all. -/
theorem run_page_cases {r : Bool × Heap} (hr : nextHeapPage.run h = .ok r) :
    r.2.heapMax = h.heapMax ∨
      ¬ptsScratchWindow ≤ h.heapMax ∧ r.2.heapMax = add32 h.heapMax pageSize := by
  by_cases hphys : (pmmAllocPage h.pmm).1 = 0
  · rw [run_page_none hphys] at hr
    cases hr
    exact .inl rfl
  · by_cases hwin : ptsScratchWindow ≤ h.heapMax
    · obtain ⟨e, he⟩ := run_page_window hphys hwin
      rw [he] at hr
      cases hr
    · rw [run_page_some hphys hwin] at hr
      cases hr
      exact .inr ⟨hwin, rfl⟩

theorem sim_nextPage (hA : Sharp b A) (hK : K.Distinct) :
    Sim b A K dirs nextHeapPage nextPage := by
  refine ⟨fun h r hr => ?_, fun h c hs he => ?_⟩
  · obtain heq | ⟨hwin, heq⟩ := run_page_cases hr
    · exact heq.ge
    · rw [heq]
      unfold ptsScratchWindow at hwin
      unfold add32 pageSize
      omega
  change Spec _ _ _ ((if ptsScratchWindow ≤ h.heapMax then _ else _ : PagedM Bool).run _) _ _ _
  by_cases hwin : ptsScratchWindow ≤ h.heapMax
  · rw [if_pos hwin]
    refine spec_throw _ fun _ r hr => ?_
    obtain heq | ⟨hwin', -⟩ := run_page_cases hr
    · rw [heq]
      exact hwin
    · exact absurd hwin hwin'
  rw [if_neg hwin]
  obtain ⟨hal, hlo, -⟩ := hs.heapMax
  unfold kheapStart at hlo
  unfold ptsScratchWindow at hwin
  rw [StateT.run_bind]
  refine (spec_lift (spec_allocKernelPage hA.toKnown hs.spaces hK (by omega) (by omega) hal)).bind ?_
  rintro ⟨page, vars⟩ c' ⟨hr, rfl⟩
  obtain ⟨rfl, hfull, rfl⟩ | ⟨rfl, hphys, hrest, n, f, ht, hk⟩ := hr
  · rw [hs.rest] at hfull
    have hrun := run_page_none (h := h) (by rw [hfull])
    rw [hfull] at hrun
    exact spec_pure ⟨h, hrun, rfl, hs, Apart.refl _ _ _ _⟩
  · rw [hs.rest] at hphys hrest
    rw [run_page_some hphys hwin, ← hrest]
    exact spec_pure ⟨_, rfl, rfl, hs.grow ht hk hwin, hs.apart_grow ht hk⟩

theorem sim_outOfFuel {α : Type} : Sim b A K dirs (throw .outOfFuel : HeapM α) (throw .pageFault) := by
  refine ⟨fun h r hr => (by cases hr), fun h c _ he => ?_⟩
  exact absurd (he _ rfl) (by unfold windowFault; simp)

/-- The functions of the heap do the same on the model and on the machine. -/
theorem simulation (hA : Sharp b A) (hK : K.Distinct) :
    HeapCode.Simulation HeapM PagedM (Sim b A K dirs) where
  pure := sim_pure
  bind := Sim.bind
  load := sim_load hA
  store := sim_store hA
  freeListHead := sim_head
  setFreeListHead := sim_setHead
  heapMax := sim_max
  nextPage := sim_nextPage hA hK
  stop := sim_outOfFuel

theorem sim_kmalloc (hA : Sharp b A) (hK : K.Distinct) (size : ℕ) :
    Sim b A K dirs (DvivonOS.kmalloc size) (kmalloc size) :=
  (simulation hA hK).kmalloc size

theorem sim_kfree (hA : Sharp b A) (hK : K.Distinct) (ptr : ℕ) :
    Sim b A K dirs (DvivonOS.kfree ptr) (kfree ptr) :=
  (simulation hA hK).kfree ptr

end Sim

end DvivonOS.Windows.Paged
