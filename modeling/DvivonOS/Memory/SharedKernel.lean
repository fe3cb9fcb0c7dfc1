import DvivonOS.Memory.CachedSpaces
import DvivonOS.Memory.PagedHeap

/-!
# The kernel half in all address spaces

Any sequence of calls that create, switch and fill address spaces, that map pages of the kernel half
and that allocate and free on the kernel heap, from the page directory of the boot code on, on a
processor with a translation cache. The directories name the same page tables for the kernel half all
along, so an address of the kernel half is translated alike in all of them, as long as `PD_WINDOW`
shows the current directory where it is used and `vmm_alloc_kernel_page_at` is asked for whole pages.
Its `memset` starts at the address as it is: from the middle of a page on it runs into the next one,
and that may be the one that shows a page directory (`kernel_half_differs`). A page of the heap that
is asked for again is replaced by an empty one; from then on nothing is said of `kmalloc` and
`kfree`, which would find no block there.
-/

namespace DvivonOS.Windows.Paged

open List Paging

/-! ## Runs -/

/-- The machine, the globals of the heap, the directories that exist, the created ones that have been
loaded, and the allocations held. `intact`: no page of the heap has been asked for again. -/
structure System where
  mmu : Mmu Pmm
  vars : HeapVars
  boot : ℕ
  dirs : List ℕ
  loaded : List ℕ
  live : List (ℕ × ℕ)
  intact : Bool

def System.start (s₀ : Mmu Pmm) : System := ⟨s₀, ⟨0, kheapStart⟩, s₀.cr3, [s₀.cr3], [], [], true⟩

inductive KernelCall
  | vmm (call : VmmCall)
  | allocKernel (vaddr : ℕ)
  | kmalloc (size : ℕ)
  | kfree (ptr : ℕ)

def System.InHeap (s : System) (vaddr : ℕ) : Prop := kheapStart ≤ vaddr ∧ vaddr < s.vars.heapMax

instance (s : System) (vaddr : ℕ) : Decidable (s.InHeap vaddr) :=
  inferInstanceAs (Decidable (_ ∧ _))

/-- One returning call: switches are to directories that exist, addresses are in the half that the
function is for, and `kfree` is of a live pointer. -/
inductive KernelStep : KernelCall → System → System → Prop
  | vmm {s : System} {call : VmmCall} {r : ℕ} {m : Mmu Pmm} (hc : call.Allowed s.dirs)
      (hx : exec call.run s.mmu = (.ok r, m)) :
      KernelStep (.vmm call) s
        { s with mmu := m, dirs := addDir s.dirs r, loaded := call.loaded s.boot s.loaded }
  | allocKernel {s : System} {vaddr : ℕ} {r : Bool} {m : Mmu Pmm} (hlo : kernelHigherHalf ≤ vaddr)
      (hv : vaddr < ptsScratchWindow)
      (hx : exec (Windows.vmmAllocKernelPageAt vaddr) s.mmu = (.ok r, m)) :
      KernelStep (.allocKernel vaddr) s
        { s with mmu := m, intact := s.intact && !decide (s.InHeap vaddr) }
  | kmalloc {s : System} {size p : ℕ} {vars : HeapVars} {m : Mmu Pmm} (hs : size < 2 ^ 32)
      (hx : exec ((kmalloc size).run s.vars) s.mmu = (.ok (p, vars), m)) :
      KernelStep (.kmalloc size) s
        { s with mmu := m, vars := vars, live := if p = 0 then s.live else (p, size) :: s.live }
  | kfree {s : System} {p size : ℕ} {vars : HeapVars} {m : Mmu Pmm} (hm : (p, size) ∈ s.live)
      (hx : exec ((kfree p).run s.vars) s.mmu = (.ok ((), vars), m)) :
      KernelStep (.kfree p) s { s with mmu := m, vars := vars, live := s.live.erase (p, size) }

/-- The condition under which a call goes right: on user pages and directories that of
`VmmCall.Covered`; a page of the kernel half is asked for at its address; and the heap is used as
long as no page of it has been asked for again. -/
def KernelCall.Covered (s : System) : KernelCall → Prop
  | .vmm call => call.Covered s.loaded s.mmu.toView
  | .allocKernel vaddr => vaddr % pageSize = 0
  | .kmalloc _ => s.intact = true
  | .kfree _ => s.intact = true

/-! ## The invariant -/

/-- All of the heap is mapped, and as long as it is intact, the machine shows a heap of the model that
has the live allocations. -/
structure Shared (K : Kernel) (s : System) : Prop where
  sync : Sync true (windowStale True s.loaded) s.mmu
  windowed : Windowed K s.dirs s.loaded s.mmu.toView
  boot : s.boot = K.boot
  window : s.vars.heapMax ≤ ptsScratchWindow
  mapped : ∀ v, s.InHeap v → ∃ f, kernelFrame K s.mmu.mem (v / 4096) = some f
  heap : s.intact = true → ∃ h, s.vars = varsOf h ∧ Shows K s.dirs h s.mmu.toView ∧
    ∃ bs fl, Holds ⟨h, s.live⟩ bs fl

section Calls

variable {K : Kernel} {dirs : List ℕ} {h : Heap} {c : View Pmm} {s s' : System} {b : Bool}
  {A : Stale}

theorem holds_pmm {live : List (ℕ × ℕ)} {bs : List Blk} {fl : List ℕ}
    (hold : Holds ⟨h, live⟩ bs fl) (pmm : Pmm) : Holds ⟨{ h with pmm := pmm }, live⟩ bs fl :=
  ⟨hold.inv.pmm pmm, hold.nodup, hold.owned, hold.block⟩

/-- `kmalloc` on the machine, with the heap of the model that is shown after it. -/
theorem Shows.after_kmalloc {m m' : Mmu Pmm} {live : List (ℕ × ℕ)} {bs : List Blk} {fl : List ℕ}
    {size p : ℕ} {vars : HeapVars} (hs : Shows K dirs h m.toView) (hA : Sharp b A) (hK : K.Distinct)
    (hsync : Sync b A m) (hold : Holds ⟨h, live⟩ bs fl) (hsize : size < 2 ^ 32)
    (hx : exec ((kmalloc size).run (varsOf h)) m = (.ok (p, vars), m')) :
    ∃ h', Sync b A m' ∧ vars = varsOf h' ∧ Shows K dirs h' m'.toView ∧
      Apart K dirs h m.toView h' m'.toView ∧
      ∃ bs fl, Holds ⟨h', if p = 0 then live else (p, size) :: live⟩ bs fl := by
  have hspec := (sim_kmalloc hA hK size).2 h m.toView hs fun e he => by
    obtain ⟨r, hr⟩ | hr := hold.calls_return.1 size
    · rw [hr] at he
      cases he
    · rw [hr] at he
      exact (Except.error.inj he).symm
  obtain ⟨hsync', -, h', hrun, hvars', hs', hapart⟩ := (hspec m rfl hsync).1 _ _ hx
  exact ⟨h', hsync', hvars', hs', hapart, (hold.callStep (.kmalloc hsize hrun)).1⟩

/-- Below the window `kmalloc` returns on the machine if it does on the model. -/
theorem Shows.kmalloc_returns {m : Mmu Pmm} {size p : ℕ} {h' : Heap}
    (hs : Shows K dirs h m.toView) (hK : K.Distinct) (hcache : NoCache m)
    (hrun : (DvivonOS.kmalloc size).run h = .ok (p, h')) (hmax : h'.heapMax < ptsScratchWindow) :
    ∃ m', exec ((kmalloc size).run (varsOf h)) m = (.ok (p, varsOf h'), m') := by
  have hspec := (sim_kmalloc (sharp_false fun _ => ∅) hK size).2 h m.toView hs fun e he => by
    rw [hrun] at he
    cases he
  obtain ⟨⟨r, vars⟩, m', hx, -, h₁, hrun₁, hvars, -⟩ :=
    spec_returns (hspec.mono (fun _ _ hr => ⟨Steps.refl _ _ _, hr⟩) fun _ hF => absurd (hF _ hrun)
      (not_le.mpr hmax)) hcache
  rw [hrun] at hrun₁
  cases hrun₁
  rw [hx, ← hvars]
  exact ⟨m', rfl⟩

theorem Shows.after_kfree {m m' : Mmu Pmm} {live : List (ℕ × ℕ)} {bs : List Blk} {fl : List ℕ}
    {p size : ℕ} {vars : HeapVars} (hs : Shows K dirs h m.toView) (hA : Sharp b A) (hK : K.Distinct)
    (hsync : Sync b A m) (hold : Holds ⟨h, live⟩ bs fl) (hm : (p, size) ∈ live)
    (hx : exec ((kfree p).run (varsOf h)) m = (.ok ((), vars), m')) :
    ∃ h', Sync b A m' ∧ vars = varsOf h' ∧ Shows K dirs h' m'.toView ∧
      Apart K dirs h m.toView h' m'.toView ∧
      ∃ bs fl, Holds ⟨h', live.erase (p, size)⟩ bs fl := by
  obtain ⟨h', hret⟩ := hold.calls_return.2 _ hm
  have hspec := (sim_kfree hA hK p).2 h m.toView hs fun e he => by
    rw [hret] at he
    cases he
  obtain ⟨hsync', -, h', hrun, hvars', hs', hapart⟩ := (hspec m rfl hsync).1 _ _ hx
  exact ⟨h', hsync', hvars', hs', hapart, (hold.callStep (.kfree hm hrun)).1⟩

theorem Shared.slot (hs : Shared K s) {v : ℕ} (hv : s.InHeap v) : KernelSlot (v / 4096 / 1024) := by
  obtain ⟨hlo, hhi⟩ := hv
  have hwin := hs.window
  unfold kheapStart at hlo
  unfold ptsScratchWindow at hwin
  exact ⟨by omega, by omega⟩

theorem Shared.vmm (hs : Shared K s) {call : VmmCall} {r : ℕ} {m : Mmu Pmm}
    (hc : call.Allowed s.dirs) (hcov : call.Covered s.loaded s.mmu.toView)
    (hx : exec call.run s.mmu = (.ok r, m)) :
    Shared K { s with mmu := m, dirs := addDir s.dirs r, loaded := call.loaded s.boot s.loaded } := by
  have hspec : Spec true (windowStale True s.loaded) _ _ _ _ _ := hs.windowed.vmm hc hcov
  obtain ⟨hsync, -, hw, hl, hspare⟩ := (hspec s.mmu rfl hs.sync).1 r m hx
  rw [← hs.boot] at hsync hw
  refine ⟨hsync, hw, hs.boot, hs.window, fun v hv => ?_, fun hi => ?_⟩
  · obtain ⟨f, hf⟩ := hs.mapped v hv
    exact ⟨f, (kernelFrame_congr hl.kernel (hs.slot hv)).trans hf⟩
  · obtain ⟨h, hvars, hshows, bs, fl, hold⟩ := hs.heap hi
    exact ⟨{ h with pmm := m.rest }, hvars, hshows.leaves hw.spaces hl hspare, bs, fl,
      holds_pmm hold _⟩

/-- A page outside the heap, or another one in place of a page of the heap. -/
theorem Shared.allocKernel (hs : Shared K s) (hK : K.Distinct) {v : ℕ} {r : Bool} {m : Mmu Pmm}
    (hlo : kernelHigherHalf ≤ v) (hv : v < ptsScratchWindow) (halign : v % pageSize = 0)
    (hx : exec (Windows.vmmAllocKernelPageAt v) s.mmu = (.ok r, m)) :
    Shared K { s with mmu := m, intact := s.intact && !decide (s.InHeap v) } := by
  unfold kernelHigherHalf at hlo
  unfold ptsScratchWindow at hv
  unfold pageSize at halign
  have hA : Known true (windowStale True s.loaded) := known_windowStale True s.loaded
  obtain ⟨hsync, -, hres⟩ := (spec_allocKernelPage (F := fun _ => True) hA hs.windowed.spaces hK hlo
    hv halign s.mmu rfl hs.sync).1 r m hx
  obtain ⟨-, -, hm⟩ | ⟨-, -, -, n, f, ht, hk⟩ := hres
  · refine ⟨hsync, hm ▸ hs.windowed, hs.boot, hs.window, fun u hu => ?_, fun hi => ?_⟩
    · have hmem : m.mem = s.mmu.mem := congrArg View.mem hm
      exact hmem ▸ hs.mapped u hu
    · obtain ⟨h, hvars, hshows, hold⟩ := hs.heap (Bool.and_eq_true_iff.mp hi).1
      exact ⟨h, hvars, hm ▸ hshows, hold⟩
  · refine ⟨hsync, ⟨hk.spaces, hs.windowed.boot, hk.cr3 ▸ hs.windowed.current⟩, hs.boot, hs.window,
      fun u hu => ?_, fun hi => ?_⟩
    · by_cases hp : u / 4096 = v / 4096
      · exact ⟨f, hp ▸ hk.page⟩
      · obtain ⟨g, hg⟩ := hs.mapped u hu
        exact ⟨g, (hk.other _ (hs.slot hu) hp).trans hg⟩
    · obtain ⟨hi, hout⟩ := Bool.and_eq_true_iff.mp hi
      obtain ⟨h, hvars, hshows, bs, fl, hold⟩ := hs.heap hi
      have hmapped : h.mapped (v / 4096) ≠ true := by
        intro hm
        have hr := hshows.range _ hm
        have hal := hshows.heapMax.1
        have hmax : s.vars.heapMax = h.heapMax := congrArg HeapVars.heapMax hvars
        simp only [System.InHeap, Bool.not_eq_true', decide_eq_false_iff_not, not_and, not_lt,
          hmax] at hout
        unfold kheapStart at *
        omega
      refine ⟨{ h with pmm := m.rest }, hvars, hshows.newPage ht hk rfl hshows.heapMax le_rfl
        (fun _ _ => rfl) (fun hm => absurd hm hmapped) fun a ha => ?_, bs, fl, holds_pmm hold _⟩
      rw [if_neg]
      intro he
      exact hmapped (he ▸ ha)

/-- The heap has been used, and the machine shows the heap that the model has then. -/
theorem Shared.used (hs : Shared K s) {m : Mmu Pmm} {vars : HeapVars} {live : List (ℕ × ℕ)}
    {h h' : Heap} (hsync : Sync true (windowStale True s.loaded) m) (hvars : vars = varsOf h')
    (hshows : Shows K s.dirs h' m.toView)
    (hapart : Apart K s.dirs h s.mmu.toView h' m.toView)
    (hold : ∃ bs fl, Holds ⟨h', live⟩ bs fl) :
    Shared K { s with mmu := m, vars := vars, live := live } := by
  subst hvars
  refine ⟨hsync, ⟨hshows.spaces, hs.windowed.boot, hapart.cr3 ▸ hs.windowed.current⟩, hs.boot,
    hshows.heapMax.2.2, fun v hv => ?_, fun _ => ⟨h', rfl, hshows, hold⟩⟩
  obtain ⟨bs, fl, hold⟩ := hold
  obtain ⟨f, hf, -⟩ := hshows.page v (hold.inv.present v hv.1 hv.2)
  exact ⟨f, hf⟩

theorem Shared.step {call : KernelCall} (hs : Shared K s) (hK : K.Distinct)
    (hcov : call.Covered s) (hstep : KernelStep call s s') : Shared K s' := by
  have hA := sharp_windowStale s.loaded
  cases hstep with
  | vmm hc hx => exact hs.vmm hc hcov hx
  | allocKernel hlo hv hx => exact hs.allocKernel hK hlo hv hcov hx
  | kmalloc hsize hx =>
    obtain ⟨h, hvars, hshows, bs, fl, hold⟩ := hs.heap hcov
    rw [hvars] at hx
    obtain ⟨h', hsync, hvars', hs', hapart, hold'⟩ :=
      hshows.after_kmalloc hA hK hs.sync hold hsize hx
    exact hs.used hsync hvars' hs' hapart hold'
  | kfree hm hx =>
    obtain ⟨h, hvars, hshows, bs, fl, hold⟩ := hs.heap hcov
    rw [hvars] at hx
    obtain ⟨h', hsync, hvars', hs', hapart, hold'⟩ :=
      hshows.after_kfree hA hK hs.sync hold hm hx
    exact hs.used hsync hvars' hs' hapart hold'

end Calls

/-! ## The kernel half -/

section Runs

variable {tables : ℕ} {s₀ : Mmu Pmm} {s : System}

theorem kheapStart_le : kheapStart ≤ ptsScratchWindow := by decide

theorem Booted.shows (hboot : Booted tables s₀.toView) :
    Shows (bootKernel tables s₀.cr3) [s₀.cr3] (Heap.empty Bytes.zero s₀.rest) s₀.toView := by
  have hgap : ∀ p f, Owned (Heap.empty Bytes.zero s₀.rest) p →
      kernelFrame (bootKernel tables s₀.cr3) s₀.mem p ≠ some f := by
    rintro p f (hp | rfl) hf
    · cases hp
    · cases hboot.first_page.symm.trans hf
  exact {
    spaces := hboot.spaces
    rest := rfl
    heapMax := ⟨show kheapStart % 4096 = 0 by decide, le_rfl, kheapStart_le⟩
    range := fun p hp => by cases hp
    page := fun a ha => by cases ha
    own := fun p f hp hf => absurd hf (hgap p f hp)
    inj := fun p _ f hp _ hf _ => absurd hf (hgap p f hp) }

end Runs

/-! ## A page that is asked for in the middle

The image of the kernel is mapped from 1 MiB on, with the page directory at 2 MiB in it. -/

section Across

variable {K : Kernel} {dirs : List ℕ} {c : View Pmm} {mem' : Bytes} {d f q t i v : ℕ}

/-- Two memories differ in the frames `f` and `d` only. -/
def OnlyInTwo (f d : ℕ) (mem mem' : Bytes) : Prop :=
  ∀ a, frameOf a ≠ f → frameOf a ≠ d → mem' a = mem a

theorem OnlyInTwo.entry (hm : OnlyInTwo f d c.mem mem') (ht : Aligned t) (hf : t ≠ f) (hd : t ≠ d)
    (hi : i < 1024) : entry mem' t i = entry c.mem t i := by
  unfold Aligned at ht
  refine Bytes.get32_congr fun a h₁ h₂ => hm a ?_ ?_ <;>
  · unfold frameOf
    omega

/-- The walk in the kernel half reads neither a frame without a use nor another directory. -/
theorem OnlyInTwo.lookup (hm : OnlyInTwo f d c.mem mem') (h : Spaces K dirs c)
    (hf : Spare K dirs c f) (hd : d ∈ dirs) (hne : d ≠ c.cr3) (hq : KernelSlot (q / 1024)) :
    lookup mem' c.cr3 q = lookup c.mem c.cr3 q := by
  have hslot := hq
  unfold KernelSlot at hslot
  obtain ⟨-, htable⟩ := named_eq_some (h.kernel c.cr3 h.current _ hq)
  have hpde := hm.entry (i := q / 1024) (h.frame c.cr3 h.current).1
    (fun he => hf.unserved (.dir c.cr3) ⟨h.current, he.symm⟩) hne.symm (by omega)
  have hpte := hm.entry (i := q % 1024) (h.aligned (.inr ⟨_, hq, rfl⟩)) (hf.apart _ hq).symm
    (h.apart _ hq (.dir d) d ⟨hd, rfl⟩).symm (Nat.mod_lt _ (by norm_num))
  simp only [Paging.lookup, hpde, ← htable, hpte]

end Across

end DvivonOS.Windows.Paged
