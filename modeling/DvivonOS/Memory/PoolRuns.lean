import DvivonOS.Memory.PoolCalls

/-!
# Runs of the page pool

Any sequence of `vmm_alloc_kernel_page`, `vmm_free_kernel_page`, writes of owners to their pages,
`kmalloc` and `kfree`, from the boot code on.

The heap and the pool share the kernel half: the heap maps the page at `heap_max` without a look at
what is there, and the pool hands out any page that is not mapped. As long as it finds one below the
start of the heap the two do not meet (`pages_kept_apart`). When all of that range is in use, the next
page is the one that the heap will take (`page_remapped`).
-/

namespace DvivonOS.Windows.Pool

open Function List Paged Paging

/-! ## Runs -/

/-- The machine, the globals of the pool and of the heap, the pages that have been handed out, and the
allocations held. -/
structure PageSys where
  mmu : Mmu Pmm
  list : PoolVars
  vars : HeapVars
  live : List ℕ
  blocks : List (ℕ × ℕ)

def PageSys.boot (s₀ : Mmu Pmm) : PageSys := ⟨s₀, .init, ⟨0, kheapStart⟩, [], []⟩

inductive PageCall
  | alloc
  | free (vaddr : ℕ)
  | write (vaddr i : ℕ) (value : UInt8)
  | kmalloc (size : ℕ)
  | kfree (ptr : ℕ)

/-- One returning call: pages are given back and written to by their owners, and `kfree` is of a live
pointer. -/
inductive PageStep : PageCall → PageSys → PageSys → Prop
  | alloc {s : PageSys} {r : ℕ} {list : PoolVars} {m : Mmu Pmm}
      (hx : exec (vmmAllocKernelPage.run s.list) s.mmu = (.ok (r, list), m)) :
      PageStep .alloc s
        { s with mmu := m, list := list, live := if r = 0 then s.live else r :: s.live }
  | free {s : PageSys} {v : ℕ} {list : PoolVars} {m : Mmu Pmm} (hv : v ∈ s.live)
      (hx : exec ((vmmFreeKernelPage v).run s.list) s.mmu = (.ok ((), list), m)) :
      PageStep (.free v) s { s with mmu := m, list := list, live := s.live.erase v }
  | write {s : PageSys} {v i : ℕ} {value : UInt8} {m : Mmu Pmm} (hv : v ∈ s.live)
      (hi : i < pageSize) (hx : exec (store8 (v + i) value) s.mmu = (.ok (), m)) :
      PageStep (.write v i value) s { s with mmu := m }
  | kmalloc {s : PageSys} {size p : ℕ} {vars : HeapVars} {m : Mmu Pmm} (hs : size < 2 ^ 32)
      (hx : exec ((Paged.kmalloc size).run s.vars) s.mmu = (.ok (p, vars), m)) :
      PageStep (.kmalloc size) s
        { s with mmu := m, vars := vars, blocks := if p = 0 then s.blocks else (p, size) :: s.blocks }
  | kfree {s : PageSys} {p size : ℕ} {vars : HeapVars} {m : Mmu Pmm} (hm : (p, size) ∈ s.blocks)
      (hx : exec ((Paged.kfree p).run s.vars) s.mmu = (.ok ((), vars), m)) :
      PageStep (.kfree p) s { s with mmu := m, vars := vars, blocks := s.blocks.erase (p, size) }

/-- A call of the pool, or a write to one of its pages. -/
def PageCall.OfPages : PageCall → Prop
  | .kmalloc _ => False
  | .kfree _ => False
  | _ => True

/-- The page that is asked for comes from the list or is below `top`, unless there is no frame. -/
def PageCall.Fits (top : ℕ) (s : PageSys) : PageCall → Prop
  | .alloc => 0 < s.list.count ∨ (pmmAllocPage s.mmu.rest).1 = 0 ∨
      ∃ v, kernelHigherHalf ≤ v ∧ v < top ∧ lookup s.mmu.mem s.mmu.cr3 (v / pageSize) = none
  | _ => True

/-! ## The invariant -/

/-- What holds between two calls. The pages that are mapped at the start stay mapped, and are not
handed out. -/
structure Good (K : Kernel) (dirs : List ℕ) (top : ℕ) (mem₀ : Bytes) (s : PageSys) (h : Heap)
    (P : Pages) (ns : List ℕ) : Prop where
  noCache : NoCache s.mmu
  vars : s.vars = varsOf h
  kept : Kept K dirs top h P s.list s.live ns s.mmu.toView
  le : ns.length ≤ vmmFreeListMaxSize
  holds : ∃ bs fl, Holds ⟨h, s.blocks⟩ bs fl
  image : ∀ p, KernelSlot (p / 1024) → kernelFrame K mem₀ p ≠ none → P.frame p ≠ none
  apart : ∀ v ∈ P.held, kernelFrame K mem₀ (v / 4096) = none

section Steps

variable {K : Kernel} {dirs : List ℕ} {top : ℕ} {mem₀ : Bytes} {s s' : PageSys} {h : Heap}
  {P : Pages} {ns : List ℕ} {c : View Pmm} {l : PoolVars} {live : List ℕ} {v i : ℕ}
  {F : View Pmm → Prop}

theorem Views.frame_lookup (hV : Views K dirs top h P c) {p : ℕ} (hp : KernelSlot (p / 1024)) :
    (Paging.lookup c.mem c.cr3 p).map (·.frame) = P.frame p := by
  rw [hV.shows.spaces.lookup_kernel hV.shows.spaces.current hp, Option.map_map, ← hV.frames p hp]
  exact Option.map_id'

theorem Kept.write (hk : Kept K dirs top h P l live ns c) (hv : v ∈ live) (hi : i < 4096)
    (b : UInt8) :
    Uncached c (store8 (v + i) b)
      (fun _ c' => Kept K dirs top h { P with mem := P.mem.put8 (v + i) b } l live ns c') F := by
  refine (spec_storeByte hk.views (hk.mem_live hv) hi b).post ?_
  intro _ c' hV
  refine ⟨hV, ⟨hk.listed.linked.congr fun u hu => ?_, hk.listed.tail,
    hk.listed.count⟩, hk.held, hk.lastFree⟩
  -- the pages of the list are others
  have hne : u ≠ v := by
    rintro rfl
    exact disjoint_of_nodup_append hk.nodup hv hu
  obtain ⟨hual, -⟩ := hk.views.range u (hk.mem_list hu)
  obtain ⟨hval, -⟩ := hk.views.range v (hk.mem_live hv)
  constructor
  · exact Bytes.get32_congr fun a h₁ h₂ => Bytes.put8_of_ne _ _ (by unfold nextField at *; omega)
  · exact Bytes.get32_congr fun a h₁ h₂ => Bytes.put8_of_ne _ _ (by unfold prevField at *; omega)

section Good

variable (hg : Good K dirs top mem₀ s h P ns)

include hg

theorem Good.mem_live (hv : v ∈ s.live) : v ∈ P.held :=
  hg.kept.mem_live hv

theorem Good.fits (hfit : top = 0xFF800000 ∧ (∀ c, F c) ∨ PageCall.Fits top s .alloc) :
    ns ≠ [] ∨ (pmmAllocPage s.mmu.rest).1 = 0 ∨
      (∃ q, 0xC0000 ≤ q ∧ 4096 * q < top ∧ P.frame q = none) ∨ top = 0xFF800000 ∧ ∀ c, F c := by
  obtain htop | hcount | hfull | ⟨v, hlo, hv, hnone⟩ := hfit
  · exact .inr (.inr (.inr htop))
  · exact .inl (hg.kept.listed.count_pos.mp hcount)
  · exact .inr (.inl hfull)
  · have htop := hg.kept.views.top_le
    unfold kernelHigherHalf at hlo
    refine .inr (.inr (.inl ⟨v / pageSize, ?_, ?_, ?_⟩))
    · unfold pageSize
      omega
    · unfold pageSize
      omega
    · rw [← hg.kept.views.frame_lookup ⟨by unfold pageSize; omega, by unfold pageSize; omega⟩]
      exact Option.map_eq_none_iff.mpr hnone

theorem Good.alloc (hK : K.Distinct) (hfit : top = 0xFF800000 ∨ PageCall.Fits top s .alloc) {r : ℕ}
    {list : PoolVars} {m : Mmu Pmm}
    (hx : exec (vmmAllocKernelPage.run s.list) s.mmu = (.ok (r, list), m)) :
    ∃ h' P' ns', Good K dirs top mem₀
        { s with mmu := m, list := list, live := if r = 0 then s.live else r :: s.live } h' P' ns' ∧
      ∀ v ∈ s.live, P'.frame (v / 4096) = P.frame (v / 4096) := by
  have hspec := hg.kept.alloc hK hg.le
    (hg.fits (F := fun _ => True) (hfit.imp_left fun h => ⟨h, fun _ => trivial⟩))
  obtain ⟨hcache, hres⟩ := (spec_noCache hspec hg.noCache).1 _ _ hx
  obtain ⟨bs, fl, hold⟩ := hg.holds
  obtain ⟨ns', x, rfl, rfl, hk⟩ | ⟨rfl, rfl, rfl, hm, -⟩ | ⟨rfl, q, k, f, hlow, hq, rfl, -, hk⟩ := hres
  · -- the page at the tail of the list
    have hr0 : r ≠ 0 := (hk.views.address (hk.mem_live mem_cons_self)).2.1
    have hle := hg.le
    rw [length_append, length_singleton] at hle
    refine ⟨h, { P with mem := popMem s.list P.mem }, ns', ⟨hcache, hg.vars, ?_, by omega, hg.holds,
      hg.image, hg.apart⟩, fun _ _ => rfl⟩
    show Kept K dirs top h _ list (if r = 0 then s.live else r :: s.live) ns' m.toView
    rw [if_neg hr0]
    exact hk
  · exact ⟨h, P, [], ⟨hcache, hg.vars, hm ▸ hg.kept, hg.le, hg.holds, hg.image, hg.apart⟩,
      fun _ _ => rfl⟩
  · have hlo := hlow.1
    have hfree := hlow.2.1
    have htop := hg.kept.views.top_le
    have hkeep {p : ℕ} (hp : P.frame p ≠ none) : update P.frame q (some f) p = P.frame p := by
      apply update_of_ne
      rintro rfl
      exact hp hfree
    have hr0 : 4096 * q ≠ 0 := by omega
    refine ⟨{ h with pmm := m.rest }, ⟨4096 * q :: P.held, update P.frame q (some f),
      P.mem.fill (4096 * q) 0 4096⟩, [], ⟨hcache, hg.vars, ?_, hg.le, ⟨bs, fl, holds_pmm hold _⟩,
      fun p hp himg => ?_, fun v hv => ?_⟩, fun v hv => ?_⟩
    · show Kept K dirs top _ _ list (if 4096 * q = 0 then s.live else 4096 * q :: s.live) [] m.toView
      rw [if_neg hr0]
      exact hk
    · have hp' := hg.image p hp himg
      dsimp only
      rw [hkeep hp']
      exact hp'
    · obtain rfl | hv := mem_cons.mp hv
      · by_contra himg
        rw [show 4096 * q / 4096 = q by omega] at himg
        exact hg.image q ⟨by omega, by omega⟩ himg hfree
      · exact hg.apart v hv
    · obtain ⟨g, hg', -⟩ := hg.kept.views.page v (hg.mem_live hv)
      dsimp only
      apply hkeep
      rw [hg']
      exact Option.some_ne_none g

theorem Good.free (hK : K.Distinct) (hv : v ∈ s.live) {list : PoolVars} {m : Mmu Pmm}
    (hx : exec ((vmmFreeKernelPage v).run s.list) s.mmu = (.ok ((), list), m)) :
    ∃ h' P' ns', Good K dirs top mem₀ { s with mmu := m, list := list, live := s.live.erase v }
        h' P' ns' ∧
      (∀ u ∈ s.live, P'.frame (u / 4096) = P.frame (u / 4096)) ∧
      (ns' = v :: ns ∧ m.rest = s.mmu.rest ∨ ∃ x f, v :: ns = ns' ++ [x] ∧
        P.frame (x / 4096) = some f ∧ P'.frame (x / 4096) = none ∧
        m.rest = pmmFreePage s.mmu.rest f) := by
  obtain ⟨hcache, hres⟩ := (spec_noCache (hg.kept.free (F := fun _ => True) hK hg.le hv)
    hg.noCache).1 _ _ hx
  obtain ⟨bs, fl, hold⟩ := hg.holds
  obtain ⟨hlt, hk⟩ | ⟨ns', x, f, rfl, hf, hlt, hrest, w, hk⟩ := hres
  · have hle : (v :: ns).length ≤ vmmFreeListMaxSize := hlt
    have hrest : m.rest = s.mmu.rest := hk.views.shows.rest.trans hg.kept.views.shows.rest.symm
    exact ⟨h, _, v :: ns, ⟨hcache, hg.vars, hk, hle, hg.holds, hg.image, hg.apart⟩, fun _ _ => rfl,
      .inl ⟨rfl, hrest⟩⟩
  · -- the page at the tail is not one that is live, and not one of the image
    have hx : x ∈ P.held := hg.kept.mem_list (by simp)
    have hle : (v :: ns').length ≤ vmmFreeListMaxSize := hlt
    have hkeep {p : ℕ} (hp : p ≠ x / 4096) :
        update P.frame (x / 4096) none p = P.frame p := update_of_ne hp _ _
    refine ⟨{ h with pmm := m.rest }, { P with mem := w }.drop x, v :: ns', ⟨hcache, hg.vars, hk, hle, ⟨bs, fl, holds_pmm hold _⟩,
      fun p hp himg => ?_, fun u hu => hg.apart u (mem_of_mem_erase hu)⟩, fun u hu => ?_,
      .inr ⟨x, f, rfl, hf, update_self _ _ _, hrest⟩⟩
    · unfold Pages.drop
      dsimp only
      rw [hkeep]
      · exact hg.image p hp himg
      · rintro rfl
        exact himg (hg.apart x hx)
    · unfold Pages.drop
      dsimp only
      apply hkeep
      obtain ⟨hual, -⟩ := hg.kept.views.range u (hg.mem_live hu)
      obtain ⟨hxal, -⟩ := hg.kept.views.range x hx
      intro he
      have hux : u = x := by omega
      exact disjoint_of_nodup_append hg.kept.nodup hu (by simp [hux])

theorem Good.heap (htop : top ≤ kheapStart) {m : Mmu Pmm} {h' : Heap} {vars : HeapVars}
    {blocks : List (ℕ × ℕ)} (hcache : NoCache m) (hvars : vars = varsOf h')
    (hs : Paged.Shows K dirs h' m.toView) (ha : Paged.Apart K dirs h s.mmu.toView h' m.toView)
    (hold : ∃ bs fl, Holds ⟨h', blocks⟩ bs fl) :
    ∃ P', Good K dirs top mem₀ { s with mmu := m, vars := vars, blocks := blocks } h' P' ns ∧
      ∀ v ∈ s.live, P'.frame (v / 4096) = P.frame (v / 4096) := by
  have hV := hg.kept.views.heapUsed htop hs ha
  refine ⟨_, ⟨hcache, hvars, ⟨hV, hg.kept.listed, hg.kept.held, hg.kept.lastFree⟩, hg.le, hold,
    fun p hp himg => ?_, hg.apart⟩, fun v hv => ?_⟩
  · dsimp only
    split
    case isTrue hm =>
      obtain ⟨f, hf, -⟩ := hs.page (4096 * p) (by rwa [show 4096 * p / 4096 = p by omega])
      rw [show 4096 * p / 4096 = p by omega] at hf
      rw [hf]
      exact Option.some_ne_none f
    case isFalse => exact hg.image p hp himg
  · dsimp only
    rw [if_neg]
    intro hm
    have hlo := (hs.range _ hm).1
    have hlt := (hg.kept.views.range v (hg.mem_live hv)).2.2
    unfold kheapStart at hlo htop
    omega

theorem Good.step {call : PageCall} (hK : K.Distinct) (hfit : top = 0xFF800000 ∨ call.Fits top s)
    (hheap : top ≤ kheapStart ∨ call.OfPages) (hstep : PageStep call s s') :
    ∃ h' P' ns', Good K dirs top mem₀ s' h' P' ns' ∧
      ∀ v ∈ s.live, P'.frame (v / 4096) = P.frame (v / 4096) := by
  cases hstep with
  | alloc hx => exact hg.alloc hK hfit hx
  | free hv hx =>
    obtain ⟨h', P', ns', hg', hkeep, -⟩ := hg.free hK hv hx
    exact ⟨h', P', ns', hg', hkeep⟩
  | @write _ v i value m hv hi hx =>
    obtain ⟨hcache, hk⟩ := (spec_noCache (hg.kept.write (F := fun _ => True) hv hi value)
      hg.noCache).1 _ _ hx
    exact ⟨h, _, ns, ⟨hcache, hg.vars, hk, hg.le, hg.holds, hg.image, hg.apart⟩, fun _ _ => rfl⟩
  | kmalloc hs hx =>
    have htop := hheap.resolve_right fun hno => hno
    obtain ⟨bs, fl, hold⟩ := hg.holds
    rw [hg.vars] at hx
    obtain ⟨h', hcache, hvars, hs', ha, hold'⟩ :=
      hg.kept.views.shows.after_kmalloc (sharp_false fun _ => ∅) hK hg.noCache hold hs hx
    obtain ⟨P', hg', hkeep⟩ := hg.heap htop hcache hvars hs' ha hold'
    exact ⟨h', P', ns, hg', hkeep⟩
  | kfree hm hx =>
    have htop := hheap.resolve_right fun hno => hno
    obtain ⟨bs, fl, hold⟩ := hg.holds
    rw [hg.vars] at hx
    obtain ⟨h', hcache, hvars, hs', ha, hold'⟩ :=
      hg.kept.views.shows.after_kfree (sharp_false fun _ => ∅) hK hg.noCache hold hm hx
    obtain ⟨P', hg', hkeep⟩ := hg.heap htop hcache hvars hs' ha hold'
    exact ⟨h', P', ns, hg', hkeep⟩

end Good

end Steps

/-! ## From the boot code on -/

section Runs

variable {tables top : ℕ} {s₀ : Mmu Pmm} {s : PageSys}

section

variable (hboot : Booted tables s₀.toView) (hcache : NoCache s₀)
  (hscratch : entry s₀.mem s₀.cr3 1022 = 0) (htop : top ≤ 0xFF800000)

include hboot hcache hscratch htop

theorem good_boot :
    Good (bootKernel tables s₀.cr3) [s₀.cr3] top s₀.mem (PageSys.boot s₀)
      (Heap.empty Bytes.zero s₀.rest) ⟨[], kernelFrame (bootKernel tables s₀.cr3) s₀.mem, Bytes.zero⟩
      [] := by
  refine ⟨hcache, rfl, ⟨⟨Booted.shows hboot, ?_, fun _ _ => rfl, nodup_nil, by simp, htop, ?_, by simp,
    by simp, fun hne => absurd hboot.first_page hne⟩, ⟨rfl, rfl, rfl⟩, .nil, rfl⟩, Nat.zero_le _,
    ⟨[], [], Holds.initial Bytes.zero s₀.rest⟩, fun _ _ himg => himg, by simp⟩
  · show ¬IsPresent (entry s₀.mem s₀.cr3 1022)
    rw [hscratch]
    exact not_present_zero
  · intro p hp
    cases hp

theorem good_of_run {C : PageSys → PageCall → Prop}
    (hfit : ∀ s call, C s call → top = 0xFF800000 ∨ call.Fits top s)
    (hheap : ∀ s call, C s call → top ≤ kheapStart ∨ call.OfPages)
    (hr : Relation.ReflTransGen (fun s s' => ∃ call, C s call ∧ PageStep call s s') (PageSys.boot s₀)
      s) : ∃ h P ns, Good (bootKernel tables s₀.cr3) [s₀.cr3] top s₀.mem s h P ns := by
  induction hr with
  | refl => exact ⟨_, _, _, good_boot hboot hcache hscratch htop⟩
  | tail _ hstep ih =>
    obtain ⟨h, P, ns, hg⟩ := ih
    obtain ⟨call, hc, hstep⟩ := hstep
    obtain ⟨h', P', ns', hg', -⟩ := hg.step (bootKernel_distinct _ _) (hfit _ _ hc) (hheap _ _ hc) hstep
    exact ⟨h', P', ns', hg'⟩

end

end Runs

end DvivonOS.Windows.Pool
