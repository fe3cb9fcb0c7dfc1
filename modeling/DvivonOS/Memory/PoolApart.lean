import DvivonOS.Heap.Limits
import DvivonOS.Memory.PoolReuse

/-!
# The pool and the heap

As long as the pool finds its pages below the start of the heap, everything about it is in order
(`pages_apart`): the pages it hands out, the free list and the pages it unmaps. When all pages below
the heap are in use, it hands out the page at `heap_max`, which the heap maps again when it grows
(`page_remapped`).
-/

namespace DvivonOS.Windows.Pool

open Finset Function Paged Paging

/-! ## What is in order -/

def wordOf (c : View Pmm) (a : ℕ) : Option ℕ :=
  (lookup c.mem c.cr3 (a / pageSize)).map fun t => c.mem.get32 (t.frame + a % pageSize)

def pageFrame (c : View Pmm) (v : ℕ) : Option ℕ :=
  (lookup c.mem c.cr3 (v / pageSize)).map fun t => t.frame

/-- The free list of the machine: mapped pages that are not live, linked both ways. -/
structure FreeList (s : PageSys) (ns : List ℕ) : Prop where
  linked : Linked (fun v => (wordOf s.mmu.toView (nextField v)).getD 0)
    (fun v => (wordOf s.mmu.toView (prevField v)).getD 0) 0 s.list.head ns
  tail : s.list.tail = ns.getLastD 0
  count : s.list.count = ns.length
  le : ns.length ≤ vmmFreeListMaxSize
  nodup : (s.live ++ ns).Nodup
  mapped : ∀ v ∈ ns, pageFrame s.mmu.toView v ≠ none

/-- What is said of a page that is handed out in `s`, on the machine `m` after the call. -/
structure HandedOut (s₀ : Mmu Pmm) (s : PageSys) (m : Mmu Pmm) (r : ℕ) : Prop where
  aligned : r % pageSize = 0
  range : kernelHigherHalf ≤ r ∧ r < ptsScratchWindow
  mapped : pageFrame m.toView r ≠ none
  new : r ∉ s.live
  image : pageFrame s₀.toView r = none
  heap : ¬(kheapStart ≤ r ∧ r < s.vars.heapMax)

/-- The page `x` is unmapped, and its frame is marked as free, which it was not. -/
structure Evicted (x : ℕ) (s s' : PageSys) : Prop where
  unmapped : pageFrame s'.mmu.toView x = none
  freed : ∃ f, pageFrame s.mmu.toView x = some f ∧
    testBit (f / pageSize) s.mmu.rest.bitmap = true ∧
    testBit (f / pageSize) s'.mmu.rest.bitmap = false ∧ s'.mmu.rest = pmmFreePage s.mmu.rest f

section Good

variable {K : Kernel} {dirs : List ℕ} {top : ℕ} {mem₀ : Bytes} {s s' : PageSys} {h : Heap}
  {P : Pages} {ns : List ℕ} {c : View Pmm} {v o : ℕ}

section

variable (hV : Views K dirs top h P c) (hv : v ∈ P.held)

include hV hv

theorem Views.wordOf_eq (ho : o + 4 ≤ 4096) :
    wordOf c (v + o) = some (P.mem.get32 (v + o)) := by
  obtain ⟨hal, -⟩ := hV.range v hv
  obtain ⟨f, hf, -, -, hbytes⟩ := hV.page v hv
  obtain ⟨g, hg⟩ := hV.lookup hv hf
  unfold wordOf pageSize
  rw [show (v + o) / 4096 = v / 4096 by omega, show (v + o) % 4096 = o by omega, hg, Option.map_some]
  refine congrArg some (Bytes.get32_shift fun i hi => ?_)
  rw [Nat.add_assoc, Nat.add_assoc]
  exact hbytes (o + i) (by omega)

theorem Views.pageFrame_eq :
    pageFrame c v = P.frame (v / 4096) :=
  hV.frame_lookup (hV.slot hv)

theorem Views.pageFrame_ne_none :
    pageFrame c v ≠ none := by
  obtain ⟨f, hf, -⟩ := hV.page v hv
  rw [hV.pageFrame_eq hv, hf]
  exact Option.some_ne_none f

end

theorem Good.freeList (hg : Good K dirs top mem₀ s h P ns) : FreeList s ns := by
  have hL := hg.kept.listed
  refine ⟨hL.linked.congr fun v hv => ⟨?_, ?_⟩, hL.tail, hL.count, hg.le, hg.kept.nodup,
    fun v hv => hg.kept.views.pageFrame_ne_none (hg.kept.mem_list hv)⟩
  · have := hg.kept.views.wordOf_eq (o := 0) (hg.kept.mem_list hv) (by norm_num)
    exact congrArg (Option.getD · 0) this
  · have := hg.kept.views.wordOf_eq (o := 4) (hg.kept.mem_list hv) (by norm_num)
    exact congrArg (Option.getD · 0) this

theorem testBit_pmmFreePage (p : Pmm) (f : ℕ) :
    testBit (f / pageSize) (pmmFreePage p f).bitmap = false := by
  simp [pmmFreePage, testBit_clearBit]

theorem Good.handedOut {s₀ m : Mmu Pmm} {list : PoolVars} {r : ℕ}
    (hg : Good K dirs top s₀.mem { s with mmu := m, list := list, live := r :: s.live } h P ns)
    (htop : top ≤ kheapStart) (hboot : Spaces K dirs s₀.toView) : HandedOut s₀ s m r := by
  have hheld : r ∈ P.held := hg.mem_live List.mem_cons_self
  obtain ⟨hal, hlo, hlt⟩ := hg.kept.views.range r hheld
  have hnd : (r :: s.live ++ ns).Nodup := hg.kept.nodup
  refine ⟨hal, ⟨hlo, ?_⟩, hg.kept.views.pageFrame_ne_none hheld, ?_, ?_, ?_⟩
  · unfold ptsScratchWindow
    unfold kheapStart at htop
    omega
  · intro hmem
    exact (List.nodup_cons.mp hnd).1 (List.mem_append_left _ hmem)
  · have himg := hg.apart r hheld
    show Option.map _ (lookup s₀.mem s₀.cr3 (r / 4096)) = none
    rw [hboot.lookup_kernel hboot.current (hg.kept.views.slot hheld), himg]
    rfl
  · omega

theorem Good.evicted (hg : Good K dirs top mem₀ s h P ns) {h' : Heap} {P' : Pages} {ns' : List ℕ}
    (hg' : Good K dirs top mem₀ s' h' P' ns') {x f : ℕ} (hx : x ∈ P.held)
    (hf : P.frame (x / 4096) = some f) (hf' : P'.frame (x / 4096) = none)
    (hrest : s'.mmu.rest = pmmFreePage s.mmu.rest f) : Evicted x s s' := by
  obtain ⟨f', hf₁, hsp, -⟩ := hg.kept.views.page x hx
  rw [hf] at hf₁
  cases hf₁
  refine ⟨?_, f, ?_, hsp.used, ?_, hrest⟩
  · rw [← hf']
    exact hg'.kept.views.frame_lookup (hg.kept.views.slot hx)
  · rw [hg.kept.views.pageFrame_eq hx, hf]
  · rw [hrest]
    exact testBit_pmmFreePage _ _

end Good

section Runs

variable {tables : ℕ} {s₀ : Mmu Pmm} {s : PageSys}

/-- **The pool apart from the heap.** In every state of a run in which the pool finds its new pages
below the heap: the free list is in order; the next page that is asked for is a new one, or none, as
long as there is one below the heap; no call changes the frame of a page that is live; and a page that
is given back is put at the head of the list, from which at most one page is evicted. -/
theorem pages_apart (hboot : Booted tables s₀.toView) (hcache : NoCache s₀)
    (hscratch : entry s₀.mem s₀.cr3 1022 = 0)
    (hr : Relation.ReflTransGen
      (fun s s' => ∃ call, PageCall.Fits kheapStart s call ∧ PageStep call s s') (PageSys.boot s₀) s) :
    ∃ ns, FreeList s ns ∧
      (PageCall.Fits kheapStart s .alloc → ∃ r list m,
        exec (vmmAllocKernelPage.run s.list) s.mmu = (.ok (r, list), m) ∧
          (r = 0 ∨ HandedOut s₀ s m r)) ∧
      (∀ call s', PageCall.Fits kheapStart s call → PageStep call s s' → ∀ v ∈ s.live,
        pageFrame s'.mmu.toView v = pageFrame s.mmu.toView v) ∧
      ∀ v s', PageStep (.free v) s s' → ∃ ns', FreeList s' ns' ∧
        (ns' = v :: ns ∧ s'.mmu.rest = s.mmu.rest ∨ ∃ x, v :: ns = ns' ++ [x] ∧ Evicted x s s') := by
  have hK := bootKernel_distinct tables s₀.cr3
  obtain ⟨h, P, ns, hg⟩ := good_of_run hboot hcache hscratch (by decide)
    (C := fun s call => PageCall.Fits kheapStart s call) (fun _ _ hc => .inr hc)
    (fun _ _ _ => .inl le_rfl) hr
  refine ⟨ns, hg.freeList, fun hfit => ?_, fun call s' hfit hstep v hv => ?_, fun v s' hstep => ?_⟩
  · obtain ⟨⟨r, list⟩, m, hx, -, -⟩ := spec_returns
      (hg.kept.alloc (F := fun _ => False) hK hg.le (hg.fits (.inr hfit))) hg.noCache
    obtain ⟨h', P', ns', hg', -⟩ := hg.alloc hK (.inr hfit) hx
    refine ⟨r, list, m, hx, ?_⟩
    by_cases hr0 : r = 0
    · exact .inl hr0
    · rw [if_neg hr0] at hg'
      exact .inr (hg'.handedOut le_rfl hboot.spaces)
  · obtain ⟨h', P', ns', hg', hkeep⟩ := hg.step hK (.inr hfit) (.inl le_rfl) hstep
    rw [hg.kept.views.pageFrame_eq (hg.mem_live hv), ← hkeep v hv]
    exact hg'.kept.views.frame_lookup (hg.kept.views.slot (hg.mem_live hv))
  · cases hstep with
    | free hv hx =>
      obtain ⟨h', P', ns', hg', -, ⟨rfl, hrest⟩ | ⟨x, f, hns, hf, hf', hrest⟩⟩ := hg.free hK hv hx
      · exact ⟨_, hg'.freeList, .inl ⟨rfl, hrest⟩⟩
      · have hxmem : x ∈ v :: ns := by
          rw [hns]
          simp
        have hx : x ∈ P.held := by
          obtain rfl | hm := List.mem_cons.mp hxmem
          · exact hg.mem_live hv
          · exact hg.kept.mem_list hm
        exact ⟨ns', hg'.freeList, .inr ⟨x, hns, hg.evicted hg' hx hf hf' hrest⟩⟩

end Runs

/-- The first page that is handed out is a new one, or none. -/
theorem pages_apart_first : ∃ r list m,
    exec (vmmAllocKernelPage.run .init) sampleMachine = (.ok (r, list), m) ∧
      (r = 0 ∨ HandedOut sampleMachine (PageSys.boot sampleMachine) m r) := by
  obtain ⟨ns, -, halloc, -⟩ := pages_apart sampleView_booted sampleMachine_noCache
    sampleMachine_scratch .refl
  refine halloc (.inr (.inr ⟨kernelHigherHalf, le_rfl, by decide, ?_⟩))
  have hs := sampleView_booted.spaces
  show lookup sampleView.mem sampleView.cr3 (768 * 1024) = none
  rw [hs.lookup_kernel hs.current ⟨by norm_num, by norm_num⟩]
  exact Option.map_eq_none_iff.mpr sampleView_booted.first_page

/-! ## A page that the heap takes -/

/-- The heap is empty, no page is in the list, and the first page of the heap is not mapped. -/
structure Filling (K : Kernel) (dirs : List ℕ) (s : PageSys) (P : Pages) : Prop where
  noCache : NoCache s.mmu
  vars : s.vars = ⟨0, kheapStart⟩
  blocks : s.blocks = []
  kept : Kept K dirs 0xFF800000 (Heap.empty Bytes.zero s.mmu.rest) P s.list s.live [] s.mmu.toView

/-- The pages below the heap that are not mapped. -/
def Pages.left (P : Pages) : Finset ℕ :=
  (Finset.Ico 0xC0000 0xC1000).filter fun q => P.frame q = none

section Filling

variable {K : Kernel} {dirs : List ℕ} {s : PageSys} {P : Pages} {p : ℕ}

theorem Filling.alloc (hf : Filling K dirs s P) (hK : K.Distinct) (hfree : 0 < s.mmu.rest.free)
    (hlo : 0xC0000 ≤ p) (hp : 4096 * p < 0xFF800000) (hnone : P.frame p = none) :
    ∃ s' P' q f, PageStep .alloc s s' ∧ Filling K dirs s' P' ∧ Lowest P 0xC0000 q ∧
      s'.live = 4096 * q :: s.live ∧ P'.frame = update P.frame q (some f) ∧
      s'.mmu.rest.free + 1 = s.mmu.rest.free := by
  have hspec := hf.kept.alloc (F := fun _ => False) hK (Nat.zero_le _)
    (.inr (.inr (.inl ⟨p, hlo, hp, hnone⟩)))
  obtain ⟨⟨r, list⟩, m, hx, hcache, hres⟩ := spec_returns hspec hf.noCache
  obtain ⟨ns', x, hnil, -⟩ | ⟨-, -, -, -, hfull⟩ | ⟨-, q, k, f, hlow, -, rfl, ht, hk⟩ := hres
  · cases ns' <;> cases hnil
  · have hz := hf.kept.views.shows.spaces.pmm.free_eq_zero hfull
    omega
  · have hq := hlow.1
    have step : PageStep .alloc s _ := .alloc hx
    rw [if_neg (by omega)] at step
    exact ⟨_, _, q, f, step, ⟨hcache, hf.vars, hf.blocks, hk⟩, hlow, rfl, rfl, ht.free⟩

theorem Filling.fill (hK : K.Distinct) : ∀ (n : ℕ) {s : PageSys} {P : Pages}, Filling K dirs s P →
    P.frame 0xC1000 = none → P.left.card = n → n + 2 ≤ s.mmu.rest.free →
    ∃ s' P', Relation.ReflTransGen (fun s s' => ∃ call, PageStep call s s') s s' ∧
      Filling K dirs s' P' ∧ P'.frame 0xC1000 = none ∧ P'.left = ∅ ∧ 2 ≤ s'.mmu.rest.free := by
  intro n
  induction n with
  | zero =>
    intro s P hf habove hcard hfree
    exact ⟨s, P, .refl, hf, habove, card_eq_zero.mp hcard, by omega⟩
  | succ n ih =>
    intro s P hf habove hcard hfree
    obtain ⟨q₀, hq₀⟩ := card_pos.mp (show 0 < P.left.card by omega)
    obtain ⟨hico, hnone⟩ := mem_filter.mp hq₀
    obtain ⟨hlo, hhi⟩ := mem_Ico.mp hico
    obtain ⟨s', P', q, f, hstep, hf', hlow, -, hframe, hfree'⟩ :=
      hf.alloc hK (by omega) hlo (by omega) hnone
    have hq : q < 0xC1000 := by
      by_contra hge
      exact hlow.2.2 q₀ hlo (by omega) hnone
    -- one page less is left
    have hleft : P'.left = P.left.erase q := by
      ext p
      simp only [Pages.left, hframe, mem_filter, mem_erase]
      by_cases hp : p = q
      · simp [hp]
      · simp [hp]
    have hmem : q ∈ P.left := mem_filter.mpr ⟨mem_Ico.mpr ⟨hlow.1, hq⟩, hlow.2.1⟩
    have hcard' : P'.left.card = n := by
      rw [hleft, card_erase_of_mem hmem]
      omega
    have habove' : P'.frame 0xC1000 = none := by
      rw [hframe, update_of_ne (by omega)]
      exact habove
    obtain ⟨s'', P'', hrun, hrest⟩ := ih hf' habove' hcard' (by omega)
    exact ⟨s'', P'', .head ⟨_, hstep⟩ hrun, hrest⟩

theorem kmalloc_first {pmm : Pmm} (hok : pmm.Ok) (hfree : 0 < pmm.free) : ∃ p h',
    (DvivonOS.kmalloc 1).run (Heap.empty Bytes.zero pmm) = .ok (p, h') ∧ p ≠ 0 ∧
      h'.heapMax = kheapStart + pageSize := by
  have hr := Reached.initial Bytes.zero hok
  have hroom : wantedSize 1 ≤ 0 + (ptsScratchWindow - kheapStart) := by decide
  obtain ⟨p, h', hrun⟩ := (hr.returns_iff 1).mpr ((hr.belowWindow_iff 1).mpr (.inr (.inl hroom)))
  obtain ⟨bs, fl, -, hm⟩ := hr.holds.kmalloc hrun
  obtain ⟨k, hbefore, hend⟩ := hm.pages
  refine ⟨p, h', hrun, ?_⟩
  -- one page is enough
  have hpage : wantedSize 1 ≤ 0 + (0 + 1) * pageSize := by decide
  have hfits : ((Heap.arena (Heap.empty Bytes.zero pmm) []).pages 1).Fits (wantedSize 1) :=
    (Arena.fits_pages 0).mpr (.inr hpage)
  have hk : k = 1 := by
    have hle : k ≤ 1 := by
      by_contra hgt
      exact (hbefore 1 (by omega)).1 hfits
    have hpos : k ≠ 0 := by
      rintro rfl
      obtain ⟨-, -, hnone, -⟩ | ⟨L, C, R, hnil, -⟩ := hend
      · have hz := hok.free_eq_zero hnone
        omega
      · cases L <;> cases hnil
    omega
  subst hk
  obtain ⟨-, hno, -⟩ | ⟨L, C, R, -, -, -, rfl, ha⟩ := hend
  · exact absurd hfits hno
  · refine ⟨by omega, ?_⟩
    have hmax := congrArg Arena.heapMax ha
    exact hmax

end Filling

def poolPmm : Pmm where
  bitmap w := if w < 64 then bitmapAllBitsSet else 0
  usableEndWords := 1024
  lastAlloc := 64

theorem poolPmm_used {n : ℕ} (hn : n < 2048) : testBit n poolPmm.bitmap = true := by
  refine testBit_all (if_pos ?_)
  unfold bitmapEntryBits
  omega

theorem poolPmm_ok : poolPmm.Ok := ⟨by decide, by decide, by decide, poolPmm_used (by norm_num)⟩

theorem poolPmm_free : 4098 ≤ poolPmm.free := by
  have hsub : Finset.Ico 2048 32768 ⊆
      (Finset.range (poolPmm.usableEndWords * bitmapEntryBits)).filter fun n =>
        testBit n poolPmm.bitmap = false := by
    intro n hn
    have hb := mem_Ico.mp hn
    have hend : poolPmm.usableEndWords * bitmapEntryBits = 32768 := rfl
    have hword : poolPmm.bitmap (n / bitmapEntryBits) = 0 :=
      if_neg (by unfold bitmapEntryBits; omega)
    refine mem_filter.mpr ⟨mem_range.mpr (by omega), ?_⟩
    unfold testBit
    rw [hword]
    simp
  have hcard := card_le_card hsub
  rw [Nat.card_Ico] at hcard
  unfold Pmm.free
  omega

def poolMachine : Mmu Pmm :=
  ⟨⟨sampleMem, 0x200000, poolPmm⟩, fun _ => none, fun _ _ _ => none, 0, []⟩

theorem poolMachine_noCache : NoCache poolMachine := ⟨fun _ => rfl, fun _ _ _ => rfl⟩

theorem poolMachine_booted : Booted 0x201000 poolMachine.toView :=
  booted_of_entries poolPmm_ok (fun _ hn => poolPmm_used hn) (fun _ hi => sampleMem_entry hi)
    sampleView_booted.gap

theorem sampleMem_heap : kernelFrame (bootKernel 0x201000 0x200000) sampleMem 0xC1000 = none := by
  have he : entry sampleMem 0x205000 0 = 0 := by
    show Bytes.get32 (Bytes.ofWords _) (4 * (517 * 1024)) = 0
    rw [Bytes.get32_ofWords]
    rfl
  refine named_of_not_present ?_
  show ¬IsPresent (entry sampleMem 0x205000 0)
  rw [he]
  exact not_present_zero

theorem poolMachine_filling : Filling (bootKernel 0x201000 0x200000) [0x200000]
    (PageSys.boot poolMachine)
    ⟨[], kernelFrame (bootKernel 0x201000 0x200000) sampleMem, Bytes.zero⟩ :=
  ⟨poolMachine_noCache, rfl, rfl, (good_boot poolMachine_booted poolMachine_noCache
    (sampleMem_entry (by norm_num)) le_rfl).kept⟩

/-- All pages below the heap are handed out, then the first page of the heap. The first `kmalloc` maps
that page to another frame. -/
theorem page_remapped : ∃ s s' v,
    Relation.ReflTransGen (fun s s' => ∃ call, PageStep call s s') (PageSys.boot poolMachine) s ∧
      v ∈ s.live ∧ PageStep (.kmalloc 1) s s' ∧
      pageFrame s'.mmu.toView v ≠ pageFrame s.mmu.toView v := by
  have hK := bootKernel_distinct 0x201000 0x200000
  have hcard (P : Pages) : P.left.card ≤ 4096 :=
    (card_filter_le _ _).trans (by rw [Nat.card_Ico])
  obtain ⟨s₁, P₁, hrun₁, hf₁, habove, hleft, hfree₁⟩ := Filling.fill hK _ poolMachine_filling
    sampleMem_heap rfl ((Nat.add_le_add_right (hcard _) 2).trans poolPmm_free)
  obtain ⟨s₂, P₂, q, f, step₂, hf₂, hlow, hlive, hframe, hfree₂⟩ :=
    hf₁.alloc hK (by omega) (p := 0xC1000) (by norm_num) (by norm_num) habove
  -- the pages below the heap are in use, so it is the first one of the heap
  have hq : q = 0xC1000 := by
    have hge : ¬q < 0xC1000 := by
      intro hlt
      have hmem : q ∈ P₁.left :=
        mem_filter.mpr ⟨mem_Ico.mpr ⟨hlow.1, hlt⟩, hlow.2.1⟩
      rw [hleft] at hmem
      exact notMem_empty _ hmem
    have hle : ¬0xC1000 < q := fun hlt => hlow.2.2 0xC1000 (by norm_num) hlt habove
    omega
  subst hq
  have hv : 4096 * 0xC1000 ∈ s₂.live := by
    rw [hlive]
    exact List.mem_cons_self
  have hV := hf₂.kept.views
  have hheld := hf₂.kept.mem_live hv
  have hold : pageFrame s₂.mmu.toView (4096 * 0xC1000) = some f := by
    rw [hV.pageFrame_eq hheld, hframe]
    exact update_self _ _ _
  obtain ⟨p, h', hrun, -, hmax⟩ := kmalloc_first hV.shows.spaces.pmm (by omega)
  obtain ⟨m, hx⟩ := hV.shows.kmalloc_returns hK hf₂.noCache hrun (by rw [hmax]; decide)
  refine ⟨s₂, _, 4096 * 0xC1000, hrun₁.tail ⟨_, step₂⟩, hv,
    .kmalloc (by norm_num) (by rw [hf₂.vars]; exact hx), ?_⟩
  obtain ⟨h₂, -, hvars, hs, hapart, bs, fl, hholds⟩ :=
    hV.shows.after_kmalloc (sharp_false fun _ => ∅) hK hf₂.noCache
      (Holds.initial Bytes.zero s₂.mmu.rest) (by norm_num) hx
  -- the page is one of the heap now, and the heap has frames of its own
  have hmapped : h₂.mapped 0xC1000 = true := by
    have hmax₂ : h₂.heapMax = kheapStart + pageSize :=
      (congrArg HeapVars.heapMax hvars).symm.trans hmax
    exact hholds.inv.present kheapStart le_rfl (by dsimp only; rw [hmax₂]; decide)
  obtain ⟨f', hf', hsp, -⟩ := hV.page _ hheld
  rw [← hV.pageFrame_eq hheld, hold] at hf'
  cases hf'
  obtain ⟨-, hnot, -⟩ := hapart.frame f hsp fun _ hp => by cases hp
  rw [hold]
  intro hsame
  refine hnot 0xC1000 hmapped ?_
  rw [← hsame]
  show kernelFrame _ m.mem 0xC1000 = Option.map _ (lookup m.mem m.cr3 0xC1000)
  rw [hs.spaces.lookup_kernel hs.spaces.current ⟨by norm_num, by norm_num⟩, Option.map_map]
  exact Option.map_id'.symm

end DvivonOS.Windows.Pool
