import DvivonOS.Heap.Refine

/-!
# Where the heap ends

`kmalloc` never compares `heap_max` with `KHEAP_END`, and a request near `2 ^ 32` wraps to a small
block. `kmalloc_in_heap` says for which requests the returned bytes lie in one block of a heap that
ends below `KHEAP_END`. A heap that grows on reaches the page tables at `PTS_SCRATCH_WINDOW`, where
the next page faults; `kmalloc_ends` says for which requests this does not happen. They return after
retries that each leave fewer free pages.
-/

namespace DvivonOS

open HeapCode List

/-! ## Growth of the arena -/

namespace Arena

variable {a a' : Arena} {p size : ℕ}

theorem tailSize_lt (hfit : ¬a.Fits size) (hs : 0 < size) : tailSize a.blocks < size := by
  rcases mergeLeft_cases a.blocks ⟨a.heapMax, pageSize, true⟩ with
    ⟨L, P, hL, hP, -, ht, -⟩ | ⟨-, ht, -⟩
  · rw [ht]
    exact not_le.mp fun hle => hfit ⟨P, by rw [hL]; simp, hP, hle⟩
  · rwa [ht]

theorem tail_pages_lt {k : ℕ} (hfit : ¬a.Fits size) (hk : ¬(a.pages k).Fits size)
    (hs : 0 < size) : tailSize a.blocks + k * pageSize < size := by
  cases k with
  | zero => simpa using tailSize_lt hfit hs
  | succ k =>
    rw [fits_pages, not_or, not_le] at hk
    exact hk.2

/-- The pages a successful `kmalloc` takes are as many as the block needs. -/
theorem Malloc.heapMax_le_iff (h : Malloc size a p a') (hp : p ≠ 0) (hs : 0 < size) {e : ℕ}
    (he : pageSize ∣ e) (ha : pageSize ∣ a.heapMax) :
    a'.heapMax ≤ e ↔ a.heapMax ≤ e ∧ (a.Fits size ∨ size ≤ tailSize a.blocks + (e - a.heapMax)) := by
  obtain ⟨k, hbefore, ⟨rfl, -⟩ | ⟨L, C, R, hblocks, hC, hle, -, rfl⟩⟩ := h.pages
  · exact absurd rfl hp
  have hfits : (a.pages k).Fits size := ⟨C, by rw [hblocks]; simp, hC, hle⟩
  show (a.pages k).heapMax ≤ e ↔ _
  rw [pages_heapMax]
  cases k with
  | zero => exact ⟨fun hm => ⟨by omega, .inl hfits⟩, fun hm => by omega⟩
  | succ k =>
    have hnofit : ¬a.Fits size := (hbefore 0 (by omega)).1
    have hlow := tail_pages_lt hnofit (hbefore k (by omega)).1 hs
    have hhigh : size ≤ tailSize a.blocks + (k + 1) * pageSize :=
      ((fits_pages k).mp hfits).resolve_left hnofit
    obtain ⟨x, rfl⟩ := he
    obtain ⟨y, hy⟩ := ha
    rw [hy]
    unfold pageSize at *
    constructor
    · intro hm
      exact ⟨by omega, .inr (by omega)⟩
    · rintro ⟨hm, hm' | hm'⟩
      · exact absurd hm' hnofit
      · omega

/-- The request fits below the window, or there are no more free pages than fit below it. -/
def BelowWindow (a : Arena) (size : ℕ) : Prop :=
  a.Fits size ∨ size ≤ tailSize a.blocks + (ptsScratchWindow - a.heapMax) ∨
    a.pmm.free * pageSize ≤ ptsScratchWindow - a.heapMax

theorem BelowWindow.not_blocked (h : a.BelowWindow size) (hok : a.pmm.Ok) (hs : 0 < size) :
    ¬a.Blocked size := by
  intro hb
  obtain ⟨k, hbefore, hmax⟩ := hb.pages
  have hfit : ¬a.Fits size := (hbefore 0 (by omega)).1
  have hlow := tail_pages_lt hfit (hbefore k (by omega)).1 hs
  have hfree := (pages_free hok fun j hj => (hbefore j hj).2).2
  rw [pages_heapMax] at hmax
  rcases h with h | h | h
  · exact hfit h
  · omega
  · unfold pageSize at h hmax
    omega

/-- An allocation that has come to its end has stayed below the window. -/
theorem Malloc.belowWindow (h : Malloc size a p a') (hok : a.pmm.Ok)
    (hmax : a'.heapMax ≤ ptsScratchWindow) : a.BelowWindow size := by
  obtain ⟨k, hbefore, hend⟩ := h.pages
  obtain ⟨hk, hfree⟩ := pages_free hok fun j hj => (hbefore j hj).2
  rcases hend with ⟨-, -, hnone, rfl⟩ | ⟨L, C, R, hblocks, hC, hle, -, rfl⟩
  · -- null: the pages taken are all there were
    have hzero := hk.free_eq_zero hnone
    have hmax' : (a.pages k).heapMax ≤ ptsScratchWindow := hmax
    rw [pages_heapMax] at hmax'
    refine .inr (.inr ?_)
    rw [show a.pmm.free = k by omega]
    omega
  · have hfits : (a.pages k).Fits size := ⟨C, by rw [hblocks]; simp, hC, hle⟩
    have hmax' : (a.pages k).heapMax ≤ ptsScratchWindow := hmax
    rw [pages_heapMax] at hmax'
    cases k with
    | zero => exact .inl hfits
    | succ k =>
      rcases (fits_pages k).mp hfits with hfit | hle
      · exact .inl hfit
      · exact .inr (.inl (by omega))

/-- A `kmalloc` that returns null has taken all free pages and left every free block free. -/
theorem Malloc.null (h : Malloc size a 0 a') (hok : a.pmm.Ok) :
    (pmmAllocPage a'.pmm).1 = 0 ∧ ∀ b ∈ a.blocks, b.free = true →
      ∃ c ∈ a'.blocks, c.free = true ∧ c.addr = b.addr ∧ b.size ≤ c.size := by
  obtain ⟨k, hbefore, ⟨-, -, hnone, rfl⟩ | ⟨L, C, R, -, -, -, hp, -⟩⟩ := h.pages
  · have hk := (pages_free hok fun j hj => (hbefore j hj).2).1
    refine ⟨?_, fun b hb hbf => ?_⟩
    · show (pmmAllocPage (pmmAllocPage (a.pages k).pmm).2).1 = 0
      rwa [hk.alloc_none hnone]
    · show ∃ c ∈ (a.pages k).blocks, _
      cases k with
      | zero => exact ⟨b, hb, hbf, rfl, le_rfl⟩
      | succ k =>
        rw [pages_blocks]
        rcases mergeLeft_cases a.blocks ⟨a.heapMax, (k + 1) * pageSize, true⟩ with
          ⟨L, P, hL, -, -, -, hm⟩ | ⟨-, -, hm⟩
        · rw [hm]
          rw [hL] at hb
          rcases mem_append.mp hb with hb | hb
          · exact ⟨b, mem_append_left _ hb, hbf, rfl, le_rfl⟩
          · rw [mem_singleton.mp hb]
            exact ⟨_, mem_append_right _ mem_cons_self, rfl, rfl, Nat.le_add_right _ _⟩
        · rw [hm]
          exact ⟨b, mem_append_left _ hb, hbf, rfl, le_rfl⟩
  · omega

end Arena

/-! ## Bounds of an allocation -/

/-- The allocation is aligned and lies inside one block of a heap that ends below `KHEAP_END`. -/
structure Client.InHeap (s : Client) (p size : ℕ) : Prop where
  aligned : 4 ∣ p
  inside : ∃ bs fl, Layout s bs fl ∧ ∃ b ∈ bs, b.addr ≤ p ∧ p + size ≤ b.addr + b.size
  bound : s.heap.heapMax ≤ kheapEnd

/-- The request does not wrap, and a free block fits it or the heap can grow for it. -/
def Client.Room (s : Client) (size : ℕ) : Prop :=
  size ≤ 0xFFFFFFF4 ∧ s.heap.heapMax ≤ kheapEnd ∧ ∃ bs fl, Layout s bs fl ∧
    ((∃ b ∈ bs, b.free = true ∧ wantedSize size ≤ b.size) ∨
      wantedSize size ≤ tailSize bs + (kheapEnd - s.heap.heapMax))

/-- **Bounds.** -/
theorem kmalloc_in_heap {mem : Bytes} {pmm : Pmm} {s : Client} (hok : pmm.Ok)
    (hr : Relation.ReflTransGen (HeapStep anyCall) (Client.initial mem pmm) s) {size p : ℕ}
    {h' : Heap} (hsize : size < 2 ^ 32) (hrun : (kmalloc size).run s.heap = .ok (p, h'))
    (hp : p ≠ 0) : Client.InHeap ⟨h', (p, size) :: s.live⟩ p size ↔ s.Room size := by
  obtain ⟨bs, fl, h⟩ := reached_of_steps hok hr
  obtain ⟨bs', fl', hold', hm⟩ := h.holds.kmalloc hrun
  rw [if_neg hp] at hold'
  obtain ⟨b, hb, -, hbp, hbs⟩ := hold'.block (p, size) mem_cons_self
  dsimp only at hbp hbs
  obtain ⟨b1, b2, b3, b4, b5, b6⟩ := hold'.inv.bounds hb
  have h12 := (wantedSize_spec size).1
  have hmax := hm.heapMax_le_iff hp (e := kheapEnd) (by omega) (by decide) h.holds.inv.aligned
  constructor
  · rintro ⟨-, ⟨bs₁, fl₁, hl, c, hc, hcp, hce⟩, hbound⟩
    obtain ⟨hle, hroom⟩ := hmax.mp hbound
    -- the block of the returned pointer is no longer than the heap
    have hfit : size ≤ 0xFFFFFFF4 := by
      obtain ⟨-, c2, -⟩ := hl.tiles.mem_bounds c hc
      have := hold'.inv.bound
      unfold ptsScratchWindow at this
      dsimp only at c2 this
      omega
    exact ⟨hfit, hle, bs, fl, h.holds.layout, hroom⟩
  · rintro ⟨hfit, hle, bs₁, fl₁, hl, hroom⟩
    rw [← h.holds.layout.unique hl] at hroom
    have := le_wantedSize hfit
    exact ⟨by omega, ⟨bs', fl', hold'.layout, b, hb, by omega, by omega⟩, hmax.mpr ⟨hle, hroom⟩⟩

theorem kmalloc_in_heap_small :
    Client.InHeap ⟨smallHeap.after (kmalloc 5), [(kheapStart + 4, 5)]⟩ (kheapStart + 4) 5 ↔
      (Client.initial Bytes.zero smallPmm).Room 5 :=
  kmalloc_in_heap smallPmm_ok .refl (by norm_num)
    (run_after (by decide +kernel)) (by decide)

/-- A request of `0xFFFFFFFD` bytes gets a block of 12. -/
theorem kmalloc_wraps :
    ∃ s : Client, Relation.ReflTransGen (HeapStep anyCall) (Client.initial Bytes.zero smallPmm) s ∧
      ∃ p h', (kmalloc 0xFFFFFFFD).run s.heap = .ok (p, h') ∧ p ≠ 0 ∧
        ¬Client.InHeap ⟨h', (p, 0xFFFFFFFD) :: s.live⟩ p 0xFFFFFFFD := by
  refine ⟨_, .refl, kheapStart + 4, smallHeap.after (kmalloc 0xFFFFFFFD),
    run_after (by decide +kernel), by decide, fun hin => ?_⟩
  obtain ⟨bs, fl, hl, b, hb, -, hend⟩ := hin.inside
  have hmax : (smallHeap.after (kmalloc 0xFFFFFFFD)).heapMax = kheapStart + 4096 := by
    decide +kernel
  have hlast := (hl.tiles.mem_bounds b hb).2.1
  dsimp only at hlast
  omega

/-! ## Retries -/

/-- An activation of `kmalloc` with this argument in this state calls itself with that one. -/
def Recurses (x y : ℕ × Heap) : Prop := (kmallocOnce x.1).run x.2 = .ok (.inr y.1, y.2)

theorem recurses_inv {x y : ℕ × Heap} {bs : List Blk} {fl : List ℕ} (inv : Inv x.2 bs fl)
    (hok : x.2.pmm.Ok) (h : Recurses x y) :
    (∃ bs' fl', Inv y.2 bs' fl') ∧ y.2.pmm.Ok ∧ y.2.pmm.free < x.2.pmm.free := by
  have hw := kmallocOnce_wp (E := fun _ => True) inv x.1 fun _ => trivial
  obtain ⟨bs', fl', ⟨p, hp, -⟩ | ⟨-, hm⟩⟩ := hw.of_run h
  · cases hp
  · exact ⟨⟨bs', fl', hm.inv⟩, hm.frames hok⟩

/-- More fuel than free pages, or than pages up to the window. -/
def Enough (h : Heap) (fuel : ℕ) : Prop :=
  h.pmm.free < fuel ∨ (ptsScratchWindow - h.heapMax) / pageSize < fuel

theorem kmallocFuel_run_eq : ∀ {fuel fuel' : ℕ} {h : Heap} {bs : List Blk} {fl : List ℕ} (size : ℕ),
    Inv h bs fl → h.pmm.Ok → Enough h fuel → Enough h fuel' →
    (kmallocFuel fuel size : HeapM ℕ).run h = (kmallocFuel fuel' size : HeapM ℕ).run h
  | 0, _, _, _, _, _, _, _, hf, _ => absurd hf (by simp [Enough])
  | _, 0, _, _, _, _, _, _, _, hf => absurd hf (by simp [Enough])
  | fuel + 1, fuel' + 1, h, bs, fl, size, inv, hok, hf, hf' => by
    have hw := kmallocOnce_wp (E := fun _ => True) inv size fun _ => trivial
    rw [kmallocFuel_succ, kmallocFuel_succ, StateT.run_bind, StateT.run_bind]
    cases hrun : (kmallocOnce size).run h with
    | error e => rfl
    | ok r =>
      obtain ⟨r, h'⟩ := r
      obtain ⟨bs', fl', ⟨p, rfl, -⟩ | ⟨rfl, hm⟩⟩ := hw.of_run hrun
      · rfl
      · -- the recursive call has a page less to take and a page less to go
        have henough {n : ℕ} (hn : Enough h (n + 1)) : Enough h' n := by
          have hlt := (hm.frames hok).2
          have hg := hm.grows
          have hb := hm.inv.bound
          unfold Enough pageSize at *
          omega
        exact kmallocFuel_run_eq _ hm.inv (hm.frames hok).1 (henough hf) (henough hf')

/-- The live blocks keep their bytes, the free ones stay free, and the free list is in order. -/
def Client.Intact (s : Client) (h' : Heap) : Prop :=
  ∃ bs fl bs' fl', Layout s bs fl ∧ Layout ⟨h', s.live⟩ bs' fl' ∧
    (∀ b ∈ bs, b.free = false → b ∈ bs' ∧
      ∀ i, b.addr ≤ i → i < b.addr + b.size → h'.mem i = s.heap.mem i) ∧
    ∀ b ∈ bs, b.free = true → ∃ c ∈ bs', c.free = true ∧ c.addr = b.addr ∧ b.size ≤ c.size

/-- `kmalloc` returns, after no more activations than there are free pages, each with fewer free
pages than its caller; and it returns null only without a free page and without damage. -/
structure Client.MallocEnds (s : Client) (size : ℕ) : Prop where
  returns : ∃ p h', (kmalloc size).run s.heap = .ok (p, h')
  depth : ∀ fuel, s.heap.pmm.free < fuel →
    (kmallocFuel fuel size : HeapM ℕ).run s.heap = (kmalloc size).run s.heap
  retries : ∀ x y, Relation.ReflTransGen Recurses (size, s.heap) x → Recurses x y →
    y.2.pmm.free < x.2.pmm.free
  null : ∀ h', (kmalloc size).run s.heap = .ok (0, h') →
    (pmmAllocPage h'.pmm).1 = 0 ∧ s.Intact h'

/-- A free block fits, or the request fits below `PTS_SCRATCH_WINDOW`, or the free pages do. -/
def Client.BelowWindow (s : Client) (size : ℕ) : Prop :=
  ∃ bs fl, Layout s bs fl ∧
    ((∃ b ∈ bs, b.free = true ∧ wantedSize size ≤ b.size) ∨
      wantedSize size ≤ tailSize bs + (ptsScratchWindow - s.heap.heapMax) ∨
      s.heap.pmm.free * pageSize ≤ ptsScratchWindow - s.heap.heapMax)

namespace Reached

variable {s : Client} {bs : List Blk} {fl : List ℕ} (h : Reached s bs fl) (size : ℕ)

include h

theorem belowWindow_iff :
    s.BelowWindow size ↔ (s.heap.arena bs).BelowWindow (wantedSize size) := by
  constructor
  · rintro ⟨bs₁, fl₁, hl, hb⟩
    rw [← h.holds.layout.unique hl] at hb
    exact hb
  · exact fun hb => ⟨bs, fl, h.holds.layout, hb⟩

/-- `kmalloc` returns unless it has to grow the heap past the window. -/
theorem returns_iff : (∃ p h', (kmalloc size).run s.heap = .ok (p, h')) ↔ s.BelowWindow size := by
  have h12 := (wantedSize_spec size).1
  rw [h.belowWindow_iff]
  constructor
  · rintro ⟨p, h', hrun⟩
    obtain ⟨bs', fl', hold', hm⟩ := h.holds.kmalloc hrun
    exact hm.belowWindow h.pmm hold'.inv.bound
  · intro hb
    have hw := kmalloc_mallocs (E := fun _ => False) h.holds.inv size
      (hb.not_blocked h.pmm (by omega))
    obtain ⟨p, h', hrun, -⟩ := hw.returns
    exact ⟨p, h', hrun⟩

theorem depth {fuel : ℕ} (hf : s.heap.pmm.free < fuel) :
    (kmallocFuel fuel size : HeapM ℕ).run s.heap = (kmalloc size).run s.heap := by
  have hmax : (heapMax : HeapM ℕ).run s.heap = pure (s.heap.heapMax, s.heap) := rfl
  unfold kmalloc HeapCode.kmalloc
  rw [StateT.run_bind, hmax, pure_bind]
  dsimp only
  exact kmallocFuel_run_eq size h.holds.inv h.pmm (.inl hf) (.inr (by omega))

theorem retries {x y : ℕ × Heap} (hx : Relation.ReflTransGen Recurses (size, s.heap) x)
    (hy : Recurses x y) : y.2.pmm.free < x.2.pmm.free := by
  have hinv : (∃ bs' fl', Inv x.2 bs' fl') ∧ x.2.pmm.Ok := by
    clear hy
    induction hx with
    | refl => exact ⟨⟨bs, fl, h.holds.inv⟩, h.pmm⟩
    | tail _ hstep ih =>
      obtain ⟨⟨bs', fl', inv⟩, hok⟩ := ih
      obtain ⟨hinv', hok', -⟩ := recurses_inv inv hok hstep
      exact ⟨hinv', hok'⟩
  obtain ⟨⟨bs', fl', inv⟩, hok⟩ := hinv
  exact (recurses_inv inv hok hy).2.2

theorem null {h' : Heap} (hrun : (kmalloc size).run s.heap = .ok (0, h')) :
    (pmmAllocPage h'.pmm).1 = 0 ∧ s.Intact h' := by
  have hw := kmalloc_mallocs (E := fun _ => True) h.holds.inv size fun _ => trivial
  obtain ⟨bs', fl', hm⟩ := hw.of_run hrun
  obtain ⟨hnone, hfree⟩ := hm.arena.null h.pmm
  obtain ⟨-, hk⟩ | ⟨b, hb, -⟩ := hm.change
  · have hold' := h.holds.of_keeps hm.inv hk
    exact ⟨hnone, bs, fl, bs', fl', h.holds.layout, hold'.layout, fun b hb hbf =>
      ⟨(hk.live b hbf).mpr hb, hk.same b hb hbf⟩, hfree⟩
  · omega

end Reached

/-- **Termination.** `kmalloc` ends as it should exactly if it does not have to grow the heap past
`PTS_SCRATCH_WINDOW`. -/
theorem kmalloc_ends {mem : Bytes} {pmm : Pmm} {s : Client} (hok : pmm.Ok)
    (hr : Relation.ReflTransGen (HeapStep anyCall) (Client.initial mem pmm) s) (size : ℕ) :
    s.MallocEnds size ↔ s.BelowWindow size := by
  obtain ⟨bs, fl, h⟩ := reached_of_steps hok hr
  rw [← h.returns_iff]
  refine ⟨fun he => he.returns, fun hret => ⟨hret, fun fuel hf => h.depth size hf, ?_, ?_⟩⟩
  · exact fun x y hx hy => h.retries size hx hy
  · exact fun h' hrun => h.null size hrun

theorem kmalloc_ends_small :
    (Client.initial Bytes.zero smallPmm).MallocEnds 5 ↔
      (Client.initial Bytes.zero smallPmm).BelowWindow 5 :=
  kmalloc_ends smallPmm_ok .refl 5

/-! ### A machine with all of its frames -/

/-- A request for nearly 1 GiB, with as many pages, grows an empty heap into the page tables. -/
theorem window_fault {m : Bytes} {pmm : Pmm} (hok : pmm.Ok) (hfree : 0x3E800 < pmm.free) :
    (kmalloc 0x3F000000).run (Client.initial m pmm).heap = .error windowFault := by
  have h := Reached.initial m hok
  rcases h.holds.calls_return.1 0x3F000000 with ⟨⟨p, h'⟩, hrun⟩ | hfault
  · obtain ⟨b, hb, -⟩ | hb | hb :=
      (h.belowWindow_iff _).mp ((h.returns_iff _).mp ⟨p, h', hrun⟩)
    · exact absurd hb not_mem_nil
    · have hb' : wantedSize 0x3F000000 ≤ 0 + (ptsScratchWindow - kheapStart) := hb
      exact absurd hb' (by decide)
    · have hb' : pmm.free * 4096 ≤ 0xFF800000 - 0xC1000000 := hb
      omega
  · exact hfault

def largePmm : Pmm where
  bitmap := fun i => if i = 0 then 1 else 0
  usableEndWords := 32768
  lastAlloc := 0

theorem largePmm_ok : largePmm.Ok := ⟨by decide, by decide, by decide, by decide⟩

theorem largePmm_clear {n : ℕ} (hn : 32 ≤ n) : testBit n largePmm.bitmap = false := by
  have hne : n / bitmapEntryBits ≠ 0 := by unfold bitmapEntryBits; omega
  have hword : largePmm.bitmap (n / bitmapEntryBits) = 0 := by simp [largePmm, hne]
  unfold testBit
  rw [hword]
  simp

theorem largePmm_free : 0x3E800 < largePmm.free := by
  have hsub : Finset.Ico 32 1048576 ⊆
      (Finset.range (largePmm.usableEndWords * bitmapEntryBits)).filter fun n =>
        testBit n largePmm.bitmap = false := by
    intro n hn
    have hb := Finset.mem_Ico.mp hn
    have hend : largePmm.usableEndWords * bitmapEntryBits = 1048576 := rfl
    exact Finset.mem_filter.mpr ⟨Finset.mem_range.mpr (by omega), largePmm_clear hb.1⟩
  have hcard := Finset.card_le_card hsub
  rw [Nat.card_Ico] at hcard
  unfold Pmm.free
  omega

theorem kmalloc_faults_at_window :
    ∃ s : Client, Relation.ReflTransGen (HeapStep anyCall) (Client.initial Bytes.zero largePmm) s ∧
      (kmalloc 0x3F000000).run s.heap = .error windowFault ∧ ¬s.MallocEnds 0x3F000000 := by
  have hfault := window_fault (m := Bytes.zero) largePmm_ok largePmm_free
  refine ⟨_, .refl, hfault, fun hend => ?_⟩
  obtain ⟨p, h', hrun⟩ := hend.returns
  rw [hfault] at hrun
  cases hrun

end DvivonOS
