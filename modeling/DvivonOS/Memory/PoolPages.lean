import DvivonOS.Memory.Pool

/-!
# The pages of the pool in memory

The pages that have been handed out or are kept in the free list, as pages of a virtual memory: which
frame each of them has, and what it holds (`Views`). Their frames have no other use, so that a write
to one of them is a write of that memory, and growth of the heap, which has pages and frames of its
own, is none.
-/

namespace DvivonOS.Windows.Paged

open Function Paging

section Shows

variable {K : Kernel} {dirs : List ℕ} {h : Heap} {c : View Pmm} {f p : ℕ}

theorem Shows.onlyIn (hs : Shows K dirs h c) (hf : Spare K dirs c f)
    (hnot : ∀ p, h.mapped p = true → kernelFrame K c.mem p ≠ some f) {mem' : Bytes}
    (ho : OnlyIn f c.mem mem') : Shows K dirs h { c with mem := mem' } := by
  have htab := hs.spaces.sameTables hf.not_isTable ho
  have hk {q : ℕ} (hq : Owned h q) : kernelFrame K mem' q = kernelFrame K c.mem q :=
    kernelFrame_congr (fun t ht => htab t (.inr ht)) (hs.slot hq)
  refine ⟨hs.spaces.data htab.user, hs.rest, hs.heapMax, hs.range, fun a ha => ?_,
    fun q g hq hg => ?_, fun q q' g hq hq' hg hg' => ?_⟩
  · obtain ⟨g, hg, hbyte⟩ := hs.page a ha
    have hsp := hs.own _ g (.inl ha) hg
    refine ⟨g, (hk (.inl ha)).trans hg, (ho _ fun he => hnot _ ha ?_).trans hbyte⟩
    rw [frameOf_add hsp.aligned (Nat.mod_lt _ (by norm_num))] at he
    rw [hg, he]
  · exact (hs.own q g hq ((hk hq).symm.trans hg)).data htab.user
  · exact hs.inj q q' g hq hq' ((hk hq).symm.trans hg) ((hk hq').symm.trans hg')

theorem Shows.release (hs : Shows K dirs h c) (hK : K.Distinct) (hp : KernelSlot (p / 1024))
    (hnm : h.mapped p ≠ true) (hf : Spare K dirs c f)
    (hnot : ∀ q, Owned h q → q ≠ p → kernelFrame K c.mem q ≠ some f) {mem' : Bytes}
    (hm : mem' = c.mem.put32 (K.table (p / 1024) + 4 * (p % 1024)) 0) :
    Shows K dirs { h with pmm := pmmFreePage c.rest f }
      { c with mem := mem', rest := pmmFreePage c.rest f } := by
  obtain ⟨hsame, hpage, hother⟩ := hs.spaces.setKernelPte hK hp (e := 0) (by norm_num) hm
  rw [if_neg not_present_zero] at hpage
  have hs₁ := hs.spaces.data hsame
  obtain ⟨hs₂, hkeep⟩ := hs₁.release (hf.data hsame)
  have honly : OnlyIn (K.table (p / 1024)) c.mem mem' :=
    hm ▸ onlyIn_put32 (hs.spaces.aligned (.inr ⟨_, hp, rfl⟩)) (Nat.mod_lt _ (by norm_num)) 0
  have hk {q g : ℕ} (hq : Owned h q) (hg : kernelFrame K mem' q = some g) :
      kernelFrame K c.mem q = some g ∧ g ≠ f := by
    have hqp : q ≠ p := by
      rintro rfl
      rw [hpage] at hg
      cases hg
    have hg' := (hother q (hs.slot hq) hqp).symm.trans hg
    exact ⟨hg', fun he => hnot q hq hqp (he ▸ hg')⟩
  refine ⟨hs₂, rfl, hs.heapMax, hs.range, fun a ha => ?_, fun q g hq hg => ?_,
    fun q q' g hq hq' hg hg' => ?_⟩
  · obtain ⟨g, hg, hbyte⟩ := hs.page a ha
    have hap : a / 4096 ≠ p := fun he => hnm (he ▸ ha)
    have hsp := hs.own _ g (.inl ha) hg
    refine ⟨g, (hother _ (hs.slot (.inl ha)) hap).trans hg, (honly _ ?_).trans hbyte⟩
    rw [frameOf_add hsp.aligned (Nat.mod_lt _ (by norm_num))]
    exact hsp.apart _ hp
  · obtain ⟨hg', hgf⟩ := hk hq hg
    exact hkeep g hgf ((hs.own q g hq hg').data hsame)
  · exact hs.inj q q' g hq hq' (hk hq hg).1 (hk hq' hg').1

end Shows

end DvivonOS.Windows.Paged

namespace DvivonOS.Windows.Pool

open Bytes Function List Paged Paging

/-! ## Rules for the globals -/

section Rules

variable {S α β : Type} {c : View Pmm} {s : S} {R : α → View Pmm → Prop}
  {Q : β × S → View Pmm → Prop} {F : View Pmm → Prop}

theorem spec_return {b : β} (h : Q (b, s) c) :
    Uncached c ((pure b : StateT S VmmM β).run s) Q F := spec_pure h

theorem spec_modify {Q : Unit × S → View Pmm → Prop} {g : S → S} (h : Q ((), g s) c) :
    Uncached c ((modify g : StateT S VmmM Unit).run s) Q F := spec_pure h

theorem spec_get_bind {f : S → StateT S VmmM β}
    (h : Uncached c ((f s).run s) Q F) :
    Uncached c ((get >>= f).run s) Q F := h

theorem spec_modify_bind {g : S → S} {f : Unit → StateT S VmmM β}
    (h : Uncached c ((f ()).run (g s)) Q F) :
    Uncached c ((modify g >>= f).run s) Q F := h

theorem spec_stop_bind {x : VmmM α} {f : α → VmmM β} {Q : β → View Pmm → Prop}
    (h : Uncached c x (fun _ _ => False) F) :
    Uncached c (x >>= f) Q F := h.bind fun _ _ hno => hno.elim

theorem spec_lift_bind {x : VmmM α} {f : α → StateT S VmmM β}
    (hx : Uncached c x R F)
    (h : ∀ a c', R a c' → Uncached c' ((f a).run s) Q F) :
    Uncached c ((liftM x >>= f).run s) Q F := by
  rw [StateT.run_bind]
  apply (spec_lift hx).bind
  rintro ⟨a, s'⟩ c' ⟨ha, rfl⟩
  exact h a c' ha

end Rules

/-! ## The view -/

/-- The pages in use by their addresses, the frames of the kernel half by page numbers, and a memory
that holds the bytes of the pages at their addresses. -/
structure Pages where
  held : List ℕ
  frame : ℕ → Option ℕ
  mem : Bytes

/-- The machine has these pages, below `top`, and a heap at or above it. -/
structure Views (K : Kernel) (dirs : List ℕ) (top : ℕ) (h : Heap) (P : Pages) (c : View Pmm) :
    Prop where
  shows : Paged.Shows K dirs h c
  scratch : ¬IsPresent (entry c.mem c.cr3 1022)
  frames : ∀ p, KernelSlot (p / 1024) → kernelFrame K c.mem p = P.frame p
  nodup : P.held.Nodup
  range : ∀ v ∈ P.held, v % 4096 = 0 ∧ 0xC0000000 ≤ v ∧ v < top
  top_le : top ≤ 0xFF800000
  heap : ∀ p, h.mapped p = true → top ≤ 4096 * p
  page : ∀ v ∈ P.held, ∃ f, P.frame (v / 4096) = some f ∧ Spare K dirs c f ∧
    (∀ p, h.mapped p = true → P.frame p ≠ some f) ∧ ∀ i < 4096, c.mem (f + i) = P.mem (v + i)
  inj : ∀ v ∈ P.held, ∀ v' ∈ P.held, ∀ f, P.frame (v / 4096) = some f →
    P.frame (v' / 4096) = some f → v = v'
  gap : P.frame (768 * 1024) ≠ none → 0xC0000000 ∈ P.held

section Views

variable {K : Kernel} {dirs : List ℕ} {top : ℕ} {h : Heap} {P : Pages} {c : View Pmm} {v f : ℕ}

theorem Views.slot (hV : Views K dirs top h P c) (hv : v ∈ P.held) :
    KernelSlot (v / 4096 / 1024) := by
  obtain ⟨-, hlo, hhi⟩ := hV.range v hv
  have htop := hV.top_le
  exact ⟨by omega, by omega⟩

theorem Views.lookup (hV : Views K dirs top h P c) (hv : v ∈ P.held)
    (hf : P.frame (v / 4096) = some f) :
    ∃ g, Paging.lookup c.mem c.cr3 (v / 4096) = some ⟨f, g⟩ :=
  hV.shows.spaces.lookup_kernel_some (hV.slot hv) ((hV.frames _ (hV.slot hv)).trans hf)

theorem Views.write (hV : Views K dirs top h P c) (hv : v ∈ P.held)
    (hf : P.frame (v / 4096) = some f) {mem' w' : Bytes} (ho : OnlyIn f c.mem mem')
    (hpage : ∀ i < 4096, mem' (f + i) = w' (v + i))
    (hother : ∀ a, a / 4096 ≠ v / 4096 → w' a = P.mem a) :
    Views K dirs top h { P with mem := w' } { c with mem := mem' } := by
  obtain ⟨f', hf', hsp, hnot, -⟩ := hV.page v hv
  rw [hf] at hf'
  cases hf'
  have hnot' (p : ℕ) (hp : h.mapped p = true) : kernelFrame K c.mem p ≠ some f := by
    rw [hV.frames p (hV.shows.slot (.inl hp))]
    exact hnot p hp
  have htab := hV.shows.spaces.sameTables hsp.not_isTable ho
  have hal := hsp.aligned
  refine ⟨hV.shows.onlyIn hsp hnot' ho, ?_, fun p hp => ?_, hV.nodup, hV.range, hV.top_le,
    hV.heap, fun u hu => ?_, hV.inj, hV.gap⟩
  · show ¬IsPresent (entry mem' c.cr3 1022)
    rw [htab _ (.inl (.inl hV.shows.spaces.current)) _ (by norm_num)]
    exact hV.scratch
  · exact (kernelFrame_congr (fun t ht => htab t (.inr ht)) hp).trans (hV.frames p hp)
  · obtain ⟨g, hg, hsg, hgn, hbytes⟩ := hV.page u hu
    refine ⟨g, hg, hsg.data htab.user, hgn, fun i hi => ?_⟩
    by_cases huv : u = v
    · subst huv
      rw [hf] at hg
      cases hg
      exact hpage i hi
    · -- the pages have different addresses and different frames
      have hgf : g ≠ f := fun he => huv (hV.inj u hu v hv f (he ▸ hg) hf)
      have hgal := hsg.aligned
      obtain ⟨hual, -⟩ := hV.range u hu
      obtain ⟨hval, -⟩ := hV.range v hv
      have hmem : mem' (g + i) = c.mem (g + i) := by
        apply ho
        rw [frameOf_add hgal hi]
        exact hgf
      show mem' (g + i) = w' (u + i)
      rw [hmem, hbytes i hi, hother _ (by omega)]

end Views

/-! ## Words of a page -/

section Fields

variable {K : Kernel} {dirs : List ℕ} {top : ℕ} {h : Heap} {P : Pages} {c : View Pmm}
  {v f o x : ℕ} {F : View Pmm → Prop}

section

variable (hV : Views K dirs top h P c) (hv : v ∈ P.held)

include hV hv

theorem spec_loadField (ho : o + 4 ≤ 4096) :
    Uncached c (loadField (v + o))
      (fun r c' => r = P.mem.get32 (v + o) ∧ c' = c) F := by
  obtain ⟨hal, -⟩ := hV.range v hv
  obtain ⟨f, hf, -, -, hbytes⟩ := hV.page v hv
  obtain ⟨g, hg⟩ := hV.lookup hv hf
  have hpage : (v + o) / 4096 = v / 4096 := by omega
  have hoff : (v + o) % 4096 = o := by omega
  refine spec_load32 (settled_false _ _ _) (fun hb => by cases hb) (fun hnone => ?_) fun t ht => ?_
  · rw [hpage, hg] at hnone
    cases hnone
  · rw [hpage, hg] at ht
    cases ht
    rw [hoff]
    refine ⟨get32_shift fun i hi => ?_, rfl⟩
    rw [Nat.add_assoc, Nat.add_assoc]
    exact hbytes (o + i) (by omega)

theorem spec_storeField (ho : o + 4 ≤ 4096) :
    Uncached c (storeField (v + o) x)
      (fun _ c' => Views K dirs top h { P with mem := P.mem.put32 (v + o) x } c') F := by
  obtain ⟨hal, -⟩ := hV.range v hv
  obtain ⟨f, hf, hsp, -, hbytes⟩ := hV.page v hv
  obtain ⟨g, hg⟩ := hV.lookup hv hf
  have hpage : (v + o) / 4096 = v / 4096 := by omega
  have hoff : (v + o) % 4096 = o := by omega
  refine spec_store32 (settled_false _ _ _) (fun hb => by cases hb) (fun hnone => ?_) x
    fun t ht => ⟨steps_false _ _ _ _, ?_⟩
  · rw [hpage, hg] at hnone
    cases hnone
  · rw [hpage, hg] at ht
    cases ht
    dsimp only
    rw [hoff]
    have hfal := hsp.aligned
    refine hV.write hv hf (fun a ha => ?_) (fun i hi => ?_) fun a ha => ?_
    · apply put32_of_not_mem
      unfold Aligned at hfal
      unfold frameOf at ha
      omega
    · exact put32_shift (hbytes i hi)
    · apply put32_of_not_mem
      omega

theorem spec_storeByte (ho : o < 4096)
    (b : UInt8) :
    Uncached c (store8 (v + o) b)
      (fun _ c' => Views K dirs top h { P with mem := P.mem.put8 (v + o) b } c') F := by
  obtain ⟨hal, -⟩ := hV.range v hv
  obtain ⟨f, hf, hsp, -, hbytes⟩ := hV.page v hv
  obtain ⟨g, hg⟩ := hV.lookup hv hf
  have hpage : (v + o) / 4096 = v / 4096 := by omega
  have hoff : (v + o) % 4096 = o := by omega
  refine spec_store8 (settled_false _ _ _) (fun hb => by cases hb) (fun hnone => ?_) b
    fun t ht => ⟨steps_false _ _ _ _, ?_⟩
  · rw [hpage, hg] at hnone
    cases hnone
  · rw [hpage, hg] at ht
    cases ht
    dsimp only
    rw [hoff]
    have hfal := hsp.aligned
    refine hV.write hv hf (fun a ha => ?_) (fun i hi => ?_) fun a ha => ?_
    · apply put8_of_ne
      unfold Aligned at hfal
      unfold frameOf at ha
      omega
    · unfold Bytes.put8
      rw [hbytes i hi]
      exact if_congr (by omega) rfl rfl
    · apply put8_of_ne
      omega

end

end Fields

/-! ## New pages -/

section Grow

variable {K : Kernel} {dirs : List ℕ} {top : ℕ} {h h' : Heap} {P : Pages} {c c' : View Pmm}
  {v f n : ℕ}

theorem Views.alloc (hV : Views K dirs top h P c) (ht : Takes c.rest n f c'.rest)
    (hk : KernelPage K dirs { c with rest := c'.rest } (v / 4096) f c') (hal : v % 4096 = 0)
    (hlo : 0xC0000000 ≤ v) (htop : v < top) (hfree : P.frame (v / 4096) = none) :
    Views K dirs top { h with pmm := c'.rest }
      ⟨v :: P.held, update P.frame (v / 4096) (some f), P.mem.fill v 0 4096⟩ c' := by
  have hs := hV.shows
  have hnot : h.mapped (v / 4096) ≠ true := by
    intro hm
    have := hV.heap _ hm
    omega
  have hnew {u : ℕ} (hu : u ∈ P.held) : u / 4096 ≠ v / 4096 := by
    intro he
    obtain ⟨g, hg, -⟩ := hV.page u hu
    rw [he, hfree] at hg
    cases hg
  have hkeep {p : ℕ} (hp : p ≠ v / 4096) :
      update P.frame (v / 4096) (some f) p = P.frame p := update_of_ne hp _ _
  -- the frame is new
  have hother {g : ℕ} (hg : Spare K dirs c g) : g ≠ f ∧ Spare K dirs c' g ∧
      ∀ a, frameOf a = g → c'.mem a = c.mem a := by
    obtain ⟨hsp, hgf⟩ := hg.take hs.spaces ht
    exact ⟨hgf, hk.keeps g hgf hsp⟩
  refine ⟨?_, ?_, fun p hp => ?_, ?_, ?_, hV.top_le, hV.heap, ?_, ?_, ?_⟩
  · refine hs.newPage ht hk rfl hs.heapMax le_rfl (fun _ _ => rfl) (fun hm => absurd hm hnot)
      fun a ha => ?_
    rw [if_neg]
    intro he
    exact hnot (he ▸ ha)
  · rw [hk.cr3, hk.directory _ hs.spaces.current _ (by norm_num)]
    exact hV.scratch
  · dsimp only
    by_cases he : p = v / 4096
    · rw [he, hk.page, update_self]
    · rw [hk.other p hp he, hkeep he]
      exact hV.frames p hp
  · exact nodup_cons.mpr ⟨fun hv => hnew hv rfl, hV.nodup⟩
  · intro u hu
    obtain rfl | hu := mem_cons.mp hu
    · exact ⟨hal, hlo, htop⟩
    · exact hV.range u hu
  · intro u hu
    obtain rfl | hu := mem_cons.mp hu
    · refine ⟨f, update_self _ _ _, hk.spare, fun p hp => ?_, fun i hi => ?_⟩
      · have hne : p ≠ u / 4096 := fun he => hnot (he ▸ hp)
        dsimp only
        rw [hkeep hne, ← hV.frames p (hs.slot (.inl hp))]
        intro hp'
        exact (hother (hs.own p f (.inl hp) hp')).1 rfl
      · rw [hk.clear _ (frameOf_add hk.spare.aligned hi)]
        exact (fill_of_mem _ _ (by omega) (by omega)).symm
    · obtain ⟨g, hg, hsg, hgn, hbytes⟩ := hV.page u hu
      obtain ⟨-, hsg', hsame⟩ := hother hsg
      obtain ⟨hual, -⟩ := hV.range u hu
      have hne := hnew hu
      refine ⟨g, (hkeep hne).trans hg, hsg', fun p hp => ?_, fun i hi => ?_⟩
      · have hpv : p ≠ v / 4096 := fun he => hnot (he ▸ hp)
        dsimp only
        rw [hkeep hpv]
        exact hgn p hp
      · rw [hsame _ (frameOf_add hsg.aligned hi), hbytes i hi]
        exact (fill_of_not_mem _ _ (by omega)).symm
  · -- the frame of the new page is that of no other one
    have hone {u : ℕ} (hu : u ∈ P.held) : P.frame (u / 4096) ≠ some f := by
      obtain ⟨g, hg, hsg, -⟩ := hV.page u hu
      rw [hg]
      exact fun he => (hother hsg).1 (Option.some.inj he)
    intro u hu u' hu' g hg hg'
    dsimp only at hg hg'
    obtain rfl | hm := mem_cons.mp hu
    · obtain rfl | hm' := mem_cons.mp hu'
      · rfl
      · rw [update_self] at hg
        rw [hkeep (hnew hm')] at hg'
        exact absurd (hg'.trans hg.symm) (hone hm')
    · rw [hkeep (hnew hm)] at hg
      obtain rfl | hm' := mem_cons.mp hu'
      · rw [update_self] at hg'
        exact absurd (hg.trans hg'.symm) (hone hm)
      · rw [hkeep (hnew hm')] at hg'
        exact hV.inj u hm u' hm' g hg hg'
  · intro hgap
    by_cases he : 768 * 1024 = v / 4096
    · rw [show v = 0xC0000000 by omega]
      exact mem_cons_self
    · dsimp only at hgap
      rw [hkeep he] at hgap
      exact mem_cons_of_mem _ (hV.gap hgap)

theorem Views.heapUsed (hV : Views K dirs top h P c) (htop : top ≤ kheapStart)
    (hs : Paged.Shows K dirs h' c') (ha : Paged.Apart K dirs h c h' c') :
    Views K dirs top h' { P with
      frame := fun p => if h'.mapped p = true then kernelFrame K c'.mem p else P.frame p } c' := by
  have hheap (p : ℕ) (hp : h'.mapped p = true) : top ≤ 4096 * p := by
    obtain ⟨hlo, -⟩ := hs.range p hp
    unfold kheapStart at hlo htop
    omega
  have hheld {u : ℕ} (hu : u ∈ P.held) : h'.mapped (u / 4096) ≠ true := by
    intro hm
    have := hheap _ hm
    obtain ⟨-, -, hlt⟩ := hV.range u hu
    omega
  refine ⟨hs, ?_, fun p hp => ?_, hV.nodup, hV.range, hV.top_le, hheap, fun u hu => ?_,
    fun u hu u' hu' g hg hg' => ?_, fun hgap => ?_⟩
  · rw [ha.cr3, ha.scratch]
    exact hV.scratch
  · dsimp only
    split
    case isTrue => rfl
    case isFalse hm => rw [ha.page p hp hm, hV.frames p hp]
  · obtain ⟨f, hf, hsp, hnot, hbytes⟩ := hV.page u hu
    obtain ⟨hsp', hnot', hsame⟩ := ha.frame f hsp fun p hp => by
      rw [hV.frames p (hV.shows.slot (.inl hp))]
      exact hnot p hp
    refine ⟨f, (if_neg (hheld hu)).trans hf, hsp', fun p hp => ?_, fun i hi => ?_⟩
    · dsimp only
      rw [if_pos hp]
      exact hnot' p hp
    · rw [hsame _ (frameOf_add hsp.aligned hi), hbytes i hi]
  · dsimp only at hg hg'
    rw [if_neg (hheld hu)] at hg
    rw [if_neg (hheld hu')] at hg'
    exact hV.inj u hu u' hu' g hg hg'
  · have hm : h'.mapped (768 * 1024) ≠ true := fun hm => hs.ne_first hm rfl
    dsimp only at hgap
    rw [if_neg hm] at hgap
    exact hV.gap hgap

end Grow

/-! ## Pages that are given back -/

section Release

variable {K : Kernel} {dirs : List ℕ} {top : ℕ} {h : Heap} {P : Pages} {c : View Pmm}
  {v f p : ℕ} {F : View Pmm → Prop}

theorem Views.release (hV : Views K dirs top h P c) (hK : K.Distinct) (hv : v ∈ P.held)
    (hf : P.frame (v / 4096) = some f) {mem' : Bytes}
    (hm : mem' = c.mem.put32 (K.table (v / 4096 / 1024) + 4 * (v / 4096 % 1024)) 0) :
    Views K dirs top { h with pmm := pmmFreePage c.rest f }
      { P with held := P.held.erase v, frame := update P.frame (v / 4096) none }
      { c with mem := mem', rest := pmmFreePage c.rest f } := by
  obtain ⟨hval, hvlo, hvtop⟩ := hV.range v hv
  obtain ⟨f', hf', hsp, hnot, -⟩ := hV.page v hv
  rw [hf] at hf'
  cases hf'
  have hslot := hV.slot hv
  have hs := hV.shows
  obtain ⟨hsame, hpage, hother⟩ := hs.spaces.setKernelPte hK hslot (e := 0) (by norm_num) hm
  rw [if_neg not_present_zero] at hpage
  obtain ⟨-, hkeep⟩ := (hs.spaces.data hsame).release (hsp.data hsame)
  have honly : OnlyIn (K.table (v / 4096 / 1024)) c.mem mem' :=
    hm ▸ onlyIn_put32 (hs.spaces.aligned (.inr ⟨_, hslot, rfl⟩)) (Nat.mod_lt _ (by norm_num)) 0
  have hnm : h.mapped (v / 4096) ≠ true := by
    intro hm
    have := hV.heap _ hm
    omega
  have hframe {q : ℕ} (hq : q ≠ v / 4096) :
      update P.frame (v / 4096) none q = P.frame q := update_of_ne hq _ _
  have hheld {u : ℕ} (hu : u ∈ P.held.erase v) : u ∈ P.held ∧ u / 4096 ≠ v / 4096 := by
    obtain ⟨hne, hmem⟩ := (hV.nodup.mem_erase_iff).mp hu
    obtain ⟨hual, -⟩ := hV.range u hmem
    exact ⟨hmem, by omega⟩
  refine ⟨?_, ?_, fun q hq => ?_, hV.nodup.erase v, fun u hu => hV.range u (hheld hu).1, hV.top_le,
    hV.heap, fun u hu => ?_, fun u hu u' hu' g hg hg' => ?_, fun hgap => ?_⟩
  · apply hs.release hK hslot hnm hsp _ hm
    rintro q (hq | rfl) hne
    · rw [hV.frames q (hs.slot (.inl hq))]
      exact hnot q hq
    · -- the first page of the kernel half is one of the pages too
      rw [hV.frames _ ⟨by omega, by omega⟩]
      intro hgap
      have hmem := hV.gap (by rw [hgap]; exact Option.some_ne_none f)
      have := hV.inj _ hmem v hv f hgap hf
      omega
  · show ¬IsPresent (entry mem' c.cr3 1022)
    rw [hsame _ (.inl hs.spaces.current) _ (by norm_num)]
    exact hV.scratch
  · show kernelFrame K mem' q = update P.frame (v / 4096) none q
    by_cases he : q = v / 4096
    · rw [he, hpage, update_self]
    · rw [hother q hq he, hframe he, hV.frames q hq]
  · obtain ⟨hu, hne⟩ := hheld hu
    obtain ⟨g, hg, hsg, hgn, hbytes⟩ := hV.page u hu
    have hgf : g ≠ f := fun he => hne (by rw [hV.inj u hu v hv f (he ▸ hg) hf])
    refine ⟨g, (hframe hne).trans hg, hkeep g hgf (hsg.data hsame), fun q hq => ?_, fun i hi => ?_⟩
    · have hqv : q ≠ v / 4096 := fun he => hnm (he ▸ hq)
      show update P.frame (v / 4096) none q ≠ some g
      rw [hframe hqv]
      exact hgn q hq
    · refine (honly _ ?_).trans (hbytes i hi)
      rw [frameOf_add hsg.aligned hi]
      exact hsg.apart _ hslot
  · obtain ⟨hu, hne⟩ := hheld hu
    obtain ⟨hu', hne'⟩ := hheld hu'
    dsimp only at hg hg'
    rw [hframe hne] at hg
    rw [hframe hne'] at hg'
    exact hV.inj u hu u' hu' g hg hg'
  · dsimp only at hgap
    by_cases he : 768 * 1024 = v / 4096
    · rw [he, update_self] at hgap
      exact absurd rfl hgap
    · rw [hframe he] at hgap
      apply (hV.nodup.mem_erase_iff).mpr
      exact ⟨by omega, hV.gap hgap⟩

end Release

end DvivonOS.Windows.Pool
