import DvivonOS.Heap.Refine

/-!
# Adjacent free blocks

`coalesce_with_next` never merges, and `coalesce_with_prev` does not see a free block of 12 bytes,
so two neighbouring blocks can both be free. `Call.Merges` says of a call, in terms of the heap
before it, that it leaves no such pair; `free_blocks_apart` shows that these are exactly the calls
that keep the free blocks apart, and that a heap without live blocks is then one free block again.
-/

namespace DvivonOS

open HeapCode List

/-! ## Neighbours in a tiling -/

section Neighbours

variable {a e : ℕ} {L R : List Blk} {b P N : Blk}

theorem Tiles.mem_getLast? (h : Tiles a L e) : P ∈ L.getLast? ↔ P ∈ L ∧ P.addr + P.size = e := by
  rcases eq_nil_or_concat L with rfl | ⟨L', Q, rfl⟩
  · simp
  rw [concat_eq_append] at h ⊢
  rw [List.getLast?_concat, Option.mem_some_iff]
  obtain ⟨m, hL', rfl, hQ, -, hend⟩ := h.of_append
  have hend' : Q.addr + Q.size = e := hend
  constructor
  · rintro rfl
    exact ⟨by simp, hend⟩
  · rintro ⟨hP, hPe⟩
    rcases mem_append.mp hP with hP | hP
    · have := (hL'.mem_bounds P hP).2.1
      omega
    · exact (mem_singleton.mp hP).symm

theorem Tiles.mem_head? (h : Tiles a R e) : N ∈ R.head? ↔ N ∈ R ∧ N.addr = a := by
  cases R with
  | nil => simp
  | cons Q R =>
    obtain ⟨hQ, hQ12, -, hR⟩ := h
    rw [List.head?_cons, Option.mem_some_iff]
    constructor
    · rintro rfl
      exact ⟨mem_cons_self, hQ⟩
    · rintro ⟨hN, hNa⟩
      rcases mem_cons.mp hN with rfl | hN
      · rfl
      · have := (hR.mem_bounds N hN).1
        omega

variable (h : Tiles a (L ++ b :: R) e)

include h

theorem Tiles.before_iff : P ∈ L.getLast? ↔ P ∈ L ++ b :: R ∧ P.addr + P.size = b.addr := by
  obtain ⟨m, hL, rfl, hb12, hb4, hR⟩ := h.of_append
  rw [hL.mem_getLast?]
  refine ⟨fun ⟨hP, hPe⟩ => ⟨mem_append_left _ hP, hPe⟩, ?_⟩
  rintro ⟨hP, hPe⟩
  rcases mem_append.mp hP with hP | hP
  · exact ⟨hP, hPe⟩
  · have hbR : Tiles b.addr (b :: R) e := ⟨rfl, hb12, hb4, hR⟩
    obtain ⟨h1, -, h12, -⟩ := hbR.mem_bounds P hP
    omega

theorem Tiles.behind_iff : N ∈ R.head? ↔ N ∈ L ++ b :: R ∧ N.addr = b.addr + b.size := by
  obtain ⟨m, hL, rfl, hb12, -, hR⟩ := h.of_append
  rw [hR.mem_head?]
  refine ⟨fun ⟨hN, hNa⟩ => ⟨by simp [hN], hNa⟩, ?_⟩
  rintro ⟨hN, hNa⟩
  rcases mem_append.mp hN with hN | hN
  · obtain ⟨-, h2, -⟩ := hL.mem_bounds N hN
    omega
  rcases mem_cons.mp hN with rfl | hN
  · omega
  · exact ⟨hN, hNa⟩

end Neighbours

/-! ## Free blocks apart -/

def BlocksApart (bs : List Blk) : Prop := bs.IsChain fun b c => ¬(b.free = true ∧ c.free = true)

section BlocksApart

variable {L R bs : List Blk} {b C X : Blk} {size : ℕ}

theorem blocksApart_append : BlocksApart (L ++ R) ↔ BlocksApart L ∧ BlocksApart R ∧
    ∀ P ∈ L.getLast?, ∀ N ∈ R.head?, ¬(P.free = true ∧ N.free = true) :=
  isChain_append

theorem blocksApart_singleton : BlocksApart [b] := isChain_singleton _

/-- Merging leaves no pair of free blocks exactly where the block before has a footer and the block
behind is live. -/
theorem blocksApart_mergeLeft (hL : BlocksApart L) (hR : BlocksApart R) (hX : X.free = true) :
    BlocksApart (mergeLeft L X ++ R) ↔
      (∀ P ∈ L.getLast?, P.free = true → 16 ≤ P.size) ∧ ∀ N ∈ R.head?, N.free = false := by
  rcases mergeLeft_cases L X with ⟨L', P, rfl, hP, hP16, -, hm⟩ | ⟨hlast, -, hm⟩
  · -- the merged block has the neighbours of `P` on the left
    obtain ⟨hL', -, hbefore⟩ := blocksApart_append.mp hL
    have hleft : BlocksApart (L' ++ [⟨P.addr, P.size + X.size, true⟩]) := by
      refine blocksApart_append.mpr ⟨hL', blocksApart_singleton, fun Q hQ N hN => ?_⟩
      simp only [List.head?_cons, Option.mem_some_iff] at hN
      subst hN
      exact fun hboth => hbefore Q hQ P (by simp) ⟨hboth.1, hP⟩
    rw [hm, blocksApart_append]
    simp only [hleft, hR, true_and, List.getLast?_concat, Option.mem_some_iff, forall_eq', hP,
      hP16, imp_self, Bool.not_eq_true]
  · rw [hm, blocksApart_append, blocksApart_append]
    simp only [hL, hR, blocksApart_singleton, true_and, List.getLast?_concat, List.head?_cons,
      Option.mem_some_iff, forall_eq', hX, and_true, Bool.not_eq_true]
    refine and_congr_left fun _ => forall₂_congr fun P hP => ?_
    have := hlast P hP
    constructor
    · intro hf hf'
      rw [hf] at hf'
      cases hf'
    · intro hf
      by_contra hfree
      rw [Bool.not_eq_false] at hfree
      have h16 := hf hfree
      have hlt := this hfree
      omega

/-- A live block at the place of a free one, and what is left of that. -/
theorem blocksApart_carve (h : BlocksApart (L ++ C :: R)) (hC : C.free = true) :
    BlocksApart (L ++ (carve C size ++ R)) := by
  obtain ⟨hL, hCR, -⟩ := blocksApart_append.mp h
  have hR : BlocksApart R := (isChain_cons.mp hCR).2
  have hCN := (isChain_cons.mp hCR).1
  unfold carve
  split_ifs
  · refine blocksApart_append.mpr ⟨hL, blocksApart_append.mpr ⟨?_, hR, ?_⟩, ?_⟩
    · exact isChain_cons_cons.mpr ⟨by simp, blocksApart_singleton⟩
    · intro P hP N hN
      exact fun hboth => hCN N hN ⟨hC, hboth.2⟩
    · simp
  · refine blocksApart_append.mpr ⟨hL, blocksApart_append.mpr ⟨blocksApart_singleton, hR, ?_⟩, ?_⟩
    · simp
    · simp

/-- The last of the blocks is what an allocation without a fitting block takes from. -/
theorem eq_last_of_not_mem {F L R : List Blk} {C T : Blk} (h : F ++ [T] = L ++ C :: R)
    (hC : C ∉ F) : L = F ∧ C = T ∧ R = [] := by
  rcases eq_nil_or_concat R with rfl | ⟨R', Q, rfl⟩
  · obtain ⟨hF, hT⟩ := append_inj' h rfl
    exact ⟨hF.symm, (singleton_inj.mp hT).symm, rfl⟩
  · rw [concat_eq_append, ← cons_append, ← append_assoc] at h
    obtain ⟨hF, -⟩ := append_inj' h rfl
    exact absurd (hF ▸ by simp) hC

end BlocksApart

/-! ## The calls -/

namespace Arena

variable {a a' : Arena} {p size : ℕ}

/-- The last block is not a free block without a footer. -/
def TailOk (a : Arena) : Prop := ∀ P ∈ a.blocks.getLast?, P.free = true → 16 ≤ P.size

/-- What `kmalloc` does to free blocks that are apart. -/
theorem Malloc.blocksApart_iff (h : Malloc size a p a') (hok : a.pmm.Ok)
    (ha : BlocksApart a.blocks) : BlocksApart a'.blocks ↔ a.Fits size ∨ a.TailOk ∨ a.pmm.free = 0 ∨
      size ≤ a.pmm.free * pageSize := by
  obtain ⟨k, hbefore, hend⟩ := h.pages
  obtain ⟨hk, hfree⟩ := pages_free hok fun j hj => (hbefore j hj).2
  rcases hend with ⟨-, hfit, hnone, rfl⟩ | ⟨L, C, R, hblocks, hC, hle, -, rfl⟩
  · -- null: all free pages have been taken
    have hall : a.pmm.free = k := by
      have := hk.free_eq_zero hnone
      omega
    cases k with
    | zero => exact iff_of_true ha (.inr (.inr (.inl hall)))
    | succ k =>
      rw [fits_pages, not_or] at hfit
      show BlocksApart (a.pages (k + 1)).blocks ↔ _
      rw [pages_blocks, ← append_nil (mergeLeft _ _),
        blocksApart_mergeLeft ha isChain_nil rfl, hall]
      refine ⟨fun hm => .inr (.inl hm.1), fun hm => ⟨?_, by simp⟩⟩
      rcases hm with hm | hm | hm | hm
      · exact absurd hm hfit.1
      · exact hm
      · omega
      · exact absurd (Nat.le_add_left_of_le hm) hfit.2
  · cases k with
    | zero =>
      have hblocks' : a.blocks = L ++ C :: R := hblocks
      rw [hblocks'] at ha
      exact iff_of_true (blocksApart_carve ha hC) (.inl ⟨C, by rw [hblocks']; simp, hC, hle⟩)
    | succ k =>
      -- only the last block fits, and its start becomes live
      have hnofit : ¬a.Fits size := (hbefore 0 (by omega)).1
      rw [pages_blocks] at hblocks
      obtain ⟨F, T, hF, hsub, hm, hT⟩ : ∃ F T, BlocksApart F ∧ (∀ b ∈ F, b ∈ a.blocks) ∧
          mergeLeft a.blocks ⟨a.heapMax, (k + 1) * pageSize, true⟩ = F ++ [T] ∧
          T.size = tailSize a.blocks + (k + 1) * pageSize := by
        rcases mergeLeft_cases a.blocks ⟨a.heapMax, (k + 1) * pageSize, true⟩ with
          ⟨L', P, hL', -, -, ht, hm⟩ | ⟨-, ht, hm⟩
        · rw [hL'] at ha ⊢
          refine ⟨L', _, (blocksApart_append.mp ha).1, fun b hb => mem_append_left _ hb,
            hL' ▸ hm, ?_⟩
          rw [← hL', ht]
        · exact ⟨_, _, ha, fun b hb => hb, hm, by rw [ht, Nat.zero_add]⟩
      obtain ⟨rfl, rfl, rfl⟩ := eq_last_of_not_mem (hm.symm.trans hblocks) fun hCF =>
        hnofit ⟨C, hsub C hCF, hC, hle⟩
      refine iff_of_true ?_ ?_
      · show BlocksApart (L ++ (carve C size ++ []))
        have hlive : ∀ N ∈ (carve C size ++ []).head?, N.free = false := by
          unfold carve
          split_ifs <;> simp
        have hcut : BlocksApart ([] ++ (carve C size ++ [])) :=
          blocksApart_carve blocksApart_singleton hC
        refine blocksApart_append.mpr ⟨hF, hcut, fun P _ N hN hboth => ?_⟩
        rw [hlive N hN] at hboth
        exact Bool.noConfusion hboth.2
      · rcases mergeLeft_cases a.blocks ⟨a.heapMax, pageSize, true⟩ with
          ⟨L', P, hL', hP, hP16, -, -⟩ | ⟨-, ht, -⟩
        · refine .inr (.inl fun Q hQ _ => ?_)
          rw [hL', List.getLast?_concat, Option.mem_some_iff] at hQ
          exact hQ ▸ hP16
        · refine .inr (.inr (.inr ?_))
          rw [hT, ht, Nat.zero_add] at hle
          exact hle.trans (Nat.mul_le_mul_right _ (by omega))

end Arena

/-- The call leaves no pair of free neighbours: `kfree` where the block behind is live and the block
before is not a free block of 12 bytes; `kmalloc` where a free block fits, or the last block is not
a free block of 12 bytes, or there is no free page, or the free pages suffice. -/
def Call.Merges : Call → Client → Prop
  | .kmalloc size, s => ∃ bs fl, Layout s bs fl ∧
      ((∃ b ∈ bs, b.free = true ∧ wantedSize size ≤ b.size) ∨
        (∀ P ∈ bs, P.addr + P.size = s.heap.heapMax → P.free = true → P.size ≠ 12) ∨
        s.heap.pmm.free = 0 ∨ wantedSize size ≤ s.heap.pmm.free * pageSize)
  | .kfree ptr, s => ∃ bs fl, Layout s bs fl ∧
      ∀ b ∈ bs, ptr = b.addr + 4 →
        (∀ P ∈ bs, P.addr + P.size = b.addr → P.free = true → P.size ≠ 12) ∧
          ∀ N ∈ bs, N.addr = b.addr + b.size → N.free = false

def Client.FreeApart (s : Client) : Prop := ∃ bs fl, Layout s bs fl ∧ BlocksApart bs

def Client.Whole (s : Client) : Prop :=
  (s.heap.heapMax = kheapStart ∧ s.heap.freeListHead = 0) ∨
    Layout s [⟨kheapStart, s.heap.heapMax - kheapStart, true⟩] [kheapStart]

section Client

variable {s s' : Client} {bs bs' : List Blk} {fl fl' : List ℕ} {c : Call}

theorem Layout.freeApart_iff (h : Layout s bs fl) : s.FreeApart ↔ BlocksApart bs := by
  constructor
  · rintro ⟨bs', fl', h', ha⟩
    rwa [h.unique h']
  · exact fun ha => ⟨bs, fl, h, ha⟩

theorem Layout.sixteen_le_iff (h : Layout s bs fl) {P : Blk} (hP : P ∈ bs) :
    16 ≤ P.size ↔ P.size ≠ 12 := by
  obtain ⟨-, -, h12, h4, -⟩ := h.tiles.mem_bounds P hP
  omega

/-- **One call** keeps the free blocks apart exactly where it merges. -/
theorem Reached.blocksApart_step (h : Reached s bs fl)
    (hstep : Arena.Step c (s.heap.arena bs) (s'.heap.arena bs')) (ha : BlocksApart bs) :
    BlocksApart bs' ↔ c.Merges s := by
  have hl := h.holds.layout
  generalize hx : s.heap.arena bs = x at hstep
  generalize hy : s'.heap.arena bs' = y at hstep
  cases hstep with
  | @kmalloc size p a a' hm =>
    subst hx hy
    have hiff := hm.blocksApart_iff h.pmm ha
    refine hiff.trans ⟨fun hc => ⟨bs, fl, hl, ?_⟩, ?_⟩
    · refine hc.imp_right (Or.imp_left fun htail P hP hPe hPf => ?_)
      exact (hl.sixteen_le_iff hP).mp (htail P (hl.tiles.mem_getLast?.mpr ⟨hP, hPe⟩) hPf)
    · rintro ⟨bs₁, fl₁, hl₁, hc⟩
      rw [← hl.unique hl₁] at hc
      refine hc.imp_right (Or.imp_left fun htail P hP hPf => ?_)
      obtain ⟨hPm, hPe⟩ := hl.tiles.mem_getLast?.mp hP
      exact (hl.sixteen_le_iff hPm).mpr (htail P hPm hPe hPf)
  | @kfree L R b heapMax pmm hlive =>
    obtain ⟨rfl, -, -⟩ := Arena.mk.inj hx
    obtain ⟨rfl, -, -⟩ := Arena.mk.inj hy
    obtain ⟨hL, hbR, -⟩ := blocksApart_append.mp ha
    have hR : BlocksApart R := (isChain_cons.mp hbR).2
    rw [blocksApart_mergeLeft hL hR rfl]
    have ht := hl.tiles
    have hb : b ∈ L ++ b :: R := mem_append_right _ mem_cons_self
    constructor
    · rintro ⟨hbefore, hbehind⟩
      refine ⟨_, fl, hl, fun d hd hdp => ?_⟩
      have hdb : d = b := ht.eq_of_addr hd hb (by omega)
      subst hdb
      refine ⟨fun P hP hPe hPf => ?_, fun N hN hNa => hbehind N (ht.behind_iff.mpr ⟨hN, hNa⟩)⟩
      exact (hl.sixteen_le_iff hP).mp (hbefore P (ht.before_iff.mpr ⟨hP, hPe⟩) hPf)
    · rintro ⟨bs₁, fl₁, hl₁, hc⟩
      rw [← hl.unique hl₁] at hc
      obtain ⟨hbefore, hbehind⟩ := hc b hb rfl
      refine ⟨fun P hP hPf => ?_, fun N hN => ?_⟩
      · obtain ⟨hPm, hPe⟩ := ht.before_iff.mp hP
        exact (hl.sixteen_le_iff hPm).mpr (hbefore P hPm hPe hPf)
      · obtain ⟨hNm, hNa⟩ := ht.behind_iff.mp hN
        exact hbehind N hNm hNa

/-- Without live blocks, free blocks that are apart are one. -/
theorem Holds.whole (hold : Holds s bs fl) (ha : BlocksApart bs) (hlive : s.live = []) :
    s.Whole := by
  have hl := hold.layout
  have hfree : ∀ b ∈ bs, b.free = true := by
    intro b hb
    by_contra hf
    obtain ⟨size, hm⟩ := hold.owned b hb (by simpa using hf)
    rw [hlive] at hm
    exact not_mem_nil hm
  have hnodes := hl.free
  cases bs with
  | nil =>
    refine .inl ⟨hl.tiles.symm, ?_⟩
    have hfl : fl = [] := by
      refine eq_nil_iff_forall_not_mem.mpr fun x hx => ?_
      obtain ⟨b, hb, -⟩ := (hnodes x).mp hx
      exact not_mem_nil hb
    subst hfl
    exact hl.linked
  | cons b bs =>
    cases bs with
    | cons c bs =>
      have hbc := (isChain_cons_cons.mp ha).1
      exact absurd ⟨hfree b (by simp), hfree c (by simp)⟩ hbc
    | nil =>
      obtain ⟨hb, -, -, hend⟩ := hl.tiles
      have hend' : kheapStart + b.size = s.heap.heapMax := hend
      have hbeq : b = ⟨kheapStart, s.heap.heapMax - kheapStart, true⟩ := by
        cases b
        simp only at hb hend'
        have := hfree _ mem_cons_self
        simp only at this
        rw [hb, this, ← hend', Nat.add_sub_cancel_left]
      have hfl : fl = [kheapStart] := by
        have hmem : ∀ x, x ∈ fl ↔ x = kheapStart := by
          intro x
          rw [hnodes x]
          simp only [mem_singleton, exists_eq_left, hb]
          exact ⟨fun h => h.1.symm, fun h => ⟨h.symm, hfree b mem_cons_self⟩⟩
        exact (perm_singleton.mp ((perm_ext_iff_of_nodup hl.once
          (nodup_singleton _)).mpr fun x => (hmem x).trans mem_singleton.symm))
      rw [hbeq, hfl] at hl
      exact .inr hl

/-- One step keeps the free blocks apart exactly where it is a step that merges. -/
theorem Reached.freeApart_step (h : Reached s bs fl) (ha : BlocksApart bs)
    (hstep : HeapStep anyCall s s') : s'.FreeApart ↔ HeapStep Call.Merges s s' := by
  constructor
  · intro hs'
    cases hstep with
    | call _ hcall =>
      obtain ⟨bs', fl', h', ha'⟩ := h.call hcall
      exact .call ((h.blocksApart_step ha' ha).mp (h'.holds.layout.freeApart_iff.mp hs')) hcall
    | write hm hfit h1 h2 => exact .write hm hfit h1 h2
    | frames hok => exact .frames hok
  · intro hm
    rcases h.step hm with ⟨c, bs', fl', hc, h', ha'⟩ | ⟨h', -⟩
    · exact h'.holds.layout.freeApart_iff.mpr ((h.blocksApart_step ha' ha).mpr hc)
    · exact h'.holds.layout.freeApart_iff.mpr ha

theorem Reached.whole_iff (h : Reached s bs fl) :
    s.FreeApart ∧ (s.live = [] → s.Whole) ↔ s.FreeApart :=
  and_iff_left_of_imp fun ha => h.holds.whole (h.holds.layout.freeApart_iff.mp ha)

/-- What a history of steps that merge preserves, and no other history does. -/
theorem Reached.blocksApart_run {l : List Client} (h : Reached s bs fl)
    (hr : (s :: l).IsChain (HeapStep anyCall)) :
    (∀ t ∈ s :: l, t.FreeApart ∧ (t.live = [] → t.Whole)) ↔
      s.FreeApart ∧ (s :: l).IsChain (HeapStep Call.Merges) := by
  induction l generalizing s bs fl with
  | nil => simp [h.whole_iff]
  | cons t l ih =>
    obtain ⟨hstep, hrest⟩ := isChain_cons_cons.mp hr
    obtain ⟨bs', fl', h'⟩ : ∃ bs' fl', Reached t bs' fl' := by
      rcases h.step hstep with ⟨-, bs', fl', -, h', -⟩ | ⟨h', -⟩
      exacts [⟨bs', fl', h'⟩, ⟨bs, fl, h'⟩]
    rw [forall_mem_cons, h.whole_iff, isChain_cons_cons]
    refine and_congr_right fun hs => (ih h' hrest).trans ?_
    exact and_congr_left fun _ =>
      h.freeApart_step (h.holds.layout.freeApart_iff.mp hs) hstep

end Client

/-- **Free blocks apart.** The free blocks are apart in every state of a history, and a heap without
live blocks is one free block, exactly if every call of the history merges. -/
theorem free_blocks_apart {mem : Bytes} {pmm : Pmm} {l : List Client} (hok : pmm.Ok)
    (hr : (Client.initial mem pmm :: l).IsChain (HeapStep anyCall)) :
    (∀ s ∈ Client.initial mem pmm :: l, s.FreeApart ∧ (s.live = [] → s.Whole)) ↔
      (Client.initial mem pmm :: l).IsChain (HeapStep Call.Merges) := by
  have h := Reached.initial mem hok
  rw [h.blocksApart_run hr]
  exact and_iff_right (h.holds.layout.freeApart_iff.mpr isChain_nil)

def freedHeap : Heap := (smallHeap.after (kmalloc 5)).after (kfree (kheapStart + 4))

theorem freedHeap_history : (Client.initial Bytes.zero smallPmm ::
    [⟨smallHeap.after (kmalloc 5), [(kheapStart + 4, 5)]⟩, ⟨freedHeap, []⟩]).IsChain
      (HeapStep anyCall) := by
  have s2 : CallStep (.kfree (kheapStart + 4))
      ⟨smallHeap.after (kmalloc 5), [(kheapStart + 4, 5)]⟩ ⟨freedHeap, []⟩ :=
    .kfree (show (kheapStart + 4, 5) ∈ _ by simp) (run_after (by decide +kernel))
  exact .cons_cons (.call trivial smallHeap_kmalloc) (.cons_cons (.call trivial s2) (.singleton _))

theorem free_blocks_apart_two_calls :
    (∀ s ∈ Client.initial Bytes.zero smallPmm ::
        [⟨smallHeap.after (kmalloc 5), [(kheapStart + 4, 5)]⟩, ⟨freedHeap, []⟩],
      s.FreeApart ∧ (s.live = [] → s.Whole)) ↔
    (Client.initial Bytes.zero smallPmm ::
      [⟨smallHeap.after (kmalloc 5), [(kheapStart + 4, 5)]⟩, ⟨freedHeap, []⟩]).IsChain
      (HeapStep Call.Merges) :=
  free_blocks_apart smallPmm_ok freedHeap_history

/-- The rest of the page lies behind the freed block and is not merged with it. -/
theorem freed_blocks_adjacent :
    ∃ l : List Client, (Client.initial Bytes.zero smallPmm :: l).IsChain (HeapStep anyCall) ∧
      ∃ s ∈ l, s.live = [] ∧ ¬s.FreeApart ∧ ¬s.Whole := by
  refine ⟨_, freedHeap_history, ⟨freedHeap, []⟩, by simp, rfl, ?_⟩
  have hmax : freedHeap.heapMax = kheapStart + 4096 := by decide +kernel
  have htiles : Tiles kheapStart [⟨kheapStart, 16, true⟩, ⟨kheapStart + 16, 4080, true⟩]
      freedHeap.heapMax := by
    rw [hmax]
    exact ⟨rfl, by norm_num, by norm_num, rfl, by norm_num, by norm_num, rfl⟩
  have hheader : ∀ b ∈ [(⟨kheapStart, 16, true⟩ : Blk), ⟨kheapStart + 16, 4080, true⟩],
      freedHeap.mem.get32 b.addr &&& (0xFFFFFFFF ^^^ blockFree) = b.size ∧
        (freedHeap.mem.get32 b.addr &&& blockFree ≠ 0 ↔ b.free = true) := by
    decide +kernel
  constructor
  · rintro ⟨bs, fl, hl, ha⟩
    rw [hl.tiles.unique htiles hl.header hheader] at ha
    exact (isChain_cons_cons.mp ha).1 ⟨rfl, rfl⟩
  · rintro (⟨hempty, -⟩ | hl)
    · dsimp only at hempty
      omega
    · have heq := hl.tiles.unique htiles hl.header hheader
      exact absurd (congrArg List.length heq) (by simp)

end DvivonOS
