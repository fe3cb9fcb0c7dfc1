import DvivonOS.Heap.Arena
import DvivonOS.Heap.FreeList

/-!
# Specifications of merging, splitting, growing, `kmalloc` and `kfree`

`Inv` is `Ok` with every free block on the free list. Each operation keeps it, changes no byte of
a block that stays live (`Keeps`), and can stop only with the fault of a page table at
`PTS_SCRATCH_WINDOW` (`windowFault`).

`coalesce_with_next` never merges: its bound `(uintptr_t)MEMORY_SPACE` is `0` on 32 bits
(`coalesceWithNext_wp`). `coalesce_with_prev` trusts the word before a block, which is the footer
of the block before it or, for a free block of 12 bytes, an even link.
-/

namespace DvivonOS

open Bytes HeapCode List

variable {h : Heap} {E : Stop → Prop} {bs : List Blk} {fl : List ℕ}

/-- `Ok`, with every free block on the free list. -/
structure Inv (h : Heap) (bs : List Blk) (fl : List ℕ) : Prop extends Ok h bs fl where
  full : ∀ b ∈ bs, b.free = true → b.addr ∈ fl

/-- The live blocks are the same, and none of their bytes has changed. -/
structure Keeps (bs bs' : List Blk) (m m' : Bytes) : Prop where
  live : ∀ b, b.free = false → (b ∈ bs' ↔ b ∈ bs)
  same : LiveSame bs m m'

namespace Keeps

variable {bs' bs'' : List Blk} {m m' m'' : Bytes}

theorem of_liveSame (h : LiveSame bs m m') : Keeps bs bs m m' := ⟨fun _ _ => Iff.rfl, h⟩

theorem trans (h1 : Keeps bs bs' m m') (h2 : Keeps bs' bs'' m' m'') : Keeps bs bs'' m m'' where
  live b hb := (h2.live b hb).trans (h1.live b hb)
  same b hb hf i hi hi' :=
    (h2.same b ((h1.live b hf).mpr hb) hf i hi hi').trans (h1.same b hb hf i hi hi')

end Keeps

/-- The live blocks are the old ones, none of their bytes changed, and `b`. -/
structure Gains (bs bs' : List Blk) (m m' : Bytes) (b : Blk) : Prop where
  isLive : b.free = false
  fresh : b ∉ bs
  live : ∀ c, c.free = false → (c ∈ bs' ↔ c ∈ bs ∨ c = b)
  same : LiveSame bs m m'

/-- The live blocks are the old ones but for `b`, none of their bytes changed. -/
structure Loses (bs bs' : List Blk) (m m' : Bytes) (b : Blk) : Prop where
  live : ∀ c, c.free = false → (c ∈ bs' ↔ c ∈ bs ∧ c ≠ b)
  same : ∀ c ∈ bs, c.free = false → c ≠ b → ∀ i, c.addr ≤ i → i < c.addr + c.size → m' i = m i

section Compose

variable {bs' bs'' : List Blk} {m m' m'' : Bytes} {b : Blk}

theorem Keeps.gains (h1 : Keeps bs bs' m m') (h2 : Gains bs' bs'' m' m'' b) :
    Gains bs bs'' m m'' b where
  isLive := h2.isLive
  fresh := fun hb => h2.fresh ((h1.live b h2.isLive).mpr hb)
  live c hc := by rw [h2.live c hc, h1.live c hc]
  same c hc hf i hi hi' :=
    (h2.same c ((h1.live c hf).mpr hc) hf i hi hi').trans (h1.same c hc hf i hi hi')

theorem Loses.keeps (h1 : Loses bs bs' m m' b) (h2 : Keeps bs' bs'' m' m'') :
    Loses bs bs'' m m'' b where
  live c hc := (h2.live c hc).trans (h1.live c hc)
  same c hc hf hne i hi hi' :=
    (h2.same c ((h1.live c hf).mpr ⟨hc, hne⟩) hf i hi hi').trans (h1.same c hc hf hne i hi hi')

end Compose

/-! ## Replacing a stretch of blocks -/

/-- Rewriting the bytes between `s` and `e` as the blocks `N` keeps the heap `Ok`, as long as the
links of the free list are left alone. -/
theorem Ok.replace (ok : Ok h bs fl) {L N R : List Blk} {s e : ℕ} {m : Bytes}
    (hL : Tiles kheapStart L s) (hN : Tiles s N e) (hR : Tiles e R h.heapMax)
    (hsub : ∀ b ∈ L ++ R, b ∈ bs) (hout : ∀ i, i < s ∨ e ≤ i → m i = h.mem i)
    (hrep : ∀ b ∈ N, b.Rep m)
    (hlinks : ∀ x ∈ fl, nextOf m x = nextOf h.mem x ∧ prevOf m x = prevOf h.mem x)
    (hfree : ∀ x ∈ fl, ∃ b ∈ L ++ (N ++ R), b.addr = x ∧ b.free = true) :
    Ok { h with mem := m } (L ++ (N ++ R)) fl where
  present := ok.present
  bound := ok.bound
  aligned := ok.aligned
  tiles := hL.append (hN.append hR)
  rep := by
    intro b hb
    simp only [mem_append] at hb
    rcases hb with hb | hb | hb
    · obtain ⟨-, h2, h3, -, -⟩ := hL.mem_bounds b hb
      exact (ok.rep b (hsub b (mem_append_left _ hb))).of_outside h3
        fun i _ hi => hout i (Or.inl (by omega))
    · exact hrep b hb
    · obtain ⟨h1, -, h3, -, -⟩ := hR.mem_bounds b hb
      exact (ok.rep b (hsub b (mem_append_right _ hb))).of_outside h3
        fun i hi _ => hout i (Or.inr (by omega))
  linked := ok.linked.congr hlinks
  nodup := ok.nodup
  free := hfree

theorem Ok.replaceBlock {L R N : List Blk} {C : Blk} (ok : Ok h (L ++ C :: R) fl)
    (hC : C.addr ∉ fl) {m : Bytes} (hN : Tiles C.addr N (C.addr + C.size))
    (hout : ∀ i, i < C.addr ∨ C.addr + C.size ≤ i → m i = h.mem i)
    (hrep : ∀ b ∈ N, b.Rep m) : Ok { h with mem := m } (L ++ (N ++ R)) fl := by
  have hCm : C ∈ L ++ C :: R := mem_append_right _ mem_cons_self
  obtain ⟨hL, hR⟩ := ok.of_append_cons
  refine ok.replace hL hN hR ?_ hout hrep (fun x hx => ?_) fun x hx => ?_
  · intro b hb
    rcases mem_append.mp hb with hb | hb
    · exact mem_append_left _ hb
    · exact mem_append_right _ (mem_cons_of_mem _ hb)
  · obtain ⟨b, hb, rfl, -, -, -, b3, -⟩ := ok.node hx
    refine links_congr fun i hi hi' => hout i ?_
    rcases ok.tiles.eq_or_disjoint b hb C hCm with rfl | h0 | h0
    · exact absurd hx hC
    · left; omega
    · right; omega
  · obtain ⟨b, hb, rfl, hbf⟩ := ok.free x hx
    refine ⟨b, ?_, rfl, hbf⟩
    rcases mem_append.mp hb with hb | hb
    · exact mem_append_left _ hb
    rcases mem_cons.mp hb with rfl | hb
    · exact absurd hx hC
    · exact mem_append_right _ (mem_append_right _ hb)

/-- A rewritten block leaves the bytes of all other blocks alone. -/
theorem Ok.same_of_ne {C c : Blk} (ok : Ok h bs fl) (hC : C ∈ bs) (hc : c ∈ bs) (hne : c ≠ C)
    {m : Bytes} (hout : ∀ i, i < C.addr ∨ C.addr + C.size ≤ i → m i = h.mem i) :
    ∀ i, c.addr ≤ i → i < c.addr + c.size → m i = h.mem i := by
  intro i h1 h2
  refine hout i ?_
  rcases ok.tiles.eq_or_disjoint c hc C hC with h0 | h0 | h0
  · exact absurd h0 hne
  · left; omega
  · right; omega

/-! ## Merging -/

/-- **Merge.** Two adjacent free blocks become one; the second leaves the free list. -/
theorem coalesceBlocks_wp {L R : List Blk} {A B : Blk} {l₁ l₂ : List ℕ}
    (ok : Ok h (L ++ A :: B :: R) (l₁ ++ B.addr :: l₂)) (hA : A.free = true) (hB : B.free = true)
    {Q : Unit → Heap → Prop}
    (hQ : ∀ h', Ok h' (L ++ ⟨A.addr, A.size + B.size, true⟩ :: R) (l₁ ++ l₂) →
      Keeps (L ++ A :: B :: R) (L ++ ⟨A.addr, A.size + B.size, true⟩ :: R) h.mem h'.mem →
      SameEnd h h' → Q () h') :
    Wp (coalesceBlocks A.addr B.addr) Q E h := by
  have hAm : A ∈ L ++ A :: B :: R := mem_append_right _ mem_cons_self
  have hBm : B ∈ L ++ A :: B :: R :=
    mem_append_right _ (mem_cons_of_mem _ mem_cons_self)
  unfold coalesceBlocks
  rw [wp_bind]
  refine removeFreeBlock_wp ok fun h₁ ok₁ hs₁ hmax => ?_
  obtain ⟨a1, a2, a3, a4, a5, a6⟩ := ok₁.bounds hAm
  obtain ⟨b1, b2, b3, b4, b5, b6⟩ := ok₁.bounds hBm
  obtain ⟨hL, hB0, -, -, hR⟩ := ok₁.of_append_cons
  have hp := ok₁.present
  have hsum : add32 A.size B.size = A.size + B.size := by unfold add32; omega
  have h4 : 4 ∣ A.size + B.size := dvd_add a4 b4
  have hAt := (ok₁.rep A hAm).header
  have hBt := (ok₁.rep B hBm).header
  rw [hA] at hAt
  rw [hB] at hBt
  have htag : tag (A.size + B.size) true < 4294967296 := tag_lt h4 (by omega)
  have hodd : decide (h₁.mem.get32 A.addr % 2 = 1) = true := by
    rw [hAt]; unfold tag; simp only [if_true, decide_eq_true_eq]; omega
  rw [wp_bind, wp_getSize hp a1 (by omega) hAt a4 (by omega), wp_bind,
    wp_getSize hp b1 (by omega) hBt b4 (by omega), hsum, wp_bind,
    wp_setSize hp a1 (by omega) h4, hodd, wp_bind,
    wp_setFree hp a1 (by omega) (get32_put32_of_lt _ _ htag) h4,
    wp_updateFooter hp a1 (by omega) (get32_put32_of_lt _ _ htag) h4 (by omega) (by omega)
      ok₁.bound]
  have hBfl : B.addr ∉ l₁ ++ l₂ := (nodup_cons.mp (nodup_middle.mp ok.nodup)).1
  show Q () { h₁ with
    mem := tagged (h₁.mem.put32 A.addr (tag (A.size + B.size) true)) A.addr (A.size + B.size) true }
  generalize hm : tagged _ A.addr (A.size + B.size) true = m
  -- only the header of `A` and the last word of `B` are written
  have hother : ∀ i, i < A.addr ∨ (A.addr + 4 ≤ i ∧ i < A.addr + (A.size + B.size) - 4) ∨
      A.addr + (A.size + B.size) ≤ i → m i = h₁.mem i := by
    intro i hi
    rw [← hm, tagged_of_between (by omega) hi, put32_of_not_mem _ _ (by omega)]
  refine hQ _ ?_ ⟨fun c hcf => ?_, fun c hc hcf i hi hi' => ?_⟩ ⟨hmax.heapMax, hmax.pmm⟩
  · refine ok₁.replace (N := [⟨A.addr, A.size + B.size, true⟩]) hL
      ⟨rfl, by show 12 ≤ A.size + B.size; omega, h4, rfl⟩ ?_ ?_ ?_ ?_ ?_ ?_
    · show Tiles (A.addr + (A.size + B.size)) R h₁.heapMax
      rw [← Nat.add_assoc]
      exact hR
    · intro c hc
      simp only [mem_append, mem_cons] at hc ⊢
      tauto
    · intro i hi
      exact hother i (by dsimp only at hi; omega)
    · intro c hc
      rw [mem_singleton.mp hc, ← hm]
      exact rep_tagged (by omega) htag
    · intro x hx
      obtain ⟨c, hc, rfl, hcf, -, -, c3, -⟩ := ok₁.node hx
      refine links_congr fun i hi hi' => hother i ?_
      rcases ok₁.tiles.eq_or_disjoint c hc A hAm with rfl | h0 | h0
      · omega
      · omega
      rcases ok₁.tiles.eq_or_disjoint c hc B hBm with rfl | h1 | h1
      · exact absurd hx hBfl
      · omega
      · omega
    · intro x hx
      obtain ⟨c, hc, rfl, hcf⟩ := ok₁.free x hx
      simp only [mem_append, mem_cons] at hc
      rcases hc with hc | rfl | rfl | hc
      · exact ⟨c, mem_append_left _ hc, rfl, hcf⟩
      · exact ⟨_, mem_append_right _ mem_cons_self, rfl, rfl⟩
      · exact absurd hx hBfl
      · exact ⟨c, mem_append_right _ (mem_cons_of_mem _ hc), rfl, hcf⟩
  · have hcN : c ≠ ⟨A.addr, A.size + B.size, true⟩ := Blk.ne_of_free rfl hcf
    simp only [mem_append, mem_cons, Blk.ne_of_free hA hcf, Blk.ne_of_free hB hcf, hcN,
      false_or]
  · refine (hother i ?_).trans (hs₁ c hc hcf i hi hi')
    rcases ok₁.tiles.eq_or_disjoint c hc A hAm with h0 | h0 | h0
    · exact absurd h0 (Blk.ne_of_free hA hcf)
    · omega
    rcases ok₁.tiles.eq_or_disjoint c hc B hBm with h1 | h1 | h1
    · exact absurd h1 (Blk.ne_of_free hB hcf)
    · omega
    · omega

/-- `coalesce_with_next` only reads a header: its bound is `0` on 32 bits. -/
theorem coalesceWithNext_wp {x : ℕ} (hp : Present h.mapped h.heapMax) (h1 : kheapStart ≤ x)
    (h2 : x + 4 ≤ h.heapMax) {Q : Unit → Heap → Prop} (hQ : Q () h) :
    Wp (coalesceWithNext x) Q E h := by
  have hms : memorySpace % 2 ^ 32 = 0 := by decide
  unfold coalesceWithNext getSize
  simp only [wp_bind, wp_load, hp, h1, h2, wp_pure, wp_heapMax, hms, Nat.zero_le, or_true, if_true]
  exact hQ

/-- The last word of a free block without a footer does not look like the tag of a free block. -/
theorem Ok.footer_even {P : Blk} (ok : Ok h bs fl) (hP : P ∈ bs)
    (hfl : P.addr ∈ fl) (h12 : P.size < 16) : h.mem.get32 (P.addr + P.size - 4) % 2 = 0 := by
  obtain ⟨-, -, p3, p4, -, -⟩ := ok.bounds hP
  -- a free block of 12 bytes: the word is `prev_free`, null or an aligned address
  have hs : P.size = 12 := by omega
  rw [hs, show P.addr + 12 - 4 = P.addr + 8 by omega]
  show prevOf h.mem P.addr % 2 = 0
  rcases (ok.link_cases hfl).2 with h0 | h0
  · rw [h0]
  · obtain ⟨-, -, -, -, -, -, -, hd⟩ := ok.node h0
    omega

theorem Inv.full_of_ne {L R : List Blk} {C : Blk} {l₁ l₂ : List ℕ}
    (inv : Inv h (L ++ C :: R) (l₁ ++ C.addr :: l₂)) {b : Blk}
    (hb : b ∈ L ++ R) (hf : b.free = true) : b.addr ∈ l₁ ++ l₂ := by
  obtain ⟨hL, hR⟩ := inv.toOk.of_append_cons
  have hC3 := (inv.bounds (mem_append_right L mem_cons_self)).2.2.1
  have hne : b.addr ≠ C.addr := by
    rcases mem_append.mp hb with hb | hb
    · obtain ⟨-, b2, b3, -⟩ := hL.mem_bounds b hb
      omega
    · obtain ⟨b1, -⟩ := hR.mem_bounds b hb
      omega
  have hm : b ∈ L ++ C :: R := by
    simp only [mem_append, mem_cons] at hb ⊢
    exact hb.imp_right Or.inr
  have hfl := inv.full b hm hf
  simp only [mem_append, mem_cons] at hfl ⊢
  exact hfl.imp_right fun h0 => h0.resolve_left hne

/-- **Merge to the left.** -/
theorem coalesceWithPrev_wp {L R : List Blk} {X : Blk} (inv : Inv h (L ++ X :: R) fl)
    (hX : X.free = true) {Q : Unit → Heap → Prop}
    (hQ : ∀ h' fl', Inv h' (mergeLeft L X ++ R) fl' →
      Keeps (L ++ X :: R) (mergeLeft L X ++ R) h.mem h'.mem → SameEnd h h' → Q () h') :
    Wp (coalesceWithPrev X.addr) Q E h := by
  have hXm : X ∈ L ++ X :: R := mem_append_right _ mem_cons_self
  obtain ⟨x1, x2, x3, x4, x5, x6⟩ := inv.bounds hXm
  have hp := inv.present
  -- where nothing is merged the heap stays as it is
  have hstay (hm : mergeLeft L X ++ R = L ++ X :: R) : Q () h := by
    rw [hm] at hQ
    exact hQ h _ inv (Keeps.of_liveSame fun _ _ _ _ _ _ => rfl) ⟨rfl, rfl⟩
  have hx0 : ¬ X.addr ≤ 0 := by unfold kheapStart at x1; omega
  have hsub : sub32 X.addr sizeofHeader = X.addr - 4 := by
    unfold sub32 sizeofHeader; omega
  unfold coalesceWithPrev
  rw [if_neg hx0]
  simp only [hsub]
  rcases eq_nil_or_concat L with rfl | ⟨L', P, rfl⟩
  · have hstart : X.addr = kheapStart := inv.tiles.1
    rw [if_pos (by omega), wp_pure]
    exact hstay rfl
  rw [concat_eq_append] at inv hXm hQ hstay
  have hPm : P ∈ L' ++ [P] ++ X :: R := by simp
  obtain ⟨p1, p2, p3, p4, p5, p6⟩ := inv.bounds hPm
  have inv' := inv
  rw [append_assoc, singleton_append] at inv'
  have hPX : P.addr + P.size = X.addr := inv'.toOk.of_append_cons.2.1.symm
  rw [if_neg (by omega)]
  have hw := (inv.rep P hPm).footer
  rw [hPX] at hw
  have hload : kheapStart ≤ X.addr - 4 ∧ X.addr - 4 + 4 ≤ h.heapMax := by omega
  rw [wp_bind]
  unfold isFree
  simp only [wp_bind, wp_load, hp, hload, wp_pure, and_free]
  by_cases hodd : h.mem.get32 (X.addr - 4) % 2 = 0
  · -- not the tag of a free block, so `P` is live or has no footer
    simp only [hodd, bne_self_eq_false, Bool.false_eq_true, if_false, wp_pure]
    refine hstay ?_
    rw [mergeLeft_of_not, append_assoc _ [X], singleton_append]
    rintro ⟨hPf, hP16⟩
    rw [hw (Or.inr hP16), hPf] at hodd
    unfold tag at hodd
    simp only [if_true] at hodd
    omega
  · -- `P` is free and has a footer: `prev_block` is its address
    have hPf : P.free = true := by
      by_contra hPf
      rw [Bool.not_eq_true] at hPf
      have := hw (Or.inl hPf)
      rw [this, hPf] at hodd
      unfold tag at hodd
      simp only [Bool.false_eq_true, if_false] at hodd
      omega
    have hP16 : 16 ≤ P.size := by
      by_contra h16
      have := inv.footer_even hPm (inv.full P hPm hPf) (by omega)
      rw [hPX] at this
      exact hodd this
    have hwt := hw (Or.inr hP16)
    have hne : (h.mem.get32 (X.addr - 4) % 2 != 0) = true := by simpa using hodd
    have hback : sub32 X.addr P.size = P.addr := by unfold sub32; omega
    simp only [hne, if_true, wp_bind]
    rw [wp_getSize hp hload.1 hload.2 hwt p4 (by omega), hback]
    obtain ⟨l₁, l₂, hfl⟩ := append_of_mem (inv.full X hXm hX)
    subst hfl
    refine coalesceBlocks_wp inv'.toOk hPf hX fun h' ok' hk hmax => ?_
    rw [mergeLeft_of_free hPf hP16, append_assoc, singleton_append, append_assoc,
      singleton_append] at hQ
    refine hQ h' _ ⟨ok', fun b hb hbf => ?_⟩ hk hmax
    simp only [mem_append, mem_cons] at hb
    rcases hb with hb | rfl | hb
    · exact inv.full_of_ne (by simp [hb]) hbf
    · exact inv.full_of_ne (b := P) (by simp) hPf
    · exact inv.full_of_ne (by simp [hb]) hbf

/-! ## Taking a block -/

section Take

variable {L R : List Blk} {C : Blk} {l₁ l₂ : List ℕ} {size : ℕ}

/-- Replacing the free block `C` by a live block at its address, with free blocks behind. -/
theorem gains_of_replace {m m' : Bytes} {bs' : List Blk} (inv : Inv h (L ++ C :: R) fl)
    (hC : C.free = true) {sz : ℕ}
    (hlive : ∀ c : Blk, c.free = false → (c ∈ bs' ↔ c ∈ L ++ R ∨ c = ⟨C.addr, sz, false⟩))
    (hs : LiveSame (L ++ C :: R) m m') :
    Gains (L ++ C :: R) bs' m m' ⟨C.addr, sz, false⟩ where
  isLive := rfl
  fresh hb := by
    have := inv.tiles.eq_of_addr hb (mem_append_right L mem_cons_self) rfl
    rw [← this] at hC
    exact Bool.noConfusion hC
  live c hc := by
    rw [hlive c hc]
    simp only [mem_append, mem_cons, Blk.ne_of_free hC hc, false_or]
  same := hs

/-- **Allocation from a free block.** The block leaves the list and becomes live, cut down to
`size` bytes when the rest can hold a free block. -/
theorem takeBlock_wp (inv : Inv h (L ++ C :: R) (l₁ ++ C.addr :: l₂)) (hC : C.free = true)
    (h12 : 12 ≤ size) (h4 : 4 ∣ size) (hle : size ≤ C.size) {Q : ℕ → Heap → Prop}
    (hQ : ∀ h' fl' sz, Inv h' (L ++ (carve C size ++ R)) fl' →
      Gains (L ++ C :: R) (L ++ (carve C size ++ R)) h.mem h'.mem ⟨C.addr, sz, false⟩ →
      size ≤ sz → SameEnd h h' → Q (C.addr + 4) h') :
    Wp (takeBlock C.addr C.size size) Q E h := by
  have hCm : C ∈ L ++ C :: R := mem_append_right _ mem_cons_self
  have hCfl : C.addr ∉ l₁ ++ l₂ := (nodup_cons.mp (nodup_middle.mp inv.nodup)).1
  unfold takeBlock
  rw [wp_bind]
  refine removeFreeBlock_wp inv.toOk fun h₁ ok₁ hs₁ hmax => ?_
  obtain ⟨c1, c2, c3, c4, c5, c6⟩ := ok₁.bounds hCm
  have hp := ok₁.present
  have hbd := ok₁.bound
  have hhd := (ok₁.rep C hCm).header
  have hadd : add32 size sizeofFreeHeader = size + 12 := by
    unfold add32 sizeofFreeHeader; omega
  have hlt : tag C.size false < 4294967296 := tag_lt c4 (by omega)
  have hsame : ∀ m : Bytes, (∀ i, i < C.addr ∨ C.addr + C.size ≤ i → m i = h₁.mem i) →
      LiveSame (L ++ C :: R) h.mem m := fun m hout c hc hcf i hi hi' =>
    (ok₁.same_of_ne hCm hc (Blk.ne_of_free hC hcf) hout i hi hi').trans (hs₁ c hc hcf i hi hi')
  rw [wp_bind, wp_clearFree hp c1 (by omega) hhd c4 (by omega), hadd]
  by_cases hsplit : size + 12 ≤ C.size
  · rw [if_pos hsplit]
    have hcarve : carve C size = [⟨C.addr, size, false⟩, ⟨C.addr + size, C.size - size, true⟩] :=
      if_pos hsplit
    rw [hcarve] at hQ
    have htag : tag size false < 4294967296 := tag_lt h4 (by omega)
    have heven : ∀ v, v = tag C.size false → decide (v % 2 = 1) = false := by
      rintro v rfl
      unfold tag
      simp only [Bool.false_eq_true, if_false, decide_eq_false_iff_not]
      omega
    have hna : add32 C.addr size = C.addr + size := by unfold add32; omega
    have hns : sub32 C.size size = C.size - size := by unfold sub32; omega
    unfold splitBlock
    rw [wp_bind, wp_bind, wp_getSize hp c1 (by omega) (get32_put32_of_lt _ _ hlt) c4
      (by omega), hadd, if_neg (by omega), hna, hns, wp_bind, wp_setSize hp c1 (by omega) h4,
      heven _ (get32_put32_of_lt _ _ hlt), wp_bind,
      wp_updateFooter hp c1 (by omega) (get32_put32_of_lt _ _ htag) h4 h12 (by omega) hbd,
      wp_bind]
    refine createFreeBlock_wp (by exact hp) (by exact hbd) (by omega)
      (by show C.addr + size + (C.size - size) ≤ h₁.heapMax; omega) (by omega)
      (Nat.dvd_sub c4 h4) fun m hrep hout => ?_
    replace hout : ∀ i, i < C.addr + size ∨ C.addr + size + (C.size - size) ≤ i →
      m i = tagged (h₁.mem.put32 C.addr (tag C.size false)) C.addr size false i := hout
    rw [wp_bind]
    have hout' : ∀ i, i < C.addr ∨ C.addr + C.size ≤ i → m i = h₁.mem i := by
      intro i hi
      rw [hout i (by omega), tagged_of_between h12 (by omega),
        put32_of_not_mem _ _ (by omega)]
    -- the header and the footer of the live part lie before the new free block
    have hrep' : (Blk.mk C.addr size false).Rep m :=
      (rep_tagged h12 htag).of_outside h12 fun i _ hi => hout i (.inl hi)
    have ok₂ := ok₁.replaceBlock (N := [⟨C.addr, size, false⟩, ⟨C.addr + size, C.size - size, true⟩])
      hCfl ⟨rfl, h12, h4, rfl, by show 12 ≤ C.size - size; omega, Nat.dvd_sub c4 h4,
        show C.addr + size + (C.size - size) = C.addr + C.size by omega⟩ hout'
      (by simpa using ⟨hrep', hrep⟩)
    refine addFreeBlock_wp (b := ⟨C.addr + size, C.size - size, true⟩) ok₂ (by simp) rfl ?_
      fun h₃ ok₃ hs₃ hmax₃ => ?_
    · -- the new block starts inside `C`, where no node of the list is
      intro hx
      obtain ⟨b, hb, hba, -⟩ := ok₁.free _ hx
      dsimp only at hba
      obtain ⟨-, -, b3, -⟩ := ok₁.bounds hb
      rcases ok₁.tiles.eq_or_disjoint b hb C hCm with rfl | h0 | h0 <;> omega
    rw [wp_pure, wp_pure]
    refine hQ h₃ _ size ⟨ok₃, fun b hb hbf => ?_⟩ (gains_of_replace inv hC (fun c hc => ?_) ?_)
      le_rfl (hmax.trans ⟨hmax₃.heapMax, hmax₃.pmm⟩)
    · simp only [mem_append, mem_cons, not_mem_nil, or_false] at hb
      rcases hb with hb | (rfl | rfl) | hb
      · exact mem_cons_of_mem _ (inv.full_of_ne (mem_append_left _ hb) hbf)
      · exact Bool.noConfusion hbf
      · exact mem_cons_self
      · exact mem_cons_of_mem _ (inv.full_of_ne (mem_append_right _ hb) hbf)
    · have hne : c ≠ ⟨C.addr + size, C.size - size, true⟩ := Blk.ne_of_free rfl hc
      simp only [mem_append, mem_cons, not_mem_nil, or_false, hne]
      tauto
    · intro c hc hcf i hi hi'
      have hne := Blk.ne_of_free hC hcf
      have hc' : c ∈ L ++ ([⟨C.addr, size, false⟩, ⟨C.addr + size, C.size - size, true⟩] ++ R) := by
        simp only [mem_append, mem_cons] at hc ⊢
        tauto
      exact (hs₃ c hc' hcf i hi hi').trans (hsame m hout' c hc hcf i hi hi')
  · rw [if_neg hsplit, wp_bind, wp_updateFooter hp c1 (by omega)
      (get32_put32_of_lt _ _ hlt) c4 c3 c2 hbd, wp_pure]
    have hout : ∀ i, i < C.addr ∨ C.addr + C.size ≤ i →
        tagged h₁.mem C.addr C.size false i = h₁.mem i := fun i hi =>
      tagged_of_between c3 (by omega)
    have ok₂ := ok₁.replaceBlock (N := [⟨C.addr, C.size, false⟩]) hCfl ⟨rfl, c3, c4, rfl⟩ hout
      (by simpa using rep_tagged c3 hlt)
    rw [show carve C size = [⟨C.addr, C.size, false⟩] from if_neg hsplit] at hQ
    refine hQ _ _ C.size ⟨ok₂, fun b hb hbf => ?_⟩
      (gains_of_replace inv hC (fun c hc => ?_) (hsame _ hout)) hle ⟨hmax.heapMax, hmax.pmm⟩
    · simp only [mem_append, mem_cons, not_mem_nil, or_false] at hb
      rcases hb with hb | rfl | hb
      · exact inv.full_of_ne (mem_append_left _ hb) hbf
      · exact Bool.noConfusion hbf
      · exact inv.full_of_ne (mem_append_right _ hb) hbf
    · simp only [mem_append, mem_cons, not_mem_nil, or_false]
      tauto

end Take

end DvivonOS
