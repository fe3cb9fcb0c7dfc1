import DvivonOS.Memory.PoolList

/-!
# Taking and giving back pages

What `vmm_alloc_kernel_page` and `vmm_free_kernel_page` do to the pages that are in use and to the
free list (`Kept.alloc`, `Kept.free`). A page comes from the tail of the list as it is, or else is the
lowest one that is not mapped, with a new frame that has been cleared. A page that is given back is
put at the head of the list; with more than 128 pages in it, the one at the tail is unmapped.
-/

namespace DvivonOS.Windows.Pool

open List Paged Paging

/-- The pages in use are those that have been handed out and those in the list. -/
structure Kept (K : Kernel) (dirs : List ℕ) (top : ℕ) (h : Heap) (P : Pages) (l : PoolVars)
    (live ns : List ℕ) (c : View Pmm) : Prop where
  views : Views K dirs top h P c
  listed : Listed l P.mem ns
  held : P.held.Perm (live ++ ns)
  lastFree : l.lastFree = kernelHigherHalf

section Kept

variable {K : Kernel} {dirs : List ℕ} {top : ℕ} {h : Heap} {P : Pages} {c : View Pmm}
  {l : PoolVars} {live ns : List ℕ} {v x : ℕ} {F : View Pmm → Prop}

theorem Kept.nodup (hk : Kept K dirs top h P l live ns c) : (live ++ ns).Nodup :=
  hk.held.nodup_iff.mp hk.views.nodup

theorem Kept.mem_live (hk : Kept K dirs top h P l live ns c) (hv : v ∈ live) : v ∈ P.held :=
  hk.held.mem_iff.mpr (mem_append_left _ hv)

theorem Kept.mem_list (hk : Kept K dirs top h P l live ns c) (hv : v ∈ ns) : v ∈ P.held :=
  hk.held.mem_iff.mpr (mem_append_right _ hv)

theorem Views.address (hV : Views K dirs top h P c) (hv : v ∈ P.held) :
    v % 4096 = 0 ∧ v ≠ 0 ∧ v < 2 ^ 32 := by
  obtain ⟨hal, hlo, hhi⟩ := hV.range v hv
  have := hV.top_le
  exact ⟨hal, by omega, by omega⟩

/-! ## Pages from the list -/

theorem Kept.pop (hk : Kept K dirs top h P l live (ns ++ [x]) c)
    (hle : ns.length ≤ vmmFreeListMaxSize) :
    Uncached c (freeListPop.run l)
      (fun r c' => r = (x, popVars l P.mem) ∧
        Kept K dirs top h { P with mem := popMem l P.mem } (popVars l P.mem) (x :: live) ns c') F := by
  have hsub : ns ++ [x] ⊆ P.held := fun u hu => hk.mem_list hu
  refine (spec_freeListPop hk.views hk.listed hsub).post ?_
  rintro r c' ⟨hr, hV⟩
  have hperm : (live ++ (ns ++ [x])).Perm (x :: live ++ ns) := by
    rw [← append_assoc]
    exact perm_append_singleton x (live ++ ns)
  refine ⟨hr, hV, ?_, hk.held.trans hperm, hk.lastFree⟩
  apply hk.listed.pop (nodup_append.mp hk.nodup).2.1
  · exact fun u hu => hk.views.address (hsub hu)
  · unfold vmmFreeListMaxSize at hle
    omega

/-! ## New pages -/

/-- The lowest page of the kernel half, from page `p` on, that is not mapped. -/
def Lowest (P : Pages) (p q : ℕ) : Prop :=
  p ≤ q ∧ P.frame q = none ∧ ∀ r, p ≤ r → r < q → P.frame r ≠ none

theorem Views.isMapped (hV : Views K dirs top h P c) {q : ℕ} (hq : KernelSlot (q / 1024)) :
    (Paging.lookup c.mem c.cr3 q).isSome = (P.frame q).isSome := by
  rw [← hV.frames q hq]
  cases hf : kernelFrame K c.mem q with
  | some f =>
    obtain ⟨g, hg⟩ := hV.shows.spaces.lookup_kernel_some hq hf
    rw [hg]
    rfl
  | none =>
    rw [hV.shows.spaces.lookup_kernel hV.shows.spaces.current hq, hf]
    rfl

theorem spec_pageMapped (hV : Views K dirs top h P c) (hv : v < 2 ^ 32) :
    Uncached c (vmmIsMapped v)
      (fun r c' => c' = c ∧ r = (lookup c.mem c.cr3 (v / 4096)).isSome) F :=
  spec_isMapped (hV.shows.spaces.self _ hV.shows.spaces.current) hv (settled_false _ _ _)
    (settled_false _ _ _)

theorem spec_tried {α : Type} {mapped : Bool} {x : VmmM Bool} {k : Bool → VmmM α}
    {R : Bool → View Pmm → Prop} {Q : α → View Pmm → Prop}
    (hx : mapped = false → Uncached c x R F)
    (htrue : mapped = true → R false c)
    (hk : ∀ r c', R r c' → Uncached c' (k r) Q F) :
    Uncached c (if mapped then pure false >>= k else x >>= k) Q F := by
  cases mapped with
  | true => exact hk false c (htrue rfl)
  | false => exact (hx rfl).bind hk

section Search

variable (hV : Views K dirs top h P c)

include hV

theorem spec_searchLoop_full (hfull : pmmAllocPage c.rest = (0, c.rest)) (start : ℕ) :
    ∀ (n i : ℕ), i < 2 ^ 32 → Uncached c (searchLoop start n i) (fun r c' => r = 0 ∧ c' = c) F := by
  have hnone (i : ℕ) : Uncached c (vmmAllocKernelPageAt i)
      (fun r c' => r = false ∧ c' = c) F := by
    unfold vmmAllocKernelPageAt
    refine (spec_onRest (R := fun r c' => r = 0 ∧ c' = c) _ ?_).bind ?_
    · rw [hfull]
      exact ⟨rfl, rfl⟩
    · rintro _ _ ⟨rfl, rfl⟩
      rw [if_pos rfl]
      exact spec_pure ⟨rfl, rfl⟩
  intro n
  induction n with
  | zero => exact fun i _ => spec_pure ⟨rfl, rfl⟩
  | succ n ih =>
    intro i hi
    unfold searchLoop
    rw [if_neg (by unfold memorySpace; omega)]
    refine (spec_pageMapped hV hi).bind ?_
    rintro mapped c₁ ⟨hc₁, -⟩
    rw [hc₁]
    apply spec_tried (fun _ => hnone i) (fun _ => ⟨rfl, rfl⟩)
    rintro done c₂ ⟨rfl, rfl⟩
    dsimp only
    rw [if_neg Bool.false_ne_true]
    split
    case isTrue => exact ih _ (Nat.mod_lt _ (by norm_num))
    case isFalse => exact spec_pure ⟨rfl, rfl⟩

theorem spec_searchLoop_end (hroom : (pmmAllocPage c.rest).1 ≠ 0) (hF : ∀ c, F c)
    {R : ℕ → View Pmm → Prop} (start n : ℕ) :
    Uncached c (searchLoop start (n + 1) ptsScratchWindow) R F := by
  have hself := hV.shows.spaces.self _ hV.shows.spaces.current
  have hunmapped : Paging.lookup c.mem c.cr3 (ptsScratchWindow / 4096) = none := by
    unfold Paging.lookup
    exact if_neg fun hp => hV.scratch hp.1
  unfold searchLoop
  rw [if_neg (by decide)]
  refine (spec_pageMapped hV (by decide)).bind ?_
  rintro mapped c₁ ⟨hc₁, hmapped⟩
  rw [hunmapped] at hmapped
  rw [hc₁, hmapped, if_neg (by exact Bool.false_ne_true)]
  apply spec_stop_bind
  unfold vmmAllocKernelPageAt
  refine (spec_onRest (R := fun r c' => r ≠ 0 ∧ c'.mem = c.mem ∧ c'.cr3 = c.cr3) _
    ⟨hroom, rfl, rfl⟩).bind ?_
  rintro f c₂ ⟨hf0, hmem, hcr3⟩
  rw [if_neg hf0]
  apply spec_stop_bind
  unfold vmmMapKernelPage vmmSetPteAt
  apply spec_stop_bind
  refine spec_store32 (settled_false _ _ _) (fun hb => by cases hb) (fun _ => hF _) _ fun t ht => ?_
  have hnone : Paging.lookup c.mem c.cr3 (1023 * 1024 + 1022) = none := by
    have hdir : frameOf (entry c.mem c.cr3 1023) = c.cr3 := hself.2
    unfold Paging.lookup
    apply if_neg
    rintro ⟨-, hp⟩
    rw [show (1023 * 1024 + 1022) / 1024 = 1023 by norm_num, hdir] at hp
    exact hV.scratch hp
  rw [hmem, hcr3] at ht
  cases hnone.symm.trans ht

theorem spec_searchLoop_skip {R : ℕ → View Pmm → Prop} {q n : ℕ} (hq : 4096 * q ≤ 0xFF800000)
    (hx : Uncached c (searchLoop kernelHigherHalf n (4096 * q)) R F) :
    ∀ k p, 0xC0000 ≤ p → p + k = q → (∀ r, p ≤ r → r < q → P.frame r ≠ none) →
    Uncached c (searchLoop kernelHigherHalf (n + k) (4096 * p)) R F := by
  intro k
  induction k with
  | zero =>
    rintro p - rfl -
    exact hx
  | succ k ih =>
    intro p hp hpq hmap
    have hslot : KernelSlot (p / 1024) := ⟨by omega, by omega⟩
    have hdiv : 4096 * p / 4096 = p := by omega
    have hadd : add32 (4096 * p) pageSize = 4096 * (p + 1) := by
      unfold add32 pageSize
      omega
    rw [← Nat.add_assoc]
    unfold searchLoop
    rw [if_neg (by unfold memorySpace; omega)]
    refine (spec_pageMapped hV (by omega)).bind ?_
    rintro mapped c₁ ⟨hc₁, hmapped⟩
    rw [hdiv, hV.isMapped hslot, Option.isSome_iff_ne_none.mpr (hmap p le_rfl (by omega))] at hmapped
    rw [hc₁, hmapped, if_pos rfl]
    refine (spec_pure (R := fun r c' => r = false ∧ c' = c) ⟨rfl, rfl⟩).bind ?_
    rintro done c₂ ⟨rfl, hc₂⟩
    dsimp only
    rw [if_neg Bool.false_ne_true, hadd, if_pos (by unfold kernelHigherHalf; omega), hc₂]
    exact ih (p + 1) (by omega) (by omega) fun r hr => hmap r (by omega)

theorem spec_searchLoop_take (hK : K.Distinct) (hroom : (pmmAllocPage c.rest).1 ≠ 0) {q : ℕ}
    (hlo : 0xC0000 ≤ q) (hq : 4096 * q < 0xFF800000) (hfree : P.frame q = none) (start n : ℕ) :
    Uncached c (searchLoop start (n + 1) (4096 * q))
      (fun r c' => r = 4096 * q ∧ ∃ k f, Takes c.rest k f c'.rest ∧
        KernelPage K dirs { c with rest := c'.rest } q f c') F := by
  have hslot : KernelSlot (q / 1024) := ⟨by omega, by omega⟩
  have hdiv : 4096 * q / 4096 = q := by omega
  unfold searchLoop
  rw [if_neg (by unfold memorySpace; omega)]
  refine (spec_pageMapped hV (by omega)).bind ?_
  rintro mapped c₁ ⟨hc₁, hmapped⟩
  rw [hdiv, hV.isMapped hslot, hfree] at hmapped
  rw [hc₁, hmapped, if_neg (by exact Bool.false_ne_true)]
  refine (spec_allocKernelPage (known_false _) hV.shows.spaces hK (by omega) (by omega) (by omega)).bind ?_
  rintro done c₂ (⟨-, hfull, -⟩ | ⟨rfl, -, -, k, f, ht, hkp⟩)
  · rw [hfull] at hroom
    exact absurd rfl hroom
  · rw [hdiv] at hkp
    exact spec_pure ⟨rfl, k, f, ht, hkp⟩

/-- The search from the start of the kernel half on, with a frame at hand: without a page for it below
the scratch window it ends in a page fault there. -/
theorem spec_search (hK : K.Distinct) (hroom : (pmmAllocPage c.rest).1 ≠ 0)
    (hpage : (∃ q, 0xC0000 ≤ q ∧ 4096 * q < 0xFF800000 ∧ P.frame q = none) ∨ ∀ c, F c) :
    Uncached c (searchLoop kernelHigherHalf (2 ^ 20) kernelHigherHalf)
      (fun r c' => ∃ q, Lowest P 0xC0000 q ∧ 4096 * q < 0xFF800000 ∧ r = 4096 * q ∧
        ∃ k f, Takes c.rest k f c'.rest ∧ KernelPage K dirs { c with rest := c'.rest } q f c') F := by
  by_cases hex : ∃ q, 0xC0000 ≤ q ∧ P.frame q = none ∧ 4096 * q < 0xFF800000
  · classical
    obtain ⟨hlo, hfree, hq⟩ := Nat.find_spec hex
    have hmin {m : ℕ} (hm : m < Nat.find hex) := Nat.find_min hex hm
    generalize Nat.find hex = q at hlo hfree hq hmin
    have hlow (r : ℕ) (hr : 0xC0000 ≤ r) (hrq : r < q) : P.frame r ≠ none :=
      fun hnone => hmin hrq ⟨hr, hnone, by omega⟩
    have hskip := spec_searchLoop_skip hV (by omega)
      (spec_searchLoop_take (F := F) hV hK hroom hlo hq hfree kernelHigherHalf
        (2 ^ 20 - (q - 0xC0000) - 1)) (q - 0xC0000) 0xC0000 le_rfl (by omega) hlow
    rw [show 2 ^ 20 - (q - 0xC0000) - 1 + 1 + (q - 0xC0000) = 2 ^ 20 by omega] at hskip
    refine hskip.post ?_
    rintro r c' ⟨hr, hkp⟩
    exact ⟨q, ⟨hlo, hfree, hlow⟩, hq, hr, hkp⟩
  · have hF : ∀ c, F c := by
      obtain ⟨q, hlo, hq, hfree⟩ | hF := hpage
      · exact absurd ⟨q, hlo, hfree, hq⟩ hex
      · exact hF
    have hall (r : ℕ) (hr : 0xC0000 ≤ r) (hrq : r < 0xFF800) : P.frame r ≠ none :=
      fun hnone => hex ⟨r, hr, hnone, by omega⟩
    have hwin : ptsScratchWindow = 4096 * 0xFF800 := by norm_num [ptsScratchWindow]
    have hskip {R : ℕ → View Pmm → Prop} : Uncached c (searchLoop kernelHigherHalf
        (2 ^ 20 - 0x3F800 - 1 + 1 + 0x3F800) (4096 * 0xC0000)) R F :=
      spec_searchLoop_skip hV (by norm_num)
        (hwin ▸ spec_searchLoop_end hV hroom hF kernelHigherHalf (2 ^ 20 - 0x3F800 - 1)) 0x3F800
        0xC0000 le_rfl (by norm_num) hall
    rw [show 2 ^ 20 - 0x3F800 - 1 + 1 + 0x3F800 = 2 ^ 20 by norm_num] at hskip
    exact hskip

end Search

/-! ## `vmm_alloc_kernel_page` -/

theorem Listed.count_pos (hL : Listed l P.mem ns) : 0 < l.count ↔ ns ≠ [] := by
  rw [hL.count]
  exact length_pos_iff

theorem pageAlignUp_start : pageAlignUp kernelHigherHalf = kernelHigherHalf := by decide

/-- **A page is taken.** It is the one at the tail of the list, or else a new one; without a frame for
a new one nothing happens. -/
theorem Kept.alloc (hk : Kept K dirs top h P l live ns c) (hK : K.Distinct)
    (hle : ns.length ≤ vmmFreeListMaxSize)
    (hpage : ns ≠ [] ∨ (pmmAllocPage c.rest).1 = 0 ∨
      (∃ q, 0xC0000 ≤ q ∧ 4096 * q < top ∧ P.frame q = none) ∨ top = 0xFF800000 ∧ ∀ c, F c) :
    Uncached c (vmmAllocKernelPage.run l)
      (fun r c' =>
        (∃ ns' x, ns = ns' ++ [x] ∧ r.1 = x ∧
          Kept K dirs top h { P with mem := popMem l P.mem } r.2 (x :: live) ns' c') ∨
        (ns = [] ∧ r.1 = 0 ∧ r.2 = l ∧ c' = c ∧ (pmmAllocPage c.rest).1 = 0) ∨
        (ns = [] ∧ ∃ q k f, Lowest P 0xC0000 q ∧ 4096 * q < top ∧ r.1 = 4096 * q ∧
          Takes c.rest k f c'.rest ∧
          Kept K dirs top { h with pmm := c'.rest }
            ⟨4096 * q :: P.held, Function.update P.frame q (some f), P.mem.fill (4096 * q) 0 4096⟩ r.2
            (4096 * q :: live) [] c')) F := by
  unfold vmmAllocKernelPage
  apply spec_get_bind
  by_cases hns : ns = []
  · subst hns
    rw [if_neg fun hpos => hk.listed.count_pos.mp hpos rfl]
    apply spec_modify_bind
    apply spec_get_bind
    have hlast : (if l.lastFree < kernelHigherHalf ∨ memorySpace ≤ l.lastFree then kernelHigherHalf
        else l.lastFree) = kernelHigherHalf := by
      rw [hk.lastFree]
      split_ifs <;> rfl
    have hl : { l with lastFree := kernelHigherHalf } = l := by
      rw [← hk.lastFree]
    dsimp only
    rw [hlast, pageAlignUp_start, hl]
    by_cases hroom : (pmmAllocPage c.rest).1 = 0
    · have hfull : pmmAllocPage c.rest = (0, c.rest) :=
        Prod.ext hroom (hk.views.shows.spaces.pmm.alloc_none hroom)
      refine spec_lift (spec_searchLoop_full hk.views hfull _ _ _ (by decide)) |>.post ?_
      rintro r c' ⟨⟨hr, hc'⟩, hl'⟩
      exact .inr (.inl ⟨rfl, hr, hl', hc', hroom⟩)
    · have htop := hk.views.top_le
      have hsome : (∃ q, 0xC0000 ≤ q ∧ 4096 * q < 0xFF800000 ∧ P.frame q = none) ∨ ∀ c, F c := by
        obtain h0 | h0 | ⟨q, hlo, hq, hfree⟩ | ⟨-, hF⟩ := hpage
        · exact absurd rfl h0
        · exact absurd h0 hroom
        · exact .inl ⟨q, hlo, by omega, hfree⟩
        · exact .inr hF
      refine (spec_lift (spec_search hk.views hK hroom hsome)).post ?_
      rintro ⟨_, l'⟩ c' ⟨⟨q, hlow, hq, rfl, k, f, ht, hkp⟩, rfl⟩
      have hqtop : 4096 * q < top := by
        obtain h0 | h0 | ⟨q', hlo', hq', hfree'⟩ | ⟨rfl, -⟩ := hpage
        · exact absurd rfl h0
        · exact absurd h0 hroom
        · by_contra hge
          exact hlow.2.2 q' hlo' (by omega) hfree'
        · exact hq
      have hdiv : 4096 * q / 4096 = q := by omega
      have hlo := hlow.1
      have hfree := hlow.2.1
      have hV := hk.views.alloc (v := 4096 * q) ht (hdiv.symm ▸ hkp) (by omega) (by omega) hqtop
        (hdiv.symm ▸ hfree)
      rw [hdiv] at hV
      exact .inr (.inr ⟨rfl, q, k, f, hlow, hqtop, rfl, ht, hV,
        ⟨hk.listed.linked, hk.listed.tail, hk.listed.count⟩, hk.held.cons _, hk.lastFree⟩)
  · rw [if_pos (hk.listed.count_pos.mpr hns)]
    obtain ⟨ns', x, rfl⟩ : ∃ ns' x, ns = ns' ++ [x] :=
      ⟨ns.dropLast, ns.getLast hns, (dropLast_append_getLast hns).symm⟩
    rw [length_append, length_singleton] at hle
    refine (hk.pop (by omega)).post ?_
    rintro r c' ⟨rfl, hk'⟩
    exact .inl ⟨ns', x, rfl, rfl, hk'⟩

/-! ## `vmm_free_kernel_page` -/

/-- The pages without the one at `v`. -/
def Pages.drop (P : Pages) (v : ℕ) : Pages :=
  { P with held := P.held.erase v, frame := Function.update P.frame (v / 4096) none }

theorem spec_pageAddress (hV : Views K dirs top h P c) (hv : v ∈ P.held) {f : ℕ}
    (hf : P.frame (v / 4096) = some f) :
    Uncached c (vmmVirtToPhys v) (fun r c' => c' = c ∧ r = f) F := by
  obtain ⟨hal, -, hlt⟩ := hV.address hv
  refine (spec_virtToPhys (hV.shows.spaces.self _ hV.shows.spaces.current) hlt (settled_false _ _ _)
    (settled_false _ _ _)).post ?_
  rintro r c' ⟨hc', hr⟩
  obtain ⟨g, hg⟩ := hV.lookup hv hf
  rw [hg, hal] at hr
  exact ⟨hc', hr⟩

theorem spec_pageUnmap (hV : Views K dirs top h P c) (hv : v ∈ P.held) :
    Uncached c (vmmUnmapPage v)
      (fun _ c' => c' = { c with
        mem := c.mem.put32 (K.table (v / 4096 / 1024) + 4 * (v / 4096 % 1024)) 0 }) F := by
  obtain ⟨-, -, hlt⟩ := hV.range v hv
  have htop := hV.top_le
  have hs := hV.shows.spaces
  have hdiv : v / 2 ^ 22 = v / 4096 / 1024 := by omega
  have htable := hs.kernel c.cr3 hs.current _ (hV.slot hv)
  rw [← hdiv] at htable
  rw [← hdiv]
  exact spec_anyCache _ (spec_vmmSetPteAt (known_false fun _ => ∅) (hs.self _ hs.current)
    (by omega) htable (hs.table_ne (by omega) htable) (by norm_num) (by simp))

theorem Kept.add (hk : Kept K dirs top h P l live ns c) (hle : ns.length ≤ vmmFreeListMaxSize)
    (hv : v ∈ live) :
    Uncached c ((freeListAdd v).run l)
      (fun r c' => r = ((), addVars l v) ∧ Kept K dirs top h { P with mem := addMem l v P.mem }
        (addVars l v) (live.erase v) (v :: ns) c') F := by
  have hsub : ns ⊆ P.held := fun u hu => hk.mem_list hu
  have hperm : (live ++ ns).Perm (live.erase v ++ v :: ns) := by
    refine ((perm_cons_erase hv).append_right ns).trans ?_
    exact perm_middle.symm
  have hnd : (v :: ns).Nodup := (nodup_append.mp (hperm.nodup_iff.mp hk.nodup)).2.1
  refine (spec_freeListAdd hk.views hk.listed hsub (hk.mem_live hv)).post ?_
  rintro r c' ⟨hr, hV⟩
  refine ⟨hr, hV, hk.listed.add hnd ?_ ?_, hk.held.trans hperm, hk.lastFree⟩
  · intro u hu
    obtain rfl | hu := mem_cons.mp hu
    · exact hk.views.address (hk.mem_live hv)
    · exact hk.views.address (hsub hu)
  · unfold vmmFreeListMaxSize at hle
    omega

theorem spec_evictLoop_done (hle : l.count ≤ vmmFreeListMaxSize) (n : ℕ) :
    Uncached c ((evictLoop n).run l)
      (fun r c' => r = ((), l) ∧ c' = c) F := by
  cases n with
  | zero => exact spec_return ⟨rfl, rfl⟩
  | succ n =>
    unfold evictLoop
    apply spec_get_bind
    rw [if_neg (by omega)]
    exact spec_return ⟨rfl, rfl⟩

/-- The page at the tail is unmapped, and its frame is freed. -/
theorem Kept.evict (hk : Kept K dirs top h P l live (ns ++ [x]) c) (hK : K.Distinct)
    (hle : ns.length = vmmFreeListMaxSize) (n : ℕ) :
    Uncached c ((evictLoop (n + 1)).run l)
      (fun r c' => ∃ f, P.frame (x / 4096) = some f ∧ c'.rest = pmmFreePage c.rest f ∧
        Kept K dirs top { h with pmm := c'.rest } ({ P with mem := popMem l P.mem }.drop x) r.2 live ns
          c') F := by
  have hcount := hk.listed.count
  rw [length_append, length_singleton, hle] at hcount
  have hx : x ∈ P.held := hk.mem_list (by simp)
  have hx0 := (hk.views.address hx).2.1
  unfold evictLoop
  apply spec_get_bind
  rw [if_pos (by omega), StateT.run_bind]
  refine Spec.bind (hk.pop hle.le) ?_
  rintro ⟨_, l₁⟩ c₁ ⟨hr, hk₁⟩
  cases hr
  obtain ⟨f, hf, hsp, -⟩ := hk₁.views.page x hx
  rw [if_neg hx0]
  apply spec_lift_bind (spec_pageAddress hk₁.views hx hf)
  rintro phys c₂ ⟨hc₂, hphys⟩
  rw [hc₂, hphys, if_pos hsp.nonzero]
  apply spec_lift_bind (spec_pageUnmap hk₁.views hx)
  intro _ c₃ hc₃
  apply spec_lift_bind (spec_onRest (R := fun _ c' => c' = { c₃ with rest := pmmFreePage c₃.rest f })
    _ rfl)
  intro _ c₄ hc₄
  have hrest : c₁.rest = c.rest := hk₁.views.shows.rest.trans hk.views.shows.rest.symm
  have hV := hk₁.views.release hK hx hf rfl
  have hcount' : (popVars l P.mem).count ≤ vmmFreeListMaxSize := by
    rw [hk₁.listed.count, hle]
  refine (spec_evictLoop_done hcount' n).post ?_
  rintro r c₅ ⟨rfl, hc₅⟩
  rw [hc₅, hc₄, hc₃]
  have hheld : (P.held.erase x).Perm (live ++ ns) := by
    refine (hk₁.held.erase x).trans ?_
    rw [cons_append, erase_cons_head]
  exact ⟨f, hf, by rw [hrest], hV, hk₁.listed, hheld, hk₁.lastFree⟩

/-- **A page is given back.** It is put at the head of the list; if the list is full, the page at the
tail is unmapped, and its frame is freed. -/
theorem Kept.free (hk : Kept K dirs top h P l live ns c) (hK : K.Distinct)
    (hle : ns.length ≤ vmmFreeListMaxSize) (hv : v ∈ live) :
    Uncached c ((vmmFreeKernelPage v).run l)
      (fun r c' =>
        (ns.length < vmmFreeListMaxSize ∧ Kept K dirs top h { P with mem := addMem l v P.mem } r.2
          (live.erase v) (v :: ns) c') ∨
        ∃ ns' x f, ns = ns' ++ [x] ∧ P.frame (x / 4096) = some f ∧
          ns'.length < vmmFreeListMaxSize ∧ c'.rest = pmmFreePage c.rest f ∧
          ∃ w, Kept K dirs top { h with pmm := c'.rest } ({ P with mem := w }.drop x) r.2
            (live.erase v) (v :: ns') c') F := by
  have hal : v % pageSize = 0 := (hk.views.range v (hk.mem_live hv)).1
  unfold vmmFreeKernelPage
  rw [if_neg (not_not.mpr hal), StateT.run_bind]
  refine (hk.add hle hv).bind ?_
  rintro ⟨_, l₁⟩ c₁ ⟨hr, hk₁⟩
  cases hr
  have hcount := hk₁.listed.count
  apply spec_get_bind
  dsimp only
  rw [length_cons] at hcount
  by_cases hfull : ns.length < vmmFreeListMaxSize
  · refine (spec_evictLoop_done (by omega) _).post ?_
    rintro r c₂ ⟨rfl, rfl⟩
    exact .inl ⟨hfull, hk₁⟩
  · have hlen : ns.length = vmmFreeListMaxSize := by omega
    have hne : ns ≠ [] := by
      rintro rfl
      cases hlen
    obtain ⟨ns', x, rfl⟩ : ∃ ns' x, ns = ns' ++ [x] :=
      ⟨ns.dropLast, ns.getLast hne, (dropLast_append_getLast hne).symm⟩
    rw [length_append, length_singleton] at hlen
    rw [hcount]
    rw [← cons_append] at hk₁
    refine (hk₁.evict hK (by rw [length_cons, hlen]) _).post ?_
    rintro r c₂ ⟨f, hf, hrest, hk₂⟩
    have hrest₁ : c₁.rest = c.rest := hk₁.views.shows.rest.trans hk.views.shows.rest.symm
    rw [hrest₁] at hrest
    exact .inr ⟨ns', x, f, rfl, hf, by omega, hrest, _, hk₂⟩

end Kept

end DvivonOS.Windows.Pool
