import DvivonOS.Heap.Ops

/-!
# Specifications of `allocate_new_heap_page`, `kmalloc` and `kfree`

From a heap that satisfies `Inv`, `kmalloc` returns null or the payload of a new live block of at
least `wantedSize` bytes, `kfree` of a live block removes it from the live blocks, and no other
live block changes. The loops end: the free list has fewer nodes than the fuel of `firstFit`, and
every retry of `kmalloc` has grown the heap by a page. The only way not to return is the fault of
the page table at `PTS_SCRATCH_WINDOW` (`windowFault`).
-/

namespace DvivonOS

open Function HeapCode List

variable {h : Heap} {E : Stop → Prop} {bs : List Blk} {fl : List ℕ}

/-- The fault of `vmm_alloc_kernel_page_at (PTS_SCRATCH_WINDOW)`. -/
def windowFault : Stop := .fault (ptsWindow + 4 * (ptsScratchWindow / pageSize))

/-! ## Growing -/

theorem Ok.end_not_mem (ok : Ok h bs fl) : h.heapMax ∉ fl := by
  intro hx
  obtain ⟨b, -, -, -, -, h2, h3, -⟩ := ok.node hx
  omega

theorem Present.grow {mapped : ℕ → Bool} {hx : ℕ} (hp : Present mapped hx)
    (hal : pageSize ∣ hx) :
    Present (update mapped (hx / pageSize) true) (hx + pageSize) := by
  intro a h1 h2
  by_cases hpg : a / pageSize = hx / pageSize
  · rw [hpg, update_self]
  · rw [update_of_ne hpg]
    refine hp a h1 ?_
    unfold pageSize at *
    omega

theorem window_room {hx : ℕ} (hal : pageSize ∣ hx) (hlt : hx < ptsScratchWindow) :
    hx + pageSize ≤ ptsScratchWindow := by
  have hdvd : pageSize ∣ ptsScratchWindow := by decide
  unfold pageSize at *
  omega

/-- A new page at the end of an `Ok` heap, as one free block that is not yet on the list. -/
theorem Ok.grow (ok : Ok h bs fl) (pmm : Pmm) {m : Bytes} (hlt : h.heapMax < ptsScratchWindow)
    (hrep : (Blk.mk h.heapMax pageSize true).Rep m)
    (hout : ∀ i, i < h.heapMax → m i = h.mem i) :
    Ok { h with
      mem := m, pmm := pmm, mapped := update h.mapped (h.heapMax / pageSize) true,
      heapMax := h.heapMax + pageSize } (bs ++ [⟨h.heapMax, pageSize, true⟩]) fl where
  present := ok.present.grow ok.aligned
  bound := window_room ok.aligned hlt
  aligned := dvd_add ok.aligned dvd_rfl
  tiles := ok.tiles.append ⟨rfl, by show 12 ≤ pageSize; decide, by show 4 ∣ pageSize; decide, rfl⟩
  rep := by
    intro b hb
    rcases mem_append.mp hb with hb | hb
    · obtain ⟨-, h2, h3, -⟩ := ok.bounds hb
      exact (ok.rep b hb).of_outside h3 fun i _ hi => hout i (by omega)
    · rw [mem_singleton.mp hb]
      exact hrep
  linked := by
    refine ok.linked.congr fun x hx => ?_
    obtain ⟨b, -, -, -, -, h2, h3, -⟩ := ok.node hx
    exact links_congr fun i _ hi => hout i (by omega)
  nodup := ok.nodup
  free := fun x hx => by
    obtain ⟨b, hb, hba⟩ := ok.free x hx
    exact ⟨b, mem_append_left _ hb, hba⟩

/-- **Growth.** `allocate_new_heap_page` fails with the heap unchanged but for the frame
allocator, or adds a page to the free blocks, or faults at the window. -/
theorem allocateNewHeapPage_wp (inv : Inv h bs fl) {Q : Bool → Heap → Prop}
    (hE : (pmmAllocPage h.pmm).1 ≠ 0 → h.heapMax = ptsScratchWindow → E windowFault)
    (hfail : (pmmAllocPage h.pmm).1 = 0 → Q false { h with pmm := (pmmAllocPage h.pmm).2 })
    (hgrow : (pmmAllocPage h.pmm).1 ≠ 0 → ∀ h' bs' fl', Inv h' bs' fl' →
      Keeps bs bs' h.mem h'.mem → h'.arena bs' = (h.arena bs).grow → Q true h') :
    Wp allocateNewHeapPage Q E h := by
  unfold allocateNewHeapPage
  simp only [wp_bind, wp_heapMax, wp_nextPage]
  unfold nextHeapPage vmmAllocKernelPageAt
  simp only [wp_bind, wp_get, wp_set]
  by_cases hphys : (pmmAllocPage h.pmm).1 = 0
  · rw [if_pos hphys]
    simp only [wp_pure, Bool.not_false, if_true]
    exact hfail hphys
  rw [if_neg hphys]
  by_cases hwin : ptsScratchWindow ≤ h.heapMax
  · have heq : h.heapMax = ptsScratchWindow := le_antisymm inv.bound hwin
    rw [if_pos hwin, wp_throw, heq]
    exact hE hphys heq
  rw [if_neg hwin]
  have hlt : h.heapMax < ptsScratchWindow := not_le.mp hwin
  have hal := inv.aligned
  have hstart := inv.tiles.le
  have hmax : add32 h.heapMax pageSize = h.heapMax + pageSize := by
    unfold add32 pageSize
    unfold ptsScratchWindow at hlt
    omega
  simp only [wp_bind, wp_modify, wp_pure, Bool.not_true, Bool.false_eq_true, if_false, hmax]
  refine createFreeBlock_wp (by exact inv.present.grow hal) (by exact window_room hal hlt) hstart
    (by exact le_rfl) (by decide) (by decide) fun m hrep hout => ?_
  have hlow : ∀ i, i < h.heapMax → m i = h.mem i := by
    intro i hi
    rw [hout i (Or.inl hi)]
    exact Bytes.fill_of_not_mem _ _ (by omega)
  have ok₁ := inv.toOk.grow (pmmAllocPage h.pmm).2 hlt hrep hlow
  have hsame : LiveSame (bs ++ [⟨h.heapMax, pageSize, true⟩]) h.mem m := by
    intro b hb hbf i _ hi
    rcases mem_append.mp hb with hb | hb
    · have := (inv.bounds hb).2.1
      exact hlow i (by omega)
    · rw [mem_singleton.mp hb] at hbf
      exact Bool.noConfusion hbf
  rw [wp_bind]
  refine addFreeBlock_wp (b := ⟨h.heapMax, pageSize, true⟩) ok₁ (by simp) rfl
    inv.toOk.end_not_mem fun h₂ ok₂ hs₂ hmax₂ => ?_
  have inv₂ : Inv h₂ (bs ++ [⟨h.heapMax, pageSize, true⟩]) (h.heapMax :: fl) := by
    refine ⟨ok₂, fun b hb hbf => ?_⟩
    rcases mem_append.mp hb with hb | hb
    · exact mem_cons_of_mem _ (inv.full b hb hbf)
    · rw [mem_singleton.mp hb]
      exact mem_cons_self
  rw [wp_bind]
  refine coalesceWithPrev_wp inv₂ rfl fun h₃ fl₃ inv₃ hk₃ hmax₃ => ?_
  rw [append_nil] at inv₃ hk₃
  have hk : Keeps bs (bs ++ [⟨h.heapMax, pageSize, true⟩]) h.mem h₂.mem := by
    refine ⟨fun b hbf => ?_, fun b hb hbf i hi hi' => ?_⟩
    · have hne : b ≠ ⟨h.heapMax, pageSize, true⟩ := Blk.ne_of_free rfl hbf
      simp only [mem_append, mem_singleton, hne, or_false]
    · have hb' := mem_append_left [⟨h.heapMax, pageSize, true⟩] hb
      exact (hs₂ b hb' hbf i hi hi').trans (hsame b hb' hbf i hi hi')
  refine hgrow hphys h₃ _ fl₃ inv₃ (hk.trans hk₃) ?_
  unfold Heap.arena Arena.grow
  rw [hmax₃.heapMax, hmax₂.heapMax, hmax₃.pmm, hmax₂.pmm]

/-! ## The first-fit loop -/

theorem Ok.length_lt (ok : Ok h bs fl) : fl.length < h.heapMax := by
  have hsub : fl ⊆ bs.map Blk.addr := by
    intro x hx
    obtain ⟨b, hb, rfl, -⟩ := ok.free x hx
    exact mem_map_of_mem hb
  have h1 : fl.length ≤ bs.length := by
    have := (subperm_of_subset ok.nodup hsub).length_le
    rwa [length_map] at this
  have h2 : bs.length ≤ (bs.map Blk.size).sum := by
    have := card_nsmul_le_sum (bs.map Blk.size) 1 (by
      intro n hn
      obtain ⟨b, hb, rfl⟩ := mem_map.mp hn
      have := (ok.bounds hb).2.2.1
      omega)
    simpa using this
  have h3 := ok.tiles.sum_size
  unfold kheapStart at h3
  omega

/-- **First fit.** The loop returns a block of at least `size` bytes, made live, or reaches the
end of the list with the heap unchanged. -/
theorem firstFit_wp {size : ℕ} (inv : Inv h bs fl) (h12 : 12 ≤ size) (h4 : 4 ∣ size)
    {Q : Option ℕ → Heap → Prop} (hnone : ¬(h.arena bs).Fits size → Q none h)
    (hsome : ∀ h' bs' fl' b, Inv h' bs' fl' → Gains bs bs' h.mem h'.mem b → size ≤ b.size →
      Arena.Malloc size (h.arena bs) (b.addr + 4) (h'.arena bs') → Q (some (b.addr + 4)) h') :
    ∀ (l l₀ : List ℕ) (p cur fuel : ℕ), fl = l₀ ++ l →
      (∀ b ∈ bs, b.addr ∈ l₀ → b.size < size) →
      Linked (nextOf h.mem) (prevOf h.mem) p cur l → l.length < fuel →
      Wp (firstFit size fuel cur) Q E h := by
  intro l
  induction l with
  | nil =>
    rintro l₀ p cur fuel hfl hsmall rfl hf
    obtain ⟨fuel, rfl⟩ := Nat.exists_eq_succ_of_ne_zero (Nat.ne_of_gt hf)
    unfold firstFit
    rw [if_pos rfl, wp_pure]
    refine hnone ?_
    rintro ⟨b, hb, hbf, hle⟩
    rw [List.append_nil] at hfl
    have hlt := hsmall b hb (hfl ▸ inv.full b hb hbf)
    omega
  | cons x l ih =>
    rintro l₀ p cur fuel hfl hsmall ⟨rfl, hx0, -, hl⟩ hf
    obtain ⟨fuel, rfl⟩ := Nat.exists_eq_succ_of_ne_zero (Nat.ne_of_gt (Nat.zero_lt_of_lt hf))
    have hx : cur ∈ fl := by rw [hfl]; simp
    obtain ⟨C, hC, rfl, hCf, c1, c2, c3, -⟩ := inv.node hx
    have c4 := (inv.bounds hC).2.2.2.1
    have c6 := (inv.bounds hC).2.2.2.2.2
    unfold firstFit
    rw [if_neg hx0, wp_bind, wp_getSize inv.present c1 (by omega) (inv.rep C hC).header c4
      (by omega)]
    by_cases hle : size ≤ C.size
    · rw [if_pos hle, wp_bind]
      obtain ⟨L, R, rfl⟩ := List.append_of_mem hC
      subst hfl
      refine takeBlock_wp inv hCf h12 h4 hle fun h' fl' sz inv' hg hsz hmax => ?_
      rw [wp_pure]
      refine hsome h' _ fl' ⟨C.addr, sz, false⟩ inv' hg hsz ?_
      unfold Heap.arena
      rw [hmax.heapMax, hmax.pmm]
      exact .fit hCf hle
    · rw [if_neg hle, wp_bind, wp_load inv.present (by unfold nextFree; omega)
        (by unfold nextFree; omega)]
      refine ih (l₀ ++ [C.addr]) C.addr _ fuel ?_ ?_ hl ?_
      · rw [hfl, List.append_assoc, List.singleton_append]
      · intro b hb hbm
        rcases List.mem_append.mp hbm with hbm | hbm
        · exact hsmall b hb hbm
        · rw [inv.tiles.eq_of_addr hb hC (List.mem_singleton.mp hbm)]
          omega
      · rw [List.length_cons] at hf; omega

/-! ## Sizes -/

theorem alignUp_eq (x : ℕ) : alignUp x = 4 * ((x + 3) % 2 ^ 32 / 4) :=
  and_mask (k := 2) (n := 30) (Nat.mod_lt _ (by norm_num))

theorem wantedSize_spec (size : ℕ) : 12 ≤ wantedSize size ∧ 4 ∣ wantedSize size := by
  unfold wantedSize sizeofFreeHeader sizeofHeader add32
  rw [alignUp_eq]
  dsimp only
  split_ifs <;> omega

theorem le_wantedSize {size : ℕ} (hs : size ≤ 0xFFFFFFF4) : size + 8 ≤ wantedSize size := by
  unfold wantedSize sizeofFreeHeader sizeofHeader add32
  rw [alignUp_eq]
  dsimp only
  split_ifs <;> omega

theorem wantedSize_retry (size : ℕ) :
    wantedSize (sub32 (wantedSize size) (2 * sizeofHeader)) = wantedSize size := by
  have hw := wantedSize_spec size
  have hlt : wantedSize size < 2 ^ 32 := by
    unfold wantedSize sizeofFreeHeader sizeofHeader add32
    dsimp only
    split_ifs <;> omega
  generalize wantedSize size = w at *
  unfold wantedSize sub32 sizeofFreeHeader sizeofHeader add32
  rw [alignUp_eq]
  dsimp only
  split_ifs <;> omega

/-! ## `kmalloc` and `kfree` -/

/-- What a returning `kmalloc` has done: nothing but grow, or one more live block of the wanted
size. -/
def Allocated (bs : List Blk) (m : Bytes) (size p : ℕ) (h' : Heap) : Prop :=
  ∃ bs' fl', Inv h' bs' fl' ∧
    ((p = 0 ∧ Keeps bs bs' m h'.mem) ∨
      ∃ b, p = b.addr + 4 ∧ wantedSize size ≤ b.size ∧ Gains bs bs' m h'.mem b)

/-- What a returning `kmalloc` has done to the blocks and to the bytes of the live ones. -/
structure Mallocs (h : Heap) (bs : List Blk) (size p : ℕ) (h' : Heap) (bs' : List Blk)
    (fl' : List ℕ) : Prop where
  inv : Inv h' bs' fl'
  arena : Arena.Malloc (wantedSize size) (h.arena bs) p (h'.arena bs')
  change : (p = 0 ∧ Keeps bs bs' h.mem h'.mem) ∨
    ∃ b, p = b.addr + 4 ∧ wantedSize size ≤ b.size ∧ Gains bs bs' h.mem h'.mem b

theorem Inv.pmm (inv : Inv h bs fl) (pmm : Pmm) : Inv { h with pmm := pmm } bs fl :=
  ⟨⟨inv.present, inv.bound, inv.aligned, inv.tiles, inv.rep, inv.linked, inv.nodup, inv.free⟩,
    inv.full⟩

theorem Inv.mallocs_full (inv : Inv h bs fl) {size : ℕ}
    (hfit : ¬(h.arena bs).Fits (wantedSize size)) (hnone : (pmmAllocPage h.pmm).1 = 0) :
    Mallocs h bs size 0 { h with pmm := (pmmAllocPage h.pmm).2 } bs fl where
  inv := inv.pmm _
  arena := .full hfit hnone
  change := Or.inl ⟨rfl, Keeps.of_liveSame fun _ _ _ _ _ _ => rfl⟩

theorem Inv.not_fits (inv : Inv h bs fl) (h0 : h.freeListHead = 0) (size : ℕ) :
    ¬(h.arena bs).Fits size := by
  rintro ⟨b, hb, hbf, -⟩
  have hx := inv.full b hb hbf
  cases fl with
  | nil => exact List.not_mem_nil hx
  | cons y l =>
    exact inv.linked.ne_zero y List.mem_cons_self (inv.linked.1.symm.trans h0)

/-- One activation of `kmalloc`: its result, or the argument of the recursive call. -/
def kmallocOnce (size : ℕ) : HeapM (ℕ ⊕ ℕ) := do
  let size := wantedSize size
  let ready ← if (← freeListHead) = 0 then allocateNewHeapPage else pure true
  if !ready then return .inl 0
  else
    match ← firstFit size (← heapMax) (← freeListHead) with
    | some ptr => return .inl ptr
    | none =>
      if !(← allocateNewHeapPage) then return .inl 0
      else return .inr (sub32 size (2 * sizeofHeader))

theorem kmallocFuel_succ (fuel size : ℕ) :
    (kmallocFuel (fuel + 1) size : HeapM ℕ) =
      kmallocOnce size >>= Sum.elim pure (kmallocFuel fuel) := by
  rw [kmallocFuel, kmallocOnce]
  simp only [bind_assoc]
  refine bind_congr fun h => ?_
  split
  all_goals
    simp only [bind_assoc]
    refine bind_congr fun ready => ?_
    split
    · rfl
    simp only [bind_assoc]
    refine bind_congr fun _ => bind_congr fun _ => bind_congr fun found => ?_
    cases found with
    | some ptr => rfl
    | none =>
      simp only [bind_assoc]
      refine bind_congr fun grown => ?_
      split <;> rfl

/-- What an activation of `kmalloc` that goes on with a recursive call has done. -/
structure Retries (h : Heap) (bs : List Blk) (size : ℕ) (h' : Heap) (bs' : List Blk)
    (fl' : List ℕ) : Prop where
  inv : Inv h' bs' fl'
  grows : h.heapMax + pageSize ≤ h'.heapMax
  rest : ∀ {p h'' bs'' fl''}, Mallocs h' bs' size p h'' bs'' fl'' → Mallocs h bs size p h'' bs'' fl''
  blocked : (h'.arena bs').Blocked (wantedSize size) → (h.arena bs).Blocked (wantedSize size)
  frames : h.pmm.Ok → h'.pmm.Ok ∧ h'.pmm.free < h.pmm.free

/-- One more page where no block fits. -/
theorem Retries.grow {h' : Heap} {bs' : List Blk} {fl' : List ℕ} {size : ℕ}
    (hfit : ¬(h.arena bs).Fits (wantedSize size)) (hpage : (pmmAllocPage h.pmm).1 ≠ 0)
    (inv' : Inv h' bs' fl') (hk : Keeps bs bs' h.mem h'.mem)
    (ha : h'.arena bs' = (h.arena bs).grow) : Retries h bs size h' bs' fl' where
  inv := inv'
  grows := by
    have hmax : h'.heapMax = h.heapMax + pageSize := congrArg Arena.heapMax ha
    omega
  rest hm := by
    refine ⟨hm.inv, .grow hfit hpage (ha ▸ hm.arena), ?_⟩
    obtain ⟨hp, hk₂⟩ | ⟨b, hp, hs, hg⟩ := hm.change
    · exact Or.inl ⟨hp, hk.trans hk₂⟩
    · exact Or.inr ⟨b, hp, hs, hk.gains hg⟩
  blocked hb := .grow hfit hpage (ha ▸ hb)
  frames hok := by
    obtain ⟨hok', hfree⟩ := hok.free_succ hpage
    have hpmm : h'.pmm = (pmmAllocPage h.pmm).2 := congrArg Arena.pmm ha
    rw [hpmm]
    exact ⟨hok', by omega⟩

theorem Retries.trans {h₁ h₂ : Heap} {bs₁ bs₂ : List Blk} {fl₁ fl₂ : List ℕ} {size : ℕ}
    (h₀₁ : Retries h bs size h₁ bs₁ fl₁) (h₁₂ : Retries h₁ bs₁ size h₂ bs₂ fl₂) :
    Retries h bs size h₂ bs₂ fl₂ where
  inv := h₁₂.inv
  grows := by
    have := h₀₁.grows
    have := h₁₂.grows
    omega
  rest hm := h₀₁.rest (h₁₂.rest hm)
  blocked hb := h₀₁.blocked (h₁₂.blocked hb)
  frames hok := by
    obtain ⟨hok₁, hlt₁⟩ := h₀₁.frames hok
    obtain ⟨hok₂, hlt₂⟩ := h₁₂.frames hok₁
    exact ⟨hok₂, hlt₂.trans hlt₁⟩

/-- How an activation of `kmalloc` ends. -/
def Activated (h : Heap) (bs : List Blk) (size : ℕ) (r : ℕ ⊕ ℕ) (h' : Heap) : Prop :=
  ∃ bs' fl', (∃ p, r = .inl p ∧ Mallocs h bs size p h' bs' fl') ∨
    (r = .inr (sub32 (wantedSize size) (2 * sizeofHeader)) ∧ Retries h bs size h' bs' fl')

section

variable (inv : Inv h bs fl) (size : ℕ)
  (hE : (h.arena bs).Blocked (wantedSize size) → E windowFault)

include inv size hE

theorem kmallocSearch_wp
    {next : Option ℕ → HeapM (ℕ ⊕ ℕ)} (hnone : next none = (do
      if !(← allocateNewHeapPage) then return .inl 0
      else return .inr (sub32 (wantedSize size) (2 * sizeofHeader))))
    (hsome : ∀ ptr, next (some ptr) = pure (.inl ptr)) :
    Wp (firstFit (wantedSize size) h.heapMax h.freeListHead >>= next)
      (Activated h bs size) E h := by
  obtain ⟨h12, h4⟩ := wantedSize_spec size
  rw [wp_bind]
  refine firstFit_wp inv h12 h4 (fun hfit => ?_) ?_ fl [] 0 _ _ rfl (by simp) inv.linked
    inv.toOk.length_lt
  · rw [hnone, wp_bind]
    refine allocateNewHeapPage_wp inv (fun hpage hmax => hE (.window hfit hpage hmax))
      (fun hfull => ?_) fun hpage h' bs' fl' inv' hk ha => ?_
    · simp only [Bool.not_false, if_true, wp_pure]
      exact ⟨bs, fl, .inl ⟨0, rfl, inv.mallocs_full hfit hfull⟩⟩
    · simp only [Bool.not_true, Bool.false_eq_true, if_false, wp_pure]
      exact ⟨bs', fl', .inr ⟨rfl, .grow hfit hpage inv' hk ha⟩⟩
  · intro h' bs' fl' b inv' hg hsz ha
    rw [hsome, wp_pure]
    exact ⟨bs', fl', .inl ⟨_, rfl, inv', ha, Or.inr ⟨b, rfl, hsz, hg⟩⟩⟩

theorem kmallocOnce_wp :
    Wp (kmallocOnce size) (Activated h bs size) E h := by
  unfold kmallocOnce
  simp only [wp_bind, wp_freeListHead]
  by_cases h0 : h.freeListHead = 0
  · have hfit := inv.not_fits h0 (wantedSize size)
    rw [if_pos h0, wp_bind]
    refine allocateNewHeapPage_wp inv (fun hpage hmax => hE (.window hfit hpage hmax))
      (fun hfull => ?_) fun hpage h₁ bs₁ fl₁ inv₁ hk₁ ha₁ => ?_
    · simp only [Bool.not_false, if_true, wp_pure]
      exact ⟨bs, fl, .inl ⟨0, rfl, inv.mallocs_full hfit hfull⟩⟩
    · have hgrow : Retries h bs size h₁ bs₁ fl₁ := .grow hfit hpage inv₁ hk₁ ha₁
      rw [Bool.not_true, if_neg Bool.false_ne_true, wp_bind, wp_heapMax, wp_bind, wp_freeListHead]
      refine Wp.mono (kmallocSearch_wp inv₁ size (fun hb => hE (hgrow.blocked hb)) rfl
        fun _ => rfl) fun r h' hr => ?_
      obtain ⟨bs', fl', ⟨p, hp, hm⟩ | ⟨hr, hm⟩⟩ := hr
      · exact ⟨bs', fl', .inl ⟨p, hp, hgrow.rest hm⟩⟩
      · exact ⟨bs', fl', .inr ⟨hr, hgrow.trans hm⟩⟩
  · rw [if_neg h0, wp_bind, wp_pure, Bool.not_true, if_neg Bool.false_ne_true, wp_bind,
      wp_heapMax, wp_bind, wp_freeListHead]
    exact kmallocSearch_wp inv size hE rfl fun _ => rfl

end

/-- The retries of `kmalloc`: each has grown the heap, so the fuel lasts. -/
theorem kmallocFuel_wp : ∀ {fuel : ℕ} {h : Heap} {bs : List Blk} {fl : List ℕ} (size : ℕ),
    Inv h bs fl → ((h.arena bs).Blocked (wantedSize size) → E windowFault) →
    (ptsScratchWindow - h.heapMax) / pageSize < fuel →
    Wp (kmallocFuel fuel size) (fun p h' => ∃ bs' fl', Mallocs h bs size p h' bs' fl') E h
  | 0, _, _, _, _, _, _, hf => absurd hf (Nat.not_lt_zero _)
  | fuel + 1, h, bs, fl, size, inv, hE, hf => by
    rw [kmallocFuel_succ, wp_bind]
    refine (kmallocOnce_wp inv size hE).mono fun r h' hr => ?_
    obtain ⟨bs', fl', ⟨p, rfl, hm⟩ | ⟨rfl, hm⟩⟩ := hr
    · rw [Sum.elim_inl, wp_pure]
      exact ⟨bs', fl', hm⟩
    · have hfuel : (ptsScratchWindow - h'.heapMax) / pageSize < fuel := by
        have hb := hm.inv.bound
        have hg := hm.grows
        unfold pageSize at *
        omega
      have hw := wantedSize_retry size
      rw [Sum.elim_inr]
      refine (kmallocFuel_wp _ hm.inv (fun hb => hE (hm.blocked (hw ▸ hb))) hfuel).mono
        fun p h'' hp => ?_
      obtain ⟨bs'', fl'', hp⟩ := hp
      exact ⟨bs'', fl'', hm.rest ⟨hp.inv, hw ▸ hp.arena, hw ▸ hp.change⟩⟩

theorem kmalloc_mallocs (inv : Inv h bs fl) (size : ℕ)
    (hE : (h.arena bs).Blocked (wantedSize size) → E windowFault) :
    Wp (kmalloc size) (fun p h' => ∃ bs' fl', Mallocs h bs size p h' bs' fl') E h := by
  unfold kmalloc HeapCode.kmalloc
  simp only [wp_bind, wp_heapMax]
  exact kmallocFuel_wp size inv hE (by omega)

theorem kmalloc_wp (hE : E windowFault) (inv : Inv h bs fl) (size : ℕ) :
    Wp (kmalloc size) (Allocated bs h.mem size) E h := by
  refine (kmalloc_mallocs inv size fun _ => hE).mono fun p h' hm => ?_
  obtain ⟨bs', fl', hm⟩ := hm
  exact ⟨bs', fl', hm.inv, hm.change⟩

theorem kfree_merges {L R : List Blk} {b : Blk} (inv : Inv h (L ++ b :: R) fl)
    (hf : b.free = false) :
    Wp (kfree (b.addr + 4))
      (fun _ h' => (∃ fl', Inv h' (mergeLeft L ⟨b.addr, b.size, true⟩ ++ R) fl') ∧
        Loses (L ++ b :: R) (mergeLeft L ⟨b.addr, b.size, true⟩ ++ R) h.mem h'.mem b ∧
        SameEnd h h') E h := by
  have hb : b ∈ L ++ b :: R := List.mem_append_right _ List.mem_cons_self
  obtain ⟨b1, b2, b3, b4, b5, b6⟩ := inv.bounds hb
  have hp := inv.present
  have hbd := inv.bound
  have hsub : sub32 (b.addr + 4) sizeofHeader = b.addr := by unfold sub32 sizeofHeader; omega
  have htag : tag b.size true < 4294967296 := tag_lt b4 (by omega)
  have hfl : b.addr ∉ fl := by
    intro hx
    obtain ⟨c, hc, hca, hcf⟩ := inv.free _ hx
    rw [inv.tiles.eq_of_addr hc hb hca, hf] at hcf
    exact Bool.noConfusion hcf
  unfold kfree HeapCode.kfree
  rw [if_neg (by omega), hsub, wp_bind,
    wp_setFree hp b1 (by omega) (inv.rep b hb).header b4, wp_bind,
    wp_updateFooter hp b1 (by omega) (Bytes.get32_put32_of_lt _ _ htag) b4 b3 b2 hbd, wp_bind]
  have hout : ∀ i, i < b.addr ∨ b.addr + b.size ≤ i →
      tagged h.mem b.addr b.size true i = h.mem i := fun i hi => tagged_of_between b3 (by omega)
  have ok₁ := inv.toOk.replaceBlock (N := [⟨b.addr, b.size, true⟩]) hfl ⟨rfl, b3, b4, rfl⟩ hout
    (by simpa using rep_tagged b3 htag)
  -- the live blocks are the others, and the tags written lie in `b`
  have hlose : Loses (L ++ b :: R) (L ++ (([⟨b.addr, b.size, true⟩] : List Blk) ++ R)) h.mem
      (tagged h.mem b.addr b.size true) b := by
    refine ⟨fun c hcf => ?_, fun c hc _ hne => inv.toOk.same_of_ne hb hc hne hout⟩
    have hcN : c ≠ ⟨b.addr, b.size, true⟩ := Blk.ne_of_free rfl hcf
    obtain ⟨hL, hR⟩ := inv.toOk.of_append_cons
    have hbL : c ∈ L → c ≠ b := by
      rintro h0 rfl
      have := hL.mem_bounds c h0
      omega
    have hbR : c ∈ R → c ≠ b := by
      rintro h0 rfl
      have := hR.mem_bounds c h0
      omega
    simp only [List.mem_append, List.mem_cons, List.not_mem_nil, or_false, hcN, false_or]
    constructor
    · rintro (h0 | h0)
      exacts [⟨.inl h0, hbL h0⟩, ⟨.inr (.inr h0), hbR h0⟩]
    · rintro ⟨h0 | h0 | h0, hne⟩
      exacts [.inl h0, absurd h0 hne, .inr h0]
  refine addFreeBlock_wp (b := ⟨b.addr, b.size, true⟩) ok₁ (by simp) rfl hfl
    fun h₂ ok₂ hs₂ hmax₂ => ?_
  have inv₂ : Inv h₂ (L ++ (([⟨b.addr, b.size, true⟩] : List Blk) ++ R)) (b.addr :: fl) := by
    refine ⟨ok₂, fun c hc hcf => ?_⟩
    simp only [List.mem_append, List.mem_cons, List.not_mem_nil, or_false] at hc
    rcases hc with hc | rfl | hc
    · exact List.mem_cons_of_mem _ (inv.full c (List.mem_append_left _ hc) hcf)
    · exact List.mem_cons_self
    · exact List.mem_cons_of_mem _
        (inv.full c (List.mem_append_right _ (List.mem_cons_of_mem _ hc)) hcf)
  rw [wp_bind]
  refine coalesceWithPrev_wp inv₂ rfl fun h₃ fl₃ inv₃ hk₃ hend₃ => ?_
  have hend : SameEnd h h₃ := ⟨(hmax₂.trans hend₃).heapMax, (hmax₂.trans hend₃).pmm⟩
  have hmax := hend.heapMax
  refine coalesceWithNext_wp inv₃.present b1 (by omega) ?_
  exact ⟨⟨fl₃, inv₃⟩, hlose.keeps ((Keeps.of_liveSame hs₂).trans hk₃), hend⟩

theorem kfree_wp {b : Blk} (inv : Inv h bs fl) (hb : b ∈ bs) (hf : b.free = false) :
    Wp (kfree (b.addr + 4))
      (fun _ h' => ∃ bs' fl', Inv h' bs' fl' ∧ Loses bs bs' h.mem h'.mem b) E h := by
  obtain ⟨L, R, rfl⟩ := List.append_of_mem hb
  refine (kfree_merges inv hf).mono fun _ h' hm => ?_
  obtain ⟨⟨fl', inv'⟩, hl, -⟩ := hm
  exact ⟨_, fl', inv', hl⟩

end DvivonOS
