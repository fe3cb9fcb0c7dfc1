import DvivonOS.Memory.PoolPages

/-!
# The free list

The list of `free_list_add` and `free_list_pop` as a list of pages, from head to tail, with its links
in the pages (`Listed`). Both functions write links only: behind its first two words a page in the
list holds what its last owner has left there.
-/

namespace DvivonOS.Windows.Pool

open Bytes List Paged Paging

/-! ## Links -/

def nextIn (w : Bytes) (v : ℕ) : ℕ := w.get32 (nextField v)

def prevIn (w : Bytes) (v : ℕ) : ℕ := w.get32 (prevField v)

/-- The pages `ns` are the free list, linked both ways from head to tail. -/
structure Listed (l : PoolVars) (w : Bytes) (ns : List ℕ) : Prop where
  linked : Linked (nextIn w) (prevIn w) 0 l.head ns
  tail : l.tail = ns.getLastD 0
  count : l.count = ns.length

/-- The memories differ in the links of the pages `ns` only. -/
def OnlyLinks (ns : List ℕ) (w w' : Bytes) : Prop :=
  ∀ a, (∀ v ∈ ns, a < v ∨ v + 8 ≤ a) → w' a = w a

section Links

variable {w w' w'' : Bytes} {ns ms : List ℕ} {u v x o : ℕ}

theorem OnlyLinks.refl (ns : List ℕ) (w : Bytes) : OnlyLinks ns w w := fun _ _ => rfl

theorem OnlyLinks.trans (h : OnlyLinks ns w w') (h' : OnlyLinks ns w' w'') : OnlyLinks ns w w'' :=
  fun a ha => (h' a ha).trans (h a ha)

theorem OnlyLinks.put (hv : v ∈ ns) (ho : o + 4 ≤ 8) (x : ℕ) :
    OnlyLinks ns w (w.put32 (v + o) x) := by
  intro a ha
  have := ha v hv
  apply put32_of_not_mem
  omega

theorem get32_put32_page {k : ℕ} (hu : u % 4096 = 0) (hv : v % 4096 = 0) (hne : v ≠ u)
    (ho : o + 4 ≤ 4096) (hk : k + 4 ≤ 4096) :
    (w.put32 (u + o) x).get32 (v + k) = w.get32 (v + k) := by
  apply get32_put32_of_disjoint
  omega

theorem nextIn_put_next (hx : x < 2 ^ 32) : nextIn (w.put32 (nextField v) x) v = x :=
  get32_put32_of_lt _ _ hx

theorem prevIn_put_prev (hx : x < 2 ^ 32) : prevIn (w.put32 (prevField v) x) v = x :=
  get32_put32_of_lt _ _ hx

theorem nextIn_put_prev : nextIn (w.put32 (prevField v) x) v = nextIn w v := by
  apply get32_put32_of_disjoint
  unfold nextField prevField
  omega

theorem prevIn_put_next : prevIn (w.put32 (nextField v) x) v = prevIn w v := by
  apply get32_put32_of_disjoint
  unfold nextField prevField
  omega

theorem nextIn_put_of_ne (hu : u % 4096 = 0) (hv : v % 4096 = 0) (hne : v ≠ u) :
    nextIn (w.put32 (nextField u) x) v = nextIn w v ∧
      nextIn (w.put32 (prevField u) x) v = nextIn w v :=
  ⟨get32_put32_page (o := 0) (k := 0) hu hv hne (by norm_num) (by norm_num),
    get32_put32_page (o := 4) (k := 0) hu hv hne (by norm_num) (by norm_num)⟩

theorem prevIn_put_of_ne (hu : u % 4096 = 0) (hv : v % 4096 = 0) (hne : v ≠ u) :
    prevIn (w.put32 (nextField u) x) v = prevIn w v ∧
      prevIn (w.put32 (prevField u) x) v = prevIn w v :=
  ⟨get32_put32_page (o := 0) (k := 4) hu hv hne (by norm_num) (by norm_num),
    get32_put32_page (o := 4) (k := 4) hu hv hne (by norm_num) (by norm_num)⟩

end Links

/-! ## `free_list_add` -/

def addMem (l : PoolVars) (v : ℕ) (w : Bytes) : Bytes :=
  let w₁ := (w.put32 (nextField v) l.head).put32 (prevField v) 0
  if l.head ≠ 0 then w₁.put32 (prevField l.head) v else w₁

def addVars (l : PoolVars) (v : ℕ) : PoolVars :=
  { l with
    head := v
    tail := if l.head ≠ 0 then l.tail else v
    count := add32 l.count 1 }

section Add

variable {l : PoolVars} {w : Bytes} {ns : List ℕ} {v : ℕ}

theorem Listed.head_mem (hL : Listed l w ns) (hne : l.head ≠ 0) : l.head ∈ ns := by
  have hhead := hL.linked.head_eq
  cases ns with
  | nil => exact absurd hhead hne
  | cons n ns =>
    rw [hhead]
    exact mem_cons_self

theorem Listed.head_eq_zero (hL : Listed l w ns) : l.head = 0 ↔ ns = [] := by
  constructor
  · intro h0
    cases ns with
    | nil => rfl
    | cons n ns =>
      have hhead : l.head = n := hL.linked.head_eq
      exact absurd (hhead.symm.trans h0) (hL.linked.ne_zero n mem_cons_self)
  · rintro rfl
    exact hL.linked

theorem onlyLinks_addMem (hL : Listed l w ns) : OnlyLinks (v :: ns) w (addMem l v w) := by
  have h₁ : OnlyLinks (v :: ns) w ((w.put32 (nextField v) l.head).put32 (prevField v) 0) :=
    (OnlyLinks.put (o := 0) mem_cons_self (by norm_num) _).trans
      (OnlyLinks.put (o := 4) mem_cons_self (by norm_num) _)
  unfold addMem
  dsimp only
  split_ifs with h0
  · exact h₁.trans (OnlyLinks.put (o := 4) (mem_cons_of_mem _ (hL.head_mem h0)) (by norm_num) _)
  · exact h₁

theorem Listed.add (hL : Listed l w ns) (hnd : (v :: ns).Nodup)
    (hal : ∀ u ∈ v :: ns, u % 4096 = 0 ∧ u ≠ 0 ∧ u < 2 ^ 32) (hlen : ns.length + 1 < 2 ^ 32) :
    Listed (addVars l v) (addMem l v w) (v :: ns) := by
  obtain ⟨hvns, hnd'⟩ := nodup_cons.mp hnd
  obtain ⟨hval, hv0, hvlt⟩ := hal v mem_cons_self
  have hne {u : ℕ} (hu : u ∈ ns) : u ≠ v := fun he => hvns (he ▸ hu)
  have hual {u : ℕ} (hu : u ∈ ns) := hal u (mem_cons_of_mem _ hu)
  have hheadlt : l.head < 2 ^ 32 := by
    by_cases h0 : l.head = 0
    · omega
    · exact (hual (hL.head_mem h0)).2.2
  -- what the first two stores do to the links
  have hbase {u : ℕ} (hu : u ∈ ns) :
      nextIn ((w.put32 (nextField v) l.head).put32 (prevField v) 0) u = nextIn w u ∧
      prevIn ((w.put32 (nextField v) l.head).put32 (prevField v) 0) u = prevIn w u := by
    obtain ⟨hu4, -⟩ := hual hu
    rw [(nextIn_put_of_ne hval hu4 (hne hu)).2, (nextIn_put_of_ne hval hu4 (hne hu)).1,
      (prevIn_put_of_ne hval hu4 (hne hu)).2, (prevIn_put_of_ne hval hu4 (hne hu)).1]
    exact ⟨rfl, rfl⟩
  have hself : nextIn (addMem l v w) v = l.head ∧ prevIn (addMem l v w) v = 0 := by
    unfold addMem
    dsimp only
    split_ifs with h0
    · obtain ⟨hh4, -⟩ := hual (hL.head_mem h0)
      have hvh : v ≠ l.head := fun he => hvns (he ▸ hL.head_mem h0)
      rw [(nextIn_put_of_ne hh4 hval hvh).2, (prevIn_put_of_ne hh4 hval hvh).2, nextIn_put_prev,
        nextIn_put_next hheadlt, prevIn_put_prev (by norm_num)]
      exact ⟨rfl, rfl⟩
    · rw [nextIn_put_prev, nextIn_put_next hheadlt, prevIn_put_prev (by norm_num)]
      exact ⟨rfl, rfl⟩
  refine ⟨hL.linked.push hv0 hnd' hself.1 hself.2 (fun u hu => ?_) fun u hu => ?_, ?_, ?_⟩
  · unfold addMem
    dsimp only
    split_ifs with h0
    · obtain ⟨hh4, -⟩ := hual (hL.head_mem h0)
      by_cases hul : u = l.head
      · rw [hul, nextIn_put_prev]
        exact (hbase (hL.head_mem h0)).1
      · rw [(nextIn_put_of_ne hh4 (hual hu).1 hul).2]
        exact (hbase hu).1
    · exact (hbase hu).1
  · unfold addMem
    dsimp only
    by_cases hul : u = l.head
    · have h0 : l.head ≠ 0 := hul ▸ (hual hu).2.1
      rw [if_pos h0, if_pos hul, hul, prevIn_put_prev hvlt]
      rfl
    · rw [if_neg hul]
      split_ifs with h0
      · obtain ⟨hh4, -⟩ := hual (hL.head_mem h0)
        rw [(prevIn_put_of_ne hh4 (hual hu).1 hul).2]
        exact (hbase hu).2
      · exact (hbase hu).2
  · show (if l.head ≠ 0 then l.tail else v) = (v :: ns).getLastD 0
    split_ifs with h0
    · cases ns with
      | nil => exact absurd hL.linked h0
      | cons n ns => exact hL.tail
    · rw [not_not, hL.head_eq_zero] at h0
      rw [h0]
      rfl
  · show add32 l.count 1 = _
    rw [hL.count, length_cons]
    unfold add32
    omega

end Add

/-! ## `free_list_pop` -/

def popMem (l : PoolVars) (w : Bytes) : Bytes :=
  let prev := prevIn w l.tail
  let w₁ := if prev ≠ 0 then w.put32 (nextField prev) 0 else w
  (w₁.put32 (prevField l.tail) 0).put32 (nextField l.tail) 0

def popVars (l : PoolVars) (w : Bytes) : PoolVars :=
  { l with
    tail := prevIn w l.tail
    head := if prevIn w l.tail ≠ 0 then l.head else 0
    count := sub32 l.count 1 }

section Pop

variable {l : PoolVars} {w : Bytes} {ns : List ℕ} {x : ℕ}

section Nonempty

variable (hL : Listed l w (ns ++ [x]))

include hL

theorem Listed.tail_eq : l.tail = x := by
  rw [hL.tail]
  simp

theorem Listed.prev_tail : prevIn w x = ns.getLastD 0 :=
  hL.linked.prev_eq

theorem Listed.prev_mem_ns (h0 : prevIn w x ≠ 0) : prevIn w x ∈ ns := by
  obtain h | h := mem_cons.mp hL.linked.prev_mem
  · exact absurd h h0
  · exact h

theorem onlyLinks_popMem : OnlyLinks (ns ++ [x]) w (popMem l w) := by
  have hx : x ∈ ns ++ [x] := by simp
  have h₁ : OnlyLinks (ns ++ [x]) w
      (if prevIn w x ≠ 0 then w.put32 (nextField (prevIn w x)) 0 else w) := by
    split_ifs with h0
    · exact OnlyLinks.put (o := 0) (mem_append_left _ (hL.prev_mem_ns h0)) (by norm_num) _
    · exact .refl _ _
  unfold popMem
  dsimp only
  rw [hL.tail_eq]
  exact (h₁.trans (OnlyLinks.put (o := 4) hx (by norm_num) _)).trans
    (OnlyLinks.put (o := 0) hx (by norm_num) _)

theorem popMem_links {i : ℕ} (hi : i < 8) : popMem l w (x + i) = 0 := by
  unfold popMem nextField prevField
  rw [hL.tail_eq]
  by_cases hi4 : i < 4
  · exact put32_zero_of_mem _ (by omega) (by omega)
  · rw [put32_of_not_mem _ _ (by omega)]
    exact put32_zero_of_mem _ (by omega) (by omega)

theorem Listed.pop (hnd : (ns ++ [x]).Nodup)
    (hal : ∀ u ∈ ns ++ [x], u % 4096 = 0 ∧ u ≠ 0 ∧ u < 2 ^ 32) (hlen : ns.length + 1 < 2 ^ 32) :
    Listed (popVars l w) (popMem l w) ns := by
  have hxmem : x ∈ ns ++ [x] := by simp
  have hual {u : ℕ} (hu : u ∈ ns) := hal u (mem_append_left _ hu)
  have hxns : x ∉ ns := by
    intro hx
    exact disjoint_of_nodup_append hnd hx (mem_singleton_self x)
  obtain ⟨hx4, hx0, hxlt⟩ := hal x hxmem
  have hnx : nextIn w x = 0 := by
    have := hL.linked.next_mem
    simpa using this
  have hnd0 : (0 :: (ns ++ [x])).Nodup :=
    nodup_cons.mpr ⟨fun h => (hal 0 h).2.1 rfl, hnd⟩
  -- the links of a page that stays
  have hlinks {u : ℕ} (hu : u ∈ ns) :
      nextIn (popMem l w) u = (if u = prevIn w x then 0 else nextIn w u) ∧
      prevIn (popMem l w) u = prevIn w u := by
    obtain ⟨hu4, hu0, -⟩ := hual hu
    have hux : u ≠ x := fun he => hxns (he ▸ hu)
    unfold popMem
    dsimp only
    rw [hL.tail_eq, (nextIn_put_of_ne hx4 hu4 hux).1, (nextIn_put_of_ne hx4 hu4 hux).2,
      (prevIn_put_of_ne hx4 hu4 hux).1, (prevIn_put_of_ne hx4 hu4 hux).2]
    by_cases h0 : prevIn w x = 0
    · rw [if_neg (not_not.mpr h0), if_neg (fun he => hu0 (he.trans h0))]
      exact ⟨rfl, rfl⟩
    · rw [if_pos h0]
      by_cases hup : u = prevIn w x
      · rw [if_pos hup, hup, nextIn_put_next (by norm_num), prevIn_put_next]
        exact ⟨rfl, rfl⟩
      · obtain ⟨hp4, -⟩ := hual (hL.prev_mem_ns h0)
        rw [if_neg hup, (nextIn_put_of_ne hp4 hu4 hup).1, (prevIn_put_of_ne hp4 hu4 hup).1]
        exact ⟨rfl, rfl⟩
  have hunlink : Linked (nextIn (popMem l w)) (prevIn (popMem l w)) 0
      (if prevIn w x = 0 then nextIn w x else l.head) (ns ++ []) := hL.linked.unlink hnd0
    (fun u hu => by
      rw [append_nil] at hu
      rw [(hlinks hu).1, hnx])
    (fun u hu => by
      rw [append_nil] at hu
      rw [(hlinks hu).2, hnx, if_neg (hual hu).2.1])
  rw [append_nil, hnx] at hunlink
  refine ⟨?_, ?_, ?_⟩
  · show Linked _ _ 0 (if prevIn w l.tail ≠ 0 then l.head else 0) ns
    rw [hL.tail_eq, ite_not]
    exact hunlink
  · show prevIn w l.tail = _
    rw [hL.tail_eq, hL.prev_tail]
  · show sub32 l.count 1 = _
    rw [hL.count, length_append, length_singleton]
    unfold sub32
    omega

end Nonempty

end Pop

/-! ## On the machine -/

section Machine

variable {K : Kernel} {dirs : List ℕ} {top : ℕ} {h : Heap} {P : Pages} {c : View Pmm}
  {l : PoolVars} {ns : List ℕ} {v x : ℕ} {F : View Pmm → Prop}

theorem spec_freeListAdd (hV : Views K dirs top h P c) (hL : Listed l P.mem ns)
    (hns : ns ⊆ P.held) (hv : v ∈ P.held) :
    Uncached c ((freeListAdd v).run l)
      (fun r c' => r = ((), addVars l v) ∧
        Views K dirs top h { P with mem := addMem l v P.mem } c') F := by
  unfold freeListAdd
  apply spec_get_bind
  apply spec_lift_bind (spec_storeField (o := 0) hV hv (by norm_num))
  intro _ c₁ hV₁
  apply spec_lift_bind (spec_storeField (o := 4) hV₁ hv (by norm_num))
  intro _ c₂ hV₂
  by_cases h0 : l.head = 0
  · rw [if_neg (not_not.mpr h0)]
    apply spec_modify_bind
    apply spec_modify
    unfold addVars addMem
    rw [if_neg (not_not.mpr h0), if_neg (not_not.mpr h0)]
    exact ⟨rfl, hV₂⟩
  · rw [if_pos h0]
    apply spec_lift_bind (spec_storeField (o := 4) hV₂ (hns (hL.head_mem h0)) (by norm_num))
    intro _ c₃ hV₃
    apply spec_modify
    unfold addVars addMem
    rw [if_pos h0, if_pos h0]
    exact ⟨rfl, hV₃⟩

theorem spec_freeListPop (hV : Views K dirs top h P c) (hL : Listed l P.mem (ns ++ [x]))
    (hns : ns ++ [x] ⊆ P.held) :
    Uncached c (freeListPop.run l)
      (fun r c' => r = (x, popVars l P.mem) ∧
        Views K dirs top h { P with mem := popMem l P.mem } c') F := by
  have hx : x ∈ P.held := hns (by simp)
  have htail := hL.tail_eq
  have hx0 : x ≠ 0 := hL.linked.ne_zero x (by simp)
  unfold freeListPop
  apply spec_get_bind
  rw [htail, if_neg hx0]
  apply spec_lift_bind (spec_loadField (o := 4) hV hx (by norm_num))
  rintro prev c₁ ⟨hprev, rfl⟩
  have hprev' : prev = prevIn P.mem l.tail := by
    rw [htail]
    exact hprev
  apply spec_modify_bind
  by_cases h0 : prev = 0
  · rw [if_neg (not_not.mpr h0)]
    apply spec_modify_bind
    apply spec_lift_bind (spec_storeField (o := 4) hV hx (by norm_num))
    intro _ c₂ hV₂
    apply spec_lift_bind (spec_storeField (o := 0) hV₂ hx (by norm_num))
    intro _ c₃ hV₃
    apply spec_modify_bind
    apply spec_return
    unfold popVars popMem
    dsimp only
    rw [← hprev', if_neg (not_not.mpr h0), if_neg (not_not.mpr h0), htail]
    exact ⟨rfl, hV₃⟩
  · rw [if_pos h0]
    have hmem : prev ∈ ns ++ [x] := by
      rw [hprev', htail] at h0 ⊢
      exact mem_append_left _ (hL.prev_mem_ns h0)
    apply spec_lift_bind (spec_storeField (o := 0) hV (hns hmem) (by norm_num))
    intro _ c₂ hV₂
    apply spec_lift_bind (spec_storeField (o := 4) hV₂ hx (by norm_num))
    intro _ c₃ hV₃
    apply spec_lift_bind (spec_storeField (o := 0) hV₃ hx (by norm_num))
    intro _ c₄ hV₄
    apply spec_modify_bind
    apply spec_return
    unfold popVars popMem
    dsimp only
    rw [← hprev', if_pos h0, if_pos h0, htail]
    exact ⟨rfl, hV₄⟩

end Machine

end DvivonOS.Windows.Pool
