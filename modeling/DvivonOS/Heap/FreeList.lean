import DvivonOS.Heap.Shape

/-!
# Specifications of the free-list and boundary-tag operations

The macros of `heap-allocator.h` and the list operations as rewriting rules for `Wp`, then what
`remove_free_block`, `add_free_block` and `create_free_block` do to a heap that satisfies `Ok`.
The two list operations write link words of free blocks only (`LinksOnly`), so tags and live
blocks are untouched.
-/

namespace DvivonOS

open Bytes HeapCode List

variable {h : Heap} {E : Stop → Prop} {bs : List Blk} {fl : List ℕ}

/-! ## Memory accesses -/

theorem run_load (a : ℕ) : (load a : HeapM ℕ).run h =
    if h.mapped (a / pageSize) ∧ h.mapped ((a + 3) / pageSize) then .ok (h.mem.get32 a, h)
    else .error (.fault a) := by
  change (if _ then _ else _ : HeapM ℕ).run h = _
  split <;> rfl

theorem run_store (a v : ℕ) : (store a v : HeapM Unit).run h =
    if h.mapped (a / pageSize) ∧ h.mapped ((a + 3) / pageSize) then
      .ok ((), { h with mem := h.mem.put32 a v })
    else .error (.fault a) := by
  change (if _ then _ else _ : HeapM Unit).run h = _
  split <;> rfl

theorem wp_load {a : ℕ} {Q : ℕ → Heap → Prop} (hp : Present h.mapped h.heapMax) (h1 : kheapStart ≤ a)
    (h2 : a + 4 ≤ h.heapMax) : Wp (load a) Q E h ↔ Q (h.mem.get32 a) h :=
  wp_of_run (by rw [run_load, if_pos ⟨hp a h1 (by omega), hp (a + 3) (by omega) (by omega)⟩])

theorem wp_store {a v : ℕ} {Q : Unit → Heap → Prop} (hp : Present h.mapped h.heapMax) (h1 : kheapStart ≤ a)
    (h2 : a + 4 ≤ h.heapMax) :
    Wp (store a v) Q E h ↔ Q () { h with mem := h.mem.put32 a v } :=
  wp_of_run (by rw [run_store, if_pos ⟨hp a h1 (by omega), hp (a + 3) (by omega) (by omega)⟩])

@[simp] theorem wp_freeListHead {Q : ℕ → Heap → Prop} :
    Wp freeListHead Q E h ↔ Q h.freeListHead h := Iff.rfl

@[simp] theorem wp_setFreeListHead {Q : Unit → Heap → Prop} (b : ℕ) :
    Wp (setFreeListHead b) Q E h ↔ Q () { h with freeListHead := b } := Iff.rfl

@[simp] theorem wp_heapMax {Q : ℕ → Heap → Prop} : Wp heapMax Q E h ↔ Q h.heapMax h := Iff.rfl

@[simp] theorem wp_nextPage {Q : Bool → Heap → Prop} :
    Wp nextPage Q E h ↔ Wp nextHeapPage Q E h := Iff.rfl

section Header

variable {m : Bytes} {mp : ℕ → Bool} {pm : Pmm} {hd hx b sz : ℕ} {f : Bool}
  (hp : Present mp hx) (h1 : kheapStart ≤ b) (h2 : b + 4 ≤ hx)

include hp h1 h2

theorem wp_getSize {Q : ℕ → Heap → Prop} (hw : m.get32 b = tag sz f) (h4 : 4 ∣ sz)
    (hlt : sz < 2 ^ 32) : Wp (getSize b) Q E ⟨m, mp, pm, hd, hx⟩ ↔ Q sz ⟨m, mp, pm, hd, hx⟩ := by
  unfold getSize
  rw [wp_bind, wp_load (by exact hp) h1 h2, wp_pure, hw, tag_size h4 hlt]

theorem wp_setSize {Q : Unit → Heap → Prop} (h4 : 4 ∣ sz) :
    Wp (setSize b sz) Q E ⟨m, mp, pm, hd, hx⟩ ↔
      Q () ⟨m.put32 b (tag sz (decide (m.get32 b % 2 = 1))), mp, pm, hd, hx⟩ := by
  unfold setSize
  rw [wp_bind, wp_load (by exact hp) h1 h2, wp_store (by exact hp) h1 h2, tag_resize h4]

section

variable {Q : Unit → Heap → Prop} (hw : m.get32 b = tag sz f) (h4 : 4 ∣ sz)

include hw h4

theorem wp_setFree :
    Wp (setFree b) Q E ⟨m, mp, pm, hd, hx⟩ ↔
      Q () ⟨m.put32 b (tag sz true), mp, pm, hd, hx⟩ := by
  unfold setFree
  rw [wp_bind, wp_load (by exact hp) h1 h2, wp_store (by exact hp) h1 h2, hw, tag_set h4]

theorem wp_clearFree
    (hlt : sz < 2 ^ 32) :
    Wp (clearFree b) Q E ⟨m, mp, pm, hd, hx⟩ ↔
      Q () ⟨m.put32 b (tag sz false), mp, pm, hd, hx⟩ := by
  unfold clearFree
  rw [wp_bind, wp_load (by exact hp) h1 h2, wp_store (by exact hp) h1 h2, hw, tag_clear h4 hlt]

theorem wp_updateFooter
    (h12 : 12 ≤ sz) (hs : b + sz ≤ hx) (hm : hx ≤ ptsScratchWindow) :
    Wp (updateFooter b) Q E ⟨m, mp, pm, hd, hx⟩ ↔
      Q () ⟨m.put32 (b + sz - 4) (tag sz f), mp, pm, hd, hx⟩ := by
  unfold ptsScratchWindow at hm
  have hfoot : sub32 (add32 b sz) sizeofHeader = b + sz - 4 := by
    unfold sub32 add32 sizeofHeader; omega
  have hin : b + sz - 4 + 4 ≤ hx := by omega
  unfold updateFooter getFooter
  rw [wp_bind, wp_bind, wp_getSize hp h1 h2 hw h4 (by omega), wp_pure, wp_bind,
    wp_load (by exact hp) h1 h2, hfoot, wp_store (by exact hp) (by omega) hin, hw]

end

end Header

/-- Memory after both tags of a block have been written. -/
def tagged (m : Bytes) (a sz : ℕ) (f : Bool) : Bytes :=
  (m.put32 a (tag sz f)).put32 (a + sz - 4) (tag sz f)

section Tagged

variable {m : Bytes} {a sz i : ℕ} {f : Bool}

theorem tagged_of_between (h12 : 12 ≤ sz)
    (hi : i < a ∨ (a + 4 ≤ i ∧ i < a + sz - 4) ∨ a + sz ≤ i) : tagged m a sz f i = m i := by
  unfold tagged
  rw [put32_of_not_mem _ _ (by omega), put32_of_not_mem _ _ (by omega)]

theorem rep_tagged (h12 : 12 ≤ sz) (htag : tag sz f < 4294967296) :
    (Blk.mk a sz f).Rep (tagged m a sz f) := by
  refine ⟨?_, fun _ => get32_put32_of_lt _ _ htag⟩
  dsimp only [tagged]
  rw [get32_put32_of_disjoint _ _ (by omega), get32_put32_of_lt _ _ htag]

end Tagged

/-! ## Changes to link words -/

/-- The memories differ at most in the link words of free blocks. -/
def LinksOnly (bs : List Blk) (m m' : Bytes) : Prop :=
  ∀ i, (∀ b ∈ bs, b.free = true → ¬ (b.addr + 4 ≤ i ∧ i < b.addr + 12)) → m' i = m i

namespace LinksOnly

variable {m m' m'' : Bytes}

theorem refl (bs : List Blk) (m : Bytes) : LinksOnly bs m m := fun _ _ => rfl

theorem trans (h1 : LinksOnly bs m m') (h2 : LinksOnly bs m' m'') : LinksOnly bs m m'' :=
  fun i hi => (h2 i hi).trans (h1 i hi)

theorem put {b : Blk} (hb : b ∈ bs) (hf : b.free = true) {o : ℕ} (ho : b.addr + 4 ≤ o)
    (ho' : o + 4 ≤ b.addr + 12) (v : ℕ) : LinksOnly bs m (m.put32 o v) := by
  intro i hi
  have := hi b hb hf
  exact put32_of_not_mem _ _ (by omega)

theorem liveSame {a e : ℕ} (ht : Tiles a bs e) (h : LinksOnly bs m m') : LiveSame bs m m' := by
  intro b hb hf i h1 h2
  refine h i fun c hc hcf => ?_
  rcases ht.eq_or_disjoint b hb c hc with rfl | h0 | h0
  · rw [hf] at hcf; exact absurd hcf (by decide)
  · omega
  · have := (ht.mem_bounds c hc).2.2.1; omega

theorem rep {a e : ℕ} (ht : Tiles a bs e) (h : LinksOnly bs m m') {b : Blk} (hb : b ∈ bs)
    (hr : b.Rep m) : b.Rep m' := by
  have hs := (ht.mem_bounds b hb).2.2.1
  -- no link word of any free block meets the header or the footer of `b`
  refine hr.congr hs (fun i h1 h2 => h i fun c hc hcf => ?_)
    fun hc16 i h1 h2 => h i fun c hc hcf => ?_
  · have := (ht.mem_bounds c hc).2.2.1
    rcases ht.eq_or_disjoint b hb c hc with rfl | h0 | h0 <;> omega
  · have := (ht.mem_bounds c hc).2.2.1
    rcases ht.eq_or_disjoint b hb c hc with rfl | h0 | h0
    · rcases hc16 with h0 | h0
      · rw [h0] at hcf; exact absurd hcf (by decide)
      · omega
    · omega
    · omega

end LinksOnly

namespace Ok

theorem apart (ok : Ok h bs fl) {x y : ℕ} (hx : x ∈ fl) (hy : y ∈ fl) :
    x = y ∨ x + 12 ≤ y ∨ y + 12 ≤ x := by
  obtain ⟨b, hb, rfl, -, -, -, h12, -⟩ := ok.node hx
  obtain ⟨c, hc, rfl, -, -, -, h12', -⟩ := ok.node hy
  rcases ok.tiles.eq_or_disjoint b hb c hc with rfl | h0 | h0 <;> omega

theorem link_bounds (ok : Ok h bs fl) {x : ℕ} (hx : x ∈ fl) :
    (kheapStart ≤ nextFree x ∧ nextFree x + 4 ≤ h.heapMax) ∧
      kheapStart ≤ prevFree x ∧ prevFree x + 4 ≤ h.heapMax := by
  obtain ⟨b, -, -, -, h1, h2, h3, -⟩ := ok.node hx
  unfold nextFree prevFree
  omega

theorem linksOnly_next (ok : Ok h bs fl) {m : Bytes} {x : ℕ} (hx : x ∈ fl) (v : ℕ) :
    LinksOnly bs m (m.put32 (nextFree x) v) := by
  obtain ⟨b, hb, rfl, hf, -⟩ := ok.node hx
  exact LinksOnly.put hb hf le_rfl (by omega) v

theorem linksOnly_prev (ok : Ok h bs fl) {m : Bytes} {x : ℕ} (hx : x ∈ fl) (v : ℕ) :
    LinksOnly bs m (m.put32 (prevFree x) v) := by
  obtain ⟨b, hb, rfl, hf, -⟩ := ok.node hx
  exact LinksOnly.put hb hf (by omega) le_rfl v

theorem relink (ok : Ok h bs fl) {m : Bytes} {head : ℕ} {fl' : List ℕ}
    (hm : LinksOnly bs h.mem m) (hl : Linked (nextOf m) (prevOf m) 0 head fl')
    (hnd : fl'.Nodup) (hf : ∀ x ∈ fl', ∃ b ∈ bs, b.addr = x ∧ b.free = true) :
    Ok { h with mem := m, freeListHead := head } bs fl' where
  present := ok.present
  bound := ok.bound
  aligned := ok.aligned
  tiles := ok.tiles
  rep := fun _ hb => hm.rep ok.tiles hb (ok.rep _ hb)
  linked := hl
  nodup := hnd
  free := hf

end Ok

section LinkWords

variable {m : Bytes} {v y z : ℕ} (hap : y = z ∨ y + 12 ≤ z ∨ z + 12 ≤ y)

include hap

theorem nextOf_put_next (hv : v < 4294967296) :
    nextOf (m.put32 (nextFree z) v) y = if y = z then v else nextOf m y := by
  unfold nextOf nextFree
  split_ifs with he
  · rw [he, get32_put32_of_lt _ _ hv]
  · exact get32_put32_of_disjoint _ _ (by omega)

theorem prevOf_put_prev (hv : v < 4294967296) :
    prevOf (m.put32 (prevFree z) v) y = if y = z then v else prevOf m y := by
  unfold prevOf prevFree
  split_ifs with he
  · rw [he, get32_put32_of_lt _ _ hv]
  · exact get32_put32_of_disjoint _ _ (by omega)

theorem prevOf_put_next : prevOf (m.put32 (nextFree z) v) y = prevOf m y :=
  get32_put32_of_disjoint _ _ (by unfold nextFree prevFree; omega)

theorem nextOf_put_prev : nextOf (m.put32 (prevFree z) v) y = nextOf m y :=
  get32_put32_of_disjoint _ _ (by unfold nextFree prevFree; omega)

end LinkWords

/-! ## `remove_free_block` -/

def unlinkMem (m : Bytes) (x : ℕ) : Bytes :=
  let m₁ := if prevOf m x = 0 then m else m.put32 (nextFree (prevOf m x)) (nextOf m x)
  let m₂ := if nextOf m x = 0 then m₁ else m₁.put32 (prevFree (nextOf m x)) (prevOf m x)
  (m₂.put32 (prevFree x) 0).put32 (nextFree x) 0

section Remove

variable {x : ℕ} {l₁ l₂ : List ℕ} (ok : Ok h bs (l₁ ++ x :: l₂))

include ok

theorem prev_cases : prevOf h.mem x = 0 ∨ (prevOf h.mem x ∈ l₁ ++ x :: l₂ ∧ prevOf h.mem x ≠ x) := by
  have hnd := ok.nodup
  rcases mem_cons.mp ok.linked.prev_mem with h0 | h0
  · exact Or.inl h0
  · refine Or.inr ⟨mem_append_left _ h0, fun e => ?_⟩
    rw [e] at h0
    exact (nodup_append.mp hnd).2.2 x h0 x mem_cons_self rfl

theorem next_cases : nextOf h.mem x = 0 ∨ (nextOf h.mem x ∈ l₁ ++ x :: l₂ ∧ nextOf h.mem x ≠ x) := by
  have hnd := ok.nodup
  rcases mem_cons.mp ok.linked.next_mem with h0 | h0
  · exact Or.inl h0
  · refine Or.inr ⟨mem_append_right _ (mem_cons_of_mem _ h0), fun e => ?_⟩
    rw [e] at h0
    exact (nodup_cons.mp (nodup_append.mp hnd).2.1).1 h0

theorem wp_removeFreeBlock {Q : Unit → Heap → Prop} :
    Wp (removeFreeBlock x) Q E h ↔ Q () { h with
      mem := unlinkMem h.mem x
      freeListHead := if prevOf h.mem x = 0 then nextOf h.mem x else h.freeListHead } := by
  have hx : x ∈ l₁ ++ x :: l₂ := mem_append_right _ mem_cons_self
  have hp := ok.present
  obtain ⟨hn1, hp1⟩ := ok.link_bounds hx
  have hpin := fun h0 => (ok.link_bounds ((prev_cases ok).resolve_left h0).1).1
  have hnin := fun h0 => (ok.link_bounds ((next_cases ok).resolve_left h0).1).2
  -- the links of `x` are still there after the store to its predecessor
  have hkeep : ∀ v, prevOf h.mem x ≠ 0 →
      (h.mem.put32 (nextFree (prevOf h.mem x)) v).get32 (nextFree x) = nextOf h.mem x ∧
      (h.mem.put32 (nextFree (prevOf h.mem x)) v).get32 (prevFree x) = prevOf h.mem x := by
    intro v h0
    obtain ⟨hm, hne⟩ := (prev_cases ok).resolve_left h0
    have hap := ok.apart hx hm
    exact ⟨get32_put32_of_disjoint _ _ (by unfold nextFree; omega), prevOf_put_next hap⟩
  have hN : h.mem.get32 (nextFree x) = nextOf h.mem x := rfl
  have hP : h.mem.get32 (prevFree x) = prevOf h.mem x := rfl
  unfold removeFreeBlock unlinkMem
  rcases eq_or_ne (prevOf h.mem x) 0 with h0 | h0 <;>
    rcases eq_or_ne (nextOf h.mem x) 0 with hn0 | hn0 <;>
    simp only [wp_bind, wp_load, wp_store, wp_setFreeListHead, hp, hn1, hp1, hN, hP, hpin, hnin, hkeep, h0,
      hn0, ne_eq, not_true_eq_false, not_false_eq_true, if_false, if_true]

theorem unlinkMem_links {y : ℕ} (hy : y ∈ l₁ ++ l₂) :
    nextOf (unlinkMem h.mem x) y = (if y = prevOf h.mem x then nextOf h.mem x else nextOf h.mem y) ∧
    prevOf (unlinkMem h.mem x) y = (if y = nextOf h.mem x then prevOf h.mem x else prevOf h.mem y) := by
  have hmem : y ∈ l₁ ++ x :: l₂ := by
    simp only [mem_append, mem_cons] at hy ⊢; tauto
  have hyx : y ≠ x := by
    rintro rfl
    exact (nodup_cons.mp (nodup_middle.mp ok.nodup)).1 hy
  have hself := ok.apart hmem (mem_append_right l₁ mem_cons_self)
  have hy0 := ok.linked.ne_zero y hmem
  have hprev := fun h0 => ok.apart hmem ((prev_cases ok).resolve_left h0).1
  have hnext := fun h0 => ok.apart hmem ((next_cases ok).resolve_left h0).1
  have hN : nextOf h.mem x < 4294967296 := get32_lt _ _
  have hP : prevOf h.mem x < 4294967296 := get32_lt _ _
  unfold unlinkMem
  -- the stores to `x` itself do not touch the links of `y`
  rw [nextOf_put_next hself (by norm_num), if_neg hyx, nextOf_put_prev hself,
    prevOf_put_next hself, prevOf_put_prev hself (by norm_num), if_neg hyx]
  rcases eq_or_ne (prevOf h.mem x) 0 with h0 | h0 <;>
    rcases eq_or_ne (nextOf h.mem x) 0 with hn0 | hn0
  · simp only [h0, hn0, hy0, if_true, if_false, and_self]
  · rw [if_neg hn0, if_pos h0, nextOf_put_prev (hnext hn0), prevOf_put_prev (hnext hn0) hP, h0,
      if_neg hy0]
    exact ⟨rfl, rfl⟩
  · rw [if_pos hn0, if_neg h0, nextOf_put_next (hprev h0) hN, prevOf_put_next (hprev h0), hn0,
      if_neg hy0]
    exact ⟨rfl, rfl⟩
  · rw [if_neg hn0, if_neg h0, nextOf_put_prev (hnext hn0), prevOf_put_prev (hnext hn0) hP,
      nextOf_put_next (hprev h0) hN, prevOf_put_next (hprev h0)]
    exact ⟨rfl, rfl⟩

theorem unlinkMem_linksOnly : LinksOnly bs h.mem (unlinkMem h.mem x) := by
  have hx : x ∈ l₁ ++ x :: l₂ := mem_append_right _ mem_cons_self
  unfold unlinkMem
  refine LinksOnly.trans (LinksOnly.trans ?_ (ok.linksOnly_prev hx _)) (ok.linksOnly_next hx _)
  split_ifs with hn0 h0 h0
  · exact LinksOnly.refl _ _
  · exact ok.linksOnly_next ((prev_cases ok).resolve_left h0).1 _
  · exact ok.linksOnly_prev ((next_cases ok).resolve_left hn0).1 _
  · exact (ok.linksOnly_next ((prev_cases ok).resolve_left h0).1 _).trans
      (ok.linksOnly_prev ((next_cases ok).resolve_left hn0).1 _)

/-- **Removal.** `remove_free_block` drops the block from the free list. -/
theorem removeFreeBlock_wp {Q : Unit → Heap → Prop}
    (hQ : ∀ h', Ok h' bs (l₁ ++ l₂) → LiveSame bs h.mem h'.mem → SameEnd h h' → Q () h') :
    Wp (removeFreeBlock x) Q E h := by
  rw [wp_removeFreeBlock ok]
  have hlo := unlinkMem_linksOnly ok
  refine hQ _ (ok.relink hlo ?_ ?_ ?_) (hlo.liveSame ok.tiles) ⟨rfl, rfl⟩
  · exact ok.linked.unlink (nodup_cons.mpr ⟨fun h0 => ok.linked.ne_zero 0 h0 rfl, ok.nodup⟩)
      (fun y hy => (unlinkMem_links ok hy).1) (fun y hy => (unlinkMem_links ok hy).2)
  · exact (nodup_cons.mp (nodup_middle.mp ok.nodup)).2
  · intro y hy
    refine ok.free y ?_
    simp only [mem_append, mem_cons] at hy ⊢; tauto

end Remove

/-! ## `add_free_block` -/

def pushMem (m : Bytes) (head x : ℕ) : Bytes :=
  let m₁ := m.put32 (nextFree x) head
  (if head = 0 then m₁ else m₁.put32 (prevFree head) x).put32 (prevFree x) 0

theorem Ok.head_mem (ok : Ok h bs fl) (h0 : h.freeListHead ≠ 0) : h.freeListHead ∈ fl := by
  cases fl with
  | nil => exact absurd ok.linked h0
  | cons y l => rw [ok.linked.1]; exact mem_cons_self

/-- **Insertion.** `add_free_block` puts a free block at the head of the list. -/
theorem addFreeBlock_wp {b : Blk} (ok : Ok h bs fl) (hb : b ∈ bs) (hf : b.free = true)
    (hx : b.addr ∉ fl) {Q : Unit → Heap → Prop}
    (hQ : ∀ h', Ok h' bs (b.addr :: fl) → LiveSame bs h.mem h'.mem → SameEnd h h' → Q () h') :
    Wp (addFreeBlock b.addr) Q E h := by
  obtain ⟨x1, x2, x3, -, -, x6⟩ := ok.bounds hb
  have hp := ok.present
  have hn1 : kheapStart ≤ nextFree b.addr ∧ nextFree b.addr + 4 ≤ h.heapMax := by
    unfold nextFree; omega
  have hp1 : kheapStart ≤ prevFree b.addr ∧ prevFree b.addr + 4 ≤ h.heapMax := by
    unfold prevFree; omega
  have hb0 : b.addr ≠ 0 := by unfold kheapStart at x1; omega
  have hapart : ∀ y ∈ fl, y = b.addr ∨ y + 12 ≤ b.addr ∨ b.addr + 12 ≤ y := by
    intro y hy
    obtain ⟨c, hc, rfl, -, -, -, c3, -⟩ := ok.node hy
    rcases ok.tiles.eq_or_disjoint b hb c hc with rfl | h0 | h0 <;> omega
  have hne : ∀ y ∈ fl, y ≠ b.addr := fun y hy he => hx (he ▸ hy)
  have hc1 := fun h0 => (ok.link_bounds (ok.head_mem h0)).2
  have hhlt : h.freeListHead < 4294967296 := by
    by_cases h0 : h.freeListHead = 0
    · rw [h0]; norm_num
    · have := (hc1 h0).2
      have := ok.bound
      unfold ptsScratchWindow prevFree at *
      omega
  have hw : Wp (addFreeBlock b.addr) Q E h ↔
      Q () { h with mem := pushMem h.mem h.freeListHead b.addr, freeListHead := b.addr } := by
    unfold addFreeBlock pushMem
    rcases eq_or_ne h.freeListHead 0 with h0 | h0 <;>
      simp only [wp_bind, wp_freeListHead, wp_store, wp_setFreeListHead, hp, hn1, hp1, hc1, h0, ne_eq,
        not_true_eq_false, not_false_eq_true, if_false, if_true]
  have hput : ∀ (m : Bytes) (v : ℕ), LinksOnly bs m (m.put32 (nextFree b.addr) v) ∧
      LinksOnly bs m (m.put32 (prevFree b.addr) v) := fun m v =>
    ⟨LinksOnly.put hb hf le_rfl (by omega) v, LinksOnly.put hb hf (by omega) le_rfl v⟩
  have hlo : LinksOnly bs h.mem (pushMem h.mem h.freeListHead b.addr) := by
    unfold pushMem
    refine LinksOnly.trans ?_ (hput _ 0).2
    split_ifs with h0
    · exact (hput _ _).1
    · exact (hput _ _).1.trans (ok.linksOnly_prev (ok.head_mem h0) _)
  rw [hw]
  refine hQ _ (ok.relink hlo (ok.linked.push hb0 ok.nodup ?_ ?_ ?_ ?_)
    (nodup_cons.mpr ⟨hx, ok.nodup⟩) ?_) (hlo.liveSame ok.tiles) ⟨rfl, rfl⟩ <;> try unfold pushMem
  · rw [nextOf_put_prev (.inl rfl)]
    split_ifs with h0
    · rw [nextOf_put_next (.inl rfl) hhlt, if_pos rfl]
    · have hhead := hapart _ (ok.head_mem h0)
      rw [nextOf_put_prev (by omega), nextOf_put_next (.inl rfl) hhlt, if_pos rfl]
  · rw [prevOf_put_prev (.inl rfl) (by norm_num), if_pos rfl]
  · intro y hy
    rw [nextOf_put_prev (hapart y hy)]
    split_ifs with h0
    · rw [nextOf_put_next (hapart y hy) hhlt, if_neg (hne y hy)]
    · rw [nextOf_put_prev (ok.apart hy (ok.head_mem h0)), nextOf_put_next (hapart y hy) hhlt,
        if_neg (hne y hy)]
  · intro y hy
    rw [prevOf_put_prev (hapart y hy) (by norm_num), if_neg (hne y hy)]
    by_cases h0 : h.freeListHead = 0
    · rw [if_pos h0, prevOf_put_next (hapart y hy), h0, if_neg (ok.linked.ne_zero y hy)]
    · rw [if_neg h0, prevOf_put_prev (ok.apart hy (ok.head_mem h0)) (by omega),
        prevOf_put_next (hapart y hy)]
  · intro y hy
    rcases mem_cons.mp hy with rfl | hy
    · exact ⟨b, hb, rfl, hf⟩
    · exact ok.free y hy

/-! ## `create_free_block` -/

theorem createFreeBlock_wp {a sz : ℕ} (hp : Present h.mapped h.heapMax)
    (hm : h.heapMax ≤ ptsScratchWindow) (h1 : kheapStart ≤ a) (h2 : a + sz ≤ h.heapMax)
    (h12 : 12 ≤ sz) (h4 : 4 ∣ sz) {Q : ℕ → Heap → Prop}
    (hQ : ∀ m, (Blk.mk a sz true).Rep m → (∀ i, i < a ∨ a + sz ≤ i → m i = h.mem i) →
      Q a { h with mem := m }) : Wp (createFreeBlock a sz) Q E h := by
  have hm' := hm
  unfold ptsScratchWindow at hm'
  have ha : kheapStart ≤ a ∧ a + 4 ≤ h.heapMax := by omega
  have hn1 : kheapStart ≤ nextFree a ∧ nextFree a + 4 ≤ h.heapMax := by unfold nextFree; omega
  have hp1 : kheapStart ≤ prevFree a ∧ prevFree a + 4 ≤ h.heapMax := by unfold prevFree; omega
  have htag : tag sz true < 4294967296 := tag_lt h4 (by omega)
  unfold createFreeBlock
  rw [wp_bind, wp_setSize hp ha.1 ha.2 h4, wp_bind,
    wp_setFree hp ha.1 ha.2 (get32_put32_of_lt _ _ (tag_lt h4 (by omega))) h4, wp_bind,
    wp_updateFooter hp ha.1 ha.2 (get32_put32_of_lt _ _ htag) h4 h12 h2 hm]
  simp only [wp_bind, wp_store, hp, hn1, hp1, wp_pure]
  refine hQ _ ⟨?_, ?_⟩ ?_
  · unfold nextFree prevFree
    dsimp only
    rw [get32_put32_of_disjoint _ _ (by omega), get32_put32_of_disjoint _ _ (by omega),
      get32_put32_of_disjoint _ _ (by omega), get32_put32_of_lt _ _ htag]
  · intro h16
    have h16' : 16 ≤ sz := by simpa using h16
    unfold nextFree prevFree
    dsimp only
    rw [get32_put32_of_disjoint _ _ (by omega), get32_put32_of_disjoint _ _ (by omega),
      get32_put32_of_lt _ _ htag]
  · intro i hi
    unfold nextFree prevFree
    rw [put32_of_not_mem _ _ (by omega), put32_of_not_mem _ _ (by omega),
      put32_of_not_mem _ _ (by omega), put32_of_not_mem _ _ (by omega),
      put32_of_not_mem _ _ (by omega)]

end DvivonOS
