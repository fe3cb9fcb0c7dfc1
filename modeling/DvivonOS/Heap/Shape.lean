import DvivonOS.Lib.Links
import DvivonOS.Heap.Model

/-!
# The shape of the heap

The abstract heap is a list of blocks `Blk` (address, size, free or not) and a list of free
addresses. `Tiles a bs e`: the blocks of `bs` follow one another from `a` to `e`. `Blk.Rep`: the
boundary tags of a block in memory. `Ok h bs fl`: memory represents the blocks `bs`, and the
links from `free_list_head` run through `fl`, all of them free blocks of `bs`.

A free block of 12 bytes has no footer: its last word is its `prev_free` link. `Blk.Rep` says
nothing about that word, and `Ok.footer_even` shows that it never looks like the tag of a free
block, which is what `coalesce_with_prev` relies on.
-/

namespace DvivonOS

open HeapCode List

/-! ## Tags -/

def tag (size : ℕ) (free : Bool) : ℕ := size + (if free then 1 else 0)

theorem and_free_mask {w : ℕ} (hw : w < 2 ^ 32) :
    w &&& (0xFFFFFFFF ^^^ blockFree) = 2 * (w / 2) :=
  and_mask (k := 1) (n := 31) hw

theorem and_free (w : ℕ) : w &&& blockFree = w % 2 := Nat.and_one_is_mod w

theorem bit_or_even {c s : ℕ} (hc : c < 2) (hs : 2 ∣ s) : c ||| s = s + c := by
  obtain ⟨k, rfl⟩ := hs
  rw [Nat.lor_comm]
  have := Nat.two_pow_add_eq_or_of_lt (i := 1) (b := c) (by omega) k
  simpa using this.symm

theorem or_free (w : ℕ) : w ||| blockFree = 2 * (w / 2) + 1 := by
  have h : w = (w % 2) ||| 2 * (w / 2) := by
    rw [bit_or_even (Nat.mod_lt _ (by norm_num)) (Dvd.intro _ rfl)]; omega
  conv_lhs => rw [h]
  rw [Nat.lor_comm (w % 2), Nat.lor_assoc]
  have hb : w % 2 ||| blockFree = 1 := by
    rcases Nat.mod_two_eq_zero_or_one w with h0 | h0 <;> rw [h0] <;> decide
  rw [hb, Nat.lor_comm, bit_or_even (by norm_num) (Dvd.intro _ rfl)]

section Tags

variable {size : ℕ} {free : Bool}

section

variable (h4 : 4 ∣ size)

include h4

theorem tag_lt (hlt : size < 2 ^ 32) : tag size free < 2 ^ 32 := by
  unfold tag; split_ifs <;> omega

theorem tag_size (hlt : size < 2 ^ 32) :
    tag size free &&& (0xFFFFFFFF ^^^ blockFree) = size := by
  rw [and_free_mask (tag_lt h4 hlt)]
  unfold tag; split_ifs <;> omega

theorem tag_clear (hlt : size < 2 ^ 32) :
    tag size free &&& (0xFFFFFFFF ^^^ blockFree) = tag size false := tag_size h4 hlt

theorem tag_free : tag size free &&& blockFree = if free then 1 else 0 := by
  rw [and_free]
  unfold tag; split_ifs <;> omega

theorem tag_set : tag size free ||| blockFree = tag size true := by
  rw [or_free]
  unfold tag
  cases free <;> simp only [Bool.false_eq_true, if_true, if_false] <;> omega

theorem tag_resize {w : ℕ} :
    (w &&& blockFree) ||| size = tag size (decide (w % 2 = 1)) := by
  rw [and_free, bit_or_even (Nat.mod_lt _ (by norm_num)) (dvd_trans (by norm_num) h4)]
  unfold tag
  rcases Nat.mod_two_eq_zero_or_one w with h | h <;> simp [h]

end

end Tags

/-! ## Blocks -/

/-- A block of the heap. -/
structure Blk where
  addr : ℕ
  size : ℕ
  free : Bool
  deriving DecidableEq

theorem Blk.ne_of_free {b c : Blk} (hb : b.free = true) (hc : c.free = false) : c ≠ b := by
  rintro rfl
  exact Bool.noConfusion (hb.symm.trans hc)

/-- The boundary tags of a block. The last word of a 12-byte free block is its `prev_free`. -/
structure Blk.Rep (b : Blk) (m : Bytes) : Prop where
  header : m.get32 b.addr = tag b.size b.free
  footer : b.free = false ∨ 16 ≤ b.size → m.get32 (b.addr + b.size - 4) = tag b.size b.free

/-- The blocks of `bs` follow one another from `a` to `e`. -/
def Tiles : ℕ → List Blk → ℕ → Prop
  | a, [], e => a = e
  | a, b :: bs, e => b.addr = a ∧ 12 ≤ b.size ∧ 4 ∣ b.size ∧ Tiles (a + b.size) bs e

namespace Tiles

theorem le : ∀ {bs : List Blk} {a e : ℕ}, Tiles a bs e → a ≤ e
  | [], _, _, h => le_of_eq h
  | _ :: _, _, _, ⟨_, _, _, h⟩ => le_trans (Nat.le_add_right _ _) h.le

theorem append : ∀ {bs : List Blk} {cs : List Blk} {a m e : ℕ}, Tiles a bs m → Tiles m cs e →
    Tiles a (bs ++ cs) e
  | [], _, _, _, _, rfl, h' => h'
  | _ :: _, _, _, _, _, ⟨h1, h2, h3, h4⟩, h' => ⟨h1, h2, h3, h4.append h'⟩

theorem of_append : ∀ {bs : List Blk} {cs : List Blk} {a e : ℕ}, Tiles a (bs ++ cs) e →
    ∃ m, Tiles a bs m ∧ Tiles m cs e
  | [], _, a, _, h => ⟨a, rfl, h⟩
  | _ :: _, _, _, _, ⟨h1, h2, h3, h4⟩ => by
    obtain ⟨m, h, h'⟩ := h4.of_append
    exact ⟨m, ⟨h1, h2, h3, h⟩, h'⟩

/-- Every block lies between the two ends, with a size and an alignment that fit a free block. -/
theorem mem_bounds : ∀ {bs : List Blk} {a e : ℕ}, Tiles a bs e → ∀ b ∈ bs,
    a ≤ b.addr ∧ b.addr + b.size ≤ e ∧ 12 ≤ b.size ∧ 4 ∣ b.size ∧ (4 ∣ a → 4 ∣ b.addr)
  | [], _, _, _, b, hb => by simp at hb
  | c :: bs, a, e, ⟨h1, h2, h3, h4⟩, b, hb => by
    rcases mem_cons.mp hb with rfl | hb'
    · exact ⟨by omega, by have := h4.le; omega, h2, h3, by rw [h1]; exact id⟩
    · obtain ⟨i1, i2, i3, i4, i5⟩ := h4.mem_bounds b hb'
      exact ⟨by omega, i2, i3, i4, fun ha => i5 (dvd_add ha h3)⟩

theorem eq_or_disjoint : ∀ {bs : List Blk} {a e : ℕ}, Tiles a bs e → ∀ b ∈ bs, ∀ c ∈ bs,
    b = c ∨ b.addr + b.size ≤ c.addr ∨ c.addr + c.size ≤ b.addr
  | [], _, _, _, b, hb, _, _ => by simp at hb
  | d :: bs, a, e, ⟨h1, _, _, h4⟩, b, hb, c, hc => by
    rcases mem_cons.mp hb with rfl | hb' <;> rcases mem_cons.mp hc with rfl | hc'
    · exact Or.inl rfl
    · have := (h4.mem_bounds c hc').1
      exact Or.inr (Or.inl (by omega))
    · have := (h4.mem_bounds b hb').1
      exact Or.inr (Or.inr (by omega))
    · exact h4.eq_or_disjoint b hb' c hc'

theorem eq_of_addr {bs : List Blk} {a e : ℕ} (h : Tiles a bs e) {b c : Blk} (hb : b ∈ bs)
    (hc : c ∈ bs) (hbc : b.addr = c.addr) : b = c := by
  rcases h.eq_or_disjoint b hb c hc with h0 | h0 | h0
  · exact h0
  · have := (h.mem_bounds b hb).2.2.1; omega
  · have := (h.mem_bounds c hc).2.2.1; omega

theorem sum_size : ∀ {bs : List Blk} {a e : ℕ}, Tiles a bs e →
    a + (bs.map Blk.size).sum = e
  | [], _, _, h => h
  | b :: bs, a, e, ⟨_, _, _, h4⟩ => by
    have := h4.sum_size
    rw [map_cons, sum_cons]
    omega

end Tiles

/-! ## Memory and blocks -/

def nextOf (m : Bytes) (x : ℕ) : ℕ := m.get32 (nextFree x)

def prevOf (m : Bytes) (x : ℕ) : ℕ := m.get32 (prevFree x)

theorem links_congr {m m' : Bytes} {x : ℕ} (h : ∀ i, x + 4 ≤ i → i < x + 12 → m' i = m i) :
    nextOf m' x = nextOf m x ∧ prevOf m' x = prevOf m x :=
  ⟨Bytes.get32_congr fun i hi hi' => h i hi (by unfold nextFree at hi'; omega),
    Bytes.get32_congr fun i hi hi' => h i (by unfold prevFree at hi; omega) hi'⟩

/-- Every page of the heap up to `heapMax` is present. -/
def Present (mapped : ℕ → Bool) (heapMax : ℕ) : Prop :=
  ∀ a, kheapStart ≤ a → a < heapMax → mapped (a / pageSize) = true

/-- Memory represents the blocks `bs`, and the free list runs through `fl`. -/
structure Ok (h : Heap) (bs : List Blk) (fl : List ℕ) : Prop where
  present : Present h.mapped h.heapMax
  bound : h.heapMax ≤ ptsScratchWindow
  aligned : pageSize ∣ h.heapMax
  tiles : Tiles kheapStart bs h.heapMax
  rep : ∀ b ∈ bs, b.Rep h.mem
  linked : Linked (nextOf h.mem) (prevOf h.mem) 0 h.freeListHead fl
  nodup : fl.Nodup
  free : ∀ x ∈ fl, ∃ b ∈ bs, b.addr = x ∧ b.free = true

/-- The heap ends where it did, and no page has been taken for it. -/
structure SameEnd (h h' : Heap) : Prop where
  heapMax : h'.heapMax = h.heapMax
  pmm : h'.pmm = h.pmm

theorem SameEnd.trans {h₁ h₂ h₃ : Heap} (h : SameEnd h₁ h₂) (h' : SameEnd h₂ h₃) :
    SameEnd h₁ h₃ :=
  ⟨h'.heapMax.trans h.heapMax, h'.pmm.trans h.pmm⟩

/-- The bytes of every live block are the same in both memories. -/
def LiveSame (bs : List Blk) (m m' : Bytes) : Prop :=
  ∀ b ∈ bs, b.free = false → ∀ i, b.addr ≤ i → i < b.addr + b.size → m' i = m i

namespace Blk.Rep

variable {b : Blk} {m m' : Bytes}

theorem congr (h : b.Rep m) (hs : 12 ≤ b.size)
    (hh : ∀ i, b.addr ≤ i → i < b.addr + 4 → m' i = m i)
    (hf : b.free = false ∨ 16 ≤ b.size →
      ∀ i, b.addr + b.size - 4 ≤ i → i < b.addr + b.size → m' i = m i) : b.Rep m' where
  header := (Bytes.get32_congr hh).trans h.header
  footer hc := (Bytes.get32_congr fun i h1 h2 => hf hc i h1 (by omega)).trans (h.footer hc)

theorem of_outside (h : b.Rep m) (hs : 12 ≤ b.size)
    (hm : ∀ i, b.addr ≤ i → i < b.addr + b.size → m' i = m i) : b.Rep m' :=
  h.congr hs (fun i h1 h2 => hm i h1 (by omega)) fun _ i h1 h2 => hm i (by omega) h2

end Blk.Rep

namespace Ok

variable {h : Heap} {bs : List Blk} {fl : List ℕ}

theorem bounds (ok : Ok h bs fl) {b : Blk} (hb : b ∈ bs) :
    kheapStart ≤ b.addr ∧ b.addr + b.size ≤ h.heapMax ∧ 12 ≤ b.size ∧ 4 ∣ b.size ∧
      4 ∣ b.addr ∧ b.addr + b.size ≤ 4286578688 := by
  obtain ⟨h1, h2, h3, h4, h5⟩ := ok.tiles.mem_bounds b hb
  have := ok.bound
  unfold ptsScratchWindow at this
  exact ⟨h1, h2, h3, h4, h5 (by unfold kheapStart; norm_num), by omega⟩

theorem of_append_cons {L R : List Blk} {b : Blk} (ok : Ok h (L ++ b :: R) fl) :
    Tiles kheapStart L b.addr ∧ Tiles (b.addr + b.size) R h.heapMax := by
  obtain ⟨m, hL, rfl, _, _, hR⟩ := ok.tiles.of_append
  exact ⟨hL, hR⟩

theorem node (ok : Ok h bs fl) {x : ℕ} (hx : x ∈ fl) :
    ∃ b ∈ bs, b.addr = x ∧ b.free = true ∧ kheapStart ≤ x ∧ x + b.size ≤ h.heapMax ∧
      12 ≤ b.size ∧ 4 ∣ x := by
  obtain ⟨b, hb, rfl, hf⟩ := ok.free x hx
  obtain ⟨h1, h2, h3, _, h5, _⟩ := ok.bounds hb
  exact ⟨b, hb, rfl, hf, h1, h2, h3, h5⟩

theorem link_cases (ok : Ok h bs fl) {x : ℕ} (hx : x ∈ fl) :
    (nextOf h.mem x = 0 ∨ nextOf h.mem x ∈ fl) ∧ (prevOf h.mem x = 0 ∨ prevOf h.mem x ∈ fl) := by
  obtain ⟨l₁, l₂, rfl⟩ := append_of_mem hx
  have hn := ok.linked.next_mem
  have hp := ok.linked.prev_mem
  simp only [mem_cons, mem_append] at hn hp ⊢
  tauto

end Ok

end DvivonOS
