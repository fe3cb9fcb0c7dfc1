import DvivonOS.Heap.Shape
import DvivonOS.Memory.PmmRuns

/-!
# The heap as a list of blocks

What the calls of the allocator do to the blocks: a freed block and a new page are merged with the
free block before them when that one has a footer (`mergeLeft`), a block is cut down to the wanted
size when the rest can hold a free block (`carve`), and `kmalloc` grows the heap page by page until
a free block fits or the frame allocator has no page (`Arena.Malloc`).
-/

namespace DvivonOS

open List

/-! ## Merging and cutting -/

/-- The free block `X` behind the blocks `L`. -/
def mergeLeft (L : List Blk) (X : Blk) : List Blk :=
  match L.getLast? with
  | none => [X]
  | some P =>
    if P.free = true ∧ 16 ≤ P.size then L.dropLast ++ [⟨P.addr, P.size + X.size, true⟩]
    else L ++ [X]

/-- The live block of `size` bytes at the start of `C`, and what is left of `C` behind it. -/
def carve (C : Blk) (size : ℕ) : List Blk :=
  if size + sizeofFreeHeader ≤ C.size then
    [⟨C.addr, size, false⟩, ⟨C.addr + size, C.size - size, true⟩]
  else [⟨C.addr, C.size, false⟩]

section Merge

variable {L : List Blk} {P X : Blk}

theorem mergeLeft_of_free (hP : P.free = true) (h16 : 16 ≤ P.size) :
    mergeLeft (L ++ [P]) X = L ++ [⟨P.addr, P.size + X.size, true⟩] := by
  simp [mergeLeft, hP, h16]

theorem mergeLeft_of_not (hP : ¬(P.free = true ∧ 16 ≤ P.size)) :
    mergeLeft (L ++ [P]) X = L ++ [P] ++ [X] := by
  unfold mergeLeft
  rw [List.getLast?_concat]
  exact if_neg hP

/-- The size of the last block, where a block behind it is merged with it. -/
def tailSize (L : List Blk) : ℕ :=
  match L.getLast? with
  | none => 0
  | some P => if P.free = true ∧ 16 ≤ P.size then P.size else 0

/-- The block is the last one, longer by the one before it where that is free and has a footer. -/
theorem mergeLeft_cases (L : List Blk) (X : Blk) :
    (∃ L' P, L = L' ++ [P] ∧ P.free = true ∧ 16 ≤ P.size ∧ tailSize L = P.size ∧
      mergeLeft L X = L' ++ [⟨P.addr, P.size + X.size, true⟩]) ∨
    ((∀ P ∈ L.getLast?, P.free = true → P.size < 16) ∧ tailSize L = 0 ∧
      mergeLeft L X = L ++ [X]) := by
  rcases eq_nil_or_concat L with rfl | ⟨L', P, rfl⟩
  · exact .inr ⟨by simp, rfl, rfl⟩
  rw [concat_eq_append]
  by_cases hP : P.free = true ∧ 16 ≤ P.size
  · refine .inl ⟨L', P, rfl, hP.1, hP.2, ?_, mergeLeft_of_free hP.1 hP.2⟩
    simp [tailSize, hP]
  · refine .inr ⟨fun Q hQ hf => ?_, ?_, mergeLeft_of_not hP⟩
    · rw [List.getLast?_concat, Option.mem_some_iff] at hQ
      subst hQ
      exact not_le.mp fun h16 => hP ⟨hf, h16⟩
    · unfold tailSize
      rw [List.getLast?_concat]
      exact if_neg hP

/-- A block of at least 16 bytes takes in the next one. -/
theorem mergeLeft_mergeLeft {Y : Blk} (hX : X.free = true) (h16 : 16 ≤ X.size) :
    mergeLeft (mergeLeft L X) Y = mergeLeft L ⟨X.addr, X.size + Y.size, true⟩ := by
  rcases mergeLeft_cases L X with ⟨L', P, rfl, hP, hP16, -, hm⟩ | ⟨hlast, -, hm⟩
  · rw [hm, mergeLeft_of_free rfl (by dsimp only; omega), mergeLeft_of_free hP hP16, Nat.add_assoc]
  · rw [hm, mergeLeft_of_free hX h16]
    rcases mergeLeft_cases L ⟨X.addr, X.size + Y.size, true⟩ with
      ⟨L', P, rfl, hP, hP16, -, -⟩ | ⟨-, -, hm'⟩
    · exact absurd (hlast P (by simp) hP) (by omega)
    · exact hm'.symm

end Merge

/-! ## Allocation -/

/-- The blocks of the heap, its end and the frame allocator. -/
structure Arena where
  blocks : List Blk
  heapMax : ℕ
  pmm : Pmm

namespace Arena

def Fits (a : Arena) (size : ℕ) : Prop := ∃ b ∈ a.blocks, b.free = true ∧ size ≤ b.size

def grow (a : Arena) : Arena where
  blocks := mergeLeft a.blocks ⟨a.heapMax, pageSize, true⟩
  heapMax := a.heapMax + pageSize
  pmm := (pmmAllocPage a.pmm).2

/-- `kmalloc` for a block of `size` bytes returns `p`. -/
inductive Malloc (size : ℕ) : Arena → ℕ → Arena → Prop
  | fit {L R : List Blk} {C : Blk} {heapMax : ℕ} {pmm : Pmm} (hfree : C.free = true)
      (hle : size ≤ C.size) :
      Malloc size ⟨L ++ C :: R, heapMax, pmm⟩ (C.addr + 4)
        ⟨L ++ (carve C size ++ R), heapMax, pmm⟩
  | full {a : Arena} (hfit : ¬a.Fits size) (hnone : (pmmAllocPage a.pmm).1 = 0) :
      Malloc size a 0 { a with pmm := (pmmAllocPage a.pmm).2 }
  | grow {a a' : Arena} {p : ℕ} (hfit : ¬a.Fits size) (hpage : (pmmAllocPage a.pmm).1 ≠ 0)
      (hrest : Malloc size a.grow p a') : Malloc size a p a'

/-- `kmalloc` for a block of `size` bytes has to grow the heap past `PTS_SCRATCH_WINDOW`. -/
inductive Blocked (size : ℕ) : Arena → Prop
  | window {a : Arena} (hfit : ¬a.Fits size) (hpage : (pmmAllocPage a.pmm).1 ≠ 0)
      (hmax : a.heapMax = ptsScratchWindow) : Blocked size a
  | grow {a : Arena} (hfit : ¬a.Fits size) (hpage : (pmmAllocPage a.pmm).1 ≠ 0)
      (hrest : Blocked size a.grow) : Blocked size a

def pages (a : Arena) : ℕ → Arena
  | 0 => a
  | k + 1 => (a.pages k).grow

section Pages

variable {a a' : Arena} {p size : ℕ}

theorem grow_pages (k : ℕ) : a.grow.pages k = a.pages (k + 1) := by
  induction k with
  | zero => rfl
  | succ k ih => exact congrArg Arena.grow ih

theorem pages_heapMax (k : ℕ) : (a.pages k).heapMax = a.heapMax + k * pageSize := by
  induction k with
  | zero => simp [pages]
  | succ k ih =>
    show (a.pages k).heapMax + pageSize = _
    rw [ih, Nat.succ_mul, Nat.add_assoc]

theorem pages_blocks (k : ℕ) :
    (a.pages (k + 1)).blocks = mergeLeft a.blocks ⟨a.heapMax, (k + 1) * pageSize, true⟩ := by
  induction k with
  | zero => rw [Nat.zero_add, Nat.one_mul]; rfl
  | succ k ih =>
    show mergeLeft (a.pages (k + 1)).blocks ⟨(a.pages (k + 1)).heapMax, pageSize, true⟩ = _
    rw [ih, mergeLeft_mergeLeft rfl (by unfold pageSize; dsimp only; omega),
      ← Nat.succ_mul (k + 1) pageSize]

theorem fits_pages (k : ℕ) : (a.pages (k + 1)).Fits size ↔
    a.Fits size ∨ size ≤ tailSize a.blocks + (k + 1) * pageSize := by
  unfold Fits
  rw [pages_blocks]
  rcases mergeLeft_cases a.blocks ⟨a.heapMax, (k + 1) * pageSize, true⟩ with
    ⟨L, P, hL, hP, -, ht, hm⟩ | ⟨-, ht, hm⟩
  · rw [hm, ht, hL]
    constructor
    · rintro ⟨b, hb, hbf, hle⟩
      rcases mem_append.mp hb with hb | hb
      · exact .inl ⟨b, mem_append_left _ hb, hbf, hle⟩
      · rw [mem_singleton.mp hb] at hle
        exact .inr hle
    · rintro (⟨b, hb, hbf, hle⟩ | hle)
      · rcases mem_append.mp hb with hb | hb
        · exact ⟨b, mem_append_left _ hb, hbf, hle⟩
        · rw [mem_singleton.mp hb] at hle
          exact ⟨_, mem_append_right _ mem_cons_self, rfl, by dsimp only; omega⟩
      · exact ⟨_, mem_append_right _ mem_cons_self, rfl, hle⟩
  · rw [hm, ht, Nat.zero_add]
    constructor
    · rintro ⟨b, hb, hbf, hle⟩
      rcases mem_append.mp hb with hb | hb
      · exact .inl ⟨b, hb, hbf, hle⟩
      · rw [mem_singleton.mp hb] at hle
        exact .inr hle
    · rintro (⟨b, hb, hbf, hle⟩ | hle)
      · exact ⟨b, mem_append_left _ hb, hbf, hle⟩
      · exact ⟨_, mem_append_right _ mem_cons_self, rfl, hle⟩

/-- `kmalloc` takes pages as long as no free block fits; it returns null when there is no page to
take, and else cuts its block from a free one. -/
theorem Malloc.pages (h : Malloc size a p a') : ∃ k,
    (∀ j < k, ¬(a.pages j).Fits size ∧ (pmmAllocPage (a.pages j).pmm).1 ≠ 0) ∧
    ((p = 0 ∧ ¬(a.pages k).Fits size ∧ (pmmAllocPage (a.pages k).pmm).1 = 0 ∧
        a' = { a.pages k with pmm := (pmmAllocPage (a.pages k).pmm).2 }) ∨
      ∃ L C R, (a.pages k).blocks = L ++ C :: R ∧ C.free = true ∧ size ≤ C.size ∧
        p = C.addr + 4 ∧ a' = { a.pages k with blocks := L ++ (carve C size ++ R) }) := by
  induction h with
  | @fit L R C _ _ hfree hle =>
    exact ⟨0, fun j hj => absurd hj (Nat.not_lt_zero j), .inr ⟨L, C, R, rfl, hfree, hle, rfl, rfl⟩⟩
  | full hfit hnone =>
    exact ⟨0, fun j hj => absurd hj (Nat.not_lt_zero j), .inl ⟨rfl, hfit, hnone, rfl⟩⟩
  | grow hfit hpage _ ih =>
    obtain ⟨k, hbefore, hend⟩ := ih
    simp only [grow_pages] at hbefore hend
    refine ⟨k + 1, fun j hj => ?_, hend⟩
    cases j with
    | zero => exact ⟨hfit, hpage⟩
    | succ j => exact hbefore j (by omega)

theorem Blocked.pages (h : Blocked size a) : ∃ k,
    (∀ j < k + 1, ¬(a.pages j).Fits size ∧ (pmmAllocPage (a.pages j).pmm).1 ≠ 0) ∧
      (a.pages k).heapMax = ptsScratchWindow := by
  induction h with
  | window hfit hpage hmax =>
    refine ⟨0, fun j hj => ?_, hmax⟩
    rw [Nat.lt_one_iff.mp hj]
    exact ⟨hfit, hpage⟩
  | grow hfit hpage _ ih =>
    obtain ⟨k, hbefore, hmax⟩ := ih
    simp only [grow_pages] at hbefore hmax
    refine ⟨k + 1, fun j hj => ?_, hmax⟩
    cases j with
    | zero => exact ⟨hfit, hpage⟩
    | succ j => exact hbefore j (by omega)

theorem pages_free (hok : a.pmm.Ok) {k : ℕ}
    (hpage : ∀ j < k, (pmmAllocPage (a.pages j).pmm).1 ≠ 0) :
    (a.pages k).pmm.Ok ∧ (a.pages k).pmm.free + k = a.pmm.free := by
  induction k with
  | zero => exact ⟨hok, rfl⟩
  | succ k ih =>
    obtain ⟨hk, hfree⟩ := ih fun j hj => hpage j (by omega)
    obtain ⟨hk', hfree'⟩ := hk.free_succ (hpage k (by omega))
    refine ⟨hk', ?_⟩
    show (pmmAllocPage (a.pages k).pmm).2.free + (k + 1) = _
    omega

end Pages

end Arena

/-- The heap of the model as an arena, with its blocks. -/
def Heap.arena (h : Heap) (bs : List Blk) : Arena := ⟨bs, h.heapMax, h.pmm⟩

end DvivonOS
