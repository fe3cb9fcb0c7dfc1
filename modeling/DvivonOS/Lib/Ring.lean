import Mathlib.Tactic

/-!
# Ring buffers that never test for full

A ring of `n` slots has a write cursor `head` and a read cursor `tail`, both modulo `n`. `push`
does not look at `tail`, and `pop` takes `head = tail` for empty.

* `Ring.Holds r xs`: the slots from `tail` on hold the elements of `xs`, fewer than `n`. Within
  that bound the ring is a queue (`Holds.push`, `Holds.pop_cons`); the push into the last free
  slot makes it look empty (`Holds.pop_push_full`).
* `Log` keeps what was pushed and what was popped beside the ring, and `Log.Right` says what is
  expected of a state: everything popped was pushed, in order and once, and the next pops return
  the newest `min k (n - 1)` of the `k` elements that are still unread. A log whose ring holds
  what is unread is right (`Log.Queue.right`), and stops being so with the push that finds
  `n - 1` unread elements (`Log.Queue.not_right_push`).
-/

namespace DvivonOS

open Function List

structure Ring (α : Type) (n : ℕ) where
  slot : ℕ → α
  head : ℕ
  tail : ℕ

namespace Ring

variable {α : Type} {n : ℕ} {r : Ring α n} {x : α} {xs : List α}

def push (r : Ring α n) (x : α) : Ring α n :=
  { r with slot := update r.slot r.head x, head := (r.head + 1) % n }

@[simp] theorem push_head : (r.push x).head = (r.head + 1) % n := rfl
@[simp] theorem push_tail : (r.push x).tail = r.tail := rfl
@[simp] theorem push_slot : (r.push x).slot = update r.slot r.head x := rfl

def pop (r : Ring α n) : Option α × Ring α n :=
  if r.head ≠ r.tail then (some (r.slot r.tail), { r with tail := (r.tail + 1) % n })
  else (none, r)

/-- What the next `k` pops return. -/
def popMany : ℕ → Ring α n → List (Option α)
  | 0, _ => []
  | k + 1, r => r.pop.1 :: popMany k r.pop.2

/-- The slots from `tail` on hold `xs`, and there is one slot more. -/
structure Holds (r : Ring α n) (xs : List α) : Prop where
  tail_lt : r.tail < n
  room : xs.length < n
  head_eq : r.head = (r.tail + xs.length) % n
  slot_eq : ∀ i y, xs[i]? = some y → r.slot ((r.tail + i) % n) = y

theorem add_mod_ne {t i j : ℕ} (hij : i < j) (hj : j < n) : (t + i) % n ≠ (t + j) % n := by
  intro h
  have hmod : i % n = j % n := Nat.ModEq.add_left_cancel' t h
  rw [Nat.mod_eq_of_lt (hij.trans hj), Nat.mod_eq_of_lt hj] at hmod
  exact hij.ne hmod

theorem Holds.head_eq_tail (h : r.Holds xs) : r.head = r.tail ↔ xs = [] := by
  rw [h.head_eq]
  constructor
  · intro he
    by_contra hne
    have hpos : 0 < xs.length := length_pos_of_ne_nil hne
    refine add_mod_ne (t := r.tail) hpos h.room ?_
    rw [he, Nat.add_zero, Nat.mod_eq_of_lt h.tail_lt]
  · rintro rfl
    simp [Nat.mod_eq_of_lt h.tail_lt]

theorem Holds.empty (hn : 0 < n) (slot : ℕ → α) : (⟨slot, 0, 0⟩ : Ring α n).Holds [] :=
  ⟨hn, hn, by simp, by simp⟩

/-- **Push**, with a slot to spare. -/
theorem Holds.push (h : r.Holds xs) (hroom : xs.length + 1 < n) : (r.push x).Holds (xs ++ [x]) := by
  refine ⟨h.tail_lt, by simpa using hroom, ?_, fun i y hi => ?_⟩
  · rw [push_head, push_tail, h.head_eq, Nat.mod_add_mod, length_append,
      length_singleton, Nat.add_assoc]
  · rw [push_slot, push_tail, h.head_eq]
    have hlen : i < (xs ++ [x]).length := (List.getElem?_eq_some_iff.mp hi).1
    rw [length_append, length_singleton] at hlen
    by_cases hlast : i = xs.length
    · subst hlast
      rw [update_self]
      simpa using hi
    · have hlt : i < xs.length := by omega
      rw [update_of_ne (add_mod_ne hlt h.room)]
      rw [List.getElem?_append_left hlt] at hi
      exact h.slot_eq i y hi

theorem Holds.pop_nil (h : r.Holds []) : r.pop = (none, r) := by
  rw [pop, if_neg (not_not_intro (h.head_eq_tail.mpr rfl))]

/-- **Pop**, from a ring that is not empty. -/
theorem Holds.pop_cons (h : r.Holds (x :: xs)) : r.pop.1 = some x ∧ r.pop.2.Holds xs := by
  have hne : r.head ≠ r.tail := fun he => cons_ne_nil x xs (h.head_eq_tail.mp he)
  rw [pop, if_pos hne]
  have hroom := h.room
  rw [length_cons] at hroom
  constructor
  · have hx := h.slot_eq 0 x rfl
    rw [Nat.add_zero, Nat.mod_eq_of_lt h.tail_lt] at hx
    rw [hx]
  · refine ⟨Nat.mod_lt _ (by omega), by omega, ?_, fun i y hi => ?_⟩
    · show r.head = ((r.tail + 1) % n + xs.length) % n
      rw [h.head_eq, Nat.mod_add_mod, length_cons]
      ac_rfl
    · show r.slot (((r.tail + 1) % n + i) % n) = y
      have hy := h.slot_eq (i + 1) y (by simpa using hi)
      rw [Nat.mod_add_mod]
      rwa [Nat.add_comm i 1, ← Nat.add_assoc] at hy

theorem Holds.popMany (h : r.Holds xs) {k : ℕ} (hk : k ≤ xs.length) :
    Ring.popMany k r = (xs.take k).map some := by
  induction k generalizing r xs with
  | zero => simp [Ring.popMany]
  | succ k ih =>
    cases xs with
    | nil => simp at hk
    | cons x xs =>
      obtain ⟨hpop, hrest⟩ := h.pop_cons
      simp [Ring.popMany, hpop, ih hrest (by simpa using hk)]

/-- The push into the last free slot makes the ring look empty. -/
theorem Holds.pop_push_full (h : r.Holds xs) (hfull : xs.length + 1 = n) :
    (r.push x).pop.1 = none := by
  have heq : (r.head + 1) % n = r.tail := by
    rw [h.head_eq, Nat.mod_add_mod, Nat.add_assoc, hfull, Nat.add_mod_right,
      Nat.mod_eq_of_lt h.tail_lt]
  rw [pop, push_head, push_tail, if_neg (not_not_intro heq)]

end Ring

/-! ## What was pushed and popped -/

/-- A ring with all that was ever pushed and popped, in order. -/
structure Log (α : Type) (n : ℕ) where
  ring : Ring α n
  pushed : List α
  popped : List α

namespace Log

variable {α : Type} {n : ℕ} {L : Log α n} {x : α} {xs : List α}

def push (L : Log α n) (x : α) : Log α n :=
  { L with ring := L.ring.push x, pushed := L.pushed ++ [x] }

@[simp] theorem push_pushed : (L.push x).pushed = L.pushed ++ [x] := rfl
@[simp] theorem push_popped : (L.push x).popped = L.popped := rfl

def pop (L : Log α n) : Log α n :=
  { L with ring := L.ring.pop.2, popped := L.popped ++ L.ring.pop.1.toList }

/-- The popped elements are the pushed ones with the numbers `idx`, in the order of pushing and
without repetition. -/
structure Reads (L : Log α n) (idx : List ℕ) : Prop where
  sorted : idx.Pairwise (· < ·)
  popped : L.popped.map some = idx.map (L.pushed[·]?)

/-- The numbers of the unread elements, when those with the numbers `idx` have been read. -/
def unread (L : Log α n) (idx : List ℕ) : List ℕ :=
  (List.range L.pushed.length).filter (· ∉ idx)

/-- The popped elements are pushed ones in order, the next pops return the newest `min k (n - 1)` of
the `k` unread ones, and a pop returns nothing only when nothing is unread. -/
def Right (L : Log α n) : Prop :=
  ∃ idx, L.Reads idx ∧
    L.ring.popMany (min (L.unread idx).length (n - 1)) =
      ((L.unread idx).drop ((L.unread idx).length - (n - 1))).map (L.pushed[·]?) ∧
    (L.ring.pop.1 = none → L.unread idx = [])

/-- The ring holds what has not been popped. -/
structure Queue (L : Log α n) (xs : List α) : Prop where
  pushed : L.pushed = L.popped ++ xs
  holds : L.ring.Holds xs

theorem Queue.push (h : L.Queue xs) (hroom : xs.length + 1 < n) : (L.push x).Queue (xs ++ [x]) := by
  refine ⟨?_, h.holds.push hroom⟩
  rw [push_pushed, push_popped, h.pushed, append_assoc]

theorem Queue.pop (h : L.Queue xs) : L.pop.Queue xs.tail := by
  cases xs with
  | nil =>
    have hpop := h.holds.pop_nil
    refine ⟨?_, ?_⟩
    · show L.pushed = L.popped ++ L.ring.pop.1.toList ++ []
      simpa [hpop] using h.pushed
    · show L.ring.pop.2.Holds []
      rw [hpop]
      exact h.holds
  | cons x xs =>
    obtain ⟨hpop, hrest⟩ := h.holds.pop_cons
    refine ⟨?_, hrest⟩
    show L.pushed = L.popped ++ L.ring.pop.1.toList ++ xs
    simpa [hpop] using h.pushed

theorem Queue.unread_length (h : L.Queue xs) : L.pushed.length - L.popped.length = xs.length := by
  rw [h.pushed, length_append, Nat.add_sub_cancel_left]

theorem range_filter_not_mem (m k : ℕ) :
    (List.range (m + k)).filter (· ∉ List.range m) = (List.range k).map (m + ·) := by
  rw [range_add, filter_append]
  have hold : (List.range m).filter (· ∉ List.range m) = [] := by simp
  have hnew : ((List.range k).map (m + ·)).filter (· ∉ List.range m) =
      (List.range k).map (m + ·) := by simp
  rw [hold, hnew, nil_append]

/-- **A queue is right.** -/
theorem Queue.right (h : L.Queue xs) : L.Right := by
  set m := L.popped.length with hm
  have hlen : L.pushed.length = m + xs.length := by rw [h.pushed, length_append]
  have hunread : L.unread (List.range m) = (List.range xs.length).map (m + ·) := by
    rw [unread, hlen, range_filter_not_mem]
  have hcount : (L.unread (List.range m)).length = xs.length := by simp [hunread]
  have hvalues : (L.unread (List.range m)).map (L.pushed[·]?) = xs.map some := by
    rw [hunread, map_map]
    refine ext_getElem (by simp) fun i hi hi' => ?_
    have hlt : i < xs.length := by simpa using hi'
    simp [h.pushed, hm, hlt]
  refine ⟨List.range m, ⟨pairwise_lt_range, ?_⟩, ?_, fun hnone => ?_⟩
  · refine ext_getElem (by simp [hm]) fun i hi hi' => ?_
    have hlt : i < L.popped.length := by simpa using hi
    simp [h.pushed, List.getElem?_append_left hlt]
  · have hroom := h.holds.room
    have hle : xs.length ≤ n - 1 := by omega
    rw [hcount, Nat.min_eq_left hle, Nat.sub_eq_zero_of_le hle, drop_zero, hvalues,
      h.holds.popMany le_rfl, take_length]
  · cases xs with
    | nil => simpa using hunread
    | cons x xs =>
      rw [h.holds.pop_cons.1] at hnone
      cases hnone

/-- A ring that looks empty while something is unread. -/
theorem not_right_of_pop_none (hpop : L.ring.pop.1 = none)
    (hunread : L.popped.length < L.pushed.length) : ¬L.Right := by
  rintro ⟨idx, hreads, -, hnone⟩
  have hempty := hnone hpop
  have hsubset : List.range L.pushed.length ⊆ idx := by
    intro i hi
    by_contra hnot
    have hmem : i ∈ L.unread idx := mem_filter.mpr ⟨hi, by simpa using hnot⟩
    rw [hempty] at hmem
    cases hmem
  have hle := (nodup_range.subperm hsubset).length_le
  have hidx : L.popped.length = idx.length := by
    simpa using congrArg List.length hreads.popped
  rw [length_range] at hle
  omega

/-- **The push that finds one free slot**: the ring looks empty with `n` elements unread. -/
theorem Queue.not_right_push (h : L.Queue xs) (hfull : xs.length + 1 = n) : ¬(L.push x).Right :=
  not_right_of_pop_none (h.holds.pop_push_full hfull) (by simp [h.pushed])

end Log

end DvivonOS
