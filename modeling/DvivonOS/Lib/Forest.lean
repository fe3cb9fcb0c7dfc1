import Mathlib.Tactic

/-!
# Pointer forests

A store of blocks in which the entry `j` of block `b` is the pointer `child b j`, entered from
named roots; `0` is the null pointer. A place is a root together with the entries to follow, the
last one first, and `walk` is the pointer found there. `Ok` says which places exist; it is closed
under going up.

`Unshared` is ownership: two places never hold the same block. Under it a store to one entry
changes one place (`walk_set`), and a store to a block that holds no pointers changes none
(`walk_congr`). Null pointers cut off the places behind them (`walk_trim`).
-/

namespace DvivonOS

variable {ι : Type}

/-- The pointer at a place. -/
def walk (root : ι → ℕ) (child : ℕ → ℕ → ℕ) (i : ι) : List ℕ → ℕ
  | [] => root i
  | j :: p => if walk root child i p = 0 then 0 else child (walk root child i p) j

theorem walk_nil (root : ι → ℕ) (child : ℕ → ℕ → ℕ) (i : ι) : walk root child i [] = root i := rfl

section

variable {root : ι → ℕ} {child : ℕ → ℕ → ℕ} {i : ι}

theorem walk_cons_of_ne {p : List ℕ} (j : ℕ)
    (h : walk root child i p ≠ 0) :
    walk root child i (j :: p) = child (walk root child i p) j := if_neg h

theorem walk_cons_of_eq {p : List ℕ} (j : ℕ)
    (h : walk root child i p = 0) : walk root child i (j :: p) = 0 := if_pos h

theorem walk_of_root_eq_zero (h : root i = 0)
    (p : List ℕ) : walk root child i p = 0 := by
  induction p with
  | nil => exact h
  | cons j p ih => exact walk_cons_of_eq j ih

end

theorem walk_comp {κ : Type} (root : ι → ℕ) (child : ℕ → ℕ → ℕ) (f : κ → ι) (i : κ) (p : List ℕ) :
    walk (fun i => root (f i)) child i p = walk root child (f i) p := by
  induction p with
  | nil => rfl
  | cons j p ih => unfold walk; rw [ih]

section Forest

variable {Ok : ι → List ℕ → Prop} {root : ι → ℕ} {child : ℕ → ℕ → ℕ}

/-- No block is held in two places. -/
def Unshared (Ok : ι → List ℕ → Prop) (root : ι → ℕ) (child : ℕ → ℕ → ℕ) : Prop :=
  ∀ i p i' p', Ok i p → Ok i' p' → walk root child i p ≠ 0 →
    walk root child i p = walk root child i' p' → i = i' ∧ p = p'

/-- No place holds the block `x`. -/
def Unheld (Ok : ι → List ℕ → Prop) (root : ι → ℕ) (child : ℕ → ℕ → ℕ) (x : ℕ) : Prop :=
  ∀ i p, Ok i p → walk root child i p ≠ x

variable (closed : ∀ i j p, Ok i (j :: p) → Ok i p)

include closed

/-- Places do not change when the pointers on the way to them do not. -/
theorem walk_congr {root' : ι → ℕ} {child' : ℕ → ℕ → ℕ} (hr : ∀ i, Ok i [] → root' i = root i)
    (hc : ∀ i j p, Ok i (j :: p) → walk root child i p ≠ 0 →
      child' (walk root child i p) j = child (walk root child i p) j) :
    ∀ i p, Ok i p → walk root' child' i p = walk root child i p := by
  intro i p
  induction p with
  | nil => exact hr i
  | cons j p ih =>
    intro hok
    have ih := ih (closed i j p hok)
    by_cases h0 : walk root child i p = 0
    · rw [walk_cons_of_eq j h0, walk_cons_of_eq j (by rw [ih]; exact h0)]
    · rw [walk_cons_of_ne j h0, walk_cons_of_ne j (by rw [ih]; exact h0), ih]
      exact hc i j p hok h0

/-- A store changes the place `i`, `r` alone, if the pointer there is the only one on the way to a
place that it changes, and everything below was and is null. -/
theorem walk_store [DecidableEq ι] {x : ℕ} {i : ι} {r : List ℕ} {root' : ι → ℕ}
    {child' : ℕ → ℕ → ℕ} (hr : ∀ i', root' i' = if i' = i ∧ [] = r then x else root i')
    (hc : ∀ i' k q, Ok i' (k :: q) → walk root child i' q ≠ 0 → child' (walk root child i' q) k =
      if i' = i ∧ k :: q = r then x else child (walk root child i' q) k)
    (hb : ∀ k q, k :: q = r → walk root child i q ≠ 0)
    (hz : ∀ k, Ok i (k :: r) → walk root child i r = 0 ∧ (x ≠ 0 → child' x k = 0)) :
    ∀ i' q, Ok i' q → walk root' child' i' q =
      if i' = i ∧ q = r then x else walk root child i' q := by
  intro i' q
  induction q with
  | nil => exact fun _ => hr i'
  | cons k q ih =>
    intro hq
    have ih := ih (closed i' k q hq)
    by_cases hin : i' = i ∧ q = r
    · -- below the place
      obtain ⟨rfl, rfl⟩ := hin
      obtain ⟨hz1, hz2⟩ := hz k hq
      rw [if_pos ⟨rfl, rfl⟩] at ih
      rw [if_neg (by rintro ⟨-, e⟩; simpa using congrArg List.length e), walk_cons_of_eq k hz1]
      by_cases hx : x = 0
      · exact walk_cons_of_eq k (ih.trans hx)
      · rw [walk_cons_of_ne k (by rw [ih]; exact hx), ih, hz2 hx]
    · rw [if_neg hin] at ih
      by_cases h0 : walk root child i' q = 0
      · rw [walk_cons_of_eq k h0, walk_cons_of_eq k (ih.trans h0), if_neg]
        rintro ⟨rfl, e⟩
        exact hb k q e h0
      · rw [walk_cons_of_ne k h0, walk_cons_of_ne k (by rw [ih]; exact h0), ih]
        exact hc i' k q hq h0

/-- Null pointers cut off the places behind them: a set of places that is closed under going down
is cut off when the pointers at its places are null and the other ones are as before. -/
theorem walk_trim {Cut : ι → List ℕ → Prop} {root' : ι → ℕ} {child' : ℕ → ℕ → ℕ}
    (hdown : ∀ i j p, Ok i (j :: p) → Cut i p → Cut i (j :: p))
    (hr0 : ∀ i, Ok i [] → Cut i [] → root' i = 0)
    (hr : ∀ i, Ok i [] → ¬ Cut i [] → root' i = root i)
    (hc0 : ∀ i j p, Ok i (j :: p) → ¬ Cut i p → Cut i (j :: p) → walk root child i p ≠ 0 →
      child' (walk root child i p) j = 0)
    (hc : ∀ i j p, Ok i (j :: p) → ¬ Cut i (j :: p) → walk root child i p ≠ 0 →
      child' (walk root child i p) j = child (walk root child i p) j) :
    ∀ i p, Ok i p → (Cut i p → walk root' child' i p = 0) ∧
      (¬ Cut i p → walk root' child' i p = walk root child i p) := by
  intro i p
  induction p with
  | nil => exact fun hok => ⟨hr0 i hok, hr i hok⟩
  | cons j p ih =>
    intro hok
    have ih := ih (closed i j p hok)
    by_cases hp : Cut i p
    · have hj := hdown i j p hok hp
      exact ⟨fun _ => walk_cons_of_eq j (ih.1 hp), fun h => absurd hj h⟩
    have ih := ih.2 hp
    by_cases h0 : walk root child i p = 0
    · rw [walk_cons_of_eq j h0, walk_cons_of_eq j (ih.trans h0)]
      exact ⟨fun _ => rfl, fun _ => rfl⟩
    · rw [walk_cons_of_ne j h0, walk_cons_of_ne j (by rw [ih]; exact h0), ih]
      exact ⟨fun h => hc0 i j p hok hp h h0, fun h => hc i j p hok h h0⟩

end Forest

/-- A part of an unshared forest is unshared. -/
theorem Unshared.part {Ok : ι → List ℕ → Prop} {root root' : ι → ℕ} {child child' : ℕ → ℕ → ℕ}
    (hs : Unshared Ok root child)
    (h : ∀ i q, Ok i q → walk root' child' i q = walk root child i q ∨ walk root' child' i q = 0) :
    Unshared Ok root' child' := by
  intro a q b q' ha hb h0 he
  have h1 := (h a q ha).resolve_right h0
  have h2 := (h b q' hb).resolve_right (he ▸ h0)
  rw [h1] at h0
  rw [h1, h2] at he
  exact hs a q b q' ha hb h0 he

/-- One more place holding an unheld block leaves the forest unshared. -/
theorem Unshared.attach [DecidableEq ι] {Ok : ι → List ℕ → Prop} {root root' : ι → ℕ}
    {child child' : ℕ → ℕ → ℕ} (hs : Unshared Ok root child) {x : ℕ} (hu : Unheld Ok root child x)
    {i : ι} {p : List ℕ}
    (h : ∀ i' q, Ok i' q → walk root' child' i' q =
      if i' = i ∧ q = p then x else walk root child i' q) : Unshared Ok root' child' := by
  intro a q b q' ha hb h0 he
  rw [h a q ha] at h0 he
  rw [h b q' hb] at he
  split_ifs at h0 he with h1 h2 h2
  · exact ⟨h1.1.trans h2.1.symm, h1.2.trans h2.2.symm⟩
  · exact absurd he.symm (hu b q' hb)
  · exact absurd he (hu a q ha)
  · exact hs a q b q' ha hb h0 he

theorem Unshared.congr {Ok : ι → List ℕ → Prop} {root root' : ι → ℕ} {child child' : ℕ → ℕ → ℕ}
    (hs : Unshared Ok root child)
    (h : ∀ i q, Ok i q → walk root' child' i q = walk root child i q) :
    Unshared Ok root' child' := by
  intro a q b q' ha hb h0 he
  rw [h a q ha] at h0 he
  rw [h b q' hb] at he
  exact hs a q b q' ha hb h0 he

end DvivonOS
