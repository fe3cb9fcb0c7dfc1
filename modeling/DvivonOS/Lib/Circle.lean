import Mathlib.Tactic

/-!
# Circular lists

Nodes threaded through one link function `nx`. `Leads nx a l b`: from `a` the links pass through
exactly the nodes of `l` and arrive at `b`; a circle is a run that arrives where it began. The
two edits are `Leads.insert_last` (a new node before the closing link) and `Leads.bypass` (the link
of a node skips its successor). `seek` is the loop that looks for the node whose successor
satisfies a test; `Leads.seek_last` says that it finds the last node of a run whose end is the first
successor to satisfy it.
-/

namespace DvivonOS.Circle

open Function

variable {α : Type}

/-- From `a` the links run through the nodes of `l` and arrive at `b`. -/
def Leads (nx : α → α) : α → List α → α → Prop
  | a, [], b => a = b
  | a, x :: l, b => a = x ∧ Leads nx (nx x) l b

/-- The first node from `x` on whose successor satisfies `test`, within `fuel` nodes. -/
def seek (nx : α → α) (test : α → Bool) : ℕ → α → Option α
  | 0, _ => none
  | fuel + 1, x => if test (nx x) then some x else seek nx test fuel (nx x)

namespace Leads

variable {nx nx' : α → α} {a b c x z : α} {l l₁ l₂ : List α}

theorem append : Leads nx a (l₁ ++ l₂) b ↔ ∃ m, Leads nx a l₁ m ∧ Leads nx m l₂ b := by
  induction l₁ generalizing a with
  | nil => simp [Leads]
  | cons x l₁ ih => simp [Leads, ih, and_assoc]

theorem congr (h : Leads nx a l b) (heq : ∀ y ∈ l, nx' y = nx y) : Leads nx' a l b := by
  induction l generalizing a with
  | nil => exact h
  | cons x l ih =>
    refine ⟨h.1, ?_⟩
    rw [heq x List.mem_cons_self]
    exact ih h.2 fun y hy => heq y (List.mem_cons_of_mem x hy)

theorem head_eq (h : Leads nx a (x :: l) b) : a = x := h.1

theorem singleton : Leads nx a [x] b ↔ a = x ∧ nx x = b := Iff.rfl

theorem concat : Leads nx a (l ++ [z]) b ↔ Leads nx a l z ∧ nx z = b := by
  rw [append]
  constructor
  · rintro ⟨m, hl, hm, hz⟩
    exact ⟨hm ▸ hl, hz⟩
  · rintro ⟨hl, hz⟩
    exact ⟨z, hl, rfl, hz⟩

/-- **Turning.** A circle can be entered at any of its nodes. -/
theorem turn (h : Leads nx a (l₁ ++ x :: l₂) a) : Leads nx x (x :: (l₂ ++ l₁)) x := by
  obtain ⟨m, h₁, h₂⟩ := append.mp h
  obtain rfl := h₂.head_eq
  exact append.mpr ⟨a, h₂, h₁⟩

theorem iterate (h : Leads nx a l b) : List.iterate nx a l.length = l ∧ nx^[l.length] a = b := by
  induction l generalizing a with
  | nil => exact ⟨rfl, h⟩
  | cons x l ih =>
    obtain ⟨rfl, hl⟩ := h
    obtain ⟨hlist, hend⟩ := ih hl
    exact ⟨by rw [List.length_cons, List.iterate, hlist], by rwa [List.length_cons,
      iterate_succ_apply]⟩

section Edit

variable [DecidableEq α]

theorem relink_last (h : Leads nx a (l ++ [z]) b) (hnd : (l ++ [z]).Nodup) (c : α) :
    Leads (update nx z c) a (l ++ [z]) c := by
  have hzl : ∀ y ∈ l, y ≠ z := by simpa using (List.nodup_append.mp hnd).2.2
  refine concat.mpr ⟨(concat.mp h).1.congr fun y hy => ?_, update_self _ _ _⟩
  exact update_of_ne (hzl y hy) _ _

/-- **Insertion.** A node outside the run goes between its last node and its end. -/
theorem insert_last (h : Leads nx a (l ++ [z]) b) (hnd : (l ++ [z]).Nodup) (hx : x ∉ l ++ [z]) :
    Leads (update (update nx z x) x b) a (l ++ [z] ++ [x]) b := by
  refine concat.mpr ⟨(h.relink_last hnd x).congr fun y hy => ?_, update_self _ _ _⟩
  have hyx : y ≠ x := fun he => hx (he ▸ hy)
  exact update_of_ne hyx _ _

/-- **Bypass.** The node before `x` is linked to the successor of `x`. -/
theorem bypass (h : Leads nx a (l₁ ++ [z] ++ x :: l₂) b) (hnd : (l₁ ++ [z] ++ x :: l₂).Nodup) :
    Leads (update nx z (nx x)) a (l₁ ++ [z] ++ l₂) b := by
  obtain ⟨m, h₁, h₂⟩ := append.mp h
  obtain ⟨hnd₁, -, hapart⟩ := List.nodup_append.mp hnd
  refine append.mpr ⟨nx x, h₁.relink_last hnd₁ (nx x), h₂.2.congr fun y hy => ?_⟩
  exact update_of_ne (hapart z (by simp) y (by simp [hy])).symm _ _

end Edit

/-- **The search loop.** Along a run whose nodes after the first one fail the test and whose end
satisfies it, the loop stops at the last node. -/
theorem seek_last {test : α → Bool} (h : Leads nx a (l ++ [z]) b) (hb : test b = true)
    (hl : ∀ y ∈ (l ++ [z]).tail, test y = false) {fuel : ℕ} (hfuel : l.length < fuel) :
    seek nx test fuel a = some z := by
  induction l generalizing a fuel with
  | nil =>
    obtain ⟨rfl, rfl⟩ := singleton.mp h
    cases fuel with
    | zero => simp at hfuel
    | succ fuel => simp [seek, hb]
  | cons x l ih =>
    obtain ⟨rfl, hrest⟩ := h
    cases fuel with
    | zero => simp at hfuel
    | succ fuel =>
      have hnext : nx a ∈ l ++ [z] := by
        cases l with
        | nil => exact hrest.1 ▸ by simp
        | cons y l => exact hrest.1 ▸ by simp
      have hfail : test (nx a) = false := hl _ hnext
      rw [seek, hfail]
      refine ih hrest (fun y hy => hl y (List.mem_of_mem_tail hy)) (by simpa using hfuel)

end Leads

end DvivonOS.Circle
