import Mathlib.Tactic

/-!
# Doubly linked lists

A list threaded through two link functions `nx` and `pv`, ended by the null node `0`.
`Linked nx pv p h l`: from the node `h`, whose predecessor is `p`, the links run through exactly
the nodes of `l`. The two edits are `Linked.push` (a new head) and `Linked.unlink` (drop a node);
each is stated for the link functions after the edit, so that it can be used for links kept in
any memory.
-/

namespace DvivonOS

open List

/-- The nodes of `l`, from `h` on, are linked both ways; `p` is the predecessor of `h`. -/
def Linked (nx pv : ℕ → ℕ) : ℕ → ℕ → List ℕ → Prop
  | _, h, [] => h = 0
  | p, h, x :: l => h = x ∧ x ≠ 0 ∧ pv x = p ∧ Linked nx pv x (nx x) l

namespace Linked

variable {nx pv nx' pv' : ℕ → ℕ}

theorem ne_zero : ∀ {l : List ℕ} {p h : ℕ}, Linked nx pv p h l → ∀ x ∈ l, x ≠ 0
  | [], _, _, _ => by simp
  | y :: l, _, _, ⟨_, hy, _, hl⟩ => by
    intro x hx
    rcases mem_cons.mp hx with rfl | hx
    · exact hy
    · exact hl.ne_zero x hx

theorem head_eq {l : List ℕ} {p h : ℕ} (hl : Linked nx pv p h l) : h = l.headD 0 := by
  cases l with
  | nil => exact hl
  | cons x l => exact hl.1

theorem congr : ∀ {l : List ℕ} {p h : ℕ}, Linked nx pv p h l →
    (∀ x ∈ l, nx' x = nx x ∧ pv' x = pv x) → Linked nx' pv' p h l
  | [], _, _, hl, _ => hl
  | x :: l, p, h, ⟨he, hx, hp, hl⟩, hag => by
    have hxl := hag x mem_cons_self
    refine ⟨he, hx, hxl.2.trans hp, ?_⟩
    rw [hxl.1]
    exact hl.congr fun y hy => hag y (mem_cons_of_mem _ hy)

theorem prev_mem {x : ℕ} {l₂ : List ℕ} : ∀ {l₁ : List ℕ} {p h : ℕ},
    Linked nx pv p h (l₁ ++ x :: l₂) → pv x ∈ p :: l₁
  | [], p, _, ⟨_, _, hp, _⟩ => by rw [hp]; exact mem_cons_self
  | y :: l₁, p, _, ⟨_, _, _, hl⟩ => mem_cons_of_mem _ hl.prev_mem

theorem prev_eq {x : ℕ} {l₂ : List ℕ} : ∀ {l₁ : List ℕ} {p h : ℕ},
    Linked nx pv p h (l₁ ++ x :: l₂) → pv x = l₁.getLastD p
  | [], _, _, hl => hl.2.2.1
  | [_], _, _, hl => hl.2.2.2.2.2.1
  | _ :: _ :: _, _, _, hl => hl.2.2.2.prev_eq

theorem next_mem {x : ℕ} {l₂ : List ℕ} : ∀ {l₁ : List ℕ} {p h : ℕ},
    Linked nx pv p h (l₁ ++ x :: l₂) → nx x ∈ 0 :: l₂
  | [], _, _, ⟨_, _, _, hl⟩ => by
    rw [hl.head_eq]
    cases l₂ <;> simp
  | _ :: _, _, _, ⟨_, _, _, hl⟩ => hl.next_mem

/-- **Push.** A node outside the list becomes its head. -/
theorem push {l : List ℕ} {h x : ℕ} (hl : Linked nx pv 0 h l) (hx : x ≠ 0) (hnd : l.Nodup)
    (hnx : nx' x = h) (hpx : pv' x = 0) (hno : ∀ y ∈ l, nx' y = nx y)
    (hpo : ∀ y ∈ l, pv' y = if y = h then x else pv y) : Linked nx' pv' 0 x (x :: l) := by
  refine ⟨rfl, hx, hpx, ?_⟩
  rw [hnx]
  cases l with
  | nil => exact hl
  | cons y l =>
    obtain ⟨rfl, hy, hpy, hl⟩ := hl
    refine ⟨rfl, hy, by rw [hpo h mem_cons_self, if_pos rfl], ?_⟩
    rw [hno h mem_cons_self]
    refine hl.congr fun z hz => ⟨hno z (mem_cons_of_mem _ hz), ?_⟩
    have hzh : z ≠ h := fun e => (nodup_cons.mp hnd).1 (e ▸ hz)
    rw [hpo z (mem_cons_of_mem _ hz), if_neg hzh]

/-- **Unlink.** Linking the neighbours of `x` to each other drops `x` from the list. -/
theorem unlink {x : ℕ} {l₂ : List ℕ} : ∀ {l₁ : List ℕ} {p h : ℕ},
    Linked nx pv p h (l₁ ++ x :: l₂) → (p :: (l₁ ++ x :: l₂)).Nodup →
    (∀ y ∈ l₁ ++ l₂, nx' y = if y = pv x then nx x else nx y) →
    (∀ y ∈ l₁ ++ l₂, pv' y = if y = nx x then pv x else pv y) →
    Linked nx' pv' p (if pv x = p then nx x else h) (l₁ ++ l₂)
  | [], p, h, ⟨_, _, hp, hl⟩, hnd, hn, hv => by
    rw [if_pos hp]
    simp only [nil_append, nodup_cons, mem_cons, not_or] at hn hv hnd ⊢
    cases l₂ with
    | nil => exact hl
    | cons z l₂ =>
      obtain ⟨hz, hz0, -, hl⟩ := hl
      have hzp : z ≠ pv x := by
        rw [hp]; rintro rfl; exact hnd.1.2 mem_cons_self
      refine ⟨hz, hz0, by rw [hv z mem_cons_self, if_pos hz.symm, hp], ?_⟩
      rw [hn z mem_cons_self, if_neg hzp]
      refine hl.congr fun w hw => ⟨?_, ?_⟩
      · rw [hn w (mem_cons_of_mem _ hw), if_neg]
        rw [hp]; rintro rfl; exact hnd.1.2 (mem_cons_of_mem _ hw)
      · rw [hv w (mem_cons_of_mem _ hw), if_neg]
        rw [hz]; rintro rfl; exact (nodup_cons.mp hnd.2.2).1 hw
  | y :: l₁, p, h, hl, hnd, hn, hv => by
    have hprev : pv x ∈ y :: l₁ := prev_mem hl.2.2.2
    have hnext : nx x ∈ 0 :: l₂ := next_mem hl.2.2.2
    obtain ⟨rfl, hy, hpy, hl⟩ := hl
    have hnd' := (nodup_cons.mp hnd).2
    have hpx : pv x ≠ p := by
      rintro rfl
      exact (nodup_cons.mp hnd).1 (mem_append_left _ hprev)
    have hyn : h ≠ nx x := by
      intro e
      rcases mem_cons.mp hnext with h0 | hm
      · exact hy (e.trans h0)
      · refine (nodup_cons.mp hnd').1 (mem_append_right _ (mem_cons_of_mem _ ?_))
        rw [e]; exact hm
    have ih := hl.unlink hnd' (fun z hz => hn z (mem_cons_of_mem _ hz))
      (fun z hz => hv z (mem_cons_of_mem _ hz))
    rw [if_neg hpx]
    refine ⟨rfl, hy, by rw [hv h mem_cons_self, if_neg hyn, hpy], ?_⟩
    rw [hn h mem_cons_self]
    by_cases e : h = pv x
    · rw [if_pos e]; rwa [if_pos e.symm] at ih
    · rw [if_neg e]; rwa [if_neg (Ne.symm e)] at ih

end Linked

end DvivonOS
