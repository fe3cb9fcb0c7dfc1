import Mathlib.Tactic

/-!
# Weakest preconditions for state with errors

`Wp m Q E s`: the computation `m` run from `s` returns with `Q`, or stops with an error that `E`
allows. One rewriting lemma for each way a computation is built (`wp_pure`, `wp_bind`, `wp_get`,
`wp_set`, `wp_throw`), and the consequence rule `Wp.mono`. `After m s R` is the same
for state without errors.
-/

namespace DvivonOS

variable {σ ε α β : Type}

/-- The computation `m` run from `s` returns with `Q` or stops with an error allowed by `E`. -/
def Wp (m : StateT σ (Except ε) α) (Q : α → σ → Prop) (E : ε → Prop) (s : σ) : Prop :=
  match m.run s with
  | .ok (a, s') => Q a s'
  | .error e => E e

variable {Q Q' : α → σ → Prop} {E : ε → Prop} {s : σ}

theorem Wp.mono {m : StateT σ (Except ε) α} (h : Wp m Q E s) (hQ : ∀ a s', Q a s' → Q' a s') :
    Wp m Q' E s := by
  unfold Wp at *
  split at h
  · exact hQ _ _ h
  · exact h

theorem Wp.weaken {m : StateT σ (Except ε) α} {E' : ε → Prop} (h : Wp m Q E s)
    (hQ : ∀ a s', Q a s' → Q' a s') (hE : ∀ e, E e → E' e) : Wp m Q' E' s := by
  unfold Wp at *
  split at h
  · exact hQ _ _ h
  · exact hE _ h

theorem Wp.of_run {m : StateT σ (Except ε) α} (h : Wp m Q E s) {a : α} {s' : σ}
    (hr : m.run s = .ok (a, s')) : Q a s' := by
  unfold Wp at h; rw [hr] at h; exact h

theorem Wp.of_error {m : StateT σ (Except ε) α} (h : Wp m Q E s) {e : ε}
    (hr : m.run s = .error e) : E e := by
  unfold Wp at h; rw [hr] at h; exact h

theorem Wp.returns {m : StateT σ (Except ε) α} (h : Wp m Q (fun _ => False) s) :
    ∃ a s', m.run s = .ok (a, s') ∧ Q a s' := by
  unfold Wp at h
  split at h
  · exact ⟨_, _, ‹_›, h⟩
  · exact h.elim

theorem Wp.stops {m : StateT σ (Except ε) α} (h : Wp m (fun _ _ => False) E s) :
    ∃ e, m.run s = .error e ∧ E e := by
  unfold Wp at h
  split at h
  · exact h.elim
  · exact ⟨_, ‹_›, h⟩

theorem wp_of_run {m : StateT σ (Except ε) α} {a : α} {s' : σ} (hr : m.run s = .ok (a, s')) :
    Wp m Q E s ↔ Q a s' := by
  unfold Wp; rw [hr]

theorem wp_of_error {m : StateT σ (Except ε) α} {e : ε} (hr : m.run s = .error e) :
    Wp m Q E s ↔ E e := by
  unfold Wp; rw [hr]

@[simp] theorem wp_pure (a : α) : Wp (pure a : StateT σ (Except ε) α) Q E s ↔ Q a s := Iff.rfl

@[simp] theorem wp_bind {R : β → σ → Prop} (m : StateT σ (Except ε) α)
    (f : α → StateT σ (Except ε) β) :
    Wp (m >>= f) R E s ↔ Wp m (fun a => Wp (f a) R E) E s := by
  unfold Wp
  show (match (m.run s >>= fun p => (f p.1).run p.2 : Except ε (β × σ)) with
    | .ok (a, s') => R a s'
    | .error e => E e) ↔ _
  cases m.run s with
  | error e => rfl
  | ok p => rfl

@[simp] theorem wp_get {R : σ → σ → Prop} :
    Wp (get : StateT σ (Except ε) σ) R E s ↔ R s s := Iff.rfl

@[simp] theorem wp_set {R : PUnit → σ → Prop} (s' : σ) :
    Wp (set s' : StateT σ (Except ε) PUnit) R E s ↔ R ⟨⟩ s' := Iff.rfl

@[simp] theorem wp_modify {R : PUnit → σ → Prop} (f : σ → σ) :
    Wp (modify f : StateT σ (Except ε) PUnit) R E s ↔ R ⟨⟩ (f s) := Iff.rfl

@[simp] theorem wp_throw (e : ε) :
    Wp (throw e : StateT σ (Except ε) α) Q E s ↔ E e := Iff.rfl

/-- After the computation `m` from `s`, `R` holds of the result and the new state. -/
def After (m : StateM σ α) (s : σ) (R : α → σ → Prop) : Prop := R (m.run s).1 (m.run s).2

theorem After.mono {m : StateM σ α} (h : After m s Q) (hQ : ∀ a s', Q a s' → Q' a s') :
    After m s Q' := hQ _ _ h

@[simp] theorem after_true {m : StateM σ α} : (After m s fun _ _ => True) ↔ True := Iff.rfl

theorem after_of_forall {m : StateM σ α} (h : ∀ a s', Q a s') : After m s Q := h _ _

theorem After.and {m : StateM σ α} (h : After m s Q) (h' : After m s Q') :
    After m s fun a s' => Q a s' ∧ Q' a s' := ⟨h, h'⟩

theorem After.of_run {m : StateM σ α} (h : After m s Q) {a : α} {s' : σ}
    (hr : m.run s = (a, s')) : Q a s' := by
  unfold After at h; rw [hr] at h; exact h

theorem after_of_run {m : StateM σ α} {a : α} {s' : σ} (hr : m.run s = (a, s')) :
    After m s Q ↔ Q a s' := by
  unfold After; rw [hr]

/-- Two programs with the same postconditions from `v` do the same from `v`. -/
theorem run_eq_of_after {σ α : Type} {m m' : StateM σ α} {v : σ}
    (h : ∀ Q : α → σ → Prop, After m v Q ↔ After m' v Q) : m.run v = m'.run v :=
  (h fun a s => (a, s) = m'.run v).mpr rfl

theorem run_eq_of_fst {m : StateM σ α} {a : α} (h : (m.run s).1 = a) :
    m.run s = (a, (m.run s).2) := Prod.ext h rfl

@[simp] theorem after_pure (a : α) : After (pure a : StateM σ α) s Q ↔ Q a s := Iff.rfl

@[simp] theorem after_bind {R : β → σ → Prop} (m : StateM σ α) (f : α → StateM σ β) :
    After (m >>= f) s R ↔ After m s fun a s' => After (f a) s' R := Iff.rfl

@[simp] theorem after_get {R : σ → σ → Prop} : After (get : StateM σ σ) s R ↔ R s s := Iff.rfl

@[simp] theorem after_set {R : PUnit → σ → Prop} (s' : σ) :
    After (set s' : StateM σ PUnit) s R ↔ R ⟨⟩ s' := Iff.rfl

@[simp] theorem after_modify {R : PUnit → σ → Prop} (f : σ → σ) :
    After (modify f : StateM σ PUnit) s R ↔ R ⟨⟩ (f s) := Iff.rfl

end DvivonOS
