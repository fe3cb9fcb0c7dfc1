import DvivonOS.Lib.Wp

/-!
# Computations that record what they do

A computation on a state that also records events: which numbers it divides by, which entries of an
array it uses. `erase` forgets the record, and a recorded version of a function is justified by
erasing to it. `Emits m s P Q` says that every event of the run from `s` satisfies `P` and its end
satisfies `Q`; the rules are equivalences, so that a run can be cut into conditions on its events.
-/

namespace DvivonOS

variable {ε σ α β : Type}

def TraceM (ε σ α : Type) : Type := σ → α × σ × List ε

namespace TraceM

instance : Monad (TraceM ε σ) where
  pure a := fun s => (a, s, [])
  bind m f := fun s =>
    let r := m s
    let q := f r.1 r.2.1
    (q.1, q.2.1, r.2.2 ++ q.2.2)

def emit (e : ε) : TraceM ε σ Unit := fun s => ((), s, [e])

/-- A computation without events. -/
def quiet (m : StateM σ α) : TraceM ε σ α := fun s => ((m.run s).1, (m.run s).2, [])

/-- The computation without its record. -/
def erase (m : TraceM ε σ α) : StateM σ α := fun s => ((m s).1, (m s).2.1)

/-! ## Erasing -/

@[simp] theorem erase_pure (a : α) : erase (pure a : TraceM ε σ α) = pure a := rfl

@[simp] theorem erase_bind (m : TraceM ε σ α) (f : α → TraceM ε σ β) :
    erase (m >>= f) = erase m >>= fun a => erase (f a) := rfl

@[simp] theorem erase_emit (e : ε) : erase (emit e : TraceM ε σ Unit) = pure () := rfl

@[simp] theorem erase_quiet (m : StateM σ α) : erase (quiet m : TraceM ε σ α) = m := rfl

@[simp] theorem erase_ite {c : Prop} [Decidable c] (m m' : TraceM ε σ α) :
    erase (if c then m else m') = if c then erase m else erase m' := by
  split_ifs <;> rfl

/-! ## Events -/

/-- Every event of the run from `s` satisfies `P`, and `Q` holds at its end. -/
def Emits (m : TraceM ε σ α) (s : σ) (P : ε → Prop) (Q : α → σ → Prop) : Prop :=
  (∀ e ∈ (m s).2.2, P e) ∧ Q (m s).1 (m s).2.1

variable {s : σ} {P : ε → Prop} {Q Q' : α → σ → Prop}

@[simp] theorem emits_pure (a : α) : Emits (pure a : TraceM ε σ α) s P Q ↔ Q a s := by
  show (∀ e ∈ ([] : List ε), P e) ∧ Q a s ↔ Q a s
  simp

@[simp] theorem emits_bind {R : β → σ → Prop} (m : TraceM ε σ α) (f : α → TraceM ε σ β) :
    Emits (m >>= f) s P R ↔ Emits m s P fun a s' => Emits (f a) s' P R := by
  show (∀ e ∈ (m s).2.2 ++ (f (m s).1 (m s).2.1).2.2, P e) ∧ _ ↔ _
  rw [List.forall_mem_append, and_assoc]
  exact Iff.rfl

@[simp] theorem emits_emit {R : Unit → σ → Prop} (e : ε) :
    Emits (emit e : TraceM ε σ Unit) s P R ↔ P e ∧ R () s := by
  show (∀ e' ∈ [e], P e') ∧ R () s ↔ _
  simp

@[simp] theorem emits_quiet (m : StateM σ α) :
    Emits (quiet m : TraceM ε σ α) s P Q ↔ After m s Q := by
  show (∀ e ∈ ([] : List ε), P e) ∧ After m s Q ↔ After m s Q
  simp

theorem Emits.mono {m : TraceM ε σ α} (h : Emits m s P Q) (hQ : ∀ a s', Q a s' → Q' a s') :
    Emits m s P Q' := ⟨h.1, hQ _ _ h.2⟩

/-- A step without events, when what follows is in order from every state. -/
theorem emits_quiet_any {R : β → σ → Prop} {m : StateM σ α} {f : α → TraceM ε σ β}
    (h : ∀ a s', Emits (f a) s' P R) : Emits (quiet m >>= f) s P R := by
  rw [emits_bind, emits_quiet]
  exact h _ _

theorem emits_last {m : TraceM ε σ α} {b : α → β} :
    Emits (do let a ← m; return b a) s P (fun _ _ => True) ↔ Emits m s P fun _ _ => True := by
  simp only [emits_bind, emits_pure]

/-- The events and the end of a run are separate. -/
theorem emits_iff {m : TraceM ε σ α} :
    Emits m s P Q ↔ Emits m s P (fun _ _ => True) ∧ After (erase m) s Q :=
  ⟨fun h => ⟨⟨h.1, trivial⟩, h.2⟩, fun h => ⟨h.1.1, h.2⟩⟩

/-- A run in two parts, when the events of the second are in order under a condition that does not
depend on what the first has left. -/
theorem emits_bind_iff {m : TraceM ε σ α} {f : α → TraceM ε σ β} {R : α → σ → Prop}
    {Q : β → σ → Prop} {X Y : Prop} (hY : Emits m s P (fun _ _ => True) ↔ Y)
    (hR : Y → After (erase m) s R) (hX : ∀ a s', R a s' → (Emits (f a) s' P Q ↔ X)) :
    Emits (m >>= f) s P Q ↔ Y ∧ X := by
  rw [emits_bind, emits_iff, hY]
  exact and_congr_right fun h => hX _ _ (hR h)

theorem emits_bind_any {m : TraceM ε σ α} {f : α → TraceM ε σ β} {Q : β → σ → Prop}
    (hf : ∀ a s', Emits (f a) s' P Q) :
    Emits (m >>= f) s P Q ↔ Emits m s P fun _ _ => True :=
  (emits_bind_iff (R := fun _ _ => True) Iff.rfl (fun _ => trivial) fun a s' _ =>
    iff_true_intro (hf a s')).trans (and_true _).to_iff

end TraceM

end DvivonOS
