import DvivonOS.Lib.Wp

/-!
# Objects that are allocated, counted and freed

Computations that allocate objects, which may fail, and free them; objects may carry a reference
count. `Moves l m l'` is an ownership specification: from every store in which the computation owns
the pieces of `l`, beside a frame of other live objects, it returns owning those of `l'`, with the
frame untouched and nothing freed that was not live. `Neutral m` says that it owns nothing before
and after: no leak and no double free.

A piece is an object, an object with a reference count of one, or one reference to the object
`root`, which belongs to the frame.
-/

namespace DvivonOS.Objects

open Function List

/-! ## The store -/

/-- Objects go by number; `gives` says which of the coming allocations succeed. -/
structure Objs where
  live : Finset ℕ
  next : ℕ
  gives : ℕ → Bool
  refs : ℕ → ℕ
  misused : Bool

structure Store (σ : Type) where
  objs : Objs
  rest : σ

abbrev ObjM (σ : Type) := StateM (Store σ)

variable {σ α β : Type}

def Objs.gave (o : Objs) : Objs := { o with gives := fun k => o.gives (k + 1) }

def newObj : ObjM σ (Option ℕ) := do
  let s ← get
  if s.objs.gives 0 then
    set { s with
      objs := { s.objs.gave with live := insert s.objs.next s.objs.live, next := s.objs.next + 1 } }
    return some s.objs.next
  else
    set { s with objs := s.objs.gave }
    return none

/-- An object is freed; if it is not live, that is recorded. -/
def dropObj (x : ℕ) : ObjM σ Unit :=
  modify fun s => { s with objs := { s.objs with
    live := s.objs.live.erase x
    misused := s.objs.misused || decide (x ∉ s.objs.live) } }

def getRefs (x : ℕ) : ObjM σ ℕ := return (← get).objs.refs x

def setRefs (x n : ℕ) : ObjM σ Unit :=
  modify fun s => { s with objs := { s.objs with refs := update s.objs.refs x n } }

def onRest (m : StateM σ α) : ObjM σ α := do
  let s ← get
  set { s with rest := (m.run s.rest).2 }
  return (m.run s.rest).1

/-! ## Single steps -/

section Steps

variable {s : Store σ} {Q : Option ℕ → Store σ → Prop} {R : Unit → Store σ → Prop}
  {T : α → Store σ → Prop} {x n : ℕ}

/-- An allocation takes the next outcome and leaves the rest of the state. -/
theorem after_newObj
    (hsome : ∀ y s', s.objs.gives 0 = true → s'.objs.gives = (fun k => s.objs.gives (k + 1)) →
      s'.rest = s.rest → Q (some y) s')
    (hnone : ∀ s', s.objs.gives 0 = false → s'.rest = s.rest → Q none s') :
    After newObj s Q := by
  unfold newObj
  rw [after_bind, after_get]
  split
  case isTrue h => exact hsome _ _ h rfl rfl
  case isFalse h => exact hnone _ (Bool.eq_false_iff.mpr h) rfl

theorem after_newObj_of_gives (h : s.objs.gives 0 = true)
    (hsome : ∀ y s', s'.objs.gives = (fun k => s.objs.gives (k + 1)) → s'.rest = s.rest →
      Q (some y) s') : After newObj s Q :=
  after_newObj (fun y s' _ => hsome y s') fun _ h' _ => Bool.noConfusion (h.symm.trans h')

@[simp] theorem after_dropObj : After (dropObj x) s R ↔
    R ⟨⟩ { s with objs := { s.objs with
      live := s.objs.live.erase x
      misused := s.objs.misused || decide (x ∉ s.objs.live) } } := Iff.rfl

@[simp] theorem after_getRefs {Q : ℕ → Store σ → Prop} :
    After (getRefs x) s Q ↔ Q (s.objs.refs x) s := Iff.rfl

@[simp] theorem after_setRefs : After (setRefs x n) s R ↔
    R ⟨⟩ { s with objs := { s.objs with refs := update s.objs.refs x n } } := Iff.rfl

@[simp] theorem after_onRest (m : StateM σ α) : After (onRest m) s T ↔
    After m s.rest fun a r => T a { s with rest := r } := Iff.rfl

end Steps

/-! ## Ownership -/

inductive Piece
  | object (x : ℕ)
  | counted (x : ℕ)
  | share
  deriving DecidableEq

def Piece.name? : Piece → Option ℕ
  | object x => some x
  | counted x => some x
  | share => none

def names (l : List Piece) : List ℕ := l.filterMap Piece.name?

def shares (l : List Piece) : ℕ := l.count .share

section Pieces

variable {l k : List Piece} {x : ℕ}

@[simp] theorem names_nil : names [] = [] := rfl

@[simp] theorem names_object : names (.object x :: l) = x :: names l := rfl

@[simp] theorem names_counted : names (.counted x :: l) = x :: names l := rfl

@[simp] theorem names_share : names (.share :: l) = names l := rfl

@[simp] theorem names_append : names (l ++ k) = names l ++ names k := filterMap_append ..

@[simp] theorem shares_nil : shares [] = 0 := rfl

@[simp] theorem shares_object : shares (.object x :: l) = shares l := count_cons_of_ne (by simp)

@[simp] theorem shares_counted : shares (.counted x :: l) = shares l :=
  count_cons_of_ne (by simp)

@[simp] theorem shares_share : shares (.share :: l) = shares l + 1 := count_cons_self ..

@[simp] theorem shares_append : shares (l ++ k) = shares l + shares k := count_append ..

theorem mem_names_of_counted (h : .counted x ∈ l) : x ∈ names l :=
  mem_filterMap.mpr ⟨.counted x, h, rfl⟩

end Pieces

/-- The count of an object of the frame, whose references are `n` beside those of the pieces. Counts
have 32 bits. -/
def countOf (root : Option ℕ) (l : List Piece) (x n : ℕ) : ℕ :=
  if root = some x then (n + shares l) % 2 ^ 32 else n

/-- The store consists of the frame `F`, with the reference counts `ρ`, and of the objects of `l`. -/
structure Accounts (root : Option ℕ) (F : Finset ℕ) (ρ : ℕ → ℕ) (l : List Piece) (o : Objs) :
    Prop where
  fresh : ∀ x ∈ o.live, x < o.next
  live : ∀ x, x ∈ o.live ↔ x ∈ F ∨ x ∈ names l
  nodup : (names l).Nodup
  apart : ∀ x ∈ names l, x ∉ F
  frame : ∀ x ∈ F, o.refs x = countOf root l x (ρ x)
  counted : ∀ x, .counted x ∈ l → o.refs x = 1
  proper : o.misused = false

/-- The root, if there is one, is in the frame and has a reference. -/
def Rooted (root : Option ℕ) (F : Finset ℕ) (ρ : ℕ → ℕ) : Prop :=
  ∀ x, root = some x → x ∈ F ∧ 0 < ρ x ∧ ρ x < 2 ^ 32

def Moves (root : Option ℕ) (l : List Piece) (m : ObjM σ α) (l' : α → List Piece) : Prop :=
  ∀ F ρ s, Rooted root F ρ → Accounts root F ρ l s.objs →
    After m s fun a s' => Accounts root F ρ (l' a) s'.objs

/-- Nothing is owned before and after, and no reference to the root is taken. -/
def Neutral (m : ObjM σ α) : Prop := Moves none [] m fun _ => []

section Rules

variable {root : Option ℕ} {l k : List Piece} {m m' : ObjM σ α} {f : α → ObjM σ β}
  {l₁ : α → List Piece} {l₂ : β → List Piece} {F : Finset ℕ} {ρ : ℕ → ℕ} {o : Objs} {x : ℕ}

theorem Accounts.perm (h : Accounts root F ρ l o) (hp : l.Perm k) : Accounts root F ρ k o := by
  have hnames : (names l).Perm (names k) := hp.filterMap _
  have hshares : shares l = shares k := hp.count_eq _
  refine ⟨h.fresh, fun x => ?_, hnames.nodup_iff.mp h.nodup, fun x hx => ?_, fun x hx => ?_,
    fun x hx => ?_, h.proper⟩
  · rw [h.live, hnames.mem_iff]
  · exact h.apart x (hnames.mem_iff.mpr hx)
  · rw [h.frame x hx, countOf, countOf, hshares]
  · exact h.counted x (hp.mem_iff.mpr hx)

theorem Moves.perm (h : Moves root k m l₁) (hp : l.Perm k) : Moves root l m l₁ :=
  fun F ρ s hroot hs => h F ρ s hroot (hs.perm hp)

theorem moves_pure {a : α} (h : l₁ a = l) : Moves root l (pure a : ObjM σ α) l₁ := by
  intro F ρ s _ hs
  rw [after_pure, h]
  exact hs

theorem Moves.bind (h : Moves root l m l₁) (hf : ∀ a, Moves root (l₁ a) (f a) l₂) :
    Moves root l (m >>= f) l₂ := by
  intro F ρ s hroot hs
  rw [after_bind]
  exact (h F ρ s hroot hs).mono fun a s' h' => hf a F ρ s' hroot h'

/-- The continuation may use what is known of every result. -/
theorem Moves.bind_of {P : α → Prop} (h : Moves root l m l₁) (hP : ∀ s, After m s fun a _ => P a)
    (hf : ∀ a, P a → Moves root (l₁ a) (f a) l₂) : Moves root l (m >>= f) l₂ := by
  intro F ρ s hroot hs
  rw [after_bind]
  exact ((h F ρ s hroot hs).and (hP s)).mono fun a s' h' => hf a h'.2 F ρ s' hroot h'.1

theorem Moves.ite {c : Prop} [Decidable c] (h : Moves root l m l₁) (h' : Moves root l m' l₁) :
    Moves root l (if c then m else m') l₁ := by
  split
  · exact h
  · exact h'

/-- The frame rule: a computation that does not reach the root keeps other pieces and references to
the root. -/
theorem Moves.frame (h : Moves none l m l₁) (hl : shares l = 0) (hl₁ : ∀ a, shares (l₁ a) = 0)
    (k : List Piece) : Moves root (l ++ k) m fun a => l₁ a ++ k := by
  intro F ρ s hroot hs
  have hnodup := hs.nodup
  rw [names_append, nodup_append] at hnodup
  obtain ⟨hl', hk, hlk⟩ := hnodup
  have hkF : ∀ x ∈ names k, x ∉ F := fun x hx =>
    hs.apart x (by rw [names_append]; exact mem_append_right _ hx)
  -- the pieces of `k` join the frame, with the counts that they have
  have hs' : Accounts none (F ∪ (names k).toFinset) s.objs.refs l s.objs := by
    refine ⟨hs.fresh, fun x => ?_, hl', fun x hx => ?_, fun x _ => rfl, fun x hx => ?_, hs.proper⟩
    · rw [hs.live, names_append, mem_append, Finset.mem_union, mem_toFinset]
      tauto
    · rw [Finset.mem_union, mem_toFinset, not_or]
      exact ⟨hs.apart x (by rw [names_append]; exact mem_append_left _ hx),
        fun hx' => hlk x hx x hx' rfl⟩
    · exact hs.counted x (mem_append_left _ hx)
  refine (h _ _ s (fun x hx => nomatch hx) hs').mono fun a s₁ h₁ => ⟨h₁.fresh, fun x => ?_, ?_,
    fun x hx => ?_, fun x hx => ?_, fun x hx => ?_, h₁.proper⟩
  · rw [h₁.live, names_append, mem_append, Finset.mem_union, mem_toFinset]
    tauto
  · rw [names_append, nodup_append]
    refine ⟨h₁.nodup, hk, fun x hx y hy he => h₁.apart x hx ?_⟩
    rw [he]
    exact Finset.mem_union_right _ (mem_toFinset.mpr hy)
  · rw [names_append, mem_append] at hx
    obtain hx | hx := hx
    · exact fun hF => h₁.apart x hx (Finset.mem_union_left _ hF)
    · exact hkF x hx
  · have hrefs : s₁.objs.refs x = s.objs.refs x := h₁.frame x (Finset.mem_union_left _ hx)
    rw [hrefs, hs.frame x hx, countOf, countOf, shares_append, shares_append, hl, hl₁]
  · obtain hx | hx := mem_append.mp hx
    · exact h₁.counted x hx
    · have hxk := mem_toFinset.mpr (mem_names_of_counted hx)
      have hrefs : s₁.objs.refs x = s.objs.refs x := h₁.frame x (Finset.mem_union_right _ hxk)
      rw [hrefs, hs.counted x (mem_append_right _ hx)]

/-- A neutral computation keeps what is owned. -/
theorem Neutral.keeps (h : Neutral m) (root : Option ℕ) (l : List Piece) :
    Moves root l m fun _ => l := Moves.frame h rfl (fun _ => rfl) l

theorem Neutral.then (h : Neutral m) (hf : ∀ a, Moves root l (f a) l₂) :
    Moves root l (m >>= f) l₂ := (h.keeps root l).bind hf

theorem neutral_pure (a : α) : Neutral (pure a : ObjM σ α) := fun _ _ _ _ h => h

theorem neutral_get : Neutral (get : ObjM σ (Store σ)) := fun _ _ _ _ h => h

theorem neutral_onRest (m : StateM σ α) : Neutral (onRest m) := fun _ _ _ _ h => h

/-- What an allocation adds. -/
def newPieces (l : List Piece) (r : Option ℕ) : List Piece := r.elim l fun x => .object x :: l

theorem moves_newObj_elim :
    Moves root l (newObj : ObjM σ (Option ℕ)) (newPieces l) := by
  intro F ρ s hroot hs
  have hnew : s.objs.next ∉ s.objs.live := fun h => (hs.fresh _ h).false
  unfold newObj
  rw [after_bind, after_get]
  split
  case isFalse => exact ⟨hs.fresh, hs.live, hs.nodup, hs.apart, hs.frame, hs.counted, hs.proper⟩
  case isTrue =>
    refine ⟨fun x hx => ?_, fun x => ?_, ?_, fun x hx => ?_, fun x hx => ?_, fun x hx => ?_,
      hs.proper⟩
    · obtain rfl | hx := Finset.mem_insert.mp hx
      · exact Nat.lt_succ_self _
      · exact (hs.fresh x hx).trans (Nat.lt_succ_self _)
    · show x ∈ insert s.objs.next s.objs.live ↔ x ∈ F ∨ x ∈ s.objs.next :: names l
      rw [Finset.mem_insert, hs.live, mem_cons]
      tauto
    · exact nodup_cons.mpr ⟨fun h => hnew ((hs.live _).mpr (.inr h)), hs.nodup⟩
    · obtain rfl | hx := mem_cons.mp hx
      · exact fun hF => hnew ((hs.live _).mpr (.inl hF))
      · exact hs.apart x hx
    · show s.objs.refs x = countOf root (.object _ :: l) x (ρ x)
      rw [hs.frame x hx, countOf, countOf, shares_object]
    · obtain hx | hx := mem_cons.mp hx
      · cases hx
      · exact hs.counted x hx

/-- An allocation, with what happens if it fails and with the new object. -/
theorem moves_newObj {f : Option ℕ → ObjM σ β} (hnone : Moves root l (f none) l₂)
    (hsome : ∀ x, Moves root (.object x :: l) (f (some x)) l₂) :
    Moves root l (newObj >>= f) l₂ := by
  refine moves_newObj_elim.bind fun r => ?_
  cases r with
  | none => exact hnone
  | some x => exact hsome x

theorem moves_dropObj : Moves root (.object x :: l) (dropObj x : ObjM σ Unit) fun _ => l := by
  intro F ρ s hroot hs
  obtain ⟨hx, hnodup⟩ := nodup_cons.mp hs.nodup
  have hlive : x ∈ s.objs.live := (hs.live x).mpr (.inr mem_cons_self)
  have hxF := hs.apart x mem_cons_self
  refine ⟨fun y hy => hs.fresh y (Finset.mem_of_mem_erase hy), fun y => ?_, hnodup,
    fun y hy => hs.apart y (mem_cons_of_mem _ hy), fun y hy => ?_,
    fun y hy => hs.counted y (mem_cons_of_mem _ hy), ?_⟩
  · show y ∈ s.objs.live.erase x ↔ _
    rw [Finset.mem_erase, hs.live]
    show y ≠ x ∧ (y ∈ F ∨ y ∈ x :: names l) ↔ y ∈ F ∨ y ∈ names l
    rw [mem_cons]
    refine ⟨fun h => h.2.imp_right fun h' => h'.resolve_left h.1, fun h => ⟨?_, h.imp_right .inr⟩⟩
    rintro rfl
    exact h.elim hxF hx
  · show s.objs.refs y = countOf root l y (ρ y)
    rw [hs.frame y hy, countOf, countOf, shares_object]
  · show (s.objs.misused || decide (x ∉ s.objs.live)) = false
    rw [hs.proper, decide_eq_false (not_not.mpr hlive)]
    rfl

theorem Accounts.setRefs {n : ℕ} (hs : Accounts root F ρ l o) (hx : x ∈ names l)
    (hn : .counted x ∈ l → n = 1) :
    Accounts root F ρ l { o with refs := update o.refs x n } := by
  refine ⟨hs.fresh, hs.live, hs.nodup, hs.apart, fun y hy => ?_, fun y hy => ?_, hs.proper⟩
  · have hyx : y ≠ x := fun he => hs.apart x hx (he ▸ hy)
    show update o.refs x n y = _
    rw [update_of_ne hyx]
    exact hs.frame y hy
  · show update o.refs x n y = 1
    by_cases hyx : y = x
    · subst hyx
      rw [update_self]
      exact hn hy
    · rw [update_of_ne hyx]
      exact hs.counted y hy

theorem Accounts.uncount (hs : Accounts root F ρ (.counted x :: l) o) :
    Accounts root F ρ (.object x :: l) o := by
  refine ⟨hs.fresh, hs.live, hs.nodup, hs.apart, fun y hy => ?_, fun y hy => ?_, hs.proper⟩
  · rw [hs.frame y hy, countOf, countOf, shares_counted, shares_object]
  · obtain hy | hy := mem_cons.mp hy
    · cases hy
    · exact hs.counted y (mem_cons_of_mem _ hy)

theorem moves_setRefs : Moves root (.object x :: l) (setRefs x 1 : ObjM σ Unit)
    fun _ => .counted x :: l := by
  intro F ρ s hroot hs
  rw [after_setRefs]
  have hs' := hs.setRefs (n := 1) mem_cons_self fun _ => rfl
  refine ⟨hs'.fresh, hs'.live, hs'.nodup, hs'.apart, fun y hy => ?_, fun y hy => ?_, hs'.proper⟩
  · rw [hs'.frame y hy, countOf, countOf, shares_counted, shares_object]
  · obtain hy | hy := mem_cons.mp hy
    · cases hy
      exact update_self ..
    · exact hs'.counted y (mem_cons_of_mem _ hy)

/-! ## Whole calls -/

/-- The objects have numbers below the next one, and nothing has been misused. -/
structure Objs.Sound (o : Objs) : Prop where
  fresh : ∀ x ∈ o.live, x < o.next
  proper : o.misused = false

/-- The same objects are live, with the same counts, and no object was freed that was not live. -/
structure Objs.Same (o o' : Objs) : Prop where
  live : o'.live = o.live
  refs : ∀ x ∈ o.live, o'.refs x = o.refs x
  proper : o'.misused = false

theorem Objs.Sound.accounts (h : o.Sound) (hroot : ∀ x, root = some x → o.refs x < 2 ^ 32) :
    Accounts root o.live o.refs [] o := by
  refine ⟨h.fresh, fun x => ?_, nodup_nil, nofun, fun x _ => ?_, nofun, h.proper⟩
  · simp
  · unfold countOf
    split
    case isTrue hx =>
      have := hroot x hx
      simp only [shares_nil]
      omega
    case isFalse => rfl

theorem Accounts.same {o' : Objs} (h : Accounts root o.live o.refs [] o')
    (hroot : ∀ x, root = some x → o.refs x < 2 ^ 32) : o.Same o' := by
  refine ⟨Finset.ext fun x => ?_, fun x hx => ?_, h.proper⟩
  · rw [h.live]
    simp
  · rw [h.frame x hx]
    unfold countOf
    split
    case isTrue hx' =>
      have := hroot x hx'
      simp only [shares_nil]
      omega
    case isFalse => rfl

end Rules

end DvivonOS.Objects
