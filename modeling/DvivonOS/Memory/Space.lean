import DvivonOS.Memory.Pmm

/-!
# Address spaces, abstractly

What a process sees of its address space is a partial function from addresses to bytes (`UserMem`),
and all the kernel needs to know to extend it is how many frames are free and which page tables are
there (`Space`). A new page takes a frame, and a second one if its page table is not there yet; it
shows zeros, whatever was there before.

With enough frames for a list of pages and their tables (`Space.Budget`) every page of the list can
be allocated.
-/

namespace DvivonOS

open Finset Function

/-- Memory as a process sees it; `none` is a page that is not present. -/
abbrev UserMem := ℕ → Option UInt8

def userPages : ℕ := 768 * 1024

namespace UserMem

def mapPage (p : ℕ) (S : UserMem) : UserMem := fun a => if a / pageSize = p then some 0 else S a

def Mapped (S : UserMem) (v n : ℕ) : Prop := ∀ k < n, S (v + k) ≠ none

instance (S : UserMem) (v n : ℕ) : Decidable (S.Mapped v n) := by unfold Mapped; infer_instance

def store (f : ℕ → UInt8) (v n : ℕ) (S : UserMem) : UserMem := fun a =>
  if v ≤ a ∧ a < v + n then some (f (a - v)) else S a

variable {S : UserMem} {f : ℕ → UInt8} {v n : ℕ}

@[simp] theorem store_zero : store f v 0 S = S := by
  funext a
  unfold store
  rw [if_neg (by omega)]

theorem store_succ : store f v (n + 1) S = update (store f v n S) (v + n) (some (f n)) := by
  funext a
  unfold store
  by_cases h : a = v + n
  · subst h
    simp
  · rw [update_of_ne h]
    by_cases h1 : v ≤ a ∧ a < v + n
    · rw [if_pos h1, if_pos (by omega)]
    · rw [if_neg h1, if_neg (by omega)]

theorem store_store {g : ℕ → UInt8} {k : ℕ} : store g (v + n) k (store f v n S) =
    store (fun i => if i < n then f i else g (i - n)) v (n + k) S := by
  funext a
  unfold store
  by_cases h1 : v + n ≤ a ∧ a < v + n + k
  · have hge : ¬a - v < n := by omega
    have hin : v ≤ a ∧ a < v + (n + k) := by omega
    simp [h1, hin, hge, Nat.sub_sub]
  · by_cases h2 : v ≤ a ∧ a < v + n
    · have hlt : a - v < n := by omega
      have hin : v ≤ a ∧ a < v + (n + k) := by omega
      simp [h1, h2, hin, hlt]
    · rw [if_neg h1, if_neg h2, if_neg (by omega)]

theorem mapped_succ : S.Mapped v (n + 1) ↔ S.Mapped v n ∧ S (v + n) ≠ none := by
  constructor
  · intro h
    exact ⟨fun k hk => h k (by omega), h n (by omega)⟩
  · rintro ⟨h1, h2⟩ k hk
    rcases Nat.lt_succ_iff_lt_or_eq.mp hk with hk | rfl
    · exact h1 k hk
    · exact h2

theorem mapped_add {k : ℕ} : S.Mapped v (n + k) ↔ S.Mapped v n ∧ S.Mapped (v + n) k := by
  constructor
  · intro h
    refine ⟨fun i hi => h i (by omega), fun i hi => ?_⟩
    rw [Nat.add_assoc]
    exact h (n + i) (by omega)
  · rintro ⟨h1, h2⟩ i hi
    rcases Nat.lt_or_ge i n with hin | hin
    · exact h1 i hin
    · have := h2 (i - n) (by omega)
      rwa [Nat.add_assoc, Nat.add_sub_cancel' hin] at this

theorem mapped_store {k : ℕ} : (store f v n S).Mapped (v + n) k ↔ S.Mapped (v + n) k := by
  have heq : ∀ i, store f v n S (v + n + i) = S (v + n + i) := fun i => if_neg (by omega)
  unfold Mapped
  simp only [heq]

end UserMem

/-! ## Pages and frames -/

/-- An address space as its user half shows it: the frames that are still free, the page tables that
are there, and the bytes. -/
structure Space where
  free : ℕ
  tables : ℕ → Bool
  mem : UserMem

namespace Space

/-- A page of zeros; `false` without a free frame for it. Without one for its page table the page is
not shown, and clearing it faults. -/
def alloc (s : Space) (p : ℕ) : Option (Bool × Space) :=
  if s.free = 0 then some (false, s)
  else if s.tables (p / 1024) then some (true, ⟨s.free - 1, s.tables, s.mem.mapPage p⟩)
  else if s.free = 1 then none
  else some (true, ⟨s.free - 2, update s.tables (p / 1024) true, s.mem.mapPage p⟩)

/-- All pages of a list, as far as the frames go. -/
def allocAll : List ℕ → Space → Option Space
  | [], s => some s
  | p :: l, s => (s.alloc p).bind fun r => allocAll l r.2

/-- The pages of a list up to the first one without a frame. -/
def allocUntil : List ℕ → Space → Option Space
  | [], s => some s
  | p :: l, s => (s.alloc p).bind fun r => if r.1 then allocUntil l r.2 else some r.2

def write (f : ℕ → UInt8) (v n : ℕ) (s : Space) : Option Space :=
  if s.mem.Mapped v n then some { s with mem := s.mem.store f v n } else none

/-- The page tables that the pages `l` still need. -/
def newTables (tables : ℕ → Bool) (l : List ℕ) : ℕ :=
  ((l.map (· / 1024)).toFinset.filter fun i => tables i = false).card

/-- There are enough free frames for the pages `l` and their page tables. -/
def Budget (s : Space) (l : List ℕ) : Prop := l.length + newTables s.tables l ≤ s.free

variable {s : Space} {tables : ℕ → Bool} {p : ℕ} {l l' : List ℕ}

theorem newTables_cons_old (h : tables (p / 1024) = true) :
    newTables tables (p :: l) = newTables tables l := by
  unfold newTables
  rw [List.map_cons, List.toFinset_cons, filter_insert, if_neg (by rw [h]; nofun)]

theorem newTables_cons_new (h : tables (p / 1024) = false) :
    newTables tables (p :: l) = newTables (update tables (p / 1024) true) l + 1 := by
  have hrest : ((l.map (· / 1024)).toFinset.filter fun i =>
      update tables (p / 1024) true i = false) =
        ((l.map (· / 1024)).toFinset.filter fun i => tables i = false).erase (p / 1024) := by
    ext i
    rw [mem_filter, mem_erase, mem_filter]
    by_cases hi : i = p / 1024
    · subst hi
      simp
    · rw [update_of_ne hi]
      tauto
  unfold newTables
  rw [hrest, List.map_cons, List.toFinset_cons, filter_insert, if_pos h,
    ← erase_insert_eq_erase, card_erase_add_one (mem_insert_self _ _)]

theorem Budget.alloc (h : s.Budget (p :: l)) :
    ∃ s', s.alloc p = some (true, s') ∧ s'.mem = s.mem.mapPage p ∧ s'.Budget l := by
  unfold Budget at h
  rw [List.length_cons] at h
  unfold Space.alloc
  rw [if_neg (by omega)]
  by_cases ht : s.tables (p / 1024) = true
  · rw [newTables_cons_old ht] at h
    rw [if_pos ht]
    refine ⟨_, rfl, rfl, ?_⟩
    unfold Budget
    dsimp only
    omega
  · rw [newTables_cons_new (Bool.eq_false_iff.mpr ht)] at h
    rw [if_neg ht, if_neg (by omega)]
    refine ⟨_, rfl, rfl, ?_⟩
    unfold Budget
    dsimp only
    omega

/-- **With enough frames** every page is allocated, and what is left is enough for the rest. -/
theorem Budget.allocAll (h : s.Budget (l ++ l')) :
    ∃ s', s.allocAll l = some s' ∧ s'.Budget l' ∧
      ∀ a, s'.mem a = if a / pageSize ∈ l then some 0 else s.mem a := by
  induction l generalizing s with
  | nil => exact ⟨s, rfl, h, fun a => by simp⟩
  | cons p l ih =>
    obtain ⟨s1, h1, hmem, hb⟩ := Budget.alloc h
    obtain ⟨s2, h2, hb2, hmem2⟩ := ih hb
    refine ⟨s2, by rw [Space.allocAll, h1]; exact h2, hb2, fun a => ?_⟩
    rw [hmem2, hmem]
    unfold UserMem.mapPage
    by_cases hl : a / pageSize ∈ l
    · simp [hl]
    · by_cases hp : a / pageSize = p
      · simp [hp]
      · simp [hl, hp]

theorem Budget.allocUntil (h : s.Budget (l ++ l')) : s.allocUntil l = s.allocAll l := by
  induction l generalizing s with
  | nil => rfl
  | cons p l ih =>
    obtain ⟨s1, h1, -, hb⟩ := Budget.alloc h
    rw [Space.allocUntil, Space.allocAll, h1, Option.bind_some, Option.bind_some, if_pos rfl]
    exact ih hb

end Space

end DvivonOS
