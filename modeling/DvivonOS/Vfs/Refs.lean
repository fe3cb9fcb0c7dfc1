import DvivonOS.Lib.Bytes
import DvivonOS.Lib.Objects

/-!
# Reference counts of inodes

`vfs/inode.c`. An inode is two objects, the `inode_t` and its private data. The cached root of a mount
is the root of the ownership rules: a lookup takes and returns references to it. Any other inode has
one owner, who frees both objects with `inode_put`.
-/

namespace DvivonOS.Refs

open Function Objects

/-- An `inode_t` and its `ext2_inode_data_t`. -/
structure InodePtr where
  obj : ℕ
  data : ℕ

variable {σ β : Type}

def inodeGet (p : InodePtr) : ObjM σ Unit := do
  setRefs p.obj (add32 (← getRefs p.obj) 1)

/-- `inode_put` with `inode_free`; `ext2_release` does nothing. -/
def inodePut (p : InodePtr) : ObjM σ Unit := do
  let refCount := sub32 (← getRefs p.obj) 1
  setRefs p.obj refCount
  if refCount = 0 then
    dropObj p.data
    dropObj p.obj

/-- `inode_new`, with the private data attached. -/
def inodeNew (data : ℕ) : ObjM σ (Option InodePtr) := do
  match ← newObj with
  | none => return none
  | some obj =>
    setRefs obj 1
    return some ⟨obj, data⟩

/-- What the owner of an inode owns. -/
def inodePieces (p : InodePtr) : List Piece := [.counted p.obj, .object p.data]

variable {root : Option ℕ} {l : List Piece} {l₂ : β → List Piece} {p : InodePtr}

theorem moves_inodeGet :
    Moves (some p.obj) l (inodeGet p : ObjM σ Unit) fun _ => .share :: l := by
  intro F ρ s hroot hs
  have hrefs := hs.frame p.obj (hroot p.obj rfl).1
  rw [countOf, if_pos rfl] at hrefs
  refine ⟨hs.fresh, hs.live, hs.nodup, hs.apart, fun y hy => ?_, fun y hy => ?_, hs.proper⟩
  · show update s.objs.refs p.obj (add32 (s.objs.refs p.obj) 1) y = _
    by_cases hyp : y = p.obj
    · subst hyp
      rw [update_self, hrefs, countOf, if_pos rfl, shares_share]
      unfold add32
      omega
    · have hne : some p.obj ≠ some y := fun h => hyp (Option.some.inj h).symm
      rw [update_of_ne hyp, hs.frame y hy, countOf, countOf, if_neg hne, if_neg hne]
  · show update s.objs.refs p.obj (add32 (s.objs.refs p.obj) 1) y = 1
    have hy' : .counted y ∈ l := by simpa using hy
    have hyp : y ≠ p.obj := fun he =>
      hs.apart y (mem_names_of_counted hy') (he ▸ (hroot p.obj rfl).1)
    rw [update_of_ne hyp]
    exact hs.counted y hy'

theorem moves_inodePut_share (hl : shares l = 0) :
    Moves (some p.obj) (.share :: l) (inodePut p : ObjM σ Unit) fun _ => l := by
  intro F ρ s hroot hs
  obtain ⟨hF, hpos, hlt⟩ := hroot p.obj rfl
  have hrefs := hs.frame p.obj hF
  rw [countOf, if_pos rfl, shares_share, hl] at hrefs
  have hsub : sub32 (s.objs.refs p.obj) 1 = ρ p.obj := by
    rw [hrefs]
    unfold sub32
    omega
  unfold inodePut
  simp only [after_bind, after_getRefs, after_setRefs, hsub]
  rw [if_neg (by omega), after_pure]
  refine ⟨hs.fresh, hs.live, hs.nodup, hs.apart, fun y hy => ?_, fun y hy => ?_, hs.proper⟩
  · show update s.objs.refs p.obj (ρ p.obj) y = _
    by_cases hyp : y = p.obj
    · subst hyp
      rw [update_self, countOf, if_pos rfl, hl]
      omega
    · have hne : some p.obj ≠ some y := fun h => hyp (Option.some.inj h).symm
      rw [update_of_ne hyp, hs.frame y hy, countOf, countOf, if_neg hne, if_neg hne]
  · show update s.objs.refs p.obj (ρ p.obj) y = 1
    have hy' := List.mem_cons_of_mem .share hy
    have hyp : y ≠ p.obj := fun he => hs.apart y (mem_names_of_counted hy') (he ▸ hF)
    rw [update_of_ne hyp]
    exact hs.counted y hy'

theorem moves_inodePut :
    Moves root (inodePieces p ++ l) (inodePut p : ObjM σ Unit) fun _ => l := by
  intro F ρ s hroot hs
  have hrefs : sub32 (s.objs.refs p.obj) 1 = 0 := by
    rw [hs.counted p.obj List.mem_cons_self]
    rfl
  have hset := (hs.uncount).setRefs (n := 0) (x := p.obj) List.mem_cons_self fun h => by
    have hnot := (List.nodup_cons.mp hs.nodup).1
    obtain h | h := List.mem_cons.mp h
    · cases h
    · exact (hnot (mem_names_of_counted h)).elim
  unfold inodePut
  simp only [after_bind, after_getRefs, after_setRefs, hrefs, if_true]
  have hfree : Moves root (.object p.obj :: .object p.data :: l)
      (do dropObj p.data; dropObj p.obj : ObjM σ Unit) fun _ => l :=
    (moves_dropObj.bind fun _ => moves_dropObj).perm (List.Perm.swap ..)
  exact hfree F ρ _ hroot hset

theorem moves_inodeNew_elim {data : ℕ} :
    Moves root (.object data :: l) (inodeNew data : ObjM σ (Option InodePtr)) fun r =>
      r.elim (.object data :: l) fun p => inodePieces p ++ l :=
  moves_newObj (moves_pure rfl) fun _ => moves_setRefs.bind fun _ => moves_pure rfl

theorem moves_inodeNew {data : ℕ} {f : Option InodePtr → ObjM σ β}
    (hnone : Moves root (.object data :: l) (f none) l₂)
    (hsome : ∀ p, Moves root (inodePieces p ++ l) (f (some p)) l₂) :
    Moves root (.object data :: l) (inodeNew data >>= f) l₂ := by
  refine moves_inodeNew_elim.bind fun r => ?_
  cases r with
  | none => exact hnone
  | some p => exact hsome p

end DvivonOS.Refs
