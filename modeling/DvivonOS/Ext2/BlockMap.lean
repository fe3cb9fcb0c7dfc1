import DvivonOS.Ext2.Bitmap
import DvivonOS.Lib.Forest

/-!
# Block maps

The map of an inode is a pointer forest: its roots are the fifteen slots of `i_block`, and a slot
leads through `depth k` indirect blocks. `Own` says that the blocks held by the inodes of a set
are data blocks marked used, each held in one place. `Core.file` is what a map means: the contents
of each logical block, `none` for a hole. `ext2_resolve_block_num` reads this forest
(`Ready.resolve`).
-/

namespace DvivonOS

open Function List

/-! ## Places -/

/-- The number of indirect blocks behind slot `k`. -/
def depth (k : ℕ) : ℕ := k - 11

namespace Geo

variable (G : Geo)

/-- The places of the map of one inode. -/
def IsPlace (k : ℕ) (p : List ℕ) : Prop := k < 15 ∧ p.length ≤ depth k ∧ ∀ j ∈ p, j < G.ptrs

/-- The places of the maps of the inodes of a set. -/
def Place (A : ℕ → Prop) (i : ℕ × ℕ) (p : List ℕ) : Prop := A i.1 ∧ G.IsPlace i.2 p

/-- The place of logical block `l`. -/
def place (l : ℕ) : ℕ × List ℕ :=
  if l < 12 then (l, [])
  else if l - 12 < G.ptrs then (12, [l - 12])
  else if l - 12 - G.ptrs < G.ptrs * G.ptrs then
    (13, [(l - 12 - G.ptrs) % G.ptrs, (l - 12 - G.ptrs) / G.ptrs])
  else
    let l := l - 12 - G.ptrs - G.ptrs * G.ptrs
    (14, [l % (G.ptrs * G.ptrs) % G.ptrs, l % (G.ptrs * G.ptrs) / G.ptrs,
      l / (G.ptrs * G.ptrs)])

/-- The number of logical blocks of a file of `2 ^ 32` bytes. -/
def lblocks : ℕ := 2 ^ 32 / G.bs

/-- The number of logical blocks that a block map has room for. -/
def mblocks : ℕ := 12 + G.ptrs + G.ptrs * G.ptrs + G.ptrs * G.ptrs * G.ptrs

variable {G} {k j l l' : ℕ} {p : List ℕ} {A : ℕ → Prop}

theorem IsPlace.tail (h : G.IsPlace k (j :: p)) : G.IsPlace k p :=
  ⟨h.1, le_trans (Nat.le_succ _) h.2.1, fun i hi => h.2.2 i (mem_cons_of_mem _ hi)⟩

theorem IsPlace.head (h : G.IsPlace k (j :: p)) : j < G.ptrs := h.2.2 j mem_cons_self

theorem Place.closed (i : ℕ × ℕ) (j : ℕ) (p : List ℕ) (h : G.Place A i (j :: p)) : G.Place A i p :=
  ⟨h.1, h.2.tail⟩

theorem isPlace_nil (hk : k < 15) : G.IsPlace k [] :=
  ⟨hk, Nat.zero_le _, fun _ h => absurd h not_mem_nil⟩

theorem place_leaf (l : ℕ) : (G.place l).2.length = depth (G.place l).1 := by
  unfold Geo.place depth
  split_ifs with h
  · show 0 = l - 11
    omega
  all_goals rfl

theorem place_fst_lt (l : ℕ) : (G.place l).1 < 15 := by
  unfold Geo.place
  split_ifs <;> dsimp only <;> omega

end Geo

namespace Geo.Wf

variable {G : Geo} (wf : G.Wf) {l l' : ℕ}

include wf

theorem ptrs_pos : 0 < G.ptrs := by
  have h1 := wf.ptrs_mul
  have h2 := wf.bs_pos
  omega

theorem lblocks_lt : G.lblocks < G.mblocks := by
  unfold Geo.lblocks Geo.mblocks Geo.ptrs
  rcases wf.size with h | h | h <;> rw [h] <;> norm_num

theorem pos_div_lt {pos : ℕ} (h : pos < 2 ^ 32) : pos / G.bs < G.lblocks := by
  unfold Geo.lblocks
  have h1 : pos / G.bs * G.bs ≤ pos := Nat.div_mul_le_self _ _
  rcases wf.size with h' | h' | h' <;> rw [h'] at h1 ⊢ <;> omega

theorem place_isPlace_of_lt (hl : l < G.mblocks) : G.IsPlace (G.place l).1 (G.place l).2 := by
  have hP := wf.ptrs_pos
  refine ⟨place_fst_lt l, le_of_eq (place_leaf l), ?_⟩
  unfold Geo.mblocks at hl
  unfold Geo.place
  split_ifs with h1 h2 h3
  · intro j hj; exact absurd hj not_mem_nil
  · intro j hj
    rw [mem_singleton.mp hj]
    exact h2
  · intro j hj
    simp only [mem_cons, not_mem_nil, or_false] at hj
    rcases hj with rfl | rfl
    · exact Nat.mod_lt _ hP
    · exact (Nat.div_lt_iff_lt_mul hP).mpr h3
  · intro j hj
    simp only [mem_cons, not_mem_nil, or_false] at hj
    rcases hj with rfl | rfl | rfl
    · exact Nat.mod_lt _ hP
    · exact (Nat.div_lt_iff_lt_mul hP).mpr (Nat.mod_lt _ (Nat.mul_pos hP hP))
    · rw [Nat.div_lt_iff_lt_mul (Nat.mul_pos hP hP), ← mul_assoc]
      omega

theorem place_isPlace (hl : l < G.lblocks) : G.IsPlace (G.place l).1 (G.place l).2 :=
  wf.place_isPlace_of_lt (hl.trans wf.lblocks_lt)

omit wf in
theorem place_inj (h : G.place l = G.place l') : l = l' := by
  have hdm : ∀ {a b P : ℕ}, a % P = b % P → a / P = b / P → a = b := by
    intro a b P h1 h2
    rw [← Nat.div_add_mod a P, ← Nat.div_add_mod b P, h1, h2]
  unfold Geo.place at h
  split_ifs at h with h1 h1' h2' h3' h2 h1' h2' h3' h3 h1' h2' h3' h1' h2' h3' <;>
    simp only [Prod.mk.injEq, List.cons.injEq, and_true, true_and, reduceCtorEq, and_false]
      at h
  all_goals try omega
  · have := hdm h.1 h.2
    omega
  · have := hdm (hdm h.1 h.2.1) h.2.2
    omega

end Geo.Wf

/-! ## Maps -/

namespace Core

variable (c : Core) (x : Bytes)

def ptr (b j : ℕ) : ℕ := ptrAt (c.data b) j

def block (k : ℕ) (p : List ℕ) : ℕ := walk (iBlock x) c.ptr k p

def fileBlock (G : Geo) (l : ℕ) : ℕ := c.block x (G.place l).1 (G.place l).2

def file (G : Geo) (l : ℕ) : Option Bytes :=
  if c.fileBlock x G l = 0 then none else some (c.data (c.fileBlock x G l))

end Core

def slots (e : ℕ → Bytes) (i : ℕ × ℕ) : ℕ := iBlock (e i.1) i.2

theorem walk_slots (c : Core) (e : ℕ → Bytes) (n k : ℕ) (p : List ℕ) :
    walk (slots e) c.ptr (n, k) p = c.block (e n) k p :=
  (walk_comp (slots e) c.ptr (fun k => (n, k)) k p).symm

section Congr

variable {G : Geo} {c c' : Core} {x x' : Bytes} {l : ℕ}

theorem file_congr (hb : c'.fileBlock x' G l = c.fileBlock x G l)
    (hd : c.fileBlock x G l ≠ 0 → c'.data (c.fileBlock x G l) = c.data (c.fileBlock x G l)) :
    c'.file x' G l = c.file x G l := by
  unfold Core.file
  rw [hb]
  split_ifs with h
  · rfl
  · rw [hd h]

theorem block_of_slot {k : ℕ} (hk : iBlock x' k = iBlock x k) (p : List ℕ) :
    c.block x' k p = c.block x k p := by
  induction p with
  | nil => exact hk
  | cons j p ih =>
    unfold Core.block at ih ⊢
    unfold walk
    rw [ih]

theorem block_congr (hs : ∀ k < 15, iBlock x' k = iBlock x k) {k : ℕ} {p : List ℕ}
    (hk : k < 15) : c.block x' k p = c.block x k p := block_of_slot (hs k hk) p

theorem file_congr_slots (hs : ∀ k < 15, iBlock x' k = iBlock x k) :
    c.file x' G l = c.file x G l :=
  file_congr (block_congr hs (Geo.place_fst_lt l)) fun _ => rfl

end Congr

/-! ## Ownership -/

/-- A data block of the volume marked used. -/
structure Usable (G : Geo) (c : Core) (b : ℕ) : Prop where
  range : G.InRange b
  data : ¬ G.Meta b
  used : c.used b = true

theorem Usable.ne_zero {G : Geo} {c : Core} {b : ℕ} (h : Usable G c b) : b ≠ 0 := by
  rintro rfl
  -- block 0 is below the first block or holds the superblock
  exact h.data ⟨.sb, trivial, Nat.le_zero.mp h.range.1⟩

/-- The inodes of the set `A`, read as in `e`, hold data blocks marked used, each in one place. -/
structure Own (G : Geo) (c : Core) (A : ℕ → Prop) (e : ℕ → Bytes) : Prop where
  metaUsed : MetaUsed G c
  good : ∀ n k p, A n → G.IsPlace k p → c.block (e n) k p ≠ 0 → Usable G c (c.block (e n) k p)
  apart : Unshared (G.Place A) (slots e) c.ptr

/-- The map of `x` is the map of `x'` without some of its slots. -/
def SubMap (x x' : Bytes) : Prop := ∀ k < 15, iBlock x k = iBlock x' k ∨ iBlock x k = 0

namespace SubMap

variable {x x' x'' : Bytes}

theorem refl (x : Bytes) : SubMap x x := fun _ _ => Or.inl rfl

theorem trans (h : SubMap x x') (h' : SubMap x' x'') : SubMap x x'' := by
  intro k hk
  rcases h k hk with h1 | h1
  · rw [h1]; exact h' k hk
  · exact Or.inr h1

end SubMap

/-- A used data block that no inode holds. -/
structure Fresh (G : Geo) (c : Core) (A : ℕ → Prop) (e : ℕ → Bytes) (b : ℕ) : Prop where
  usable : Usable G c b
  unheld : ∀ n k p, A n → G.IsPlace k p → c.block (e n) k p ≠ b

namespace Own

variable {G : Geo} {c : Core} {A : ℕ → Prop} {e : ℕ → Bytes} {n m k b l : ℕ} {p : List ℕ}

section

variable (ow : Own G c A e)

include ow

theorem inj {n' k' : ℕ} {p' : List ℕ} (hn : A n) (hp : G.IsPlace k p)
    (hn' : A n') (hp' : G.IsPlace k' p') (h0 : c.block (e n) k p ≠ 0)
    (h : c.block (e n) k p = c.block (e n') k' p') : n = n' ∧ k = k' ∧ p = p' := by
  have := ow.apart (n, k) p (n', k') p' ⟨hn, hp⟩ ⟨hn', hp'⟩ (by rw [walk_slots]; exact h0)
    (by rw [walk_slots, walk_slots]; exact h)
  exact ⟨congrArg Prod.fst this.1, congrArg Prod.snd this.1, this.2⟩

theorem congr {c' : Core} {e' : ℕ → Bytes} (hm : MetaUsed G c')
    (hb : ∀ n k p, A n → G.IsPlace k p → c'.block (e' n) k p = c.block (e n) k p)
    (hu : ∀ n k p, A n → G.IsPlace k p → c.block (e n) k p ≠ 0 →
      c'.used (c.block (e n) k p) = true) : Own G c' A e' where
  metaUsed := hm
  good n k p hn hp h0 := by
    rw [hb n k p hn hp] at h0 ⊢
    have h := ow.good n k p hn hp h0
    exact ⟨h.range, h.data, hu n k p hn hp h0⟩
  apart := ow.apart.congr fun i q hi => by
    obtain ⟨n, k⟩ := i
    rw [walk_slots, walk_slots]
    exact hb n k q hi.1 hi.2

theorem congr_slots {f : ℕ → Bytes}
    (hs : ∀ n, A n → ∀ k < 15, iBlock (f n) k = iBlock (e n) k) : Own G c A f :=
  ow.congr ow.metaUsed (fun n _ _ hn hp => block_congr (hs n hn) hp.1)
    fun n k p hn hp h0 => (ow.good n k p hn hp h0).used

theorem of_eq {c' : Core} (hu : c'.used = c.used) (hd : c'.data = c.data) :
    Own G c' A e :=
  ow.congr (fun b h => by rw [hu]; exact ow.metaUsed b h)
    (fun _ _ _ _ _ => by unfold Core.block Core.ptr; rw [hd])
    fun n k p hn hp h0 => by rw [hu]; exact (ow.good n k p hn hp h0).used

theorem alloc (hv : Vacant G c b) :
    Own G (c.setUsed b true) A e ∧ Fresh G (c.setUsed b true) A e b := by
  have hmono : ∀ b', c.used b' = true → (c.setUsed b true).used b' = true := by
    intro b' h
    by_cases hb : b' = b
    · rw [hb]; exact update_self _ _ _
    · exact (update_of_ne hb _ _).trans h
  refine ⟨ow.congr (fun b' h => hmono b' (ow.metaUsed b' h)) (fun _ _ _ _ _ => rfl)
    fun n k p hn hp h0 => hmono _ (ow.good n k p hn hp h0).used, ⟨hv.range, hv.data, ?_⟩, ?_⟩
  · exact update_self _ _ _
  · intro n k p hn hp he
    have he : c.block (e n) k p = b := he
    have := (ow.good n k p hn hp (by rw [he]; exact hv.ne_zero)).used
    rw [he, hv.free] at this
    exact Bool.noConfusion this

theorem free (fr : Fresh G c A e b) : Own G (c.setUsed b false) A e := by
  have hne : ∀ b', b' ≠ b → c.used b' = true → (c.setUsed b false).used b' = true :=
    fun b' h h' => (update_of_ne h _ _).trans h'
  refine ow.congr (fun b' h => hne b' ?_ (ow.metaUsed b' h)) (fun _ _ _ _ _ => rfl)
    fun n k p hn hp h0 => hne _ (fr.unheld n k p hn hp) (ow.good n k p hn hp h0).used
  rintro rfl
  exact fr.usable.data h

end

end Own

/-! ## Entering a block -/

/-- From `c`, `e` to `c'`, `e'` the block `b` has been entered at the place `k`, `p` of inode `n`.
The contents of the blocks of files stay. -/
structure Attached (G : Geo) (A : ℕ → Prop) (c : Core) (e : ℕ → Bytes) (c' : Core) (e' : ℕ → Bytes)
    (n k : ℕ) (p : List ℕ) (b : ℕ) : Prop where
  place : ∀ m k' p', A m → G.IsPlace k' p' →
    c'.block (e' m) k' p' = if m = n ∧ k' = k ∧ p' = p then b else c.block (e m) k' p'
  data : ∀ m l, A m → l < G.lblocks → c.fileBlock (e m) G l ≠ 0 →
    c'.data (c.fileBlock (e m) G l) = c.data (c.fileBlock (e m) G l)
  used : c'.used = c.used

namespace Attached

variable {G : Geo} {A : ℕ → Prop} {c c' : Core} {e e' : ℕ → Bytes} {n k b : ℕ} {p : List ℕ}
  (at' : Attached G A c e c' e' n k p b)

include at'

theorem own (ow : Own G c A e) (fr : Fresh G c A e b) : Own G c' A e' where
  metaUsed := by intro b' h; rw [at'.used]; exact ow.metaUsed b' h
  good m k' p' hm hp h0 := by
    have husable : ∀ {b'}, Usable G c b' → Usable G c' b' :=
      fun h => ⟨h.range, h.data, by rw [at'.used]; exact h.used⟩
    rw [at'.place m k' p' hm hp] at h0 ⊢
    split_ifs at h0 ⊢ with h
    · exact husable fr.usable
    · exact husable (ow.good m k' p' hm hp h0)
  apart := by
    refine ow.apart.attach (x := b) (i := (n, k)) (p := p) ?_ ?_
    · rintro ⟨m, k'⟩ q ⟨hm, hq⟩
      rw [walk_slots]
      exact fr.unheld m k' q hm hq
    · rintro ⟨m, k'⟩ q ⟨hm, hq⟩
      rw [walk_slots, walk_slots, at'.place m k' q hm hq]
      exact if_congr (by rw [Prod.mk.injEq, and_assoc]) rfl rfl

theorem fresh {b' : ℕ} (fr : Fresh G c A e b') (hne : b' ≠ b) : Fresh G c' A e' b' where
  usable := ⟨fr.usable.range, fr.usable.data, by rw [at'.used]; exact fr.usable.used⟩
  unheld m k' q hm hq := by
    rw [at'.place m k' q hm hq]
    split_ifs
    · exact hne.symm
    · exact fr.unheld m k' q hm hq

theorem file (wf : G.Wf) (hb : b ≠ 0) {m l : ℕ} (hm : A m) (hl : l < G.lblocks) :
    c'.file (e' m) G l =
      if m = n ∧ G.place l = (k, p) then some (c'.data b) else c.file (e m) G l := by
  have h := at'.place m _ _ hm (wf.place_isPlace hl)
  have hiff : (m = n ∧ (G.place l).1 = k ∧ (G.place l).2 = p) ↔ m = n ∧ G.place l = (k, p) := by
    rw [Prod.ext_iff]
  rw [if_congr hiff rfl rfl] at h
  split_ifs at h ⊢ with hc
  · unfold Core.file Core.fileBlock
    rw [h, if_neg hb]
  · exact file_congr h (at'.data m l hm hl)

end Attached

theorem iBlock_setIBlock (x : Bytes) (k j : ℕ) {b : ℕ} (hb : b < 2 ^ 32) :
    iBlock (setIBlock x k b) j = if j = k then b else iBlock x j := by
  unfold iBlock setIBlock
  split_ifs with h
  · rw [h, Bytes.get32_put32_of_lt _ _ hb]
  · exact Bytes.get32_put32_of_disjoint _ _ (by omega)

theorem ptrAt_put32 (buf : Bytes) (k j : ℕ) {b : ℕ} (hb : b < 2 ^ 32) :
    ptrAt (buf.put32 (4 * k) b) j = if j = k then b else ptrAt buf j := by
  unfold ptrAt
  split_ifs with h
  · rw [h, Bytes.get32_put32_of_lt _ _ hb]
  · exact Bytes.get32_put32_of_disjoint _ _ (by omega)

def Geo.IsInner (G : Geo) (k : ℕ) (p : List ℕ) : Prop := G.IsPlace k p ∧ p.length < depth k

theorem Geo.IsPlace.inner {G : Geo} {k j : ℕ} {p : List ℕ} (h : G.IsPlace k (j :: p)) :
    G.IsInner k p := ⟨h.tail, h.2.1⟩

/-- The indirect blocks of the inodes in `A` are data blocks marked used, each in one place. -/
structure Indirects (G : Geo) (c : Core) (A : ℕ → Prop) (e : ℕ → Bytes) : Prop where
  metaUsed : MetaUsed G c
  good : ∀ n k p, A n → G.IsInner k p → c.block (e n) k p ≠ 0 → Usable G c (c.block (e n) k p)
  apart : ∀ n k p n' k' p', A n → G.IsInner k p → A n' → G.IsInner k' p' →
    c.block (e n) k p ≠ 0 → c.block (e n) k p = c.block (e n') k' p' → n = n' ∧ k = k' ∧ p = p'

theorem Own.indirects {G : Geo} {c : Core} {A : ℕ → Prop} {e : ℕ → Bytes} (ow : Own G c A e) :
    Indirects G c A e where
  metaUsed := ow.metaUsed
  good n k p hn hp := ow.good n k p hn hp.1
  apart _ _ _ _ _ _ hn hp hn' hp' := ow.inj hn hp.1 hn' hp'.1

/-- From `c`, `e` to `c'`, `e'` the place `k`, `p` of inode `n` has become `b`, and no other place
of a map has changed. -/
def Sets (G : Geo) (A : ℕ → Prop) (c : Core) (e : ℕ → Bytes) (c' : Core) (e' : ℕ → Bytes)
    (n k : ℕ) (p : List ℕ) (b : ℕ) : Prop :=
  ∀ m k' q, A m → G.IsPlace k' q →
    c'.block (e' m) k' q = if m = n ∧ k' = k ∧ q = p then b else c.block (e m) k' q

namespace Indirects

variable {G : Geo} {c : Core} {A : ℕ → Prop} {e : ℕ → Bytes} {n k b j : ℕ} {p : List ℕ}

/-- A store to a slot of an inode: in a direct slot, or of a zeroed block in an empty slot. -/
theorem setSlot (hlt : b < 2 ^ 32)
    (hz : depth k = 0 ∨ (iBlock (e n) k = 0 ∧ (b ≠ 0 → ∀ j, c.ptr b j = 0))) :
    Sets G A c e c (update e n (setIBlock (e n) k b)) n k [] b := by
  intro m k' q hm hq
  rw [← walk_slots, ← walk_slots]
  refine (walk_store (i := (n, k)) (r := []) Geo.Place.closed ?_
    (fun _ _ _ _ _ => (if_neg (by simp)).symm) nofun ?_ (m, k') q ⟨hm, hq⟩).trans
    (if_congr (by rw [Prod.mk.injEq, and_assoc]) rfl rfl)
  · rintro ⟨m', k''⟩
    unfold slots
    by_cases hmn : m' = n
    · subst hmn
      dsimp only
      rw [update_self, iBlock_setIBlock _ _ _ hlt]
      exact if_congr (by simp) rfl rfl
    · dsimp only
      rw [update_of_ne hmn, if_neg (by simp [hmn])]
  · rintro j ⟨-, hj⟩
    have hdepth : 0 < depth k := hj.2.1
    obtain h0 | ⟨h1, h2⟩ := hz
    · omega
    · exact ⟨h1, fun hb => h2 hb j⟩

/-- A store to a pointer of an indirect block: at the last level, or of a zeroed block over a null
pointer. -/
theorem setPtr (ind : Indirects G c A e) (hn : A n) (hp : G.IsPlace k (j :: p)) (hw : c.block (e n) k p ≠ 0)
    (hlt : b < 2 ^ 32) (hz : (j :: p).length = depth k ∨ (c.ptr (c.block (e n) k p) j = 0 ∧
      c.block (e n) k p ≠ b ∧ ∀ j', c.ptr b j' = 0)) :
    Sets G A c e (c.setData (c.block (e n) k p) ((c.data (c.block (e n) k p)).put32 (4 * j) b)) e
      n k (j :: p) b := by
  have hptr : ∀ w i, (c.setData (c.block (e n) k p)
      ((c.data (c.block (e n) k p)).put32 (4 * j) b)).ptr w i =
      if w = c.block (e n) k p ∧ i = j then b else c.ptr w i := by
    intro w i
    unfold Core.ptr
    by_cases hww : w = c.block (e n) k p
    · rw [hww, Core.setData_data, update_self, ptrAt_put32 _ _ _ hlt]
      exact if_congr (by simp) rfl rfl
    · rw [Core.setData_data, update_of_ne hww, if_neg (by simp [hww])]
  intro m k' q hm hq
  rw [← walk_slots, ← walk_slots c e m]
  refine (walk_store (i := (n, k)) (r := j :: p) Geo.Place.closed (fun _ => (if_neg (by simp)).symm)
    ?_ ?_ ?_ (m, k') q ⟨hm, hq⟩).trans (if_congr (by rw [Prod.mk.injEq, and_assoc]) rfl rfl)
  · rintro ⟨m', k''⟩ i q' ⟨hm', hq'⟩ h0
    rw [walk_slots] at h0 ⊢
    rw [hptr]
    refine if_congr ⟨?_, ?_⟩ rfl rfl
    · rintro ⟨he, rfl⟩
      obtain ⟨rfl, rfl, rfl⟩ := ind.apart m' k'' q' n k p hm' hq'.inner hn hp.inner h0 he
      exact ⟨rfl, rfl⟩
    · rintro ⟨he, he'⟩
      cases he
      cases he'
      exact ⟨rfl, rfl⟩
  · rintro i q' ⟨⟩
    rwa [walk_slots]
  · rintro i ⟨-, hi⟩
    rw [walk_cons_of_ne j (by rwa [walk_slots]), walk_slots]
    obtain h0 | ⟨h1, hne, h2⟩ := hz
    · have hlen := hi.2.1
      rw [length_cons, h0] at hlen
      dsimp only at hlen
      omega
    · refine ⟨h1, fun _ => ?_⟩
      rw [hptr, if_neg fun h => hne h.1.symm]
      exact h2 i

end Indirects

namespace Own

variable {G : Geo} {c : Core} {A : ℕ → Prop} {e : ℕ → Bytes} {n k b : ℕ} (ow : Own G c A e)

/-- Entering a block in a slot: a data block in a direct slot, or an indirect block of null
pointers in an empty slot. -/
theorem attachSlot (wf : G.Wf) (fr : Fresh G c A e b)
    (hz : depth k = 0 ∨ (iBlock (e n) k = 0 ∧ ∀ j, c.ptr b j = 0)) :
    Attached G A c e c (update e n (setIBlock (e n) k b)) n k [] b where
  place := Indirects.setSlot (lt_trans fr.usable.range.2 wf.blocks_lt)
    (hz.imp_right fun h => ⟨h.1, fun _ => h.2⟩)
  data _ _ _ _ _ := rfl
  used := rfl

include ow

/-- Entering a block in an indirect block: a data block at the last level, or an indirect block of
null pointers in an empty entry. -/
theorem attachPtr (wf : G.Wf) (hn : A n) (fr : Fresh G c A e b) {j : ℕ} {p : List ℕ}
    (hp : G.IsPlace k (j :: p)) (hw : c.block (e n) k p ≠ 0)
    (hz : (j :: p).length = depth k ∨
      (c.ptr (c.block (e n) k p) j = 0 ∧ ∀ j', c.ptr b j' = 0)) :
    Attached G A c e (c.setData (c.block (e n) k p)
      ((c.data (c.block (e n) k p)).put32 (4 * j) b)) e n k (j :: p) b where
  place := ow.indirects.setPtr hn hp hw (lt_trans fr.usable.range.2 wf.blocks_lt)
    (hz.imp_right fun h => ⟨h.1, fr.unheld n k p hn hp.tail, h.2⟩)
  data m l hm hl h0 := by
    refine update_of_ne (fun h => ?_) _ _
    -- a block of a file is at the last level, the changed block is not
    have h' := (ow.inj hm (wf.place_isPlace hl) hn hp.tail h0 h).2
    have h1 := Geo.place_leaf (G := G) l
    have h2 := hp.2.1
    rw [h'.1, h'.2] at h1
    rw [length_cons] at h2
    omega
  used := rfl

/-- A store to a block that holds no pointers of a map leaves the maps alone. -/
theorem store (hb : ∀ n k p, A n → G.IsPlace k p → p.length < depth k → c.block (e n) k p ≠ b)
    (buf : Bytes) : (∀ n k p, A n → G.IsPlace k p →
      (c.setData b buf).block (e n) k p = c.block (e n) k p) ∧ Own G (c.setData b buf) A e := by
  have hw : ∀ n k p, A n → G.IsPlace k p →
      (c.setData b buf).block (e n) k p = c.block (e n) k p := by
    intro n k p hn hp
    rw [← walk_slots, ← walk_slots c]
    refine walk_congr Geo.Place.closed (fun _ _ => rfl) ?_ (n, k) p ⟨hn, hp⟩
    rintro ⟨m, k'⟩ j q ⟨hm, hq⟩ h0
    rw [walk_slots] at h0 ⊢
    unfold Core.ptr
    have hlen := hq.2.1
    rw [length_cons] at hlen
    rw [Core.setData_data, update_of_ne]
    exact hb m k' q hm hq.tail hlen
  exact ⟨hw, ow.congr ow.metaUsed hw fun n k p hn hp h0 => (ow.good n k p hn hp h0).used⟩

end Own

/-! ## Reading a map -/

theorem block_nil (c : Core) (x : Bytes) (k : ℕ) : c.block x k [] = iBlock x k := rfl

theorem block_cons (c : Core) (x : Bytes) (k j : ℕ) (p : List ℕ) :
    c.block x k (j :: p) = if c.block x k p = 0 then 0 else c.ptr (c.block x k p) j := rfl

def MapOk (G : Geo) (c : Core) (x : Bytes) : Prop :=
  ∀ k p, G.IsPlace k p → c.block x k p ≠ 0 → ¬ G.Meta (c.block x k p)

def InnerOk (G : Geo) (c : Core) (x : Bytes) : Prop :=
  ∀ k p, G.IsPlace k p → p.length < depth k → c.block x k p ≠ 0 → ¬ G.Meta (c.block x k p)

theorem Own.mapOk {G : Geo} {c : Core} {A : ℕ → Prop} {e : ℕ → Bytes} {n : ℕ}
    (ow : Own G c A e) (hn : A n) : MapOk G c (e n) :=
  fun k p hp h0 => (ow.good n k p hn hp h0).data

namespace Ready

variable {v : Vol} {G : Geo} {r : Inode} (rd : Ready v G r) {x : Bytes} {l : ℕ}

include rd

theorem read {b : ℕ} (hb : ¬ G.Meta b) {Q : ℤ × Bytes → Vol → Prop} :
    After (ext2ReadBlock b) v Q ↔ Q (0, v.core.data b) v := by
  rw [after_readBlock rd.env, rd.disk_eq hb]

theorem bs_eq : v.blockSize = G.bs := congrArg Geo.bs rd.geo

theorem resolve_of_inner (hx : InnerOk G v.core x) (hl : l < G.mblocks) {Q : ℕ → Vol → Prop} :
    After (ext2ResolveBlockNum x l G.bs) v Q ↔ Q (v.core.fileBlock x G l) v := by
  have hp := rd.wf.place_isPlace_of_lt hl
  have hptrs : G.bs / 4 = G.ptrs := rfl
  unfold ext2ResolveBlockNum
  unfold Core.fileBlock Geo.place at *
  rw [hptrs]
  by_cases h1 : l < 12
  · rw [if_pos h1, if_pos h1]
    exact Iff.rfl
  rw [if_neg h1] at hp ⊢
  rw [if_neg h1]
  by_cases h2 : l - 12 < G.ptrs
  · rw [if_pos h2] at hp ⊢
    rw [if_pos h2]
    dsimp only at hp ⊢
    rw [block_cons, block_nil]
    by_cases h0 : iBlock x 12 = 0
    · rw [if_pos h0, if_pos h0]; exact Iff.rfl
    · rw [if_neg h0, if_neg h0, after_kmalloc rd.env, after_bind,
        rd.read (b := iBlock x 12) (hx 12 [] hp.tail (by decide) h0)]
      exact Iff.rfl
  rw [if_neg h2] at hp ⊢
  rw [if_neg h2]
  by_cases h3 : l - 12 - G.ptrs < G.ptrs * G.ptrs
  · rw [if_pos h3] at hp ⊢
    rw [if_pos h3]
    dsimp only at hp ⊢
    rw [block_cons, block_cons, block_nil]
    by_cases h0 : iBlock x 13 = 0
    · rw [if_pos h0, if_pos h0]; exact Iff.rfl
    have hs : v.core.block x 13 [(l - 12 - G.ptrs) / G.ptrs] =
        v.core.ptr (iBlock x 13) ((l - 12 - G.ptrs) / G.ptrs) := if_neg h0
    rw [if_neg h0, if_neg h0, after_kmalloc rd.env, after_bind,
      rd.read (b := iBlock x 13) (hx 13 [] hp.tail.tail (by decide) h0)]
    by_cases h0' : v.core.ptr (iBlock x 13) ((l - 12 - G.ptrs) / G.ptrs) = 0
    · rw [if_pos h0']
      exact iff_of_eq (congrArg (After · v Q) (if_pos h0'))
    · rw [if_neg h0']
      refine (iff_of_eq (congrArg (After · v Q) (if_neg h0'))).trans ?_
      have hm := hx 13 _ hp.tail (by simp [depth]) (by rw [hs]; exact h0')
      rw [hs] at hm
      rw [after_bind]
      exact rd.read hm
  · rw [if_neg h3] at hp ⊢
    rw [if_neg h3]
    generalize l - 12 - G.ptrs - G.ptrs * G.ptrs = l3 at hp ⊢
    dsimp only at hp ⊢
    rw [block_cons, block_cons, block_cons, block_nil]
    by_cases h0 : iBlock x 14 = 0
    · rw [if_pos h0, if_pos h0]; exact Iff.rfl
    have hs : v.core.block x 14 [l3 / (G.ptrs * G.ptrs)] =
        v.core.ptr (iBlock x 14) (l3 / (G.ptrs * G.ptrs)) := if_neg h0
    rw [if_neg h0, if_neg h0, after_kmalloc rd.env, after_bind,
      rd.read (b := iBlock x 14) (hx 14 [] hp.tail.tail.tail (by decide) h0)]
    by_cases h0' : v.core.ptr (iBlock x 14) (l3 / (G.ptrs * G.ptrs)) = 0
    · rw [if_pos h0']
      exact iff_of_eq (congrArg (After · v Q) (if_pos h0'))
    rw [if_neg h0']
    refine (iff_of_eq (congrArg (After · v Q) (if_neg h0'))).trans ?_
    have hm := hx 14 _ hp.tail.tail (by simp [depth]) (by rw [hs]; exact h0')
    have hs2 : v.core.block x 14 [l3 % (G.ptrs * G.ptrs) / G.ptrs, l3 / (G.ptrs * G.ptrs)] =
        v.core.ptr (v.core.ptr (iBlock x 14) (l3 / (G.ptrs * G.ptrs)))
          (l3 % (G.ptrs * G.ptrs) / G.ptrs) := by
      rw [block_cons, hs, if_neg h0']
    rw [hs] at hm
    rw [after_bind]
    refine (rd.read hm).trans ?_
    by_cases h0'' : v.core.ptr (v.core.ptr (iBlock x 14) (l3 / (G.ptrs * G.ptrs)))
        (l3 % (G.ptrs * G.ptrs) / G.ptrs) = 0
    · rw [if_pos h0'']
      exact iff_of_eq (congrArg (After · v Q) (if_pos h0''))
    · rw [if_neg h0'']
      refine (iff_of_eq (congrArg (After · v Q) (if_neg h0''))).trans ?_
      have hm := hx 14 _ hp.tail (by simp [depth]) (by rw [hs2]; exact h0'')
      rw [hs2] at hm
      rw [after_bind]
      exact rd.read hm

theorem resolve (hx : MapOk G v.core x) (hl : l < G.lblocks) {Q : ℕ → Vol → Prop} :
    After (ext2ResolveBlockNum x l G.bs) v Q ↔ Q (v.core.fileBlock x G l) v :=
  rd.resolve_of_inner (fun k p hp _ => hx k p hp) (hl.trans rd.wf.lblocks_lt)

end Ready

end DvivonOS
