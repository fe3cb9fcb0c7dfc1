import DvivonOS.Ext2.AssignMap
import DvivonOS.Vfs.ReadWrite

/-!
# Truncation

`ext2_truncate_inode` frees the direct blocks and the entries of the singly indirect block between
the number of blocks of the new size and that of the old one, both rounded up in 32 bits. `Cut` is
the set of places it visits, and `Ready.truncate` says that these places are cut off and their
blocks freed.

The double indirection is not visited, a size in the last block before `2 ^ 32` counts as no block
at all, and the last block that stays keeps its bytes. `truncate_iff` says for which maps none of
this shows.
-/

namespace DvivonOS

open Function List

/-! ## The function -/

/-- The number of blocks of `size` bytes, rounded up in 32 bits. -/
def sizeBlocks (size bs : ℕ) : ℕ := sub32 (add32 size bs) 1 / bs

/-- The indices of a loop from `start` up to `stop`. -/
def indices (start stop : ℕ) : List ℕ := List.range' start (stop - start)

/-- Free the blocks of the pointers `is` of the array at `base` of a buffer and clear these
pointers, skipping the null ones. -/
def clearPointers (base : ℕ) : List ℕ → Bytes → FsM Bytes
  | [], buf => return buf
  | i :: is, buf => do
    if buf.get32 (base + 4 * i) ≠ 0 then
      ext2FreeBlock (buf.get32 (base + 4 * i))
      clearPointers base is (buf.put32 (base + 4 * i) 0)
    else clearPointers base is buf

/-- The part of `ext2_truncate_inode` for the singly indirect block. -/
def truncateIndirect (x : Bytes) (newBlocks bs : ℕ) : FsM Bytes := do
  if !(← kmallocOk) then return x
  else
    let (_, ind) ← ext2ReadBlock (iBlock x 12)
    let start := if 12 < newBlocks then newBlocks - 12 else 0
    let ind ← clearPointers 0 (indices start (bs / 4)) ind
    if newBlocks ≤ 12 then
      ext2FreeBlock (iBlock x 12)
      return setIBlock x 12 0
    else
      let _ ← ext2WriteBlock (iBlock x 12) ind
      return x

/-- `ext2_truncate_inode`: the status and the inode. -/
def ext2TruncateInode (x : Bytes) (newSize : ℕ) : FsM (ℤ × Bytes) := do
  let v ← get
  let bs := v.blockSize
  let oldBlocks := sizeBlocks (iSize x) bs
  let newBlocks := sizeBlocks newSize bs
  let x ← clearPointers 40 (indices newBlocks (min oldBlocks 12)) x
  let x ← if 12 < oldBlocks ∧ iBlock x 12 ≠ 0 then truncateIndirect x newBlocks bs else pure x
  let x := x.put32 4 newSize
  return (0, x.put32 28 (newBlocks * (bs / 512)))

theorem mem_indices {a b i : ℕ} : i ∈ indices a b ↔ a ≤ i ∧ i < b := by
  unfold indices
  rw [mem_range'_1]
  omega

theorem nodup_indices (a b : ℕ) : (indices a b).Nodup := nodup_range'

/-! ## Clearing pointers -/

def pointers (base : ℕ) (is : List ℕ) (buf : Bytes) : List ℕ :=
  (is.map fun i => buf.get32 (base + 4 * i)).filter (· ≠ 0)

theorem mem_pointers {base b : ℕ} {is : List ℕ} {buf : Bytes} :
    b ∈ pointers base is buf ↔ b ≠ 0 ∧ ∃ i ∈ is, buf.get32 (base + 4 * i) = b := by
  unfold pointers
  simp only [mem_filter, mem_map, decide_eq_true_eq]
  exact and_comm

theorem pointers_congr {base : ℕ} {is : List ℕ} {buf buf' : Bytes}
    (h : ∀ i ∈ is, buf'.get32 (base + 4 * i) = buf.get32 (base + 4 * i)) :
    pointers base is buf' = pointers base is buf := by
  unfold pointers
  rw [map_congr_left h]

namespace Ready

variable {G : Geo} {r : Inode}

theorem clearPointers {base : ℕ} {is : List ℕ} {Q : Bytes → Vol → Prop} (hnd : is.Nodup) :
    ∀ {v : Vol} {buf : Bytes}, Ready v G r → (∀ b ∈ pointers base is buf, G.InRange b) →
      (∀ buf', (∀ j, buf'.get32 (base + 4 * j) =
          if j ∈ is then 0 else buf.get32 (base + 4 * j)) →
        Q buf' (v.dropBlocks G (pointers base is buf))) →
      After (DvivonOS.clearPointers base is buf) v Q := by
  induction is with
  | nil => exact fun _ _ hQ => hQ _ fun j => (if_neg not_mem_nil).symm
  | cons i is ih =>
    intro v buf rd hr hQ
    obtain ⟨hi, hnd⟩ := nodup_cons.mp hnd
    unfold DvivonOS.clearPointers
    by_cases h0 : buf.get32 (base + 4 * i) = 0
    · have hp : pointers base (i :: is) buf = pointers base is buf := by
        unfold pointers
        rw [map_cons, filter_cons_of_neg (by simp [h0])]
      rw [if_neg (not_not.mpr h0)]
      rw [hp] at hr hQ
      refine ih hnd rd hr fun buf' h => hQ buf' fun j => ?_
      rw [h j]
      by_cases hj : j = i
      · simp [hj, hi, h0]
      · simp [hj]
    · have hget : ∀ j, (buf.put32 (base + 4 * i) 0).get32 (base + 4 * j) =
          if j = i then 0 else buf.get32 (base + 4 * j) := by
        intro j
        split_ifs with hj
        · rw [hj, Bytes.get32_put32_of_lt _ _ (by norm_num)]
        · exact Bytes.get32_put32_of_disjoint _ _ (by omega)
      have hp : pointers base (i :: is) buf = buf.get32 (base + 4 * i) ::
          pointers base is (buf.put32 (base + 4 * i) 0) := by
        have hcongr : pointers base is (buf.put32 (base + 4 * i) 0) = pointers base is buf :=
          pointers_congr fun j hj => (hget j).trans (if_neg (ne_of_mem_of_not_mem hj hi))
        rw [hcongr]
        unfold pointers
        rw [map_cons, filter_cons_of_pos (by simp [h0])]
      rw [hp] at hr hQ
      have hb := hr _ mem_cons_self
      rw [if_pos h0, after_bind]
      refine (after_free (k := .block) rd hb).mpr (ih hnd (rd.dropped (k := .block) hb).1
        (fun b hb => hr b (mem_cons_of_mem _ hb)) fun buf' h => hQ buf' fun j => ?_)
      rw [h j, hget j]
      by_cases hj : j = i <;> simp [hj]

end Ready

/-! ## Cutting a map -/

/-- The places that the truncation from `ob` to `nb` blocks visits. -/
def Cut (nb ob k : ℕ) : List ℕ → Prop
  | [] => k ≤ 12 ∧ nb ≤ k ∧ k < ob
  | j :: _ => k = 12 ∧ 12 < ob ∧ nb ≤ 12 + j

theorem cut_nil {nb ob k : ℕ} : Cut nb ob k [] ↔ k ≤ 12 ∧ nb ≤ k ∧ k < ob := Iff.rfl

/-- The places that the truncation of the raw inode `x` to `newSize` bytes visits. -/
abbrev cutFor (G : Geo) (x : Bytes) (newSize : ℕ) : ℕ → List ℕ → Prop :=
  Cut (sizeBlocks newSize G.bs) (sizeBlocks (iSize x) G.bs)

section Places

variable {G : Geo} {k j : ℕ} {p : List ℕ}

theorem Geo.isPlace_single (hj : j < G.ptrs) : G.IsPlace 12 [j] :=
  ⟨by norm_num, by simp [depth], by simpa using hj⟩

theorem Geo.IsPlace.cons (hp : G.IsPlace k p) (hlen : p.length < depth k) (hj : j < G.ptrs) :
    G.IsPlace k (j :: p) := ⟨hp.1, hlen, forall_mem_cons.mpr ⟨hj, hp.2.2⟩⟩

theorem Geo.IsPlace.single (hp : G.IsPlace 12 (j :: p)) : p = [] := by
  have hlen := hp.2.1
  simp [depth] at hlen
  exact hlen

theorem Cut.down {nb ob : ℕ} (hp : G.IsPlace k (j :: p)) (h : Cut nb ob k p) :
    Cut nb ob k (j :: p) := by
  cases p with
  | nil =>
    obtain ⟨h1, h2, h3⟩ := h
    have hlen := hp.2.1
    obtain rfl : k = 12 := by
      simp [depth] at hlen
      omega
    exact ⟨rfl, h3, by omega⟩
  | cons i p =>
    obtain ⟨rfl, -⟩ := h
    cases hp.single

end Places

/-- The block `b` is in a cut place of the raw inode `x`. -/
def Severed (G : Geo) (c : Core) (x : Bytes) (C : ℕ → List ℕ → Prop) (b : ℕ) : Prop :=
  b ≠ 0 ∧ ∃ k p, G.IsPlace k p ∧ C k p ∧ c.block x k p = b

/-- From `c`, `e` to `c'`, `e'` the places `C` of inode `n` have been cut off and their blocks
freed. The contents of the blocks of files stay. -/
structure Trimmed (G : Geo) (A : ℕ → Prop) (c : Core) (e : ℕ → Bytes) (c' : Core) (e' : ℕ → Bytes)
    (n : ℕ) (C : ℕ → List ℕ → Prop) : Prop where
  cut : ∀ k p, G.IsPlace k p → C k p → c'.block (e' n) k p = 0
  place : ∀ m k p, A m → G.IsPlace k p → ¬ (m = n ∧ C k p) →
    c'.block (e' m) k p = c.block (e m) k p
  freed : ∀ b, Severed G c (e n) C b → c'.used b = false
  kept : ∀ b, ¬ Severed G c (e n) C b → c'.used b = c.used b
  data : ∀ m l, A m → l < G.lblocks → c.fileBlock (e m) G l ≠ 0 →
    c'.data (c.fileBlock (e m) G l) = c.data (c.fileBlock (e m) G l)

section Trimmed

variable {G : Geo} {A : ℕ → Prop} {c c' : Core} {e e' : ℕ → Bytes} {n m k : ℕ} {p : List ℕ}
  {C : ℕ → List ℕ → Prop}

theorem Own.not_severed (ow : Own G c A e) (hn : A n) (hm : A m) (hp : G.IsPlace k p)
    (hC : ¬ (m = n ∧ C k p)) : ¬ Severed G c (e n) C (c.block (e m) k p) := by
  rintro ⟨h0, k', p', hp', hC', he⟩
  obtain ⟨rfl, rfl, rfl⟩ := ow.inj hm hp hn hp' h0 he.symm
  exact hC ⟨rfl, hC'⟩

theorem Trimmed.own (tr : Trimmed G A c e c' e' n C) (ow : Own G c A e) (hn : A n) :
    Own G c' A e' where
  metaUsed b hb := by
    rw [tr.kept b, ow.metaUsed b hb]
    rintro ⟨h0, k, p, hp, -, rfl⟩
    exact (ow.good n k p hn hp h0).data hb
  good m k p hm hp h0 := by
    have hC : ¬ (m = n ∧ C k p) := by
      rintro ⟨rfl, h⟩
      exact h0 (tr.cut k p hp h)
    rw [tr.place m k p hm hp hC] at h0 ⊢
    have hu := ow.good m k p hm hp h0
    exact ⟨hu.range, hu.data, by rw [tr.kept _ (ow.not_severed hn hm hp hC), hu.used]⟩
  apart := by
    refine ow.apart.part ?_
    rintro ⟨m, k⟩ p ⟨hm, hp⟩
    rw [walk_slots, walk_slots]
    by_cases hC : m = n ∧ C k p
    · obtain ⟨rfl, hC⟩ := hC
      exact .inr (tr.cut k p hp hC)
    · exact .inl (tr.place m k p hm hp hC)

/-- What the truncation does to the slots and to the singly indirect block. -/
theorem trimmed_of {x' : Bytes} {L : List ℕ} {nb ob : ℕ} (wf : G.Wf) (ow : Own G c A e) (hn : A n)
    (hslots : ∀ k < 15, iBlock x' k = if k ≤ 12 ∧ nb ≤ k ∧ k < ob then 0 else iBlock (e n) k)
    (hptr : ¬ Cut nb ob 12 [] → iBlock (e n) 12 ≠ 0 → ∀ j < G.ptrs, c'.ptr (iBlock (e n) 12) j =
      if 12 < ob ∧ nb ≤ 12 + j then 0 else c.ptr (iBlock (e n) 12) j)
    (hdata : ∀ b, b ≠ iBlock (e n) 12 → c'.data b = c.data b)
    (hused : c'.used = (c.release L).used) (hL : ∀ b, b ∈ L ↔ Severed G c (e n) (Cut nb ob) b) :
    Trimmed G A c e c' (update e n x') n (Cut nb ob) := by
  have hp12 : G.IsPlace 12 [] := Geo.isPlace_nil (by norm_num)
  -- the pointers of the other indirect blocks
  have hother : ∀ m k p, A m → G.IsPlace k p → c.block (e m) k p ≠ 0 →
      ¬ (m = n ∧ k = 12 ∧ p = []) → c'.data (c.block (e m) k p) = c.data (c.block (e m) k p) := by
    intro m k p hm hp h0 hne
    refine hdata _ fun he => hne ?_
    exact ow.inj hm hp hn hp12 h0 he
  have hwalk : ∀ i p, G.Place A i p →
      (i.1 = n ∧ Cut nb ob i.2 p → walk (slots (update e n x')) c'.ptr i p = 0) ∧
      (¬ (i.1 = n ∧ Cut nb ob i.2 p) →
        walk (slots (update e n x')) c'.ptr i p = walk (slots e) c.ptr i p) := by
    refine walk_trim Geo.Place.closed (fun i j p hi h => ⟨h.1, h.2.down hi.2⟩) ?_ ?_ ?_ ?_
    · rintro ⟨m, k⟩ ⟨-, hp⟩ ⟨rfl, hC⟩
      unfold slots
      rw [update_self, hslots k hp.1, if_pos (cut_nil.mp hC)]
    · rintro ⟨m, k⟩ ⟨-, hp⟩ hC
      unfold slots
      by_cases hm : m = n
      · subst hm
        rw [update_self, hslots k hp.1, if_neg fun h => hC ⟨rfl, cut_nil.mpr h⟩]
      · rw [update_of_ne hm]
    · rintro ⟨m, k⟩ j p ⟨hm, hp⟩ hnC ⟨rfl, rfl, hob, hnb⟩ h0
      obtain rfl := hp.single
      rw [walk_slots] at h0 ⊢
      have h := hptr (fun h => hnC ⟨rfl, h⟩) h0 j hp.head
      rwa [if_pos ⟨hob, hnb⟩] at h
    · rintro ⟨m, k⟩ j p ⟨hm, hp⟩ hC h0
      rw [walk_slots] at h0 ⊢
      by_cases h12 : m = n ∧ k = 12 ∧ p = []
      · obtain ⟨rfl, rfl, rfl⟩ := h12
        have hnC : ¬ (12 < ob ∧ nb ≤ 12 + j) := fun h => hC ⟨rfl, rfl, h⟩
        have h := hptr (fun h => hnC ⟨h.2.2, by have := h.2.1; omega⟩) h0 j hp.head
        rwa [if_neg hnC] at h
      · unfold Core.ptr
        rw [hother m k p hm hp.tail h0 h12]
  constructor
  · intro k p hp hC
    have h := (hwalk (n, k) p ⟨hn, hp⟩).1 ⟨rfl, hC⟩
    rwa [walk_slots] at h
  · intro m k p hm hp hC
    have h := (hwalk (m, k) p ⟨hm, hp⟩).2 hC
    rwa [walk_slots, walk_slots] at h
  · intro b hb
    rw [hused]
    exact if_pos ((hL b).mpr hb)
  · intro b hb
    rw [hused]
    exact if_neg fun h => hb ((hL b).mp h)
  · intro m l hm hl h0
    refine hother m _ _ hm (wf.place_isPlace hl) h0 ?_
    rintro ⟨-, h1, h2⟩
    have h := Geo.place_leaf (G := G) l
    rw [h1, h2] at h
    exact absurd h (by decide)

end Trimmed

/-! ## The truncated map -/

/-- The freed blocks are those of the visited slots and those of the visited entries of the singly
indirect block. -/
theorem severed_iff {G : Geo} {c : Core} {x : Bytes} {nb ob b : ℕ} :
    Severed G c x (Cut nb ob) b ↔ b ≠ 0 ∧ ((∃ k ≤ 12, nb ≤ k ∧ k < ob ∧ iBlock x k = b) ∨
      (12 < ob ∧ iBlock x 12 ≠ 0 ∧ ∃ j < G.ptrs, nb ≤ 12 + j ∧ c.ptr (iBlock x 12) j = b)) := by
  refine and_congr_right fun hb => ⟨?_, ?_⟩
  · rintro ⟨k, p, hp, hC, rfl⟩
    cases p with
    | nil => exact .inl ⟨k, hC.1, hC.2.1, hC.2.2, rfl⟩
    | cons j p =>
      obtain ⟨rfl, hob, hnb⟩ := hC
      obtain rfl := hp.single
      rw [block_cons, block_nil] at hb ⊢
      have h0 : iBlock x 12 ≠ 0 := fun h => hb (if_pos h)
      exact .inr ⟨hob, h0, j, hp.head, hnb, (if_neg h0).symm⟩
  · rintro (⟨k, hk, hnb, hob, h⟩ | ⟨hob, h0, j, hj, hnb, h⟩)
    · exact ⟨k, [], Geo.isPlace_nil (by omega), ⟨hk, hnb, hob⟩, h⟩
    · refine ⟨12, [j], Geo.isPlace_single hj, ⟨rfl, hob, hnb⟩, ?_⟩
      rw [block_cons, block_nil, if_neg h0, h]

theorem Core.release_append (c : Core) (L L' : List ℕ) :
    (c.release L).release L' = c.release (L ++ L') := by
  refine Core.ext (funext fun b => ?_) rfl rfl rfl
  show (if b ∈ L' then false else if b ∈ L then false else c.used b) =
    if b ∈ L ++ L' then false else c.used b
  simp only [mem_append]
  split_ifs <;> simp_all

/-- What the truncation to `nb` blocks does to the inode `x` with the singly indirect block. -/
structure Shortened (G : Geo) (r : Inode) (v : Vol) (x : Bytes) (nb : ℕ) (x' : Bytes) (v' : Vol) :
    Prop where
  ready : Ready v' G r
  iused : v'.core.iused = v.core.iused
  slots : ∀ k, iBlock x' k = if k = 12 ∧ nb ≤ 12 then 0 else iBlock x k
  ptr : 12 < nb → ∀ j < G.ptrs, v'.core.ptr (iBlock x 12) j =
    if nb ≤ 12 + j then 0 else v.core.ptr (iBlock x 12) j
  data : ∀ b, b ≠ iBlock x 12 → v'.core.data b = v.core.data b
  used : v'.core.used =
    (v.core.release (pointers 0 (indices (nb - 12) G.ptrs) (v.core.data (iBlock x 12)) ++
      if nb ≤ 12 then [iBlock x 12] else [])).used

namespace Ready

variable {v : Vol} {G : Geo} {r : Inode} (rd : Ready v G r)

include rd

theorem truncateIndirect {x : Bytes} {nb : ℕ} (h12 : G.InRange (iBlock x 12))
    (hm : ¬ G.Meta (iBlock x 12))
    (hr : ∀ b ∈ pointers 0 (indices (nb - 12) G.ptrs) (v.core.data (iBlock x 12)), G.InRange b) :
    After (DvivonOS.truncateIndirect x nb G.bs) v (Shortened G r v x nb) := by
  have hstart : (if 12 < nb then nb - 12 else 0) = nb - 12 := by split_ifs <;> omega
  unfold DvivonOS.truncateIndirect
  rw [after_kmalloc rd.env, after_bind, rd.read hm]
  dsimp only
  rw [after_bind, hstart, show G.bs / 4 = G.ptrs from rfl]
  refine rd.clearPointers (nodup_indices _ _) hr fun ind hind => ?_
  obtain ⟨rd₁, hc₁⟩ := rd.dropBlocks hr
  generalize v.dropBlocks G _ = v₁ at rd₁ hc₁ ⊢
  split_ifs with hnb
  · rw [after_bind]
    refine (after_free (k := .block) rd₁ h12).mpr ?_
    rw [after_pure]
    obtain ⟨rd₂, hc₂⟩ := rd₁.dropped (k := .block) h12
    rw [hc₁] at hc₂
    refine ⟨rd₂, by rw [hc₂]; rfl, fun k => ?_, fun h => by omega, fun b _ => by rw [hc₂]; rfl, ?_⟩
    · rw [iBlock_setIBlock _ _ _ (by norm_num)]
      exact if_congr (by simp [hnb]) rfl rfl
    · rw [if_pos hnb, ← Core.release_append, hc₂, ← Core.release_cons, Core.release_nil]
      rfl
  · rw [after_bind]
    refine rd₁.writeData hm fun v₂ rd₂ hc₂ => ?_
    rw [hc₁] at hc₂
    rw [after_pure]
    refine ⟨rd₂, by rw [hc₂]; rfl, fun k => (if_neg fun h => hnb h.2).symm, fun _ j hj => ?_,
      fun b hb => ?_, ?_⟩
    · have h := hind j
      rw [Nat.zero_add] at h
      unfold Core.ptr
      rw [hc₂, Core.setData_data, update_self]
      exact h.trans (if_congr (mem_indices.trans (by omega)) rfl rfl)
    · rw [hc₂, Core.setData_data, update_of_ne hb]
      rfl
    · rw [if_neg hnb, append_nil, hc₂]
      rfl

variable {A : ℕ → Prop} {e : ℕ → Bytes} {n : ℕ} (ow : Own G v.core A e) (hn : A n) {newSize : ℕ}

include ow hn

/-- **`ext2_truncate_inode`** cuts off the visited places and frees their blocks. -/
theorem truncate (hs : newSize < 2 ^ 32) :
    After (ext2TruncateInode (e n) newSize) v fun p v' =>
      Ready v' G r ∧ v'.core.iused = v.core.iused ∧ iSize p.2 = newSize ∧
      Trimmed G A v.core e v'.core (update e n p.2) n (cutFor G (e n) newSize) := by
  unfold ext2TruncateInode cutFor
  rw [after_bind, after_get, after_bind, rd.bs_eq]
  generalize sizeBlocks newSize G.bs = nb
  generalize sizeBlocks (iSize (e n)) G.bs = ob
  have hgood : ∀ {k p}, G.IsPlace k p → v.core.block (e n) k p ≠ 0 →
      Usable G v.core (v.core.block (e n) k p) := fun hp => ow.good n _ _ hn hp
  have hmem : ∀ {b}, b ∈ pointers 40 (indices nb (min ob 12)) (e n) ↔
      b ≠ 0 ∧ ∃ k, nb ≤ k ∧ k < min ob 12 ∧ iBlock (e n) k = b := by
    intro b
    rw [mem_pointers]
    refine and_congr_right fun _ => exists_congr fun k => ?_
    rw [mem_indices, and_assoc]
    exact Iff.rfl
  have hr : ∀ b ∈ pointers 40 (indices nb (min ob 12)) (e n), G.InRange b := by
    intro b hb
    obtain ⟨h0, k, -, hk, rfl⟩ := hmem.mp hb
    exact (hgood (Geo.isPlace_nil (by omega)) h0).range
  refine rd.clearPointers (nodup_indices _ _) hr fun x hx => ?_
  have hslot : ∀ k, iBlock x k = if nb ≤ k ∧ k < min ob 12 then 0 else iBlock (e n) k :=
    fun k => (hx k).trans (if_congr mem_indices rfl rfl)
  have h12 : iBlock x 12 = iBlock (e n) 12 := (hslot 12).trans (if_neg (by omega))
  obtain ⟨rd₁, hc₁⟩ := rd.dropBlocks hr
  generalize v.dropBlocks G (pointers 40 (indices nb (min ob 12)) (e n)) = v₁ at rd₁ hc₁ ⊢
  have hdata₁ : v₁.core.data = v.core.data := by rw [hc₁]; rfl
  have hsize : ∀ y : Bytes, iSize ((y.put32 4 newSize).put32 28 (nb * (G.bs / 512))) = newSize :=
    fun y => (Bytes.get32_put32_of_disjoint _ _ (by omega)).trans (Bytes.get32_put32_of_lt _ _ hs)
  have hkeep : ∀ (y : Bytes) k,
      iBlock ((y.put32 4 newSize).put32 28 (nb * (G.bs / 512))) k = iBlock y k := fun y k => by
    rw [iBlock_put32_of_lt _ (by norm_num), iBlock_put32_of_lt _ (by norm_num)]
  dsimp only
  split_ifs with hcond
  · obtain ⟨hob, h0⟩ := hcond
    rw [h12] at h0
    rw [after_bind]
    have hu : Usable G v.core (iBlock x 12) := h12 ▸ hgood (Geo.isPlace_nil (by norm_num)) h0
    have hmem₂ : ∀ {b}, b ∈ pointers 0 (indices (nb - 12) G.ptrs) (v₁.core.data (iBlock x 12)) ↔
        b ≠ 0 ∧ ∃ j < G.ptrs, nb ≤ 12 + j ∧ v.core.ptr (iBlock (e n) 12) j = b := by
      intro b
      rw [mem_pointers, hdata₁, h12]
      refine and_congr_right fun _ => exists_congr fun j => ?_
      rw [mem_indices, Nat.zero_add]
      exact ⟨fun h => ⟨h.1.2, by omega, h.2⟩, fun h => ⟨⟨by omega, h.1⟩, h.2.2⟩⟩
    refine (rd₁.truncateIndirect hu.range hu.data fun b hb => ?_).mono fun y v₂ sh => ?_
    · obtain ⟨hb0, j, hj, -, rfl⟩ := hmem₂.mp hb
      have hblk : v.core.block (e n) 12 [j] = v.core.ptr (iBlock (e n) 12) j := if_neg h0
      rw [← hblk] at hb0 ⊢
      exact (hgood (Geo.isPlace_single hj) hb0).range
    have hused := sh.used
    rw [hc₁, Core.release_append, ← hc₁, h12] at hused
    rw [h12] at hmem₂
    rw [after_pure]
    refine ⟨sh.ready, by rw [sh.iused, hc₁]; rfl, hsize y,
      trimmed_of rd.wf ow hn (fun k hk => ?_) (fun hC _ j hj => ?_) (fun b hb => ?_) hused
      fun b => ?_⟩
    · rw [hkeep, sh.slots k, hslot k]
      split_ifs <;> first | rfl | omega
    · have hnb : 12 < nb := by
        by_contra h
        exact hC ⟨le_rfl, by omega, hob⟩
      rw [← h12, sh.ptr hnb j hj]
      refine if_congr (by simp [hob]) rfl ?_
      unfold Core.ptr
      rw [hdata₁]
    · rw [sh.data b (h12 ▸ hb), hdata₁]
    · rw [mem_append, mem_append, hmem, hmem₂, severed_iff]
      constructor
      · rintro (⟨hb, k, h1, h2, h3⟩ | ⟨hb, h⟩ | h)
        · exact ⟨hb, .inl ⟨k, by omega, h1, by omega, h3⟩⟩
        · exact ⟨hb, .inr ⟨hob, h0, h⟩⟩
        · split_ifs at h with hnb
          · obtain rfl := mem_singleton.mp h
            exact ⟨h0, .inl ⟨12, le_rfl, hnb, hob, rfl⟩⟩
          · exact absurd h not_mem_nil
      · rintro ⟨hb, ⟨k, hk, h1, h2, h3⟩ | ⟨-, -, h⟩⟩
        · rcases Nat.lt_or_eq_of_le hk with hlt | rfl
          · exact .inl ⟨hb, k, h1, by omega, h3⟩
          · rw [if_pos h1, ← h3]
            exact .inr (.inr (mem_singleton_self _))
        · exact .inr (.inl ⟨hb, h⟩)
  · -- the singly indirect block is not visited
    rw [h12] at hcond
    have hskip : 12 < ob → iBlock (e n) 12 = 0 := fun h => by_contra fun h0 => hcond ⟨h, h0⟩
    rw [after_bind, after_pure, after_pure]
    refine ⟨rd₁, by rw [hc₁]; rfl, hsize x,
      trimmed_of rd.wf ow hn (fun k hk => ?_) (fun _ h0 j _ => ?_) (fun b _ => by rw [hdata₁])
      (congrArg Core.used hc₁) fun b => ?_⟩
    · rw [hkeep, hslot k]
      split_ifs with h₁ h₂ h₂
      · rfl
      · omega
      · obtain rfl : k = 12 := by omega
        exact hskip h₂.2.2
      · rfl
    · rw [if_neg fun h => h0 (hskip h.1)]
      unfold Core.ptr
      rw [hdata₁]
    · rw [hmem, severed_iff]
      refine and_congr_right fun hb => ⟨?_, ?_⟩
      · rintro ⟨k, h1, h2, h3⟩
        exact .inl ⟨k, by omega, h1, by omega, h3⟩
      · rintro (⟨k, hk, h1, h2, h3⟩ | ⟨hob, h0, -⟩)
        · refine ⟨k, h1, lt_min h2 (lt_of_le_of_ne hk ?_), h3⟩
          rintro rfl
          exact hb (h3.symm.trans (hskip h2))
        · exact absurd (hskip hob) h0

end Ready

/-! ## Sizes -/

/-- Logical block `l` is one of the blocks that `ext2_truncate_inode` counts for `size` bytes. -/
def SizeCounts (G : Geo) (size l : ℕ) : Prop := l * G.bs < size ∧ size + G.bs ≤ 2 ^ 32

instance (G : Geo) (size l : ℕ) : Decidable (SizeCounts G size l) :=
  inferInstanceAs (Decidable (_ ∧ _))

/-- The rounding is right up to the last block before `2 ^ 32`, and gives no block there. -/
theorem lt_sizeBlocks_iff {G : Geo} (wf : G.Wf) {size l : ℕ} (hs : size < 2 ^ 32) :
    l < sizeBlocks size G.bs ↔ SizeCounts G size l := by
  have hpos := wf.bs_pos
  unfold sizeBlocks SizeCounts sub32 add32
  by_cases h : size + G.bs ≤ 2 ^ 32
  · have hsum : ((size + G.bs) % 2 ^ 32 + 2 ^ 32 - 1) % 2 ^ 32 = size + G.bs - 1 := by omega
    rw [hsum, ← Nat.succ_le_iff, Nat.le_div_iff_mul_le hpos, Nat.succ_mul]
    omega
  · have hbs : G.bs ≤ 4096 := by rcases wf.size with h | h | h <;> omega
    have hsum : ((size + G.bs) % 2 ^ 32 + 2 ^ 32 - 1) % 2 ^ 32 < G.bs := by omega
    rw [Nat.div_eq_of_lt hsum]
    omega

theorem place_of_single {G : Geo} {j : ℕ} (hj : j < G.ptrs) : G.place (12 + j) = (12, [j]) := by
  unfold Geo.place
  rw [if_neg (by omega), Nat.add_sub_cancel_left, if_pos hj]

theorem Cut.cases {G : Geo} {nb ob k : ℕ} {p : List ℕ} (hp : G.IsPlace k p) (hC : Cut nb ob k p) :
    (k = 12 ∧ p = []) ∨ ∃ l < 12 + G.ptrs, G.place l = (k, p) := by
  cases p with
  | nil =>
    rcases Nat.lt_or_eq_of_le hC.1 with hk | rfl
    · exact .inr ⟨k, by omega, if_pos hk⟩
    · exact .inl ⟨rfl, rfl⟩
  | cons j p =>
    obtain ⟨rfl, -⟩ := hC
    obtain rfl := hp.single
    exact .inr ⟨12 + j, Nat.add_lt_add_left hp.head _, place_of_single hp.head⟩

theorem cut_place {G : Geo} {nb ob l : ℕ} :
    Cut nb ob (G.place l).1 (G.place l).2 ↔ nb ≤ l ∧ l < 12 + G.ptrs ∧ min l 12 < ob := by
  unfold Geo.place
  split_ifs with h1 h2 h3
  · show l ≤ 12 ∧ nb ≤ l ∧ l < ob ↔ _
    omega
  · show 12 = 12 ∧ 12 < ob ∧ nb ≤ 12 + (l - 12) ↔ _
    omega
  · show 13 = 12 ∧ _ ↔ _
    omega
  · show 14 = 12 ∧ _ ↔ _
    omega

/-! ## What a truncation should do -/

/-- The truncation of the inode `ino` from the raw inode `x` to `newSize` bytes: the blocks from the
new end on are gone and free, the other ones stay, indirect blocks without entries are free, no
other block changes its bit, and after a later write at or behind the old end the bytes between the
two ends are zero. -/
structure Truncated (G : Geo) (v : Vol) (ino : ℕ) (x : Bytes) (newSize : ℕ) (x' : Bytes)
    (v' : Vol) : Prop where
  above : ∀ l < G.mblocks, newSize ≤ l * G.bs → resolved v' x' l = 0 ∧
    (resolved v x l ≠ 0 → v'.core.used (resolved v x l) = false)
  below : ∀ l < G.mblocks, l * G.bs < newSize → resolved v' x' l = resolved v x l
  indirect : ∀ k p, G.IsPlace k p → p.length < depth k → v.core.block x k p ≠ 0 →
    (∀ j < G.ptrs, v'.core.block x' k (j :: p) = 0) → v'.core.used (v.core.block x k p) = false
  others : ∀ b, v'.core.used b ≠ v.core.used b →
    (∃ l < G.mblocks, newSize ≤ l * G.bs ∧ resolved v x l = b) ∨
    ∃ k p, G.IsPlace k p ∧ p.length < depth k ∧ v.core.block x k p = b ∧
      ∀ j < G.ptrs, v'.core.block x' k (j :: p) = 0
  extended : ∀ (buf : Bytes) (count offset : ℕ), iSize x ≤ offset → offset + count < 2 ^ 32 →
    ∀ i, newSize ≤ i → i < iSize x →
      content (((ext2Write (Inode.ofDisk ino x') buf count offset).run v').2.core.file
        ((ext2Write (Inode.ofDisk ino x') buf count offset).run v').1.2.disk G) G.bs i = 0

/-- The maps and sizes for which `ext2_truncate_inode` to `newSize` bytes does what it should. -/
structure CleanCut (G : Geo) (c : Core) (x : Bytes) (newSize : ℕ) : Prop where
  /-- The blocks from the new end on are direct or singly indirect and counted in the old size. -/
  visited : ∀ l < G.mblocks, c.fileBlock x G l ≠ 0 → newSize ≤ l * G.bs →
    l < 12 + G.ptrs ∧ SizeCounts G (iSize x) (min l 12)
  /-- A new size that counts as no block finds nothing to free. -/
  unwrapped : 2 ^ 32 < newSize + G.bs → ∀ l < 12 + G.ptrs, c.fileBlock x G l ≠ 0 →
    ¬ SizeCounts G (iSize x) (min l 12)
  /-- The singly indirect block is given up or keeps an entry. -/
  single : iBlock x 12 ≠ 0 →
    (SizeCounts G (iSize x) 12 ∧ (newSize ≤ 12 * G.bs ∨ 2 ^ 32 < newSize + G.bs)) ∨
    ∃ l, 12 ≤ l ∧ l < 12 + G.ptrs ∧ l * G.bs < newSize ∧ c.fileBlock x G l ≠ 0
  /-- The other indirect blocks have entries. -/
  deep : ∀ k p, 13 ≤ k → G.IsPlace k p → p.length < depth k → c.block x k p ≠ 0 →
    ∃ j < G.ptrs, c.block x k (j :: p) ≠ 0
  /-- The last block that stays is zero from the new end up to the old one. -/
  tail : ∀ i, newSize ≤ i → i < iSize x → i / G.bs * G.bs < newSize →
    content (c.file x G) G.bs i = 0

section Trimmed

variable {G : Geo} {A : ℕ → Prop} {c c' : Core} {e : ℕ → Bytes} {n l nb ob : ℕ} {x' : Bytes}
  (tr : Trimmed G A c e c' (update e n x') n (Cut nb ob)) (hn : A n)

include tr hn

omit hn in
theorem Trimmed.block_eq_zero {k : ℕ} {p : List ℕ} (hp : G.IsPlace k p) (hC : Cut nb ob k p) :
    c'.block x' k p = 0 := by
  have h := tr.cut k p hp hC
  rwa [update_self] at h

theorem Trimmed.block_eq {k : ℕ} {p : List ℕ} (hp : G.IsPlace k p) (hC : ¬ Cut nb ob k p) :
    c'.block x' k p = c.block (e n) k p := by
  have h := tr.place n k p hn hp fun h => hC h.2
  rwa [update_self] at h

theorem Trimmed.stays_used (ow : Own G c A e) {k : ℕ} {p : List ℕ} (hp : G.IsPlace k p)
    (hC : ¬ Cut nb ob k p) (h0 : c.block (e n) k p ≠ 0) :
    c'.used (c.block (e n) k p) ≠ false := by
  rw [tr.kept _ (ow.not_severed hn hn hp fun h => hC h.2), (ow.good n k p hn hp h0).used]
  exact Bool.noConfusion

theorem Trimmed.file_eq (hl : l < G.lblocks) (h : c'.fileBlock x' G l = c.fileBlock (e n) G l) :
    c'.file x' G l = c.file (e n) G l := file_congr h (tr.data n l hn hl)

end Trimmed

theorem content_of_hole {G : Geo} {c : Core} {x : Bytes} {i : ℕ}
    (h : c.fileBlock x G (i / G.bs) = 0) : content (c.file x G) G.bs i = 0 := by
  unfold content Core.file
  rw [if_pos h]
  rfl

theorem lt_mblocks {G : Geo} {l : ℕ} (h : l < 12 + G.ptrs) : l < G.mblocks := by
  unfold Geo.mblocks
  omega

namespace CleanCut

variable {G : Geo} {A : ℕ → Prop} {c c' : Core} {e : ℕ → Bytes} {n l newSize : ℕ} {x' : Bytes}
  (wf : G.Wf) (hs : newSize < 2 ^ 32) (hold : iSize (e n) < 2 ^ 32)
  (tr : Trimmed G A c e c' (update e n x') n (cutFor G (e n) newSize))
  (hn : A n) (cl : CleanCut G c (e n) newSize)

include wf hs hold tr hn cl

theorem above (hl : l < G.mblocks) (hnew : newSize ≤ l * G.bs) : c'.fileBlock x' G l = 0 ∧
    (c.fileBlock (e n) G l ≠ 0 → c'.used (c.fileBlock (e n) G l) = false) := by
  have hp := wf.place_isPlace_of_lt hl
  by_cases h0 : c.fileBlock (e n) G l = 0
  · refine ⟨?_, fun h => absurd h0 h⟩
    by_cases hC : cutFor G (e n) newSize (G.place l).1 (G.place l).2
    · exact tr.block_eq_zero hp hC
    · exact (tr.block_eq hn hp hC).trans h0
  · obtain ⟨hlt, hcov⟩ := cl.visited l hl h0 hnew
    have hnb : sizeBlocks newSize G.bs ≤ l := not_lt.mp fun h =>
      absurd ((lt_sizeBlocks_iff wf hs).mp h).1 (not_lt.mpr hnew)
    have hC := cut_place.mpr ⟨hnb, hlt, (lt_sizeBlocks_iff wf hold).mpr hcov⟩
    exact ⟨tr.block_eq_zero hp hC, fun _ => tr.freed _ ⟨h0, _, _, hp, hC, rfl⟩⟩

omit tr hn in
theorem not_cut (h0 : c.fileBlock (e n) G l ≠ 0) (hnew : l * G.bs < newSize) :
    ¬ cutFor G (e n) newSize (G.place l).1 (G.place l).2 := by
  intro hC
  obtain ⟨hnb, hlt, hob⟩ := cut_place.mp hC
  have hwrap : 2 ^ 32 < newSize + G.bs := by
    by_contra h
    exact absurd ((lt_sizeBlocks_iff wf hs).mpr ⟨hnew, not_lt.mp h⟩) (not_lt.mpr hnb)
  exact cl.unwrapped hwrap l hlt h0 ((lt_sizeBlocks_iff wf hold).mp hob)

theorem below (hl : l < G.mblocks) (hnew : l * G.bs < newSize) :
    c'.fileBlock x' G l = c.fileBlock (e n) G l := by
  have hp := wf.place_isPlace_of_lt hl
  by_cases hC : cutFor G (e n) newSize (G.place l).1 (G.place l).2
  · refine (tr.block_eq_zero hp hC).trans (Eq.symm ?_)
    by_contra h0
    exact cl.not_cut wf hs hold h0 hnew hC
  · exact tr.block_eq hn hp hC

theorem content_eq_zero {i : ℕ} (hi : newSize ≤ i) (hi' : i < iSize (e n)) :
    content (c'.file x' G) G.bs i = 0 := by
  have hl : i / G.bs < G.lblocks := wf.pos_div_lt (hi'.trans hold)
  have hm := hl.trans wf.lblocks_lt
  rcases Nat.lt_or_ge (i / G.bs * G.bs) newSize with h | h
  · rw [content_congr (tr.file_eq hn hl (cl.below wf hs hold tr hn hm h))]
    exact cl.tail i hi hi' h
  · exact content_of_hole (cl.above wf hs hold tr hn hm h).1

end CleanCut

/-! ## The condition -/

/-- Writes at or behind `old` leave the bytes before it as they are. -/
theorem Opened.extended_iff {v : Vol} {G : Geo} {e : ℕ → Bytes} {inode : Inode} {old : ℕ}
    (op : Opened v G e inode) (hold : old < 2 ^ 32) (new : ℕ) :
    (∀ (buf : Bytes) (count offset : ℕ), old ≤ offset → offset + count < 2 ^ 32 →
      ∀ i, new ≤ i → i < old → content (((ext2Write inode buf count offset).run v).2.core.file
        ((ext2Write inode buf count offset).run v).1.2.disk G) G.bs i = 0) ↔
    ∀ i, new ≤ i → i < old → content (v.core.file inode.disk G) G.bs i = 0 := by
  have hsame : ∀ (buf : Bytes) (count offset : ℕ), old ≤ offset → offset + count < 2 ^ 32 →
      ∀ i < old, content (((ext2Write inode buf count offset).run v).2.core.file
        ((ext2Write inode buf count offset).run v).1.2.disk G) G.bs i =
          content (v.core.file inode.disk G) G.bs i := by
    intro buf count offset ho hc i hi
    generalize hrun : (ext2Write inode buf count offset).run v = out
    obtain ⟨⟨ret, inode'⟩, v'⟩ := out
    obtain ⟨written, -, hle, -, -, hwr⟩ := op.wrote (by omega) (by omega) hrun
    rw [hwr.content i (by omega), if_neg]
    unfold sub32
    omega
  refine ⟨fun h i h1 h2 => ?_, fun h buf count offset ho hc i h1 h2 => ?_⟩
  · rw [← hsame Bytes.zero 0 old le_rfl (by omega) i h2]
    exact h Bytes.zero 0 old le_rfl (by omega) i h1 h2
  · rw [hsame buf count offset ho hc i h2]
    exact h i h1 h2

section Truncation

variable {v v' : Vol} {G : Geo} {r : Inode} {A : ℕ → Prop} {e : ℕ → Bytes} {n newSize : ℕ}
  {x' : Bytes} (rd : Ready v G r) (rd' : Ready v' G r) (ow : Own G v.core A e) (hn : A n)
  (hs : newSize < 2 ^ 32) (hold : iSize (e n) < 2 ^ 32)
  (tr : Trimmed G A v.core e v'.core (update e n x') n (cutFor G (e n) newSize))

include rd rd' ow hn tr

theorem Trimmed.resolved_eq {l : ℕ} (hl : l < G.mblocks) :
    resolved v (e n) l = v.core.fileBlock (e n) G l ∧
      resolved v' x' l = v'.core.fileBlock x' G l := by
  have hx' := (tr.own ow hn).mapOk hn
  rw [update_self] at hx'
  exact ⟨rd.resolved_eq (fun k p hp _ => ow.mapOk hn k p hp) hl,
    rd'.resolved_eq (fun k p hp _ => hx' k p hp) hl⟩

include hs hold

theorem CleanCut.truncated (cl : CleanCut G v.core (e n) newSize)
    (hext : (∀ i, newSize ≤ i → i < iSize (e n) → content (v'.core.file x' G) G.bs i = 0) →
      ∀ (buf : Bytes) (count offset : ℕ), iSize (e n) ≤ offset → offset + count < 2 ^ 32 →
      ∀ i, newSize ≤ i → i < iSize (e n) →
        content (((ext2Write (Inode.ofDisk n x') buf count offset).run v').2.core.file
          ((ext2Write (Inode.ofDisk n x') buf count offset).run v').1.2.disk G) G.bs i = 0) :
    Truncated G v n (e n) newSize x' v' where
  above l hl hnew := by
    obtain ⟨h, h'⟩ := tr.resolved_eq rd rd' ow hn hl
    rw [h, h']
    exact cl.above rd.wf hs hold tr hn hl hnew
  below l hl hnew := by
    obtain ⟨h, h'⟩ := tr.resolved_eq rd rd' ow hn hl
    rw [h, h']
    exact cl.below rd.wf hs hold tr hn hl hnew
  indirect k p hp hlen h0 hempty := by
    have hk : 12 ≤ k := by
      unfold depth at hlen
      omega
    rcases Nat.lt_or_eq_of_le hk with hk | rfl
    · -- a block below the other two slots keeps an entry
      obtain ⟨j, hj, hne⟩ := cl.deep k p hk hp hlen h0
      have hC : ¬ cutFor G (e n) newSize k (j :: p) := fun h => by have := h.1; omega
      exact absurd ((tr.block_eq hn (hp.cons hlen hj) hC).symm.trans (hempty j hj)) hne
    · obtain rfl : p = [] := eq_nil_of_length_eq_zero (by unfold depth at hlen; omega)
      by_cases hC : cutFor G (e n) newSize 12 []
      · exact tr.freed _ ⟨h0, 12, [], hp, hC, rfl⟩
      exfalso
      rcases cl.single h0 with ⟨hcov, hsmall⟩ | ⟨l, h12, hlt, hnew, hne⟩
      · refine hC ⟨le_rfl, not_lt.mp fun h => ?_, (lt_sizeBlocks_iff rd.wf hold).mpr hcov⟩
        have := (lt_sizeBlocks_iff rd.wf hs).mp h
        unfold SizeCounts at this
        omega
      · obtain ⟨j, rfl⟩ := Nat.exists_eq_add_of_le h12
        have hsame := cl.below rd.wf hs hold tr hn (lt_mblocks hlt) hnew
        refine hne (hsame.symm.trans ?_)
        unfold Core.fileBlock
        rw [place_of_single (by omega)]
        exact hempty j (by omega)
  others b hb := by
    obtain ⟨h0, k, p, hp, hC, rfl⟩ := not_not.mp (mt (tr.kept b) hb)
    rcases hC.cases hp with ⟨rfl, rfl⟩ | ⟨l, hlt, hpl⟩
    · refine .inr ⟨12, [], hp, by decide, rfl, fun j hj => ?_⟩
      have hpj := Geo.isPlace_single hj
      exact tr.block_eq_zero hpj (hC.down hpj)
    · have hl := lt_mblocks hlt
      have hblk : v.core.fileBlock (e n) G l = v.core.block (e n) k p := by
        unfold Core.fileBlock
        rw [hpl]
      refine .inl ⟨l, hl, not_lt.mp fun hnew => ?_, ?_⟩
      · have hnc := cl.not_cut rd.wf hs hold (by rw [hblk]; exact h0) hnew
        rw [hpl] at hnc
        exact hnc hC
      · rw [(tr.resolved_eq rd rd' ow hn hl).1, hblk]
  extended := hext fun i hi hi' => cl.content_eq_zero rd.wf hs hold tr hn hi hi'

theorem Truncated.clean (h : Truncated G v n (e n) newSize x' v')
    (hzero : ∀ i, newSize ≤ i → i < iSize (e n) → content (v'.core.file x' G) G.bs i = 0) :
    CleanCut G v.core (e n) newSize := by
  have hres := fun {l} (hl : l < G.mblocks) => tr.resolved_eq rd rd' ow hn hl
  have hplace := fun {l} (hl : l < G.mblocks) => rd.wf.place_isPlace_of_lt hl
  have habove : ∀ l < G.mblocks, newSize ≤ l * G.bs → v'.core.fileBlock x' G l = 0 :=
    fun l hl hnew => (hres hl).2.symm.trans (h.above l hl hnew).1
  have hbelow : ∀ l < G.mblocks, l * G.bs < newSize →
      v'.core.fileBlock x' G l = v.core.fileBlock (e n) G l :=
    fun l hl hnew => (hres hl).2.symm.trans ((h.below l hl hnew).trans (hres hl).1)
  refine ⟨fun l hl h0 hnew => ?_, fun hwrap l hlt h0 hcov => ?_, fun h0 => ?_,
    fun k p hk hp hlen h0 => ?_, fun i hi hi' hlow => ?_⟩
  · by_contra hno
    have hC : ¬ cutFor G (e n) newSize (G.place l).1 (G.place l).2 := fun hC => by
      obtain ⟨-, hlt, hob⟩ := cut_place.mp hC
      exact hno ⟨hlt, (lt_sizeBlocks_iff rd.wf hold).mp hob⟩
    exact h0 ((tr.block_eq hn (hplace hl) hC).symm.trans (habove l hl hnew))
  · have hl := lt_mblocks hlt
    have hnb : sizeBlocks newSize G.bs ≤ l := not_lt.mp fun h =>
      absurd ((lt_sizeBlocks_iff rd.wf hs).mp h).2 (not_le.mpr hwrap)
    have hC := cut_place.mpr ⟨hnb, hlt, (lt_sizeBlocks_iff rd.wf hold).mpr hcov⟩
    have hnew : l * G.bs < newSize := by
      have h1 : l * G.bs ≤ (12 + G.ptrs) * G.bs := Nat.mul_le_mul_right _ hlt.le
      have h2 : (12 + G.ptrs) * G.bs + G.bs ≤ 2 ^ 31 := by
        unfold Geo.ptrs
        rcases rd.wf.size with h | h | h <;> rw [h] <;> norm_num
      omega
    exact h0 ((hbelow l hl hnew).symm.trans (tr.block_eq_zero (hplace hl) hC))
  · by_contra hno
    obtain ⟨hno₁, hno₂⟩ := not_or.mp hno
    have hp : G.IsPlace 12 [] := Geo.isPlace_nil (by norm_num)
    have hC : ¬ cutFor G (e n) newSize 12 [] := by
      rintro ⟨-, hnb, hob⟩
      refine hno₁ ⟨(lt_sizeBlocks_iff rd.wf hold).mp hob, ?_⟩
      by_contra hbig
      exact absurd ((lt_sizeBlocks_iff rd.wf hs).mpr ⟨by omega, by omega⟩) (not_lt.mpr hnb)
    -- the block stays, so it has an entry, and this one is below the new end
    refine tr.stays_used hn ow hp hC h0 (h.indirect 12 [] hp (by decide) h0 fun j hj => ?_)
    by_contra hj0
    have hl : 12 + j < G.mblocks := lt_mblocks (by omega)
    have hblk : v'.core.fileBlock x' G (12 + j) = v'.core.block x' 12 [j] := by
      unfold Core.fileBlock
      rw [place_of_single hj]
    have hnew : (12 + j) * G.bs < newSize := not_le.mp fun hnew =>
      hj0 (hblk.symm.trans (habove _ hl hnew))
    refine hno₂ ⟨12 + j, by omega, by omega, hnew, ?_⟩
    rw [← hbelow _ hl hnew, hblk]
    exact hj0
  · by_contra hno
    have hC : ∀ q, ¬ cutFor G (e n) newSize k q := by
      rintro (_ | ⟨j, q⟩) hC <;> have := hC.1 <;> omega
    refine tr.stays_used hn ow hp (hC p) h0 (h.indirect k p hp hlen h0 fun j hj => ?_)
    rw [tr.block_eq hn (hp.cons hlen hj) (hC _)]
    by_contra hj0
    exact hno ⟨j, hj, hj0⟩
  · have hl : i / G.bs < G.lblocks := rd.wf.pos_div_lt (hi'.trans hold)
    have hsame := hbelow _ (hl.trans rd.wf.lblocks_lt) hlow
    rw [← content_congr (tr.file_eq hn hl hsame)]
    exact hzero i hi hi'

end Truncation

/-- **Truncation.** On a consistent volume `ext2_truncate_inode` does what it should exactly for the
maps and sizes of `CleanCut`. -/
theorem truncate_iff {v v' : Vol} {G : Geo} {e : ℕ → Bytes} {inode : Inode} {newSize : ℕ} {ret : ℤ}
    {x' : Bytes} (op : Opened v G e inode) (hs : newSize < 2 ^ 32)
    (hrun : (ext2TruncateInode inode.disk newSize).run v = ((ret, x'), v')) :
    Truncated G v inode.ino inode.disk newSize x' v' ↔
      CleanCut G v.core inode.disk newSize := by
  have hdisk := op.disk
  generalize inode.disk = x at hdisk hrun ⊢
  subst hdisk
  have hold : iSize (e inode.ino) < 2 ^ 32 := Bytes.get32_lt _ _
  have hafter : After (ext2TruncateInode (e inode.ino) newSize) v _ :=
    op.ready.truncate op.own op.alloc hs
  obtain ⟨rd', hiused, -, tr⟩ := hafter.of_run hrun
  have halloc : v'.core.Alloc G = v.core.Alloc G := by
    unfold Core.Alloc
    rw [hiused]
  have op' : Opened v' G (update e inode.ino x') (Inode.ofDisk inode.ino x') :=
    ⟨rd'.root ▸ rd', halloc ▸ tr.own op.own op.alloc, halloc ▸ op.alloc,
      update_self _ _ _⟩
  have hext := op'.extended_iff hold newSize
  exact ⟨fun h => h.clean op.ready rd' op.own op.alloc hs hold tr (hext.mp h.extended),
    fun cl => cl.truncated op.ready rd' op.own op.alloc hs hold tr hext.mpr⟩

theorem openFile_fileBlock {l : ℕ} (h : fileVol.core.fileBlock openFile.disk sampleVol.geo l ≠ 0) :
    l = 0 := by
  have hslot : ∀ k < 15, k ≠ 0 → iBlock openFile.disk k = 0 := by
    intro k hk hk0
    refine (fileVol_slots 11 (by norm_num) k hk).trans ?_
    rw [if_neg (by omega), if_neg (by omega)]
  by_contra hl
  refine h (walk_of_root_eq_zero (hslot _ (Geo.place_fst_lt l) ?_) _)
  unfold Geo.place
  split_ifs
  · exact hl
  all_goals exact Nat.succ_ne_zero _

/-- The three-byte file can be truncated to nothing. -/
theorem truncate_file_to_nothing :
    Truncated sampleVol.geo fileVol 11 openFile.disk 0
      ((ext2TruncateInode openFile.disk 0).run fileVol).1.2
      ((ext2TruncateInode openFile.disk 0).run fileVol).2 := by
  generalize hrun : (ext2TruncateInode openFile.disk 0).run fileVol = out
  obtain ⟨⟨ret, x'⟩, v'⟩ := out
  refine (truncate_iff openFile_opened (by norm_num) hrun).mpr ⟨fun l _ h0 _ => ?_,
    fun h => ?_, fun h0 => absurd ?_ h0, fun k p hk hp _ h0 => absurd ?_ h0, fun i _ _ h => ?_⟩
  · obtain rfl := openFile_fileBlock h0
    exact ⟨by decide +kernel, by decide +kernel⟩
  · exact absurd h (by decide)
  · exact fileVol_slots 11 (by norm_num) 12 (by norm_num)
  · refine walk_of_root_eq_zero ((fileVol_slots 11 (by norm_num) k hp.1).trans ?_) p
    rw [if_neg (by omega), if_neg (by omega)]
  · exact absurd h (Nat.not_lt_zero _)

/-- The three-byte file after a write of one byte behind the singly indirect blocks. -/
noncomputable def doublyWritten : (ℤ × Inode) × Vol :=
  (ext2Write openFile Bytes.zero 1 (268 * 1024)).run fileVol

/-- The truncation to nothing leaves the block behind the singly indirect ones, and the truncation
of the three-byte file to `2 ^ 32 - 1` bytes frees its block. -/
theorem truncate_leaves_blocks :
    ¬ Truncated sampleVol.geo doublyWritten.2 11 doublyWritten.1.2.disk 0
        ((ext2TruncateInode doublyWritten.1.2.disk 0).run doublyWritten.2).1.2
        ((ext2TruncateInode doublyWritten.1.2.disk 0).run doublyWritten.2).2 ∧
      ¬ Truncated sampleVol.geo fileVol 11 openFile.disk (2 ^ 32 - 1)
        ((ext2TruncateInode openFile.disk (2 ^ 32 - 1)).run fileVol).1.2
        ((ext2TruncateInode openFile.disk (2 ^ 32 - 1)).run fileVol).2 := by
  refine ⟨fun h => ?_, fun h => ?_⟩
  · have habove := h.above 268 (by decide +kernel) (Nat.zero_le _)
    exact absurd habove.1 (by decide +kernel)
  · have hbelow := h.below 0 (by decide +kernel) (by norm_num)
    exact absurd hbelow (by decide +kernel)

end DvivonOS
