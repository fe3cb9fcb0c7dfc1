import DvivonOS.Ext2.BlockMap

/-!
# Changing a block map

`Upd` is the effect of an operation on one inode: its file changes, and no other file does.
`ext2_assign_block_num` adds indirect blocks, which no file sees (`Quiet`), and then enters the new
block at one place of one map (`Ready.assign`).
-/

namespace DvivonOS

open Function

/-! ## Changing one map -/

/-- A byte of a raw inode outside `i_blocks` and `i_block`. -/
def FieldByte (i : ℕ) : Prop := i < 28 ∨ (32 ≤ i ∧ i < 40) ∨ 100 ≤ i

/-- From `c`, `e` to `c'` the raw inode of `n` has become `x'` and its file `F`. The files of the
other inodes of `A`, the inode bitmaps and the inode tables stay, and so do the fields of the inode
outside `i_blocks` and `i_block`. -/
structure Upd (G : Geo) (A : ℕ → Prop) (n : ℕ) (c : Core) (e : ℕ → Bytes) (c' : Core) (x' : Bytes)
    (F : ℕ → Option Bytes) : Prop where
  own : Own G c' A (update e n x')
  iused : c'.iused = c.iused
  ino : c'.ino = c.ino
  self : ∀ l < G.lblocks, c'.file x' G l = F l
  other : ∀ m, A m → m ≠ n → ∀ l < G.lblocks, c'.file (e m) G l = c.file (e m) G l
  fields : ∀ i, FieldByte i → x' i = e n i

namespace Upd

variable {G : Geo} {A : ℕ → Prop} {n : ℕ} {c c' c'' : Core} {e : ℕ → Bytes} {x' x'' : Bytes}
  {F F' : ℕ → Option Bytes}

theorem refl (ow : Own G c A e) : Upd G A n c e c (e n) (c.file (e n) G) where
  own := by rw [update_eq_self]; exact ow
  iused := rfl
  ino := rfl
  self _ _ := rfl
  other _ _ _ _ _ := rfl
  fields _ _ := rfl

theorem trans (h : Upd G A n c e c' x' F)
    (h' : Upd G A n c' (update e n x') c'' x'' F') : Upd G A n c e c'' x'' F' where
  own := by have := h'.own; rwa [update_idem] at this
  iused := h'.iused.trans h.iused
  ino := h'.ino.trans h.ino
  self := h'.self
  other m hm hne l hl := by
    have := h'.other m hm hne l hl
    rw [update_of_ne hne] at this
    exact this.trans (h.other m hm hne l hl)
  fields i hi := by
    have := h'.fields i hi
    rw [update_self] at this
    exact this.trans (h.fields i hi)

theorem congr (h : Upd G A n c e c' x' F) (hF : ∀ l < G.lblocks, F l = F' l) :
    Upd G A n c e c' x' F' :=
  ⟨h.own, h.iused, h.ino, fun l hl => (h.self l hl).trans (hF l hl), h.other, h.fields⟩

theorem congr_disk (h : Upd G A n c e c' x' F) (hs : ∀ k < 15, iBlock x'' k = iBlock x' k)
    (hf : ∀ i, FieldByte i → x'' i = x' i) : Upd G A n c e c' x'' F where
  own := h.own.congr_slots fun m _ k hk => by
    by_cases hm : m = n
    · rw [hm, update_self, update_self]
      exact hs k hk
    · rw [update_of_ne hm, update_of_ne hm]
  iused := h.iused
  ino := h.ino
  self l hl := (file_congr_slots hs).trans (h.self l hl)
  other := h.other
  fields i hi := (hf i hi).trans (h.fields i hi)

theorem of_attached {k b : ℕ} {p : List ℕ} (wf : G.Wf) (hn : A n) (ow : Own G c A e)
    (fr : Fresh G c A e b) (hat : Attached G A c e c' (update e n x') n k p b)
    (hi : c'.iused = c.iused) (ho : c'.ino = c.ino)
    (hf : ∀ i, FieldByte i → x' i = e n i) :
    Upd G A n c e c' x' (fun l => if G.place l = (k, p) then some (c'.data b)
      else c.file (e n) G l) where
  own := hat.own ow fr
  iused := hi
  ino := ho
  self l hl := by
    have h := hat.file wf fr.usable.ne_zero hn hl
    rw [update_self] at h
    rw [h]
    exact if_congr (by simp) rfl rfl
  other m hm hne l hl := by
    have h := hat.file wf fr.usable.ne_zero hm hl
    rwa [update_of_ne hne, if_neg (fun h => hne h.1)] at h
  fields := hf

end Upd

/-- From `c`, `e` to `c'` no file has changed, and the map of `n` has at most got new slots. -/
structure Idle (G : Geo) (A : ℕ → Prop) (n : ℕ) (c : Core) (e : ℕ → Bytes) (c' : Core)
    (x' : Bytes) : Prop where
  upd : Upd G A n c e c' x' (c.file (e n) G)
  sub : SubMap (e n) x'
  blocks : ∀ l < G.lblocks, c'.fileBlock x' G l = c.fileBlock (e n) G l

/-- Indirect blocks have been added to the map of `n`, and new blocks stay unheld. -/
structure Quiet (G : Geo) (A : ℕ → Prop) (n : ℕ) (c : Core) (e : ℕ → Bytes) (c' : Core)
    (x' : Bytes) : Prop extends Idle G A n c e c' x' where
  fresh : ∀ b, Fresh G c A e b → Fresh G c' A (update e n x') b

section Idle

variable {G : Geo} {A : ℕ → Prop} {n : ℕ} {c c' c'' : Core} {e : ℕ → Bytes} {x' x'' : Bytes}

namespace Idle

theorem of_upd (h : Upd G A n c e c' (e n) (c.file (e n) G))
    (hb : ∀ l < G.lblocks, c'.fileBlock (e n) G l = c.fileBlock (e n) G l) :
    Idle G A n c e c' (e n) := ⟨h, .refl _, hb⟩

theorem trans (h : Idle G A n c e c' x') (h' : Idle G A n c' (update e n x') c'' x'') :
    Idle G A n c e c'' x'' where
  upd := (h.upd.trans h'.upd).congr fun l hl => by
    rw [update_self]
    exact h.upd.self l hl
  sub := by
    have := h'.sub
    rw [update_self] at this
    exact h.sub.trans this
  blocks l hl := by
    have := h'.blocks l hl
    rw [update_self] at this
    exact this.trans (h.blocks l hl)

end Idle

namespace Quiet

theorem refl (ow : Own G c A e) : Quiet G A n c e c (e n) :=
  ⟨.of_upd (.refl ow) fun _ _ => rfl, fun b h => by rw [update_eq_self]; exact h⟩

theorem trans (h : Quiet G A n c e c' x') (h' : Quiet G A n c' (update e n x') c'' x'') :
    Quiet G A n c e c'' x'' :=
  ⟨h.toIdle.trans h'.toIdle, fun b hb => by
    have := h'.fresh b (h.fresh b hb)
    rwa [update_idem] at this⟩

end Quiet

end Idle

/-- The volume after `ext2_alloc_indirect_block` has returned `b`. -/
def Core.zeroed (c : Core) (b : ℕ) : Core := (c.setUsed b true).setData b Bytes.zero

namespace Own

variable {G : Geo} {A : ℕ → Prop} {n b : ℕ} {c : Core} {e : ℕ → Bytes} (ow : Own G c A e)
  (hv : Vacant G c b)

include ow hv

theorem zeroed_fresh : Own G (c.zeroed b) A e ∧ Fresh G (c.zeroed b) A e b ∧
    (∀ n k p, A n → G.IsPlace k p → (c.zeroed b).block (e n) k p = c.block (e n) k p) ∧
    ∀ b', Fresh G c A e b' → b' ≠ b ∧ Fresh G (c.zeroed b) A e b' := by
  obtain ⟨ow1, fr1⟩ := ow.alloc hv
  obtain ⟨hb, ow2⟩ := ow1.store (b := b) (fun n k p hn hp _ => fr1.unheld n k p hn hp) Bytes.zero
  refine ⟨ow2, ⟨⟨hv.range, hv.data, fr1.usable.used⟩, fun n k p hn hp => ?_⟩, hb, fun b' h => ?_⟩
  · rw [Core.zeroed, hb n k p hn hp]
    exact fr1.unheld n k p hn hp
  · have hne : b' ≠ b := by
      rintro rfl
      exact Bool.noConfusion (hv.free.symm.trans h.usable.used)
    refine ⟨hne, ⟨h.usable.range, h.usable.data, ?_⟩, fun n k p hn hp => ?_⟩
    · exact (update_of_ne hne _ _).trans h.usable.used
    · rw [Core.zeroed, hb n k p hn hp]
      exact h.unheld n k p hn hp

theorem zeroed_upd (wf : G.Wf) (hn : A n) :
    Upd G A n c e (c.zeroed b) (e n) (c.file (e n) G) := by
  obtain ⟨ow2, fr2, hb, -⟩ := ow.zeroed_fresh hv
  have hfile : ∀ m, A m → ∀ l < G.lblocks, (c.zeroed b).file (e m) G l = c.file (e m) G l := by
    intro m hm l hl
    have hp := wf.place_isPlace hl
    refine file_congr (hb m _ _ hm hp) fun h0 => update_of_ne ?_ _ _
    have := fr2.unheld m _ _ hm hp
    rwa [hb m _ _ hm hp] at this
  exact ⟨by rw [update_eq_self]; exact ow2, rfl, rfl, hfile n hn,
    fun m hm _ => hfile m hm, fun _ _ => rfl⟩

omit ow hv in
theorem zeroed_ptr (c : Core) (b j : ℕ) : (c.zeroed b).ptr b j = 0 := by
  unfold Core.ptr Core.zeroed
  rw [Core.setData_data, update_self]
  exact Bytes.get32_zero _

theorem quiet (wf : G.Wf) (hn : A n) {k : ℕ} {p : List ℕ} {c' : Core} {x' : Bytes}
    (hat : Attached G A (c.zeroed b) e c' (update e n x') n k p b)
    (hlen : p.length < depth k) (hi : c'.iused = c.iused) (ho : c'.ino = c.ino)
    (hx : ∀ i, FieldByte i → x' i = e n i) (hsub : SubMap (e n) x') : Quiet G A n c e c' x' := by
  obtain ⟨ow2, fr2, hb, hkeep⟩ := ow.zeroed_fresh hv
  have h1 : Upd G A n c e (c.zeroed b) (e n) (c.file (e n) G) := ow.zeroed_upd hv wf hn
  have h2 : Upd G A n (c.zeroed b) (update e n (e n)) c' x' (c.file (e n) G) := by
    rw [update_eq_self]
    refine (Upd.of_attached wf hn ow2 fr2 hat hi ho hx).congr fun l hl => ?_
    rw [if_neg, h1.self l hl]
    intro h
    have := Geo.place_leaf (G := G) l
    rw [h] at this
    exact absurd this (ne_of_lt hlen)
  refine ⟨⟨h1.trans h2, hsub, fun l hl => ?_⟩, fun b' h => hat.fresh (hkeep b' h).2 (hkeep b' h).1⟩
  have hp := wf.place_isPlace hl
  have := hat.place n _ _ hn hp
  rw [update_self, if_neg, hb n _ _ hn hp] at this
  · exact this
  · rintro ⟨-, h1, h2⟩
    have := Geo.place_leaf (G := G) l
    rw [h1, h2] at this
    exact absurd this (ne_of_lt hlen)

end Own

theorem setIBlock_fields (x : Bytes) {k b : ℕ} (hk : k < 15) :
    ∀ i, FieldByte i → setIBlock x k b i = x i :=
  fun _ hi => Bytes.put32_of_not_mem _ _ (by unfold FieldByte at hi; omega)

/-! ## `ext2_assign_block_num` -/

/-- The new block is entered at the last level. -/
structure Assigned (G : Geo) (A : ℕ → Prop) (n l phys : ℕ) (c : Core) (e : ℕ → Bytes) (c' : Core)
    (x' : Bytes) : Prop where
  upd : Upd G A n c e c' x' (update (c.file (e n) G) l (some (c'.data phys)))
  block : c'.fileBlock x' G l = phys

namespace Assigned

variable {G : Geo} {A : ℕ → Prop} {n l phys : ℕ} {c c' c1 : Core} {e : ℕ → Bytes} {x' x1 : Bytes}

theorem of_attached (wf : G.Wf) (hn : A n) (hl : l < G.lblocks)
    (ow : Own G c A e) (fr : Fresh G c A e phys)
    (hat : Attached G A c e c' (update e n x') n (G.place l).1 (G.place l).2 phys)
    (hi : c'.iused = c.iused) (ho : c'.ino = c.ino) (hx : ∀ i, FieldByte i → x' i = e n i) :
    Assigned G A n l phys c e c' x' where
  upd := (Upd.of_attached wf hn ow fr hat hi ho hx).congr fun l' _ => by
    by_cases h : l' = l
    · subst h
      rw [if_pos rfl, update_self]
    · rw [if_neg (fun h' => h (Geo.Wf.place_inj h')), update_of_ne h]
  block := by
    have := hat.place n _ _ hn (wf.place_isPlace hl)
    rw [update_self, if_pos ⟨rfl, rfl, rfl⟩] at this
    exact this

theorem of_quiet (h : Quiet G A n c e c1 x1)
    (h' : Assigned G A n l phys c1 (update e n x1) c' x') :
    Assigned G A n l phys c e c' x' where
  upd := (h.upd.trans h'.upd).congr fun l' hl' => by
    by_cases he : l' = l
    · rw [he, update_self, update_self]
    · rw [update_of_ne he, update_of_ne he, update_self]
      exact h.upd.self l' hl'
  block := h'.block

end Assigned

namespace Ready

variable {v : Vol} {G : Geo} {r : Inode} (rd : Ready v G r) {A : ℕ → Prop} {e : ℕ → Bytes}
  {n l phys : ℕ}

include rd

theorem allocIndirectBlock (hm : MetaUsed G v.core) {Q : ℕ → Vol → Prop} (h0 : Q 0 v)
    (h1 : ∀ b v', Vacant G v.core b → Ready v' G r → v'.core = v.core.zeroed b → Q b v') :
    After ext2AllocIndirectBlock v Q := by
  unfold ext2AllocIndirectBlock
  rw [after_bind]
  refine rd.allocBlock hm h0 fun b v1 hv rd1 hc1 => ?_
  rw [if_neg hv.ne_zero, after_kmalloc rd1.env, after_bind]
  refine rd1.writeData hv.data fun v2 rd2 hc2 => ?_
  rw [after_pure]
  exact h1 b v2 hv rd2 (by rw [hc2, hc1]; rfl)

end Ready

/-- A property of the volume and a raw inode that survives new indirect blocks: in an empty slot, or
below the doubly indirect block. -/
structure Admits (G : Geo) (P : Core → Bytes → Prop) : Prop where
  metaUsed : ∀ c x, P c x → MetaUsed G c
  inner : ∀ c x, P c x → InnerOk G c x
  slot : ∀ c x b k, P c x → Vacant G c b → 11 < k → k < 15 →
    iBlock x k = 0 → P (c.zeroed b) (setIBlock x k b)
  ptr : ∀ c x b i, P c x → Vacant G c b → G.IsPlace 13 [i] →
    iBlock x 13 ≠ 0 → c.ptr (iBlock x 13) i = 0 →
    P ((c.zeroed b).setData (iBlock x 13) ((c.data (iBlock x 13)).put32 (4 * i) b)) x

namespace Ready

variable {v : Vol} {G : Geo} {r : Inode} (rd : Ready v G r) {P : Core → Bytes → Prop}
  (ad : Admits G P) {x : Bytes} (hP : P v.core x) {l phys : ℕ}

include rd ad hP

/-- A missing indirect block of a slot is added, or cannot be allocated. -/
theorem ensureSlot {k : ℕ} (hk : 11 < k) (hk' : k < 15) {Q : Bytes → Vol → Prop}
    (h0 : iBlock x k = 0 → Q x v)
    (h1 : ∀ x' v', Ready v' G r → P v'.core x' → iBlock x' k ≠ 0 → Q x' v') :
    After (DvivonOS.ensureSlot x k) v Q := by
  unfold DvivonOS.ensureSlot
  split_ifs with hz
  · rw [after_bind]
    refine rd.allocIndirectBlock (ad.metaUsed _ _ hP) ?_ fun b v' hv rd' hc => ?_
    · rw [after_pure, setIBlock, Bytes.put32_zero hz]
      exact h0 hz
    · have hlt : b < 2 ^ 32 := lt_trans hv.range.2 rd.wf.blocks_lt
      rw [after_pure]
      refine h1 _ _ rd' ?_ (by rw [iBlock_setIBlock _ _ _ hlt, if_pos rfl]; exact hv.ne_zero)
      rw [hc]
      exact ad.slot _ _ b k hP hv hk hk' hz
  · exact h1 _ _ rd hP hz

/-- `ext2_assign_block_num` adds indirect blocks and fails, or sets a slot, or adds indirect blocks
and sets a pointer of an indirect block. -/
theorem assign_walk {Q : ℤ × Bytes → Vol → Prop}
    (hfail : ∀ x' v', Ready v' G r → P v'.core x' → Q (-1, x') v')
    (hslot : l < 12 → Q (0, setIBlock x l phys) v)
    (hptr : ∀ x' (v' v'' : Vol) k j p, Ready v'' G r → P v'.core x' → l < G.mblocks →
      G.place l = (k, j :: p) → v'.core.block x' k p ≠ 0 →
      v''.core = v'.core.setData (v'.core.block x' k p)
        ((v'.core.data (v'.core.block x' k p)).put32 (4 * j) phys) → Q (0, x') v'') :
    After (ext2AssignBlockNum x l phys G.bs) v Q := by
  have hptrs : G.bs / 4 = G.ptrs := rfl
  have hsame : Q (-1, x) v := hfail _ _ rd hP
  -- the end of the function, for the indirect block `w`
  have henter : ∀ {x' v' w k j p}, Ready v' G r → P v'.core x' → l < G.mblocks →
      G.place l = (k, j :: p) → v'.core.block x' k p = w → w ≠ 0 → After (do
        let r ← ext2ReadBlock w
        let _ ← ext2WriteBlock w (r.2.put32 (4 * j) phys)
        return (0, x') : FsM (ℤ × Bytes)) v' Q := by
    rintro x' v' _ k j p rd' hP' hl hpl rfl hw
    have hp := rd.wf.place_isPlace_of_lt hl
    rw [hpl] at hp
    have hd := ad.inner _ _ hP' k p hp.tail hp.2.1 hw
    rw [after_bind, rd'.read hd]
    dsimp only
    rw [after_bind]
    refine rd'.writeData hd fun v'' rd'' hc => ?_
    rw [after_pure]
    exact hptr x' v' v'' k j p rd'' hP' hl hpl hw hc
  unfold ext2AssignBlockNum
  rw [hptrs]
  by_cases h1 : l < 12
  · rw [if_pos h1, after_pure]
    exact hslot h1
  rw [if_neg h1]
  by_cases h2 : l - 12 < G.ptrs
  · have hpl : G.place l = (12, [l - 12]) := (if_neg h1).trans (if_pos h2)
    have hl : l < G.mblocks := by
      unfold Geo.mblocks
      omega
    rw [if_pos h2, after_bind]
    refine rd.ensureSlot ad hP (by norm_num) (by norm_num) (fun h0 => ?_)
      fun x1 v1 rd1 hP1 h0 => ?_
    · rw [if_pos h0, after_pure]
      exact hsame
    rw [if_neg h0, after_kmalloc rd1.env]
    exact henter rd1 hP1 hl hpl rfl h0
  rw [if_neg h2]
  by_cases h3 : l - 12 - G.ptrs < G.ptrs * G.ptrs
  · have hpl : G.place l = (13, [(l - 12 - G.ptrs) % G.ptrs, (l - 12 - G.ptrs) / G.ptrs]) :=
      (if_neg h1).trans ((if_neg h2).trans (if_pos h3))
    have hl : l < G.mblocks := by
      unfold Geo.mblocks
      omega
    have hp := rd.wf.place_isPlace_of_lt hl
    rw [hpl] at hp
    rw [if_pos h3, after_bind]
    refine rd.ensureSlot ad hP (by norm_num) (by norm_num) (fun h0 => ?_)
      fun x1 v1 rd1 hP1 h0 => ?_
    · rw [if_pos h0, after_pure]
      exact hsame
    have hd13 : ¬ G.Meta (iBlock x1 13) := ad.inner _ _ hP1 13 [] hp.tail.tail (by decide) h0
    rw [if_neg h0, after_kmalloc rd1.env, after_bind, rd1.read hd13]
    dsimp only
    generalize (l - 12 - G.ptrs) / G.ptrs = i at hpl hp ⊢
    by_cases h4 : ptrAt (v1.core.data (iBlock x1 13)) i = 0
    · -- the inner indirect block is missing too
      rw [if_pos h4, after_bind]
      refine rd1.allocIndirectBlock (ad.metaUsed _ _ hP1) ?_ fun b v2 hv rd2 hc2 => ?_
      · rw [if_pos rfl, after_pure]
        exact hfail _ _ rd1 hP1
      rw [if_neg hv.ne_zero, after_bind]
      refine rd2.writeData hd13 fun v3 rd3 hc3 => ?_
      rw [hc2] at hc3
      have hP3 : P v3.core x1 := hc3 ▸ ad.ptr _ _ b i hP1 hv hp.tail h0 h4
      refine henter rd3 hP3 hl hpl ?_ hv.ne_zero
      rw [block_cons, block_nil, if_neg h0, Core.ptr, hc3, Core.setData_data, update_self,
        ptrAt_put32 _ _ _ (lt_trans hv.range.2 rd.wf.blocks_lt), if_pos rfl]
    · rw [if_neg h4]
      exact henter rd1 hP1 hl hpl (if_neg h0) h4
  · rw [if_neg h3, after_pure]
    exact hsame

end Ready

section Quiet

variable {G : Geo} {A : ℕ → Prop} {n k i b : ℕ} {c : Core} {e : ℕ → Bytes} (wf : G.Wf) (hn : A n)

include wf hn

theorem Own.quiet_slot (ow : Own G c A e) (hv : Vacant G c b) (hk : 11 < k) (hk' : k < 15)
    (hz : iBlock (e n) k = 0) :
    Quiet G A n c e (c.zeroed b) (setIBlock (e n) k b) := by
  refine ow.quiet hv wf hn (k := k) (p := []) ?_ ?_ rfl rfl (setIBlock_fields _ hk')
    fun k' _ => ?_
  · exact Own.attachSlot wf (ow.zeroed_fresh hv).2.1 (.inr ⟨hz, Own.zeroed_ptr _ _⟩)
  · show 0 < depth k
    unfold depth
    omega
  · rw [iBlock_setIBlock _ _ _ (lt_trans hv.range.2 wf.blocks_lt)]
    split_ifs with hk
    · exact .inr (hk ▸ hz)
    · exact .inl rfl

theorem Own.quiet_ptr (ow : Own G c A e) (hv : Vacant G c b) (hp : G.IsPlace 13 [i])
    (h0 : iBlock (e n) 13 ≠ 0) (hz : c.ptr (iBlock (e n) 13) i = 0) :
    Quiet G A n c e ((c.zeroed b).setData (iBlock (e n) 13)
      ((c.data (iBlock (e n) 13)).put32 (4 * i) b)) (e n) := by
  obtain ⟨ow', fr, -⟩ := ow.zeroed_fresh hv
  have hne : iBlock (e n) 13 ≠ b := fr.unheld n 13 [] hn hp.tail
  have hdat : (c.zeroed b).data (iBlock (e n) 13) = c.data (iBlock (e n) 13) :=
    update_of_ne hne _ _
  have hat := ow'.attachPtr wf hn fr hp h0
    (.inr ⟨by rw [block_nil, Core.ptr, hdat]; exact hz, Own.zeroed_ptr _ _⟩)
  rw [block_nil, hdat] at hat
  refine ow.quiet hv wf hn (k := 13) (p := [i]) ?_ (by simp [depth]) rfl rfl
    (fun _ _ => rfl) (.refl _)
  rwa [update_eq_self]

theorem Quiet.admits : Admits G (Quiet G A n c e) where
  metaUsed _ _ h := h.upd.own.metaUsed
  inner _ _ h k p hp _ := by
    have hx := h.upd.own.mapOk hn
    rw [update_self] at hx
    exact hx k p hp
  slot _ x b k h hv hk hk' hz := by
    have hq := h.upd.own.quiet_slot wf hn (k := k) hv hk hk'
    rw [update_self] at hq
    exact h.trans (hq hz)
  ptr _ x b i h hv hp h0 hz := by
    have hq := h.upd.own.quiet_ptr wf hn hv hp
    rw [update_self] at hq
    exact h.trans (hq h0 hz)

end Quiet

namespace Ready

variable {v : Vol} {G : Geo} {r : Inode} (rd : Ready v G r) {A : ℕ → Prop} {e : ℕ → Bytes}
  {n l phys : ℕ}

include rd

/-- **`ext2_assign_block_num`** adds indirect blocks and fails, or also enters the block. -/
theorem assign (ow : Own G v.core A e) (hn : A n) (hl : l < G.lblocks)
    (fr : Fresh G v.core A e phys) {Q : ℤ × Bytes → Vol → Prop}
    (hfail : ∀ x' v', Ready v' G r → Quiet G A n v.core e v'.core x' → Q (-1, x') v')
    (hok : ∀ x' v', Ready v' G r → Assigned G A n l phys v.core e v'.core x' → Q (0, x') v') :
    After (ext2AssignBlockNum (e n) l phys G.bs) v Q := by
  refine rd.assign_walk (Quiet.admits rd.wf hn) (.refl ow) hfail (fun h => ?_)
    fun x' v' v'' k j p rd'' hq _ hpl h0 hc => hok x' v'' rd'' (.of_quiet hq ?_)
  · have hpl : G.place l = (l, []) := if_pos h
    refine hok _ _ rd (.of_attached rd.wf hn hl ow fr ?_ rfl rfl (setIBlock_fields _ (by omega)))
    rw [hpl]
    exact Own.attachSlot rd.wf fr (.inl (by unfold depth; omega))
  · have hp := rd.wf.place_isPlace hl
    have hleaf := Geo.place_leaf (G := G) l
    rw [hpl] at hp hleaf
    have hx : update e n x' n = x' := update_self _ _ _
    have hat := hq.upd.own.attachPtr rd.wf hn (hq.fresh _ fr) hp (by rwa [hx]) (.inl hleaf)
    rw [hx, ← hc] at hat
    refine .of_attached rd.wf hn hl hq.upd.own (hq.fresh _ fr) ?_ (by rw [hc]; rfl)
      (by rw [hc]; rfl) fun _ _ => by rw [hx]
    rwa [hpl, update_idem]

end Ready

/-! ## Single steps on a map -/

namespace Own

variable {G : Geo} {A : ℕ → Prop} {n b l : ℕ} {c : Core} {e : ℕ → Bytes} (ow : Own G c A e)

include ow

theorem alloc_upd (hv : Vacant G c b) :
    Upd G A n c e (c.setUsed b true) (e n) (c.file (e n) G) where
  own := by rw [update_eq_self]; exact (ow.alloc hv).1
  iused := rfl
  ino := rfl
  self _ _ := rfl
  other _ _ _ _ _ := rfl
  fields _ _ := rfl

theorem free_upd (fr : Fresh G c A e b) :
    Upd G A n c e (c.setUsed b false) (e n) (c.file (e n) G) where
  own := by rw [update_eq_self]; exact ow.free fr
  iused := rfl
  ino := rfl
  self _ _ := rfl
  other _ _ _ _ _ := rfl
  fields _ _ := rfl

theorem store_file (wf : G.Wf) (hn : A n) (hl : l < G.lblocks) (h0 : c.fileBlock (e n) G l ≠ 0)
    (buf : Bytes) : (∀ m k p, A m → G.IsPlace k p →
      (c.setData (c.fileBlock (e n) G l) buf).block (e m) k p = c.block (e m) k p) ∧
      Own G (c.setData (c.fileBlock (e n) G l) buf) A e := by
  refine ow.store (fun m k p hm hp' hlen h => ?_) buf
  obtain ⟨-, hk, hq⟩ := ow.inj hn (wf.place_isPlace hl) hm hp' h0 h.symm
  have := Geo.place_leaf (G := G) l
  rw [hk, hq] at this
  omega

theorem store_upd (wf : G.Wf) (hn : A n) (hl : l < G.lblocks) (h0 : c.fileBlock (e n) G l ≠ 0)
    (buf : Bytes) : Upd G A n c e (c.setData (c.fileBlock (e n) G l) buf) (e n)
      (update (c.file (e n) G) l (some buf)) := by
  have hp := wf.place_isPlace hl
  obtain ⟨hb, ow'⟩ := ow.store_file wf hn hl h0 buf
  have hother : ∀ m, A m → ∀ l' < G.lblocks, ¬ (m = n ∧ l' = l) →
      (c.setData (c.fileBlock (e n) G l) buf).file (e m) G l' = c.file (e m) G l' := by
    intro m hm l' hl' hne
    refine file_congr (hb m _ _ hm (wf.place_isPlace hl')) fun h0' => update_of_ne ?_ _ _
    intro h
    obtain ⟨rfl, hk, hq⟩ := ow.inj hm (wf.place_isPlace hl') hn hp h0' h
    exact hne ⟨rfl, Geo.Wf.place_inj (Prod.ext hk hq)⟩
  refine ⟨by rw [update_eq_self]; exact ow', rfl, rfl, fun l' hl' => ?_,
    fun m hm hne l' hl' => hother m hm l' hl' fun h => hne h.1, fun _ _ => rfl⟩
  by_cases h : l' = l
  · subst h
    have hfb : (c.setData (c.fileBlock (e n) G l') buf).fileBlock (e n) G l' =
        c.fileBlock (e n) G l' := hb n _ _ hn hp
    unfold Core.file
    rw [update_self, hfb, if_neg h0, Core.setData_data, update_self]
  · rw [update_of_ne h]
    exact hother n hn l' hl' fun h' => h h'.2

end Own

end DvivonOS
