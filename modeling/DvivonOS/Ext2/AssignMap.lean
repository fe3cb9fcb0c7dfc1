import DvivonOS.Ext2.Delete

/-!
# Assigning any block

`ext2_assign_block_num` against `ext2_resolve_block_num` for an arbitrary block number: nothing is
asked of the data blocks of a file, only of the indirect blocks (`Indirects`).

1. A store to one pointer changes one place of one map (`Indirects.setSlot`, `Indirects.setPtr`),
   since no other place holds the same indirect block.
2. New indirect blocks were free and are zeroed, so they change no leaf (`Deepened`); the pointer to
   the assigned block changes one leaf (`Entered`).
3. `resolve_after_assign`: what `ext2_resolve_block_num` returns before and after, for every logical
   block a map has room for and for the maps of all inodes.
-/

namespace DvivonOS

open Function

namespace Indirects

variable {G : Geo} {c c' : Core} {A : ℕ → Prop} {e e' : ℕ → Bytes} {n k b j : ℕ} {p : List ℕ}
  (ind : Indirects G c A e)

include ind

theorem innerOk (hn : A n) : InnerOk G c (e n) :=
  fun k p hp hlen h0 => (ind.good n k p hn ⟨hp, hlen⟩ h0).data

/-- A leaf may become any block; an inner place only a block that no other inner place holds. -/
theorem of_sets (h : Sets G A c e c' e' n k p b)
    (hused : ∀ x, c.used x = true → c'.used x = true)
    (hb : p.length < depth k → Usable G c' b ∧
      ∀ m k' q, A m → G.IsInner k' q → c.block (e m) k' q ≠ b) : Indirects G c' A e' where
  metaUsed x hx := hused x (ind.metaUsed x hx)
  good m k' q hm hq h0 := by
    rw [h m k' q hm hq.1] at h0 ⊢
    split_ifs at h0 ⊢ with he
    · obtain ⟨-, rfl, rfl⟩ := he
      exact (hb hq.2).1
    · have hold := ind.good m k' q hm hq h0
      exact ⟨hold.range, hold.data, hused _ hold.used⟩
  apart m k₁ q m' k₂ q' hm hq hm' hq' h0 he := by
    rw [h m k₁ q hm hq.1] at h0 he
    rw [h m' k₂ q' hm' hq'.1] at he
    split_ifs at h0 he with h₁ h₂ h₂
    · obtain ⟨rfl, rfl, rfl⟩ := h₁
      obtain ⟨rfl, rfl, rfl⟩ := h₂
      exact ⟨rfl, rfl, rfl⟩
    · obtain ⟨-, rfl, rfl⟩ := h₁
      exact absurd he.symm ((hb hq.2).2 m' k₂ q' hm' hq')
    · obtain ⟨-, rfl, rfl⟩ := h₂
      exact absurd he ((hb hq'.2).2 m k₁ q hm hq)
    · exact ind.apart m k₁ q m' k₂ q' hm hq hm' hq' h0 he

theorem zeroed (hf : c.used b = false) :
    (∀ m k p, A m → G.IsPlace k p → (c.zeroed b).block (e m) k p = c.block (e m) k p) ∧
      Indirects G (c.zeroed b) A e ∧
      ∀ m k p, A m → G.IsInner k p → (c.zeroed b).block (e m) k p ≠ 0 →
        (c.zeroed b).block (e m) k p ≠ b := by
  have hne : ∀ m k p, A m → G.IsInner k p → c.block (e m) k p ≠ 0 → c.block (e m) k p ≠ b := by
    intro m k p hm hp h0 he
    have hu := (ind.good m k p hm hp h0).used
    rw [he, hf] at hu
    cases hu
  have hsame : ∀ m k p, A m → G.IsPlace k p →
      (c.zeroed b).block (e m) k p = c.block (e m) k p := by
    intro m k p hm hp
    rw [← walk_slots, ← walk_slots c]
    refine walk_congr Geo.Place.closed (fun _ _ => rfl) ?_ (m, k) p ⟨hm, hp⟩
    rintro ⟨m', k'⟩ j q ⟨hm', hq⟩ h0
    rw [walk_slots] at h0 ⊢
    unfold Core.ptr Core.zeroed
    rw [Core.setData_data, update_of_ne (hne m' k' q hm' hq.inner h0), Core.setUsed_data]
  have hused : ∀ x, c.used x = true → (c.zeroed b).used x = true := by
    intro x hx
    show update c.used b true x = true
    by_cases hxb : x = b
    · rw [hxb, update_self]
    · rwa [update_of_ne hxb]
  refine ⟨hsame, ⟨fun x hx => hused x (ind.metaUsed x hx), ?_, ?_⟩, ?_⟩
  · intro m k p hm hp h0
    rw [hsame m k p hm hp.1] at h0 ⊢
    have hold := ind.good m k p hm hp h0
    exact ⟨hold.range, hold.data, hused _ hold.used⟩
  · intro m k p m' k' p' hm hp hm' hp' h0 he
    rw [hsame m k p hm hp.1] at h0 he
    rw [hsame m' k' p' hm' hp'.1] at he
    exact ind.apart m k p m' k' p' hm hp hm' hp' h0 he
  · intro m k p hm hp h0
    rw [hsame m k p hm hp.1] at h0 ⊢
    exact hne m k p hm hp h0

end Indirects

/-! ## What an assignment leaves -/

/-- Indirect blocks have been added to the map of `n`; no leaf of a map has changed. -/
structure Deepened (G : Geo) (A : ℕ → Prop) (n : ℕ) (c : Core) (e : ℕ → Bytes) (c' : Core)
    (x' : Bytes) : Prop where
  ind : Indirects G c' A (update e n x')
  leaf : ∀ m k p, A m → G.IsPlace k p → p.length = depth k →
    c'.block (update e n x' m) k p = c.block (e m) k p
  ino : c'.ino = c.ino

/-- One leaf has become `phys`. -/
structure Entered (G : Geo) (A : ℕ → Prop) (n l phys : ℕ) (c : Core) (e : ℕ → Bytes) (c' : Core)
    (x' : Bytes) : Prop where
  ind : Indirects G c' A (update e n x')
  leaf : ∀ m k p, A m → G.IsPlace k p → p.length = depth k →
    c'.block (update e n x' m) k p =
      if m = n ∧ (k, p) = G.place l then phys else c.block (e m) k p
  ino : c'.ino = c.ino

section Deepened

variable {G : Geo} {A : ℕ → Prop} {n l phys k b : ℕ} {p : List ℕ} {c c' c'' : Core} {e : ℕ → Bytes}
  {x' x'' : Bytes}

theorem Deepened.refl (ind : Indirects G c A e) : Deepened G A n c e c (e n) :=
  ⟨by rwa [update_eq_self], fun m k p _ _ _ => by rw [update_eq_self], rfl⟩

theorem Deepened.trans (h : Deepened G A n c e c' x')
    (h' : Deepened G A n c' (update e n x') c'' x'') : Deepened G A n c e c'' x'' := by
  obtain ⟨hind, hleaf, hino⟩ := h'
  rw [update_idem] at hind hleaf
  exact ⟨hind, fun m k p hm hp hlen => (hleaf m k p hm hp hlen).trans (h.leaf m k p hm hp hlen),
    hino.trans h.ino⟩

theorem Deepened.entered (h : Deepened G A n c e c' x')
    (h' : Entered G A n l phys c' (update e n x') c'' x'') :
    Entered G A n l phys c e c'' x'' := by
  obtain ⟨hind, hleaf, hino⟩ := h'
  rw [update_idem] at hind hleaf
  refine ⟨hind, fun m k p hm hp hlen => ?_, hino.trans h.ino⟩
  rw [hleaf m k p hm hp hlen, h.leaf m k p hm hp hlen]

theorem Indirects.deepened (ind : Indirects G c A e) (hv : Vacant G c b)
    (h : Sets G A (c.zeroed b) e c' (update e n x') n k p b)
    (hlen : p.length < depth k) (hu : c'.used = (c.zeroed b).used) (ho : c'.ino = c.ino) :
    Deepened G A n c e c' x' := by
  obtain ⟨hsame, hind, hne⟩ := ind.zeroed hv.free
  have hb : Usable G (c.zeroed b) b := ⟨hv.range, hv.data, update_self _ _ _⟩
  refine ⟨hind.of_sets h (fun x hx => hu ▸ hx) fun _ => ⟨⟨hv.range, hv.data, hu ▸ hb.used⟩, ?_⟩,
    ?_, ho⟩
  · intro m k' q hm hq he
    exact hne m k' q hm hq (by rw [he]; exact hb.ne_zero) he
  · intro m k' q hm hq hleaf
    rw [h m k' q hm hq, if_neg, hsame m k' q hm hq]
    rintro ⟨-, rfl, rfl⟩
    omega

theorem Indirects.entered (ind : Indirects G c A e)
    (h : Sets G A c e c' (update e n x') n (G.place l).1 (G.place l).2 phys)
    (hu : c'.used = c.used) (ho : c'.ino = c.ino) : Entered G A n l phys c e c' x' := by
  have hleaf := Geo.place_leaf (G := G) l
  refine ⟨ind.of_sets h (fun x hx => hu ▸ hx) fun hlen => by omega, fun m k p hm hp _ => ?_, ho⟩
  rw [h m k p hm hp]
  exact if_congr (by rw [Prod.ext_iff]) rfl rfl

theorem Indirects.deepened_slot (ind : Indirects G c A e) (wf : G.Wf) (hv : Vacant G c b)
    (hk : 11 < k) (hz : iBlock (e n) k = 0) :
    Deepened G A n c e (c.zeroed b) (setIBlock (e n) k b) := by
  have hset : Sets G A (c.zeroed b) e (c.zeroed b) (update e n (setIBlock (e n) k b)) n k
      [] b := Indirects.setSlot (lt_trans hv.range.2 wf.blocks_lt) (.inr ⟨hz, fun _ => Own.zeroed_ptr _ _⟩)
  have hdepth : ([] : List ℕ).length < depth k := by
    show 0 < k - 11
    omega
  exact ind.deepened hv hset hdepth rfl rfl

theorem Indirects.deepened_ptr {i : ℕ} (ind : Indirects G c A e) (wf : G.Wf) (hn : A n)
    (hv : Vacant G c b) (hp : G.IsPlace 13 [i]) (h0 : iBlock (e n) 13 ≠ 0) (hz : c.ptr (iBlock (e n) 13) i = 0) :
    Deepened G A n c e ((c.zeroed b).setData (iBlock (e n) 13)
      ((c.data (iBlock (e n) 13)).put32 (4 * i) b)) (e n) := by
  obtain ⟨-, indz, hne⟩ := ind.zeroed hv.free
  have hne13 : iBlock (e n) 13 ≠ b := hne n 13 [] hn hp.inner h0
  have hdat : (c.zeroed b).data (iBlock (e n) 13) = c.data (iBlock (e n) 13) :=
    update_of_ne hne13 _ _
  have hset := indz.setPtr hn hp h0 (lt_trans hv.range.2 wf.blocks_lt)
    (.inr ⟨by rw [block_nil, Core.ptr, hdat]; exact hz, hne13, Own.zeroed_ptr _ _⟩)
  rw [block_nil, hdat] at hset
  refine ind.deepened hv (k := 13) (p := [i]) ?_ (by simp [depth]) rfl rfl
  rwa [update_eq_self]

theorem Deepened.admits (wf : G.Wf) (hn : A n) : Admits G (Deepened G A n c e) where
  metaUsed _ _ h := h.ind.metaUsed
  inner _ _ h := by
    have hx := h.ind.innerOk hn
    rwa [update_self] at hx
  slot _ x b k h hv hk _ hz := by
    have hg := h.ind.deepened_slot (n := n) (k := k) wf hv hk
    rw [update_self] at hg
    exact h.trans (hg hz)
  ptr _ x b i h hv hp h0 hz := by
    have hg := h.ind.deepened_ptr wf hn hv hp
    rw [update_self] at hg
    exact h.trans (hg h0 hz)

end Deepened

/-! ## `ext2_assign_block_num` -/

namespace Ready

variable {v : Vol} {G : Geo} {r : Inode} (rd : Ready v G r) {A : ℕ → Prop} {e : ℕ → Bytes}
  {n l phys : ℕ}

include rd

theorem assign_any (ind : Indirects G v.core A e) (hn : A n) (hlt : phys < 2 ^ 32)
    {Q : ℤ × Bytes → Vol → Prop}
    (hfail : ∀ x' v', Ready v' G r → Deepened G A n v.core e v'.core x' → Q (-1, x') v')
    (hok : ∀ x' v', Ready v' G r → l < G.mblocks → Entered G A n l phys v.core e v'.core x' →
      Q (0, x') v') :
    After (ext2AssignBlockNum (e n) l phys G.bs) v Q := by
  refine rd.assign_walk (Deepened.admits rd.wf hn) (.refl ind) hfail (fun h => ?_)
    fun x' v' v'' k j p rd'' hg hl hpl h0 hc => hok x' v'' rd'' hl (hg.entered ?_)
  · have hl : l < G.mblocks := by
      unfold Geo.mblocks
      omega
    have hpl : G.place l = (l, []) := if_pos h
    refine hok _ _ rd hl (ind.entered ?_ rfl rfl)
    rw [hpl]
    exact Indirects.setSlot hlt (.inl (by unfold depth; omega))
  · have hp := rd.wf.place_isPlace_of_lt hl
    have hleaf := Geo.place_leaf (G := G) l
    rw [hpl] at hp hleaf
    have hx : update e n x' n = x' := update_self _ _ _
    have hset := hg.ind.setPtr hn hp (by rw [hx]; exact h0) hlt (.inl hleaf)
    rw [hx, ← hc] at hset
    refine hg.ind.entered ?_ (by rw [hc]; rfl) (by rw [hc]; rfl)
    rwa [hpl, update_idem]

end Ready

/-! ## Reading the map afterwards -/

def resolved (v : Vol) (x : Bytes) (l : ℕ) : ℕ := ((ext2ResolveBlockNum x l v.blockSize).run v).1

section Resolved

variable {v v' : Vol} {G : Geo} {r : Inode} {A : ℕ → Prop} {e : ℕ → Bytes} {n l phys : ℕ}
  {x' : Bytes}

theorem Ready.resolved_eq (rd : Ready v G r) {x : Bytes} (hx : InnerOk G v.core x)
    (hl : l < G.mblocks) : resolved v x l = v.core.fileBlock x G l := by
  unfold resolved
  rw [rd.bs_eq]
  exact (rd.resolve_of_inner hx hl (Q := fun b _ => b = v.core.fileBlock x G l)).mpr rfl

theorem Ready.resolved_congr (rd : Ready v G r) (rd' : Ready v' G r) {x x' : Bytes}
    (hx : InnerOk G v.core x) (hx' : InnerOk G v'.core x') (hl : l < G.mblocks)
    (h : v'.core.fileBlock x' G l = v.core.fileBlock x G l) :
    resolved v' x' l = resolved v x l := by
  rw [rd'.resolved_eq hx' hl, rd.resolved_eq hx hl, h]

theorem Deepened.resolved (h : Deepened G A n v.core e v'.core x') (rd : Ready v G r)
    (rd' : Ready v' G r) (ind : Indirects G v.core A e) {m : ℕ} (hm : A m) (hl : l < G.mblocks) :
    resolved v' (update e n x' m) l = resolved v (e m) l :=
  rd.resolved_congr rd' (ind.innerOk hm) (h.ind.innerOk hm) hl
    (h.leaf m _ _ hm (rd.wf.place_isPlace_of_lt hl) (Geo.place_leaf l))

theorem Entered.resolved_other (h : Entered G A n l phys v.core e v'.core x') (rd : Ready v G r)
    (rd' : Ready v' G r) (ind : Indirects G v.core A e) {m l' : ℕ} (hm : A m) (hl : l' < G.mblocks)
    (hne : ¬ (m = n ∧ l' = l)) :
    resolved v' (update e n x' m) l' = resolved v (e m) l' := by
  refine rd.resolved_congr rd' (ind.innerOk hm) (h.ind.innerOk hm) hl
    ((h.leaf m _ _ hm (rd.wf.place_isPlace_of_lt hl) (Geo.place_leaf l')).trans (if_neg ?_))
  rintro ⟨rfl, hpl⟩
  exact hne ⟨rfl, Geo.Wf.place_inj hpl⟩

theorem Entered.resolved_self (h : Entered G A n l phys v.core e v'.core x') (rd' : Ready v' G r)
    (hn : A n) (hl : l < G.mblocks) : resolved v' x' l = phys := by
  have hx' := h.ind.innerOk hn
  have hleaf := h.leaf n _ _ hn (rd'.wf.place_isPlace_of_lt hl) (Geo.place_leaf l)
  rw [update_self] at hx' hleaf
  rw [rd'.resolved_eq hx' hl]
  exact hleaf.trans (if_pos ⟨rfl, rfl⟩)

/-- **`ext2_assign_block_num` and `ext2_resolve_block_num`**: success changes the one logical block,
failure changes none, and the maps of the other inodes stay. -/
theorem resolve_after_assign (rd : Ready v G r) (ind : Indirects G v.core A e) (hn : A n)
    (hlt : phys < 2 ^ 32) {ret : ℤ}
    (hrun : (ext2AssignBlockNum (e n) l phys v.blockSize).run v = ((ret, x'), v')) :
    (ret = 0 ∧ resolved v' x' l = phys ∧
        (∀ l' < G.mblocks, l' ≠ l → resolved v' x' l' = resolved v (e n) l') ∨
      ret = -1 ∧ ∀ l' < G.mblocks, resolved v' x' l' = resolved v (e n) l') ∧
    v'.core.ino = v.core.ino ∧
    ∀ m, A m → m ≠ n → ∀ l' < G.mblocks, resolved v' (e m) l' = resolved v (e m) l' := by
  have hself : update e n x' n = x' := update_self _ _ _
  have hother : ∀ m, m ≠ n → update e n x' m = e m :=
    fun m h => update_of_ne h _ _
  -- the two ends of the run, with the inode and the volume named as in the statement
  have hend : (ret = -1 ∧ Ready v' G r ∧ Deepened G A n v.core e v'.core x') ∨
      (ret = 0 ∧ Ready v' G r ∧ l < G.mblocks ∧ Entered G A n l phys v.core e v'.core x') := by
    have h := rd.assign_any (l := l) ind hn hlt
      (Q := fun a w => (a.1 = -1 ∧ Ready w G r ∧ Deepened G A n v.core e w.core a.2) ∨
        (a.1 = 0 ∧ Ready w G r ∧ l < G.mblocks ∧ Entered G A n l phys v.core e w.core a.2))
      (fun x1 v1 rd1 hg => .inl ⟨rfl, rd1, hg⟩) (fun x1 v1 rd1 hl ha => .inr ⟨rfl, rd1, hl, ha⟩)
    rw [← rd.bs_eq] at h
    unfold After at h
    rw [hrun] at h
    exact h
  obtain ⟨rfl, rd', hg⟩ | ⟨rfl, rd', hl, ha⟩ := hend
  · refine ⟨.inr ⟨rfl, fun l' hl' => ?_⟩, hg.ino, fun m hm hne l' hl' => ?_⟩
    · have h := hg.resolved rd rd' ind hn hl'
      rwa [hself] at h
    · have h := hg.resolved rd rd' ind hm hl'
      rwa [hother m hne] at h
  · refine ⟨.inl ⟨rfl, ha.resolved_self rd' hn hl, fun l' hl' hne => ?_⟩, ha.ino,
      fun m hm hne l' hl' => ?_⟩
    · have h := ha.resolved_other rd rd' ind hn hl' (fun h => hne h.2)
      rwa [hself] at h
    · have h := ha.resolved_other rd rd' ind hm hl' (fun h => hne h.1)
      rwa [hother m hne] at h

end Resolved

/-- Block 9 becomes logical block 300 of the file `a`, below two new indirect blocks. -/
theorem resolve_after_assign_sample :
    resolved ((ext2AssignBlockNum (fileVol.core.ino 11) 300 9 1024).run fileVol).2
        ((ext2AssignBlockNum (fileVol.core.ino 11) 300 9 1024).run fileVol).1.2 300 = 9 := by
  have halloc : fileVol.core.Alloc sampleVol.geo 11 := ⟨by decide, by decide +kernel⟩
  have h0 : ((ext2AssignBlockNum (fileVol.core.ino 11) 300 9 1024).run fileVol).1.1 = 0 := by
    decide +kernel
  generalize hrun : (ext2AssignBlockNum (fileVol.core.ino 11) 300 9 1024).run fileVol = a at h0 ⊢
  obtain ⟨⟨ret, x'⟩, v'⟩ := a
  obtain ⟨⟨-, h, -⟩ | ⟨hret, -⟩, -⟩ :=
    resolve_after_assign fileVol_ready fileVol_opened.own.indirects halloc (by norm_num) hrun
  · exact h
  · exact absurd (hret.symm.trans h0) (by norm_num)

end DvivonOS
