import DvivonOS.Ext2.Assign
import DvivonOS.Ext2.Counts

/-!
# Room on a volume

On a volume whose counts are right the number of free blocks is a number of the abstract volume
(`Core.free`), and `ext2_alloc_block` fails exactly when it is zero. `Metered` is kept by every
operation on blocks and inodes. When `ext2_assign_block_num` fails, everything is as it was, except
in one case (`HalfWay`): the doubly indirect block is new and takes the last free block, so that the
indirect block behind it cannot be had.
-/

namespace DvivonOS

open Finset Function

/-! ## Free blocks -/

namespace Core

variable (c : Core) (G : Geo)

def freeIn (g : ℕ) : ℕ :=
  ((Finset.range (G.bits g)).filter fun i => c.used (G.first + g * G.bpg + i) = false).card

def free : ℕ := ∑ g ∈ Finset.range G.groups, c.freeIn G g

end Core

section Free

variable {c c' : Core} {G : Geo} {b : ℕ}

theorem free_congr (h : c'.used = c.used) : c'.free G = c.free G := by
  unfold Core.free Core.freeIn
  rw [h]

theorem free_eq_add_one (wf : G.Wf) (hb : G.InRange b) (hf : c.used b = false)
    (h : c'.used = update c.used b true) : c.free G = c'.free G + 1 := by
  have hg := wf.kgroup_lt (k := .block) hb
  have hi := wf.kindex_lt (k := .block) hb
  have hnum : G.first + G.kgroup .block b * G.bpg + G.kindex .block b = b :=
    Geo.Wf.knum_eq (k := .block) hb
  refine sum_add_one hg ?_ fun g hg' hne => ?_
  · refine card_clear_set hi (by rw [hnum]; exact hf) (by rw [hnum, h, update_self]) ?_
    intro j hj
    rw [h, update_of_ne (by omega)]
  · unfold Core.freeIn
    refine congrArg Finset.card (filter_congr fun i hi' => ?_)
    rw [h, update_of_ne]
    rintro he
    have hip : i < G.bpg := (lt_min_iff.mp (mem_range.mp hi')).1
    have := Geo.Wf.kgroup_knum (k := .block) (G := G) (g := g) hip
    rw [show G.knum .block g i = b from he] at this
    exact hne this.symm

theorem free_eq_zero_iff (wf : G.Wf) :
    c.free G = 0 ↔ ∀ b, G.InRange b → c.used b = true := by
  unfold Core.free Core.freeIn
  simp only [sum_eq_zero_iff, card_eq_zero, filter_eq_empty_iff,
    mem_range, Bool.not_eq_false]
  constructor
  · intro h b hb
    have := h _ (wf.kgroup_lt (k := .block) hb) (wf.kindex_lt (k := .block) hb)
    rwa [show G.first + _ * G.bpg + _ = b from Geo.Wf.knum_eq (k := .block) hb] at this
  · intro h g hg i hi
    exact h _ (wf.knum_range (k := .block) hg hi)

end Free

/-! ## Counted volumes -/

/-- Neither a data block nor a block of an inode table holds counts. -/
theorem Counted.write {v : Vol} (wf : v.geo.Wf) (hc : Counted v) {b : ℕ} (buf : Bytes)
    (hb : ∀ a, v.geo.Valid a → (∀ g k, a ≠ .itab g k) → v.geo.addr a ≠ b) :
    Counted (v.write b buf) := by
  have hdisk : ∀ a, v.geo.Valid a → (∀ g k, a ≠ .itab g k) →
      (v.write b buf).disk (v.geo.addr a) = v.disk (v.geo.addr a) :=
    fun a ha hne => update_of_ne (hb a ha hne) _ _
  have hclear : ∀ k, ∀ g < v.geo.groups, (v.write b buf).clear k g = v.clear k g := by
    intro k g hg
    unfold Vol.clear
    refine congrArg Finset.card (filter_congr fun i _ => ?_)
    unfold Vol.kbit
    rw [Vol.write_geo,
      hdisk _ (Geo.Wf.kloc_valid k hg) (by intro g' k'; cases k <;> simp [Kind.loc])]
  have hsum : ∀ k, ∑ g ∈ Finset.range v.geo.groups, (v.write b buf).clear k g =
      ∑ g ∈ Finset.range v.geo.groups, v.clear k g :=
    fun k => sum_congr rfl fun g hg => hclear k g (mem_range.mp hg)
  refine ⟨fun k g hg => ?_, fun k => ?_, fun k g hg => ?_, fun k => ?_⟩
  · rw [hclear k g hg]
    exact hc.gd k g hg
  · rw [Vol.write_geo, hsum k]
    exact hc.sb k
  · rw [hclear k g hg, ← hc.diskGd k g hg]
    refine congrArg (fun d => Bytes.get16 (Bytes.drop d _) _) ?_
    exact hdisk (.gdt (g / v.geo.gdpb)) (Geo.Wf.gdt_valid hg) (by simp)
  · rw [Vol.write_geo, hsum k, ← hc.diskSb k]
    refine congrArg (fun d => Bytes.get32 d _) ?_
    have hsb : (v.write b buf).disk v.sFirstDataBlock = v.disk v.sFirstDataBlock :=
      hdisk .sb trivial (by simp)
    have hs : v.sFirstDataBlock = if v.blockSize = 1024 then 1 else 0 := wf.start
    unfold Vol.diskSb
    by_cases h : v.blockSize = 1024
    · rw [if_pos h] at hs ⊢
      rw [hs] at hsb
      exact (if_pos h).trans hsb
    · rw [if_neg h] at hs ⊢
      rw [hs] at hsb
      exact (if_neg h).trans (congrArg (Bytes.drop · 1024) hsb)

/-- A volume ready for use whose counts are right and whose metadata are marked used. -/
structure Metered (v : Vol) (G : Geo) (r : Inode) : Prop extends Ready v G r where
  counted : Counted v
  metaUsed : MetaUsed G v.core

namespace Metered

variable {v : Vol} {G : Geo} {r : Inode} (mt : Metered v G r) {b n : ℕ} {buf : Bytes}

include mt

theorem groupCount {g : ℕ} (hg : g < G.groups) : v.bgFreeBlocksCount g = v.core.freeIn G g := by
  have h := mt.geo
  subst h
  refine (mt.counted.gd .block g hg).trans ?_
  refine congrArg Finset.card (filter_congr fun i hi => ?_)
  rw [← mt.kused_knum hg (mem_range.mp hi)]
  exact Iff.rfl

theorem freeCount : v.sFreeBlocksCount = v.core.free G := by
  have h := mt.geo
  subst h
  refine (mt.counted.sb .block).trans (sum_congr rfl fun g hg => ?_)
  rw [← mt.groupCount (mem_range.mp hg)]
  exact (mt.counted.gd .block g (mem_range.mp hg)).symm

theorem first_used : v.core.used G.first = true := mt.metaUsed _ ⟨.sb, trivial, rfl⟩

theorem allocBlock {Q : ℕ → Vol → Prop} (h0 : v.core.free G = 0 → Q 0 v)
    (h1 : ∀ b v', Vacant G v.core b → Metered v' G r → v'.core = v.core.setUsed b true → Q b v') :
    After ext2AllocBlock v Q := by
  have h := mt.geo
  subst h
  have hcount := alloc_counted mt.toReady mt.counted mt.first_used .block
  have hcore : After ext2AllocBlock v fun b v' => (b = 0 ∧ v' = v) ∨
      (Vacant v.geo v.core b ∧ Ready v' v.geo r ∧ v'.core = v.core.setUsed b true) :=
    mt.toReady.allocBlock mt.metaUsed (.inl ⟨rfl, rfl⟩) fun b v' hv rd' hc => .inr ⟨hv, rd', hc⟩
  refine (hcount.and hcore).mono fun b v' hboth => ?_
  obtain ⟨⟨ha, hc', -⟩, ⟨rfl, rfl⟩ | ⟨hv, rd', hcore'⟩⟩ := hboth
  · refine h0 ((free_eq_zero_iff mt.wf).mpr fun b hb => ?_)
    have hfull := ha.full.mp rfl _ (mt.wf.kgroup_lt (k := .block) hb) _
      (mt.wf.kindex_lt (k := .block) hb)
    exact (mt.kused_eq (k := .block) hb).trans hfull
  · refine h1 b v' hv ⟨rd', hc', fun b' hm => ?_⟩ hcore'
    rw [hcore', Core.setUsed_used]
    by_cases hbb : b' = b
    · rw [hbb, update_self]
    · rw [update_of_ne hbb]
      exact mt.metaUsed b' hm

theorem freeBlock (hb : G.InRange b) (hu : v.core.used b = true) (hm : ¬ G.Meta b)
    {Q : Unit → Vol → Prop}
    (h : ∀ v', Metered v' G r → v'.core = v.core.setUsed b false → Q () v') :
    After (ext2FreeBlock b) v Q := by
  have hg := mt.geo
  subst hg
  have hcount := free_counted (k := .block) mt.toReady mt.counted mt.first_used hb hu fun _ => hm
  have hcore : After (ext2FreeBlock b) v fun _ v' => v'.core = v.core.setUsed b false :=
    mt.toReady.freeBlock hb fun v' _ hc => hc
  refine (hcount.and hcore).mono fun _ v' hboth => ?_
  obtain ⟨⟨-, hc', rd', -⟩, hcore'⟩ := hboth
  refine h v' ⟨rd', hc', fun b' hm' => ?_⟩ hcore'
  have hne : b' ≠ b := fun e => hm (e ▸ hm')
  rw [hcore', Core.setUsed_used, update_of_ne hne]
  exact mt.metaUsed b' hm'

theorem writeData (hb : ¬ G.Meta b) {Q : ℤ → Vol → Prop}
    (h : ∀ v', Metered v' G r → v'.core = v.core.setData b buf → Q 0 v') :
    After (ext2WriteBlock b buf) v Q := by
  rw [after_writeBlock]
  have hcore := mt.core_write hb buf
  refine h _ ⟨mt.toReady.write, ?_, ?_⟩ hcore
  · have hg := mt.geo
    subst hg
    exact mt.counted.write mt.wf buf fun a ha _ e => hb ⟨a, ha, e⟩
  · rw [hcore]
    exact mt.metaUsed

theorem writeInodeRaw (hn : G.IsInode n) {x : Bytes} {Q : ℤ → Vol → Prop}
    (h : ∀ v', Metered v' G r → v'.core = v.core.setIno n (Bytes.zero.copy 0 x 128) → Q 0 v') :
    After (ext2WriteInodeRaw n x) v Q := by
  rw [mt.after_writeInodeRaw hn]
  obtain ⟨rd', hcore⟩ := mt.putInode hn x
  refine h _ ⟨rd', ?_, ?_⟩ hcore
  · have hg := mt.geo
    subst hg
    refine mt.counted.write mt.wf _ fun a ha hne e => ?_
    exact hne _ _ (mt.wf.inj _ _ ha (mt.wf.iloc_valid hn) e)
  · rw [hcore]
    exact mt.metaUsed

theorem allocIndirectBlock {Q : ℕ → Vol → Prop} (h0 : v.core.free G = 0 → Q 0 v)
    (h1 : ∀ b v', Vacant G v.core b → Metered v' G r → v'.core = v.core.zeroed b → Q b v') :
    After ext2AllocIndirectBlock v Q := by
  unfold ext2AllocIndirectBlock
  rw [after_bind]
  refine mt.allocBlock (fun hfull => ?_) fun b v₁ hv mt₁ hc₁ => ?_
  · rw [if_pos rfl, after_pure]
    exact h0 hfull
  · rw [if_neg hv.ne_zero, after_kmalloc mt₁.env, after_bind]
    refine mt₁.writeData hv.data fun v₂ mt₂ hc₂ => ?_
    rw [after_pure]
    exact h1 b v₂ hv mt₂ (by rw [hc₂, hc₁]; rfl)

end Metered

/-! ## Entering a block when room is scarce -/

def Geo.IsDoubly (G : Geo) (l : ℕ) : Prop :=
  12 + G.ptrs ≤ l ∧ l < 12 + G.ptrs + G.ptrs * G.ptrs

/-- `ext2_assign_block_num` gives up half-way: it needs two indirect blocks, and one block is
free. -/
structure HalfWay (G : Geo) (c : Core) (x : Bytes) (l : ℕ) : Prop where
  doubly : G.IsDoubly l
  slot : iBlock x 13 = 0
  free : c.free G = 1

namespace Metered

variable {v : Vol} {G : Geo} {r : Inode} (mt : Metered v G r) {x : Bytes} {l phys : ℕ}

include mt

/-- **`ext2_assign_block_num`** succeeds, or fails and changes nothing, unless it gives up half-way:
then the new doubly indirect block stays. -/
theorem assign_cases (hx : InnerOk G v.core x) :
    After (ext2AssignBlockNum x l phys G.bs) v fun p v' =>
      (¬ HalfWay G v.core x l ∧ (p.1 = 0 ∨ p = (-1, x) ∧ v' = v)) ∨
      (HalfWay G v.core x l ∧ p.1 = -1 ∧ Metered v' G r ∧
        ∃ b, G.InRange b ∧ v.core.used b = false ∧ p.2 = setIBlock x 13 b ∧
          v'.core = v.core.zeroed b) := by
  have hptrs : G.bs / 4 = G.ptrs := rfl
  unfold ext2AssignBlockNum
  rw [hptrs]
  by_cases h1 : l < 12
  · rw [if_pos h1, after_pure]
    exact .inl ⟨fun h => by have := h.doubly.1; omega, .inl rfl⟩
  rw [if_neg h1]
  by_cases h2 : l - 12 < G.ptrs
  · have hno : ¬ HalfWay G v.core x l := fun h => by have := h.doubly.1; omega
    rw [if_pos h2, after_bind]
    unfold ensureSlot
    by_cases hz : iBlock x 12 = 0
    · rw [if_pos hz, after_bind]
      refine mt.allocIndirectBlock (fun _ => ?_) fun b v₁ hv mt₁ _ => ?_
      · have hx0 : setIBlock x 12 0 = x := Bytes.put32_zero hz
        rw [after_pure, hx0, if_pos hz, after_pure]
        exact .inl ⟨hno, .inr ⟨rfl, rfl⟩⟩
      · rw [after_pure, iBlock_setIBlock _ _ _ (lt_trans hv.range.2 mt.wf.blocks_lt), if_pos rfl,
          if_neg hv.ne_zero, after_kmalloc mt₁.env, after_bind, after_readBlock mt₁.env]
        exact .inl ⟨hno, .inl rfl⟩
    · rw [if_neg hz, after_pure, if_neg hz, after_kmalloc mt.env, after_bind,
        after_readBlock mt.env]
      exact .inl ⟨hno, .inl rfl⟩
  rw [if_neg h2]
  by_cases h3 : l - 12 - G.ptrs < G.ptrs * G.ptrs
  swap
  · rw [if_neg h3, after_pure]
    exact .inl ⟨fun h => by have := h.doubly.2; omega, .inr ⟨rfl, rfl⟩⟩
  have hdbl : G.IsDoubly l := ⟨by omega, by omega⟩
  rw [if_pos h3, after_bind]
  unfold ensureSlot
  by_cases hz : iBlock x 13 = 0
  · rw [if_pos hz, after_bind]
    refine mt.allocIndirectBlock (fun hfull => ?_) fun b v₁ hv mt₁ hc₁ => ?_
    · have hx0 : setIBlock x 13 0 = x := Bytes.put32_zero hz
      rw [after_pure, hx0, if_pos hz, after_pure]
      exact .inl ⟨fun h => by have := h.free; omega, .inr ⟨rfl, rfl⟩⟩
    · -- the new doubly indirect block is empty, so the inner block is missing too
      have hused : v₁.core.used = update v.core.used b true := by rw [hc₁]; rfl
      have hfree := free_eq_add_one mt.wf hv.range hv.free hused
      have hzero : v₁.core.data b = Bytes.zero := by
        rw [hc₁]
        exact update_self _ _ _
      rw [after_pure, iBlock_setIBlock _ _ _ (lt_trans hv.range.2 mt.wf.blocks_lt), if_pos rfl,
        if_neg hv.ne_zero, after_kmalloc mt₁.env, after_bind, mt₁.read hv.data, hzero]
      dsimp only
      rw [if_pos (by rfl), after_bind]
      refine mt₁.allocIndirectBlock (fun hfull => ?_) fun b' v₂ hv' mt₂ hc₂ => ?_
      · rw [if_pos rfl, after_pure]
        exact .inr ⟨⟨hdbl, hz, by omega⟩, rfl, mt₁, b, hv.range, hv.free, rfl, hc₁⟩
      · have hne : v₁.core.free G ≠ 0 := fun h0 => by
          exact Bool.noConfusion (hv'.free.symm.trans ((free_eq_zero_iff mt.wf).mp h0 b' hv'.range))
        rw [if_neg hv'.ne_zero, after_bind, after_writeBlock, after_bind,
          after_readBlock (v := v₂.write b _) mt₂.env]
        exact .inl ⟨fun h => by have := h.free; omega, .inl rfl⟩
  · have hno : ¬ HalfWay G v.core x l := fun h => hz h.slot
    have hd : ¬ G.Meta (iBlock x 13) := hx 13 [] (Geo.isPlace_nil (by norm_num)) (by decide) hz
    rw [if_neg hz, after_pure, if_neg hz, after_kmalloc mt.env, after_bind, mt.read hd]
    dsimp only
    by_cases h4 : ptrAt (v.core.data (iBlock x 13)) ((l - 12 - G.ptrs) / G.ptrs) = 0
    · rw [if_pos h4, after_bind]
      refine mt.allocIndirectBlock (fun _ => ?_) fun b v₁ hv mt₁ _ => ?_
      · rw [if_pos rfl, after_pure]
        exact .inl ⟨hno, .inr ⟨rfl, rfl⟩⟩
      · rw [if_neg hv.ne_zero, after_bind, after_writeBlock, after_bind,
          after_readBlock (v := v₁.write (iBlock x 13) _) mt₁.env]
        exact .inl ⟨hno, .inl rfl⟩
    · rw [if_neg h4, after_bind, after_readBlock mt.env]
      exact .inl ⟨hno, .inl rfl⟩

end Metered

end DvivonOS
