import DvivonOS.Ext2.Delete
import DvivonOS.Vfs.Model

/-!
# File contents

`content` is the byte sequence that a file means; a hole reads as zeros. `ext2_read` copies a range
of it (`Ready.readLoop`), and the loop of `ext2_write` overlays it with the bytes written so far
(`Ready.writeLoop`), whether a block is overwritten, filled up or allocated. Positions wrap around
modulo `2 ^ 32` in both.
-/

namespace DvivonOS

open Bytes Function

def content (F : ℕ → Option Bytes) (bs i : ℕ) : UInt8 := (F (i / bs)).elim 0 fun buf => buf (i % bs)

theorem content_congr {E F : ℕ → Option Bytes} {bs i : ℕ} (h : E (i / bs) = F (i / bs)) :
    content E bs i = content F bs i := by
  unfold content; rw [h]

/-! ## Positions -/

namespace Geo.Wf

variable {G : Geo} (wf : G.Wf) {pos : ℕ}

include wf

theorem block_end_le (h : pos < 2 ^ 32) : pos + (G.bs - pos % G.bs) ≤ 2 ^ 32 := by
  rcases wf.size with h' | h' | h' <;> rw [h'] <;> omega

theorem mod_lt (pos : ℕ) : pos % G.bs < G.bs := Nat.mod_lt _ wf.bs_pos

theorem div_mod_add (pos : ℕ) {j : ℕ} (h : pos % G.bs + j < G.bs) :
    (pos + j) / G.bs = pos / G.bs ∧ (pos + j) % G.bs = pos % G.bs + j := by
  have hb := wf.bs_pos
  have h0 : pos + j = pos % G.bs + j + G.bs * (pos / G.bs) := by
    have := Nat.div_add_mod pos G.bs
    omega
  rw [h0, Nat.add_mul_div_left _ _ hb, Nat.add_mul_mod_self_left, Nat.div_eq_of_lt h,
    Nat.mod_eq_of_lt h, Nat.zero_add]
  exact ⟨rfl, rfl⟩

end Geo.Wf

/-! ## Reading -/

namespace Ready

variable {v : Vol} {G : Geo} {r : Inode} (rd : Ready v G r) {x : Bytes} (hx : MapOk G v.core x)

include rd hx

theorem readLoop {count offset : ℕ} (hc : count < 2 ^ 32) {Q : Bytes → Vol → Prop} :
    ∀ fuel done buf, done ≤ count → count ≤ done + fuel →
      (After (DvivonOS.readLoop x G.bs count offset fuel done buf) v Q ↔
        Q (fun j => if done ≤ j ∧ j < count then
          content (v.core.file x G) G.bs (add32 offset j) else buf j) v)
  | 0, done, buf, h1, h2 => by
    have : (fun j => if done ≤ j ∧ j < count then
        content (v.core.file x G) G.bs (add32 offset j) else buf j) = buf := by
      funext j
      rw [if_neg (by omega)]
    rw [this]
    exact Iff.rfl
  | fuel + 1, done, buf, h1, h2 => by
    unfold DvivonOS.readLoop
    by_cases hlt : done < count
    · have hpos : add32 offset done < 2 ^ 32 := Nat.mod_lt _ (by norm_num)
      have hmod := rd.wf.mod_lt (add32 offset done)
      have hend := rd.wf.block_end_le hpos
      have hl := rd.wf.pos_div_lt hpos
      rw [if_pos hlt]
      dsimp only
      rw [after_bind, rd.resolve hx hl]
      generalize hchunk : min (G.bs - add32 offset done % G.bs) (count - done) = chunk
      have hch1 : 0 < chunk := by omega
      have hch2 : chunk ≤ G.bs - add32 offset done % G.bs := by omega
      have hch3 : done + chunk ≤ count := by omega
      -- the bytes of this block
      have hval : ∀ j, done ≤ j → j < done + chunk →
          content (v.core.file x G) G.bs (add32 offset j) =
            (v.core.file x G (add32 offset done / G.bs)).elim 0
              fun b => b (add32 offset done % G.bs + (j - done)) := by
        intro j hj1 hj2
        have hpj : add32 offset j = add32 offset done + (j - done) := by
          unfold add32 at *
          omega
        obtain ⟨hd, hm⟩ := rd.wf.div_mod_add (add32 offset done) (j := j - done) (by omega)
        unfold content
        rw [hpj, hd, hm]
      have hstep : ∀ buf', (∀ j, buf' j = if done ≤ j ∧ j < done + chunk then
          content (v.core.file x G) G.bs (add32 offset j) else buf j) →
          (After (DvivonOS.readLoop x G.bs count offset fuel (done + chunk) buf') v Q ↔
            Q (fun j => if done ≤ j ∧ j < count then
              content (v.core.file x G) G.bs (add32 offset j) else buf j) v) := by
        intro buf' hbuf
        rw [readLoop hc fuel (done + chunk) buf' hch3 (by omega)]
        refine iff_of_eq (congrArg (Q · v) (funext fun j => ?_))
        rw [hbuf]
        split_ifs <;> first | rfl | omega
      split_ifs with h0
      · refine hstep _ fun j => ?_
        unfold Bytes.fill
        refine if_ctx_congr Iff.rfl (fun hj => ?_) fun _ => rfl
        rw [hval j hj.1 hj.2, file_eq_none h0]
        rfl
      · have hd := hx _ _ (rd.wf.place_isPlace hl) h0
        rw [after_bind, rd.read (by exact hd)]
        refine hstep _ fun j => ?_
        unfold Bytes.copy Bytes.drop
        refine if_ctx_congr Iff.rfl (fun hj => ?_) fun _ => rfl
        rw [hval j hj.1 hj.2, file_eq h0]
        rfl
    · rw [if_neg hlt]
      have : (fun j => if done ≤ j ∧ j < count then
          content (v.core.file x G) G.bs (add32 offset j) else buf j) = buf := by
        funext j
        rw [if_neg (by omega)]
      rw [this]
      exact Iff.rfl

end Ready

/-! ## Writing -/

/-- From `c` to `c'` the bytes `a` to `b` of `buf` have been written to the file of `inode`, which
has become `inode'`; byte `j` goes to the position `offset + j`. -/
structure Overlay (G : Geo) (A : ℕ → Prop) (buf : Bytes) (offset : ℕ) (c : Core) (e : ℕ → Bytes)
    (inode : Inode) (a b : ℕ) (c' : Core) (inode' : Inode) : Prop where
  upd : Upd G A inode.ino c e c' inode'.disk (c'.file inode'.disk G)
  content : ∀ i < 2 ^ 32, content (c'.file inode'.disk G) G.bs i =
    if a ≤ sub32 i offset ∧ sub32 i offset < b then buf (sub32 i offset)
    else content (c.file (e inode.ino) G) G.bs i
  same : inode' = { inode with blocks := inode'.blocks, disk := inode'.disk }
  blocks : inode.blocks < 2 ^ 32 → inode'.blocks < 2 ^ 32

namespace Overlay

variable {G : Geo} {A : ℕ → Prop} {buf : Bytes} {offset a b b' : ℕ} {c c' c'' : Core}
  {e : ℕ → Bytes} {inode inode' inode'' : Inode}

theorem refl (ow : Own G c A e) (he : e inode.ino = inode.disk) :
    Overlay G A buf offset c e inode a a c inode where
  upd := by rw [← he]; exact .refl ow
  content i _ := by rw [if_neg (by omega), he]
  same := rfl
  blocks h := h

theorem ino_eq (h : Overlay G A buf offset c e inode a b c' inode') : inode'.ino = inode.ino := by
  rw [h.same]

theorem trans (h : Overlay G A buf offset c e inode a b c' inode')
    (h' : Overlay G A buf offset c' (update e inode.ino inode'.disk) inode' b b' c'' inode'')
    (hab : a ≤ b) (hbb : b ≤ b') : Overlay G A buf offset c e inode a b' c'' inode'' where
  upd := by
    have := h'.upd
    rw [h.ino_eq] at this
    exact h.upd.trans this
  content i hi := by
    rw [h'.content i hi, h.ino_eq, update_self, h.content i hi]
    split_ifs <;> first | rfl | omega
  same := by
    have h1 := h.same
    have h2 := h'.same
    rw [h2, h1]
  blocks hb := h'.blocks (h.blocks hb)

end Overlay

/-- A block with a chunk of `buf` in it, in place of the block `old` of a file. -/
def IsPatch (bs : ℕ) (buf : Bytes) (done boff chunk : ℕ) (old : Option Bytes) (new : Bytes) : Prop :=
  ∀ j < bs, new j = if boff ≤ j ∧ j < boff + chunk then buf (done + (j - boff))
    else old.elim 0 fun b => b j

/-- Replacing a block by a patched block overlays the chunk. -/
theorem content_patch {G : Geo} (wf : G.Wf) {F F' : ℕ → Option Bytes} {buf new : Bytes}
    {offset done chunk : ℕ} (ho : offset < 2 ^ 32) (hch : chunk ≤ G.bs - add32 offset done % G.bs)
    (hlt : done + chunk < 2 ^ 32)
    (hnew : IsPatch G.bs buf done (add32 offset done % G.bs) chunk
      (F (add32 offset done / G.bs)) new)
    (hF : ∀ l < G.lblocks, F' l = update F (add32 offset done / G.bs) (some new) l)
    {i : ℕ} (hi : i < 2 ^ 32) : content F' G.bs i =
      if done ≤ sub32 i offset ∧ sub32 i offset < done + chunk then buf (sub32 i offset)
      else content F G.bs i := by
  have hpos : add32 offset done < 2 ^ 32 := Nat.mod_lt _ (by norm_num)
  have hend := wf.block_end_le hpos
  have hmod := wf.mod_lt (add32 offset done)
  have hF := hF _ (wf.pos_div_lt hi)
  -- the positions of the chunk
  have hiff : (done ≤ sub32 i offset ∧ sub32 i offset < done + chunk) ↔
      add32 offset done ≤ i ∧ i < add32 offset done + chunk := by
    unfold add32 sub32 at *
    omega
  rw [if_congr hiff rfl rfl]
  by_cases hb : i / G.bs = add32 offset done / G.bs
  · have h1 := Nat.div_add_mod i G.bs
    have h2 := Nat.div_add_mod (add32 offset done) G.bs
    rw [hb] at h1
    unfold content
    rw [hF, hb, update_self, Option.elim_some, hnew _ (Nat.mod_lt _ wf.bs_pos)]
    refine if_ctx_congr (by omega) (fun h => congrArg buf ?_) fun _ => rfl
    have h3 := hiff.mpr h
    unfold add32 sub32 at *
    omega
  · rw [if_neg, content_congr (F := F) (by rw [hF, update_of_ne hb])]
    rintro ⟨h1, h2⟩
    refine hb ?_
    obtain ⟨j, rfl⟩ := Nat.exists_eq_add_of_le h1
    exact (wf.div_mod_add _ (by omega)).1

theorem Overlay.of_patch {G : Geo} (wf : G.Wf) {A : ℕ → Prop} {c c' : Core} {e : ℕ → Bytes}
    {inode inode' : Inode} {buf new : Bytes} {offset done chunk : ℕ} (ho : offset < 2 ^ 32)
    (hch : chunk ≤ G.bs - add32 offset done % G.bs) (hlt : done + chunk < 2 ^ 32)
    (hnew : IsPatch G.bs buf done (add32 offset done % G.bs) chunk
      (c.file (e inode.ino) G (add32 offset done / G.bs)) new)
    (upd : Upd G A inode.ino c e c' inode'.disk
      (update (c.file (e inode.ino) G) (add32 offset done / G.bs) (some new)))
    (same : inode' = { inode with blocks := inode'.blocks, disk := inode'.disk })
    (blocks : inode.blocks < 2 ^ 32 → inode'.blocks < 2 ^ 32) :
    Overlay G A buf offset c e inode done (done + chunk) c' inode' where
  upd := upd.congr fun l hl => (upd.self l hl).symm
  content _ hi := content_patch wf ho hch hlt hnew upd.self hi
  same := same
  blocks := blocks

theorem iBlock_put32_of_lt (x : Bytes) {o y : ℕ} (ho : o + 4 ≤ 40) (k : ℕ) :
    iBlock (x.put32 o y) k = iBlock x k := get32_put32_of_disjoint _ _ (by omega)

namespace Ready

variable {G : Geo} {r : Inode} {A : ℕ → Prop} {buf : Bytes} {count offset : ℕ}

/-- **The loop of `ext2_write`** writes the bytes from `done` up to some `written`. It stops early
at a hole only. -/
theorem writeLoop (hc : count < 2 ^ 32) (ho : offset < 2 ^ 32) {Q : ℕ × Inode → Vol → Prop} :
    ∀ fuel done inode (v : Vol) (e : ℕ → Bytes), Ready v G r → Own G v.core A e → A inode.ino →
      e inode.ino = inode.disk → done ≤ count → count ≤ done + fuel →
      (∀ written inode' v', Ready v' G r → done ≤ written → written ≤ count →
        (written < count → v.core.file (e inode.ino) G (add32 offset written / G.bs) = none) →
        Overlay G A buf offset v.core e inode done written v'.core inode' → Q (written, inode') v') →
      After (DvivonOS.writeLoop buf G.bs count offset fuel done inode) v Q
  | 0, done, inode, v, e, rd, ow, _, he, hdone, hfuel, hQ =>
    hQ done inode v rd le_rfl hdone (fun h => absurd h (by omega)) (.refl ow he)
  | fuel + 1, done, inode, v, e, rd, ow, hn, he, hdone, hfuel, hQ => by
    unfold DvivonOS.writeLoop
    by_cases hlt : done < count
    swap
    · rw [if_neg hlt]
      exact hQ done inode v rd le_rfl hdone (fun h => absurd h hlt) (.refl ow he)
    have hpos : add32 offset done < 2 ^ 32 := Nat.mod_lt _ (by norm_num)
    have hmod := rd.wf.mod_lt (add32 offset done)
    have hl := rd.wf.pos_div_lt hpos
    have hx : MapOk G v.core inode.disk := he ▸ ow.mapOk hn
    rw [if_pos hlt]
    dsimp only
    rw [after_bind, rd.resolve hx hl]
    generalize hchunk : min (G.bs - add32 offset done % G.bs) (count - done) = chunk
    have hch1 : 0 < chunk := by omega
    have hch2 : chunk ≤ G.bs - add32 offset done % G.bs := by omega
    have hch3 : done + chunk ≤ count := by omega
    -- what is left to do after the block has been patched
    have hnext : ∀ new inode' v', Ready v' G r →
        IsPatch G.bs buf done (add32 offset done % G.bs) chunk
          (v.core.file (e inode.ino) G (add32 offset done / G.bs)) new →
        Upd G A inode.ino v.core e v'.core inode'.disk
          (update (v.core.file (e inode.ino) G) (add32 offset done / G.bs) (some new)) →
        inode' = { inode with blocks := inode'.blocks, disk := inode'.disk } →
        (inode.blocks < 2 ^ 32 → inode'.blocks < 2 ^ 32) →
        After (DvivonOS.writeLoop buf G.bs count offset fuel (done + chunk) inode') v' Q := by
      intro new inode' v' rd' hnew upd same hbl
      have hov := Overlay.of_patch rd.wf ho hch2 (by omega) hnew upd same hbl
      refine writeLoop hc ho fuel (done + chunk) inode' v' _ rd' upd.own (by rw [hov.ino_eq]; exact hn)
        (by rw [hov.ino_eq, update_self]) hch3 (by omega)
        fun written inode'' v'' rd'' h1 h2 hstop h => ?_
      refine hQ written inode'' v'' rd'' (by omega) h2 (fun hw => ?_) (hov.trans h (by omega) h1)
      -- what is a hole afterwards was one before
      have hhole := hstop hw
      have hw32 : add32 offset written < 2 ^ 32 := Nat.mod_lt _ (by norm_num)
      rw [hov.ino_eq, update_self, upd.self _ (rd.wf.pos_div_lt hw32)] at hhole
      by_cases hb : add32 offset written / G.bs = add32 offset done / G.bs
      · rw [hb, update_self] at hhole
        exact absurd hhole (by simp)
      · rwa [update_of_ne hb] at hhole
    by_cases h0 : v.core.fileBlock inode.disk G (add32 offset done / G.bs) = 0
    · -- a hole: a new block, cleared
      have hhole : v.core.file (e inode.ino) G (add32 offset done / G.bs) = none := by
        rw [he]; exact file_eq_none h0
      rw [if_pos h0, after_bind]
      refine rd.allocBlock ow.metaUsed ?_ fun phys v1 hv rd1 hc1 => ?_
      · rw [if_pos rfl, after_pure]
        exact hQ done inode v rd le_rfl hdone (fun _ => hhole) (.refl ow he)
      obtain ⟨ow1, fr1⟩ := ow.alloc hv
      have hu1 := ow.alloc_upd (n := inode.ino) hv
      rw [← hc1] at ow1 fr1 hu1
      rw [if_neg hv.ne_zero, after_bind, ← he]
      refine rd1.assign ow1 hn hl fr1 (fun x v2 rd2 hq => ?_) fun x v2 rd2 ha => ?_
      · -- no room for the indirect blocks
        rw [if_pos (by simp), after_bind]
        refine rd2.freeBlock hv.range fun v3 rd3 hc3 => ?_
        rw [after_pure]
        have hu3 := (hq.upd.own.free_upd (n := inode.ino) (hq.fresh _ fr1))
        rw [update_self, ← hc3] at hu3
        have hu : Upd G A inode.ino v.core e v3.core x (v.core.file (e inode.ino) G) := by
          have h1 : Upd G A inode.ino v.core e v2.core x (v1.core.file (e inode.ino) G) := by
            refine hu1.trans ?_
            rw [update_eq_self]
            exact hq.upd
          refine (h1.trans hu3).congr fun l hl => ?_
          rw [hq.upd.self l hl, hu1.self l hl]
        refine hQ done _ v3 rd3 le_rfl hdone (fun _ => hhole) ⟨hu.congr fun l hl => (hu.self l hl).symm, ?_, rfl,
          fun h => h⟩
        intro i hi
        rw [if_neg (by omega)]
        exact content_congr (hu.self _ (rd.wf.pos_div_lt hi))
      · rw [if_neg (by simp), after_bind]
        refine rd2.writeData hv.data fun v3 rd3 hc3 => ?_
        refine hnext (Bytes.zero.copy (add32 offset done % G.bs) (buf.drop done) chunk) _ v3 rd3
          (fun j _ => ?_) ?_ rfl fun _ => get32_lt _ _
        · rw [hhole]
          unfold Bytes.copy Bytes.drop
          rfl
        · have hst := ha.upd.own.store_upd rd.wf hn hl (by
            rw [update_self, ha.block]; exact hv.ne_zero)
            (Bytes.zero.copy (add32 offset done % G.bs) (buf.drop done) chunk)
          rw [update_self, ha.block, ← hc3] at hst
          have h1 : Upd G A inode.ino v.core e v2.core x
              (update (v1.core.file (e inode.ino) G) (add32 offset done / G.bs)
                (some (v2.core.data phys))) := by
            refine hu1.trans ?_
            rw [update_eq_self]
            exact ha.upd
          refine ((h1.trans hst).congr_disk (fun k _ => iBlock_put32_of_lt x (by norm_num) k)
            fun i hi => put32_of_not_mem _ _ (by unfold FieldByte at hi; omega)).congr
            fun l hl => ?_
          by_cases hll : l = add32 offset done / G.bs
          · rw [hll, update_self, update_self]
          · rw [update_of_ne hll, update_of_ne hll, h1.self l hl,
              update_of_ne hll, hu1.self l hl]
    · rw [if_neg h0]
      have hblk : v.core.fileBlock (e inode.ino) G (add32 offset done / G.bs) ≠ 0 := by
        rw [he]; exact h0
      have hd := (ow.good _ _ _ hn (rd.wf.place_isPlace hl) hblk).data
      rw [he] at hd
      -- the block is overwritten in place
      have hstore : ∀ new, IsPatch G.bs buf done (add32 offset done % G.bs) chunk
          (v.core.file (e inode.ino) G (add32 offset done / G.bs)) new →
          After (do
            let _ ← ext2WriteBlock (v.core.fileBlock inode.disk G (add32 offset done / G.bs)) new
            DvivonOS.writeLoop buf G.bs count offset fuel (done + chunk) inode) v Q := by
        intro new hnew
        rw [after_bind]
        refine rd.writeData hd fun v' rd' hc' => ?_
        refine hnext new inode v' rd' hnew ?_ rfl fun h => h
        have := ow.store_upd rd.wf hn hl hblk new
        rw [he] at this ⊢
        rw [hc']
        exact this
      have hold : v.core.file (e inode.ino) G (add32 offset done / G.bs) =
          some (v.core.data (v.core.fileBlock inode.disk G (add32 offset done / G.bs))) := by
        rw [he]; exact file_eq h0
      by_cases hpart : add32 offset done % G.bs ≠ 0 ∨ chunk ≠ G.bs
      · rw [if_pos hpart, after_bind, rd.read (by exact hd)]
        refine hstore _ fun j hj => ?_
        rw [hold]
        unfold Bytes.copy Bytes.drop
        rfl
      · rw [if_neg hpart]
        refine hstore _ fun j hj => ?_
        unfold Bytes.copy Bytes.drop
        have hin : add32 offset done % G.bs ≤ j ∧ j < add32 offset done % G.bs + chunk := by omega
        rw [if_pos hin, if_pos hin]

end Ready

/-! ## Inodes in memory and on disk -/

/-- The inode in memory agrees with its on-disk copy. -/
structure Inode.Synced (inode : Inode) : Prop where
  fields : Inode.ofDisk inode.ino inode.disk = inode
  tail : ∀ i, 128 ≤ i → inode.disk i = 0

/-- The fields fit into the on-disk inode. -/
structure Inode.Bounded (inode : Inode) : Prop where
  mode : inode.mode < 65536
  size : inode.size < 4294967296
  uid : inode.uid < 65536
  gid : inode.gid < 65536
  nlink : inode.nlink < 65536
  atime : inode.atime < 4294967296
  mtime : inode.mtime < 4294967296
  ctime : inode.ctime < 4294967296
  blocks : inode.blocks < 4294967296
  flags : inode.flags < 4294967296

namespace Inode

variable {inode : Inode}

theorem bounded_ofDisk (n : ℕ) (x : Bytes) : (Inode.ofDisk n x).Bounded :=
  ⟨get16_lt _ _, get32_lt _ _, get16_lt _ _, get16_lt _ _,
    get16_lt _ _, get32_lt _ _, get32_lt _ _, get32_lt _ _,
    get32_lt _ _, get32_lt _ _⟩

theorem Synced.bounded (h : inode.Synced) : inode.Bounded := by
  rw [← h.fields]
  exact bounded_ofDisk _ _

theorem toDisk_of_le (inode : Inode) {i : ℕ} (hi : 40 ≤ i) : inode.toDisk i = inode.disk i := by
  unfold Inode.toDisk
  simp (disch := omega) only [put32_of_not_mem, put16_of_not_mem]

theorem iBlock_toDisk (inode : Inode) (k : ℕ) : iBlock inode.toDisk k = iBlock inode.disk k :=
  get32_congr fun _ h _ => inode.toDisk_of_le (by omega)

/-- What `ext2_write_inode` stores reads back as the inode. -/
theorem ofDisk_toDisk (h : inode.Bounded) :
    Inode.ofDisk inode.ino inode.toDisk = { inode with disk := inode.toDisk } := by
  obtain ⟨h1, h2, h3, h4, h5, h6, h7, h8, h9, h10⟩ := h
  unfold Inode.ofDisk iMode iSize iLinksCount iBlocks
  rw [Inode.mk.injEq]
  unfold Inode.toDisk
  refine ⟨rfl, ?_, ?_, ?_, ?_, ?_, ?_, ?_, ?_, ?_, ?_, rfl⟩ <;>
    simp (disch := omega) only [get16_put32_of_disjoint, get16_put16_of_disjoint,
      get32_put32_of_disjoint, get32_put16_of_disjoint, get16_put16_of_lt,
      get32_put32_of_lt]

theorem Bounded.synced (h : inode.Bounded) (ht : ∀ i, 128 ≤ i → inode.disk i = 0) :
    { inode with disk := inode.toDisk }.Synced where
  fields := ofDisk_toDisk h
  tail i hi := (inode.toDisk_of_le (by omega)).trans (ht i hi)

theorem Synced.onDisk (h : inode.Synced) : onDisk inode.disk = inode.disk := by
  funext i
  unfold DvivonOS.onDisk
  by_cases hi : i < 128
  · rw [copy_of_mem _ _ (Nat.zero_le _) (by omega), Nat.sub_zero]
  · rw [copy_of_not_mem _ _ (by omega), h.tail i (by omega)]
    rfl

theorem Synced.toDisk (h : inode.Synced) : inode.toDisk = inode.disk := by
  conv_lhs => rw [← h.fields]
  unfold Inode.toDisk Inode.ofDisk iMode iSize iLinksCount iBlocks
  simp only [put16_get16, put32_get32]

end Inode

/-! ## `ext2_write` -/

/-- From `v` to `v'` the first `written` bytes of `buf` have been written to the file of `inode`,
which has become `inode'`, and the inode has been written. -/
structure Wrote (G : Geo) (A : ℕ → Prop) (v : Vol) (e : ℕ → Bytes) (inode : Inode) (buf : Bytes)
    (offset written : ℕ) (inode' : Inode) (v' : Vol) : Prop where
  own : Own G v'.core A (update e inode.ino inode'.disk)
  iused : v'.core.iused = v.core.iused
  ino : v'.core.ino = update v.core.ino inode.ino (onDisk inode'.disk)
  content : ∀ i < 2 ^ 32, content (v'.core.file inode'.disk G) G.bs i =
    if sub32 i offset < written then buf (sub32 i offset)
    else content (v.core.file inode.disk G) G.bs i
  other : ∀ m, A m → m ≠ inode.ino → ∀ l < G.lblocks,
    v'.core.file (e m) G l = v.core.file (e m) G l
  size : inode'.size = max inode.size (add32 offset written)
  same : inode' = { inode with size := inode'.size, blocks := inode'.blocks, disk := inode'.disk }
  synced : inode.Synced → inode'.Synced

namespace Ready

variable {v : Vol} {G : Geo} {r : Inode} (rd : Ready v G r) {A : ℕ → Prop} {e : ℕ → Bytes}
  {inode : Inode} {buf : Bytes} {count offset : ℕ}

include rd

theorem writeFile (ow : Own G v.core A e) (hn : A inode.ino) (hi : G.IsInode inode.ino)
    (he : e inode.ino = inode.disk) (hc : count < 2 ^ 32) (ho : offset < 2 ^ 32)
    {Q : ℤ × Inode → Vol → Prop}
    (h : ∀ written inode' v', Ready v' G r → written ≤ count →
      (written < count → v.core.file inode.disk G (add32 offset written / G.bs) = none) →
      Wrote G A v e inode buf offset written inode' v' → Q (toInt32 written, inode') v') :
    After (ext2Write inode buf count offset) v Q := by
  unfold ext2Write
  rw [after_bind, after_get, after_kmalloc rd.env, after_bind, rd.bs_eq]
  refine Ready.writeLoop hc ho count 0 inode v e rd ow hn he (Nat.zero_le _) (by omega)
    fun written inode₁ v₁ rd₁ _ hw hstop hov => ?_
  rw [he] at hstop
  dsimp only
  set inode₂ := inode₁.growTo (add32 offset written) with hinode₂
  have hino : inode₂.ino = inode.ino := by
    rw [hinode₂, ← hov.ino_eq]
    unfold Inode.growTo
    split_ifs <;> rfl
  have hsize : inode₂.size = max inode.size (add32 offset written) := by
    have h1 : inode₁.size = inode.size := by rw [hov.same]
    rw [hinode₂]
    unfold Inode.growTo
    split_ifs with hlt
    · dsimp only; omega
    · omega
  have hslot : ∀ k, iBlock inode₂.toDisk k = iBlock inode₁.disk k := by
    intro k
    rw [Inode.iBlock_toDisk, hinode₂]
    unfold Inode.growTo
    split_ifs
    · exact iBlock_put32_of_lt _ (by norm_num) k
    · rfl
  have hsame : inode₂ = { inode with
      size := inode₂.size, blocks := inode₂.blocks, disk := inode₂.disk } := by
    rw [hinode₂]
    unfold Inode.growTo
    rw [hov.same]
    split_ifs <;> rfl
  have htail : ∀ i, 128 ≤ i → inode₂.disk i = e inode.ino i := by
    intro i hi
    rw [← hov.upd.fields i (Or.inr (Or.inr (by omega))), hinode₂]
    unfold Inode.growTo
    split_ifs
    · exact put32_of_not_mem _ _ (by omega)
    · rfl
  have hblocks : inode₂.blocks = inode₁.blocks := by
    rw [hinode₂]
    unfold Inode.growTo
    split_ifs <;> rfl
  unfold ext2WriteInode
  rw [after_bind]
  dsimp only
  rw [after_bind, hino]
  refine rd₁.writeInodeRaw hi fun v' rd' hc' => ?_
  rw [after_pure, after_pure]
  have hfile : ∀ l, v'.core.file inode₂.toDisk G l = v₁.core.file inode₁.disk G l := by
    intro l
    rw [hc']
    exact file_congr_slots fun k _ => hslot k
  refine h written _ v' rd' hw hstop ⟨?_, ?_, ?_, fun i hi32 => ?_, fun m hm hne l hl => ?_, hsize, ?_, ?_⟩
  · rw [hc']
    refine (hov.upd.own.congr_slots (f := update e inode.ino inode₂.toDisk)
      fun m hm k hk => ?_).of_eq rfl rfl
    by_cases hmn : m = inode.ino
    · rw [hmn, update_self, update_self]
      exact hslot k
    · rw [update_of_ne hmn, update_of_ne hmn]
  · rw [hc']
    exact hov.upd.iused
  · rw [hc', Core.setIno_ino, hov.upd.ino]
    rfl
  · rw [content_congr (hfile _), hov.content i hi32, he]
    refine if_congr (by omega) rfl rfl
  · rw [hc']
    exact hov.upd.other m hm hne l hl
  · dsimp only
    rw [hsame]
  · intro hsy
    have hb := hsy.bounded
    have hb2 : inode₂.Bounded := by
      rw [hsame, hsize]
      refine ⟨hb.mode, ?_, hb.uid, hb.gid, hb.nlink, hb.atime, hb.mtime, hb.ctime, ?_, hb.flags⟩
      · have h1 := hb.size
        have h2 : add32 offset written < 4294967296 := Nat.mod_lt _ (by norm_num)
        exact max_lt h1 h2
      · dsimp only
        rw [hblocks]
        exact hov.blocks hb.blocks
    have := hb2.synced fun i hi => by rw [htail i hi, he, hsy.tail i hi]
    rw [hino] at this
    exact this

end Ready

end DvivonOS
