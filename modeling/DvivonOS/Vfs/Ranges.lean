import DvivonOS.Ext2.FullMap
import DvivonOS.Lib.Trace
import DvivonOS.Vfs.ReadWrite

/-!
# Ranges near `2 ^ 32`

`ext2_read` and `ext2_readdir` compare `offset + count` with the file size, and the loops compute
their positions, in 32 bits. A read transfers the bytes up to the end of the file, and touches no
block behind it, exactly if its range does not reach `2 ^ 32` or starts behind the end. `ext2_write`
leaves the bytes below its offset alone on every volume exactly if its range does not pass
`2 ^ 32`: on a file without holes the positions wrap around to the beginning of the file.
-/

namespace DvivonOS

/-! ## The blocks that a read touches -/

namespace Touched

open TraceM

/-- Computations with a record of the logical blocks that they look up. -/
abbrev TouchM := TraceM ℕ Vol

def readLoop (x : Bytes) (bs count offset : ℕ) : ℕ → ℕ → Bytes → TouchM Bytes
  | 0, _, buf => return buf
  | fuel + 1, done, buf => do
    if done < count then
      let pos := add32 offset done
      let boff := pos % bs
      let chunk := min (bs - boff) (count - done)
      emit (pos / bs)
      let phys ← quiet (ext2ResolveBlockNum x (pos / bs) bs)
      if phys = 0 then readLoop x bs count offset fuel (done + chunk) (buf.fill done 0 chunk)
      else
        let (_, blockBuf) ← quiet (ext2ReadBlock phys)
        readLoop x bs count offset fuel (done + chunk) (buf.copy done (blockBuf.drop boff) chunk)
    else return buf

def ext2Read (inode : Inode) (buf : Bytes) (count offset : ℕ) : TouchM (ℤ × Bytes) := do
  let v ← quiet get
  if inode.size ≤ offset then return (0, buf)
  else
    let count := if inode.size < add32 offset count then inode.size - offset else count
    if count = 0 then return (0, buf)
    else if !(← quiet kmallocOk) then return (-1, buf)
    else
      let buf ← readLoop inode.disk v.blockSize count offset count 0 buf
      return (toInt32 count, buf)

def ext2Readdir (dir : Inode) (buf : Bytes) (size offset : ℕ) : TouchM (ℤ × Bytes) := do
  if !fsIsDir dir.mode then return (-1, buf)
  else ext2Read dir buf size offset

/-! ### Without the record -/

variable {x : Bytes} {bs count offset : ℕ}

theorem erase_readLoop : ∀ fuel done buf,
    erase (readLoop x bs count offset fuel done buf) =
      DvivonOS.readLoop x bs count offset fuel done buf
  | 0, _, _ => rfl
  | fuel + 1, done, buf => by
    unfold readLoop DvivonOS.readLoop
    simp only [erase_ite, erase_bind, erase_emit, erase_quiet, erase_pure, pure_bind,
      erase_readLoop fuel]

theorem erase_ext2Read (inode : Inode) (buf : Bytes) (count offset : ℕ) :
    erase (ext2Read inode buf count offset) = DvivonOS.ext2Read inode buf count offset := by
  unfold ext2Read DvivonOS.ext2Read
  simp only [erase_ite, erase_bind, erase_quiet, erase_pure, erase_readLoop]

theorem erase_ext2Readdir (dir : Inode) (buf : Bytes) (size offset : ℕ) :
    erase (ext2Readdir dir buf size offset) = DvivonOS.ext2Readdir dir buf size offset := by
  unfold ext2Readdir DvivonOS.ext2Readdir
  simp only [erase_ite, erase_pure, erase_ext2Read]

/-! ### The record -/

theorem emits_readLoop : ∀ fuel done buf (v : Vol),
    Emits (readLoop x bs count offset fuel done buf) v
      (fun l => ∃ j < count, l = add32 offset j / bs) fun _ _ => True
  | 0, _, _, _ => (emits_pure _).mpr trivial
  | fuel + 1, done, buf, v => by
    unfold readLoop
    split_ifs with hlt
    · rw [emits_bind, emits_emit]
      refine ⟨⟨done, hlt, rfl⟩, emits_quiet_any fun phys v' => ?_⟩
      split_ifs
      · exact emits_readLoop fuel _ _ v'
      · exact emits_quiet_any fun p v'' => emits_readLoop fuel _ _ v''
    · exact (emits_pure _).mpr trivial

theorem emits_ext2Read (inode : Inode) (buf : Bytes) (v : Vol) :
    Emits (ext2Read inode buf count offset) v
      (fun l => ∃ j < readLen inode.size offset count, l = add32 offset j / v.blockSize)
      fun _ _ => True := by
  unfold ext2Read
  rw [emits_bind, emits_quiet, after_get]
  by_cases h0 : inode.size ≤ offset
  · rw [if_pos h0]
    exact (emits_pure _).mpr trivial
  · have hlen : readLen inode.size offset count =
        if inode.size < add32 offset count then inode.size - offset else count := if_neg h0
    rw [if_neg h0]
    dsimp only
    rw [← hlen]
    split_ifs with h1
    · exact (emits_pure _).mpr trivial
    · refine emits_quiet_any fun ok v' => ?_
      split_ifs
      · exact (emits_pure _).mpr trivial
      · exact emits_last.mpr (emits_readLoop _ _ _ v')

end Touched

/-! ## Reading -/

/-- A read of `count` bytes at `offset` with the result `r` has transferred the bytes up to the end
of the file and nothing else, and the logical blocks it has touched, `blocks`, begin before the end
of the file. -/
structure Transfers (v : Vol) (G : Geo) (inode : Inode) (buf : Bytes) (count offset : ℕ)
    (r : (ℤ × Bytes) × Vol) (blocks : List ℕ) : Prop where
  run : r = ((toInt32 (min count (inode.size - offset)),
    piece (content (v.core.file inode.disk G) G.bs) buf offset
      (min count (inode.size - offset))), v)
  blocks : ∀ l ∈ blocks, l < (inode.size + G.bs - 1) / G.bs

theorem readLen_eq_min_iff {size offset count : ℕ} (hs : size < 2 ^ 32) (hc : count < 2 ^ 32)
    (ho : offset < 2 ^ 32) :
    readLen size offset count = min count (size - offset) ↔
      size ≤ offset ∨ offset + count < 2 ^ 32 := by
  unfold readLen add32
  split_ifs <;> omega

theorem toInt32_inj {a b : ℕ} (ha : a < 2 ^ 32) (hb : b < 2 ^ 32) (h : toInt32 a = toInt32 b) :
    a = b := by
  unfold toInt32 at h
  split_ifs at h <;> omega

namespace Ready

variable {v : Vol} {G : Geo} {r : Inode} (rd : Ready v G r) {inode : Inode}
  (hx : MapOk G v.core inode.disk) {count offset : ℕ} (buf : Bytes)

include rd hx

section

variable (hs : inode.size < 2 ^ 32) (hc : count < 2 ^ 32)

include hs hc

theorem run_readFile :
    (ext2Read inode buf count offset).run v =
      ((toInt32 (readLen inode.size offset count), fun j =>
        if j < readLen inode.size offset count then
          content (v.core.file inode.disk G) G.bs (add32 offset j) else buf j), v) :=
  (rd.readFile hx hc hs (Q := fun p s => (p, s) = _)).mpr rfl

/-- A range that starts in the file and reaches `2 ^ 32` is not cut. -/
theorem readFile_not_cut
    (ho : offset < inode.size) (h : 2 ^ 32 ≤ offset + count) :
    ((ext2Read inode buf count offset).run v).1.1 = toInt32 count := by
  have hlen : readLen inode.size offset count = count := by
    unfold readLen add32
    split_ifs <;> omega
  rw [rd.run_readFile hx buf hs hc, hlen]

theorem transfers_iff (ho : offset < 2 ^ 32) :
    Transfers v G inode buf count offset ((ext2Read inode buf count offset).run v)
        (Touched.ext2Read inode buf count offset v).2.2 ↔
      inode.size ≤ offset ∨ offset + count < 2 ^ 32 := by
  have hlen := readLen_eq_min_iff hs hc ho
  have hlt : readLen inode.size offset count < 2 ^ 32 := by
    unfold readLen
    split_ifs <;> omega
  rw [← hlen, rd.run_readFile hx buf hs hc]
  refine ⟨fun h => ?_, fun h => ⟨?_, fun l hl => ?_⟩⟩
  · exact toInt32_inj hlt (by omega) (congrArg (fun r => r.1.1) h.run)
  · rw [h]
    refine congrArg (fun out => ((_, out), v)) (funext fun j => ?_)
    refine if_ctx_congr Iff.rfl (fun hj => ?_) fun _ => rfl
    unfold add32
    rw [Nat.mod_eq_of_lt (by omega)]
  · obtain ⟨j, hj, rfl⟩ := (Touched.emits_ext2Read inode buf v).1 l hl
    rw [h] at hj
    have hpos : add32 offset j = offset + j := Nat.mod_eq_of_lt (by omega)
    rw [rd.bs_eq, hpos]
    calc (offset + j) / G.bs < (offset + j) / G.bs + 1 := Nat.lt_succ_self _
      _ = (offset + j + G.bs) / G.bs := (Nat.add_div_right _ rd.wf.bs_pos).symm
      _ ≤ (inode.size + G.bs - 1) / G.bs := Nat.div_le_div_right (by omega)

end

end Ready

/-! ## Writing -/

/-- No write of `count` bytes at `offset` changes a byte of the file below `offset`. -/
def KeepsBelow (count offset : ℕ) : Prop :=
  ∀ (v : Vol) (G : Geo) (e : ℕ → Bytes) (inode : Inode) (buf : Bytes), Opened v G e inode →
    ∀ i < offset, content (((ext2Write inode buf count offset).run v).2.core.file
        ((ext2Write inode buf count offset).run v).1.2.disk G) G.bs i =
      content (v.core.file inode.disk G) G.bs i

theorem keepsBelow_of_le {count offset : ℕ} (hc : count < 2 ^ 32) (ho : offset < 2 ^ 32)
    (h : offset + count ≤ 2 ^ 32) : KeepsBelow count offset := by
  intro v G e inode buf op i hi
  generalize hrun : (ext2Write inode buf count offset).run v = out
  obtain ⟨⟨ret, inode'⟩, v'⟩ := out
  obtain ⟨written, -, hle, -, -, hwr⟩ := op.wrote hc ho hrun
  rw [hwr.content i (by omega), if_neg]
  unfold sub32
  omega

theorem Full.wrote {count offset : ℕ} {buf : Bytes} {ret : ℤ} {inode' : Inode} {v' : Vol}
    (hc : count < 2 ^ 32) (ho : offset < 2 ^ 32)
    (hrun : (ext2Write openInode buf count offset).run vol = ((ret, inode'), v')) :
    ret = toInt32 count ∧ Wrote vol.geo (vol.core.Alloc vol.geo) vol vol.core.ino openInode buf
      offset count inode' v' := by
  obtain ⟨written, hret, hle, hstop, -, hwr⟩ := opened.wrote hc ho hrun
  have hall : written = count := by
    by_contra hne
    have hpos : add32 offset written < 2 ^ 32 := Nat.mod_lt _ (by norm_num)
    have hhole := hstop (by omega)
    rw [← opened.disk] at hhole
    have hnone := (Full.file_eq (wf.pos_div_lt hpos)).symm.trans hhole
    exact absurd hnone (by simp)
  subst hall
  exact ⟨hret, hwr⟩

/-- A write that passes `2 ^ 32` goes on at the first byte. -/
theorem Full.write_wraps {count offset : ℕ} (hc : count < 2 ^ 32) (ho : offset < 2 ^ 32)
    (h : 2 ^ 32 < offset + count) (buf : Bytes) :
    content (((ext2Write openInode buf count offset).run vol).2.core.file
      ((ext2Write openInode buf count offset).run vol).1.2.disk vol.geo) vol.geo.bs 0 =
      buf (2 ^ 32 - offset) := by
  generalize hrun : (ext2Write openInode buf count offset).run vol = out
  obtain ⟨⟨ret, inode'⟩, v'⟩ := out
  obtain ⟨-, hwr⟩ := Full.wrote hc ho hrun
  have hsub : sub32 0 offset = 2 ^ 32 - offset := by
    unfold sub32
    omega
  rw [hwr.content 0 (by norm_num), hsub, if_pos (by omega)]

theorem keepsBelow_iff {count offset : ℕ} (hc : count < 2 ^ 32) (ho : offset < 2 ^ 32) :
    KeepsBelow count offset ↔ offset + count ≤ 2 ^ 32 := by
  refine ⟨fun hk => ?_, keepsBelow_of_le hc ho⟩
  by_contra h
  have h1 := hk _ _ _ _ (fun _ => 1) Full.opened 0 (by omega)
  rw [Full.write_wraps hc ho (by omega)] at h1
  have h2 : content (Full.vol.core.file Full.openInode.disk Full.vol.geo) Full.vol.geo.bs 0
      = 0 := by
    have h3 := Full.file_eq (l := 0 / Full.vol.geo.bs) (Full.wf.pos_div_lt (by norm_num))
    unfold content
    rw [← Full.opened.disk]
    exact (congrArg (fun b => Option.elim b 0 fun buf => buf (0 % Full.vol.geo.bs)) h3)
  rw [h2] at h1
  exact absurd h1 (by decide)

/-! ## The three calls -/

/-- **Ranges near `2 ^ 32`.** On every volume `ext2_read`, and `ext2_readdir` on a directory,
transfer the bytes up to the end of the file, and only from its blocks, exactly if the range starts
at or behind the end or stays below `2 ^ 32`; `ext2_write` keeps the bytes below its offset on every
volume exactly if the range does not pass `2 ^ 32`. -/
theorem ranges_below_wrap {count offset : ℕ} (hc : count < 2 ^ 32) (ho : offset < 2 ^ 32) :
    (∀ (v : Vol) (G : Geo) (r inode : Inode) (buf : Bytes), Ready v G r →
      MapOk G v.core inode.disk → inode.size < 2 ^ 32 →
      (Transfers v G inode buf count offset ((ext2Read inode buf count offset).run v)
          (Touched.ext2Read inode buf count offset v).2.2 ↔
        inode.size ≤ offset ∨ offset + count < 2 ^ 32)) ∧
    (∀ (v : Vol) (G : Geo) (r dir : Inode) (buf : Bytes), Ready v G r →
      MapOk G v.core dir.disk → dir.size < 2 ^ 32 → fsIsDir dir.mode = true →
      (Transfers v G dir buf count offset ((ext2Readdir dir buf count offset).run v)
          (Touched.ext2Readdir dir buf count offset v).2.2 ↔
        dir.size ≤ offset ∨ offset + count < 2 ^ 32)) ∧
    (KeepsBelow count offset ↔ offset + count ≤ 2 ^ 32) := by
  refine ⟨fun v G r inode buf rd hx hs => rd.transfers_iff hx buf hs hc ho,
    fun v G r dir buf rd hx hs hdir => ?_, keepsBelow_iff hc ho⟩
  have h := rd.transfers_iff hx buf hs hc ho
  unfold ext2Readdir Touched.ext2Readdir
  rw [hdir, Bool.not_true, if_neg Bool.false_ne_true, if_neg Bool.false_ne_true]
  exact h

/-- Two bytes at offset 1, in the three-byte file, in the root directory and in any write. -/
theorem ranges_below_wrap_small :
    Transfers fileVol sampleVol.geo openFile Bytes.zero 2 1
        ((ext2Read openFile Bytes.zero 2 1).run fileVol)
        (Touched.ext2Read openFile Bytes.zero 2 1 fileVol).2.2 ∧
      Transfers fileVol sampleVol.geo fileVol.root Bytes.zero 2 1
        ((ext2Readdir fileVol.root Bytes.zero 2 1).run fileVol)
        (Touched.ext2Readdir fileVol.root Bytes.zero 2 1 fileVol).2.2 ∧
      KeepsBelow 2 1 := by
  obtain ⟨hread, hreaddir, hwrite⟩ :=
    ranges_below_wrap (show 2 < 2 ^ 32 by norm_num) (show 1 < 2 ^ 32 by norm_num)
  have hsize : openFile.size < 2 ^ 32 := by
    rw [openFile_size]
    norm_num
  have h1 := hread fileVol sampleVol.geo fileVol.root openFile Bytes.zero fileVol_ready
    openFile_opened.mapOk hsize
  have h2 := hreaddir fileVol sampleVol.geo fileVol.root fileVol.root Bytes.zero fileVol_ready
    fileVol_opened.mapOk (by decide +kernel) (by decide +kernel)
  exact ⟨h1.mpr (.inr (by norm_num)), h2.mpr (.inr (by norm_num)), hwrite.mpr (by norm_num)⟩

/-- A read of `2 ^ 32 - 1` bytes at offset 1 of the three-byte file is not cut at its end, and a
write of 8 bytes at `2 ^ 32 - 4` can change the first four bytes of a file. -/
theorem ranges_wrap :
    ((ext2Read openFile Bytes.zero (2 ^ 32 - 1) 1).run fileVol).1.1 = toInt32 (2 ^ 32 - 1) ∧
      ¬ Transfers fileVol sampleVol.geo openFile Bytes.zero (2 ^ 32 - 1) 1
        ((ext2Read openFile Bytes.zero (2 ^ 32 - 1) 1).run fileVol)
        (Touched.ext2Read openFile Bytes.zero (2 ^ 32 - 1) 1 fileVol).2.2 ∧
      content (((ext2Write Full.openInode (fun _ => 1) 8 (2 ^ 32 - 4)).run Full.vol).2.core.file
        ((ext2Write Full.openInode (fun _ => 1) 8 (2 ^ 32 - 4)).run Full.vol).1.2.disk
          Full.vol.geo) Full.vol.geo.bs 0 = 1 ∧
      ¬ KeepsBelow 8 (2 ^ 32 - 4) := by
  have hx := openFile_opened.mapOk
  have hs : openFile.size < 2 ^ 32 := by rw [openFile_size]; norm_num
  refine ⟨fileVol_ready.readFile_not_cut hx _ hs (by norm_num) ?_ (by norm_num), fun h => ?_, ?_,
    fun h => ?_⟩
  · rw [openFile_size]
    norm_num
  · have h := (fileVol_ready.transfers_iff hx _ hs (by norm_num) (by norm_num)).mp h
    rw [openFile_size] at h
    rcases h with h | h <;> norm_num at h
  · exact Full.write_wraps (by norm_num) (by norm_num) (by norm_num) fun _ => 1
  · have h := (keepsBelow_iff (by norm_num) (by norm_num)).mp h
    norm_num at h

end DvivonOS
