import DvivonOS.Ext2.File

/-!
# Writing a file and reading it back

After `ext2_write` has written `n` bytes, the contents of the file are the old ones overlaid with
these bytes, whichever blocks were holes, and no other file changes. `file_read` returns the piece
of the contents at the file position, as long as the piece is shorter than `2 ^ 31` bytes and the
requested range does not pass `2 ^ 32` (`Fits`): the result is an `int`, and the check against the
file size adds the offset and the count in 32 bits.
-/

namespace DvivonOS

open Function List

/-! ## One read -/

/-- The number of bytes that `ext2_read` transfers. -/
def readLen (size offset count : ℕ) : ℕ :=
  if size ≤ offset then 0 else if size < add32 offset count then size - offset else count

namespace Ready

variable {v : Vol} {G : Geo} {r : Inode} (rd : Ready v G r) {inode : Inode}
  (hx : MapOk G v.core inode.disk) {buf : Bytes} {count offset : ℕ}

include rd hx

theorem readFile (hc : count < 2 ^ 32) (hs : inode.size < 2 ^ 32) {Q : ℤ × Bytes → Vol → Prop} :
    After (ext2Read inode buf count offset) v Q ↔
      Q (toInt32 (readLen inode.size offset count), fun j =>
        if j < readLen inode.size offset count then
          content (v.core.file inode.disk G) G.bs (add32 offset j) else buf j) v := by
  have hnone : ∀ n, n = 0 → (fun j => if j < n then
      content (v.core.file inode.disk G) G.bs (add32 offset j) else buf j) = buf := by
    rintro n rfl
    funext j
    exact if_neg (Nat.not_lt_zero _)
  unfold ext2Read
  rw [after_bind, after_get]
  by_cases h0 : inode.size ≤ offset
  · have hlen : readLen inode.size offset count = 0 := if_pos h0
    rw [if_pos h0, after_pure, hnone _ hlen, hlen]
    exact Iff.rfl
  rw [if_neg h0]
  have hlen : readLen inode.size offset count =
      if inode.size < add32 offset count then inode.size - offset else count := if_neg h0
  dsimp only
  rw [← hlen]
  have hlt : readLen inode.size offset count < 2 ^ 32 := by
    rw [hlen]; split_ifs <;> omega
  by_cases hz : readLen inode.size offset count = 0
  · rw [if_pos hz, after_pure, hnone _ hz, hz]
    exact Iff.rfl
  · rw [if_neg hz, after_kmalloc rd.env, after_bind, rd.bs_eq,
      rd.readLoop hx hlt _ 0 buf (Nat.zero_le _) (by omega), after_pure]
    refine iff_of_eq (congrArg (fun b => Q (_, b) v) (funext fun j => ?_))
    exact if_congr (by omega) rfl rfl

end Ready

/-! ## Successive reads -/

/-- Successive calls of `file_read` into equal buffers. -/
def fileReads (buf : Bytes) : List ℕ → File → FsM (List (ℤ × Bytes) × File)
  | [], file => return ([], file)
  | count :: counts, file => do
    let (ret, file, out) ← fileRead file buf count
    let (rest, file) ← fileReads buf counts file
    return ((ret, out) :: rest, file)

/-- The bytes of `f` from `offset` on in a buffer that was `buf`. -/
def piece (f : ℕ → UInt8) (buf : Bytes) (offset n : ℕ) : Bytes :=
  fun j => if j < n then f (offset + j) else buf j

/-- What the calls should return for a file of `size` bytes `f`: each the next piece, of the
requested length or up to the end of the file. -/
def pieces (f : ℕ → UInt8) (size : ℕ) (buf : Bytes) : List ℕ → ℕ → List (ℤ × Bytes)
  | [], _ => []
  | count :: counts, offset =>
    let n := min count (size - offset)
    ((n : ℤ), piece f buf offset n) :: pieces f size buf counts (offset + n)

/-- The requests that `file_read` serves: the range stays below `2 ^ 32` and the piece below
`2 ^ 31`. Nothing is asked of a read at or behind the end of the file. -/
def Fits (size : ℕ) : List ℕ → ℕ → Prop
  | [], _ => True
  | count :: counts, offset =>
    (size ≤ offset ∨ (offset + count < 2 ^ 32 ∧ min count (size - offset) < 2 ^ 31)) ∧
      Fits size counts (offset + min count (size - offset))

/-- The bytes of the pieces together are one range, however it is split. -/
theorem pieces_flatten (f : ℕ → UInt8) (size : ℕ) (buf : Bytes) (counts : List ℕ) : ∀ offset,
    (pieces f size buf counts offset).flatMap (fun p => p.2.slice 0 p.1.toNat) =
      (List.range (min counts.sum (size - offset))).map fun j => f (offset + j) := by
  induction counts with
  | nil => intro offset; rw [sum_nil, Nat.zero_min]; rfl
  | cons count counts ih =>
    intro offset
    unfold pieces
    rw [flatMap_cons, ih]
    set n := min count (size - offset) with hn
    have hsplit : min (count :: counts).sum (size - offset) =
        n + min counts.sum (size - (offset + n)) := by
      rw [sum_cons]; omega
    rw [hsplit, range_add, map_append, map_map]
    congr 1
    · show Bytes.slice _ 0 (n : ℤ).toNat = _
      rw [Int.toNat_natCast]
      unfold Bytes.slice
      refine map_congr_left fun j hj => ?_
      have hj := mem_range.mp hj
      rw [Nat.zero_add]
      exact if_pos hj
    · refine map_congr_left fun j _ => ?_
      exact congrArg f (by show offset + n + j = offset + (n + j); omega)

/-- The number of bytes transferred is the wanted one exactly for the requests that fit. -/
theorem readLen_iff {size offset count : ℕ} (hs : size < 2 ^ 32) (hc : count < 2 ^ 32)
    (ho : offset < 2 ^ 32) :
    toInt32 (readLen size offset count) = (min count (size - offset) : ℕ) ↔
      size ≤ offset ∨ (offset + count < 2 ^ 32 ∧ min count (size - offset) < 2 ^ 31) := by
  unfold toInt32 readLen add32
  split_ifs <;> push_cast <;> omega

section Reads

variable {v : Vol} {G : Geo} {r : Inode} (rd : Ready v G r) (buf : Bytes)

include rd

section

variable {file : File} (hx : MapOk G v.core file.handle.inode.disk)
  (hs : file.handle.inode.size < 2 ^ 32) {count : ℕ} (hc : count < 2 ^ 32)

include hx hs hc

theorem run_fileRead :
    ((fileRead file buf count).run v).1.1 =
      toInt32 (readLen file.handle.inode.size file.offset count) :=
  (show After (ext2Read file.handle.inode buf count file.offset) v fun p _ =>
    p.1 = toInt32 (readLen file.handle.inode.size file.offset count) from
      (rd.readFile hx hc hs).mpr rfl)

theorem run_fileRead_of_fits
    (ho : file.offset < 2 ^ 32)
    (hf : file.handle.inode.size ≤ file.offset ∨ (file.offset + count < 2 ^ 32 ∧
      min count (file.handle.inode.size - file.offset) < 2 ^ 31)) :
    (fileRead file buf count).run v =
      ((((min count (file.handle.inode.size - file.offset) : ℕ) : ℤ),
        { file with offset := file.offset + min count (file.handle.inode.size - file.offset) },
        piece (content (v.core.file file.handle.inode.disk G) G.bs) buf file.offset
          (min count (file.handle.inode.size - file.offset))), v) := by
  have hlen : readLen file.handle.inode.size file.offset count =
      min count (file.handle.inode.size - file.offset) := by
    unfold readLen add32
    split_ifs <;> omega
  have hret := (readLen_iff hs hc ho).mpr hf
  set n := min count (file.handle.inode.size - file.offset) with hn
  rw [hlen] at hret
  have hlt : n < 2 ^ 32 ∧ file.offset + n < 2 ^ 32 := by omega
  have h : After (ext2Read file.handle.inode buf count file.offset) v fun p s =>
      p.1 = (n : ℤ) ∧ p.2 = piece (content (v.core.file file.handle.inode.disk G) G.bs) buf
        file.offset n ∧ s = v := by
    refine (rd.readFile hx hc hs).mpr ⟨by rw [hlen, hret], ?_, rfl⟩
    rw [hlen]
    funext j
    refine if_ctx_congr Iff.rfl (fun hj => ?_) fun _ => rfl
    unfold add32
    rw [Nat.mod_eq_of_lt (by omega)]
  have hrun : (ext2Read file.handle.inode buf count file.offset).run v =
      (((n : ℤ), piece (content (v.core.file file.handle.inode.disk G) G.bs) buf file.offset n), v) :=
    Prod.ext (Prod.ext h.1 h.2.1) h.2.2
  have hoff : (if 0 < (n : ℤ) then add32 file.offset (ofInt32 n) else file.offset) =
      file.offset + n := by
    unfold add32 ofInt32
    split_ifs with hpos
    · rw [Int.emod_eq_of_lt (by omega) (by omega), Int.toNat_natCast, Nat.mod_eq_of_lt hlt.2]
    · omega
  unfold fileRead
  rw [StateT.run_bind, hrun]
  show (((n : ℤ), { file with
    offset := if 0 < (n : ℤ) then add32 file.offset (ofInt32 n) else file.offset }, _), v) = _
  rw [hoff]

end

/-- **Successive reads** return the pieces of the contents and advance to their end exactly when
every request fits. -/
theorem fileReads_iff (counts : List ℕ) : ∀ {file : File},
    MapOk G v.core file.handle.inode.disk → file.handle.inode.size < 2 ^ 32 →
    (∀ count ∈ counts, count < 2 ^ 32) → file.offset < 2 ^ 32 →
    ((fileReads buf counts file).run v =
      ((pieces (content (v.core.file file.handle.inode.disk G) G.bs) file.handle.inode.size buf
        counts file.offset, { file with
          offset := file.offset + min counts.sum (file.handle.inode.size - file.offset) }), v) ↔
      Fits file.handle.inode.size counts file.offset) := by
  induction counts with
  | nil =>
    intro file _ _ _ _
    refine iff_of_true ?_ trivial
    rw [sum_nil, Nat.zero_min]
    rfl
  | cons count counts ih =>
    intro file hx hs hcs ho
    have hc := hcs count mem_cons_self
    have hcs := fun c hm => hcs c (mem_cons_of_mem _ hm)
    have hhead := readLen_iff hs hc ho
    by_cases hf : file.handle.inode.size ≤ file.offset ∨ (file.offset + count < 2 ^ 32 ∧
        min count (file.handle.inode.size - file.offset) < 2 ^ 31)
    · have hrun := run_fileRead_of_fits rd buf hx hs hc ho hf
      set n := min count (file.handle.inode.size - file.offset) with hn
      have ih := @ih { file with offset := file.offset + n } hx hs hcs
        (by dsimp only; omega)
      dsimp only at ih
      have hsum : file.offset + min (count :: counts).sum (file.handle.inode.size - file.offset) =
          file.offset + n + min counts.sum (file.handle.inode.size - (file.offset + n)) := by
        rw [sum_cons]; omega
      have hstep : (fileReads buf (count :: counts) file).run v =
          ((((n : ℤ), piece (content (v.core.file file.handle.inode.disk G) G.bs) buf file.offset n)
            :: ((fileReads buf counts { file with offset := file.offset + n }).run v).1.1,
            ((fileReads buf counts { file with offset := file.offset + n }).run v).1.2),
            ((fileReads buf counts { file with offset := file.offset + n }).run v).2) := by
        show (StateT.run (do
          let p ← fileRead file buf count
          let q ← fileReads buf counts p.2.1
          return ((p.1, p.2.2) :: q.1, q.2)) v) = _
        rw [StateT.run_bind, hrun]
        rfl
      rw [hstep, hsum]
      unfold Fits pieces
      rw [← hn, and_iff_right hf, ← ih]
      constructor
      · intro h
        obtain ⟨h1, h2⟩ := Prod.mk.inj h
        obtain ⟨h3, h4⟩ := Prod.mk.inj h1
        exact Prod.ext (Prod.ext (List.cons.inj h3).2 h4) h2
      · intro h
        rw [h]
    · refine iff_of_false (fun h => hf (hhead.mp ?_)) fun h => hf h.1
      rw [← run_fileRead rd buf hx hs hc]
      have h1 := congrArg (fun p => p.1.1.head?) h
      have h2 : ((fileReads buf (count :: counts) file).run v).1.1.head? =
          some (((fileRead file buf count).run v).1.1, ((fileRead file buf count).run v).1.2.2) := rfl
      dsimp only at h1
      rw [h2] at h1
      unfold pieces at h1
      exact congrArg Prod.fst (Option.some.inj h1)

end Reads

/-! ## Write, then read -/

/-- After `n` bytes of `buf` have been written at `offset`: the contents are overlaid, the size has
grown as needed, the other files and their inodes are as before, the inode reads back from disk,
and the reads `counts` of the open file return the pieces of the contents, which together are one
range. -/
structure ReadsBack (G : Geo) (e : ℕ → Bytes) (v : Vol) (inode : Inode) (buf : Bytes) (offset n : ℕ)
    (v' : Vol) (file : File) (rbuf : Bytes) (counts : List ℕ) : Prop where
  content : ∀ i < 2 ^ 32, content (v'.core.file file.handle.inode.disk G) G.bs i =
    if offset ≤ i ∧ i < offset + n then buf (i - offset)
    else content (v.core.file inode.disk G) G.bs i
  size : file.handle.inode.size = max inode.size (offset + n)
  others : ∀ m, v.core.Alloc G m → m ≠ inode.ino → v'.core.ino m = v.core.ino m ∧
    ∀ i < 2 ^ 32, DvivonOS.content (v'.core.file (e m) G) G.bs i =
      DvivonOS.content (v.core.file (e m) G) G.bs i
  reread : (ext2ReadInode inode.ino).run v' = (some file.handle.inode, v')
  reads : (fileReads rbuf counts file).run v' =
    ((pieces (DvivonOS.content (v'.core.file file.handle.inode.disk G) G.bs)
      file.handle.inode.size rbuf counts file.offset, { file with
        offset := file.offset + min counts.sum (file.handle.inode.size - file.offset) }), v')
  split : ((fileReads rbuf counts file).run v').1.1.flatMap (fun p => p.2.slice 0 p.1.toNat) =
    (List.range (min counts.sum (file.handle.inode.size - file.offset))).map fun j =>
      DvivonOS.content (v'.core.file file.handle.inode.disk G) G.bs (file.offset + j)

section WriteRead

variable {v v' : Vol} {G : Geo} {e : ℕ → Bytes} {inode inode' : Inode} {buf : Bytes}
  {count offset : ℕ} {ret : ℤ}

theorem Opened.wrote (op : Opened v G e inode) (hc : count < 2 ^ 32) (ho : offset < 2 ^ 32)
    (hrun : (ext2Write inode buf count offset).run v = ((ret, inode'), v')) :
    ∃ written, ret = toInt32 written ∧ written ≤ count ∧
      (written < count → v.core.file inode.disk G (add32 offset written / G.bs) = none) ∧
      Ready v' G v.root ∧ Wrote G (v.core.Alloc G) v e inode buf offset written inode' v' := by
  have h : After (ext2Write inode buf count offset) v fun p v' =>
      ∃ written, p.1 = toInt32 written ∧ written ≤ count ∧
        (written < count → v.core.file inode.disk G (add32 offset written / G.bs) = none) ∧
        Ready v' G v.root ∧ Wrote G (v.core.Alloc G) v e inode buf offset written p.2 v' :=
    op.ready.writeFile op.own op.alloc op.alloc.1 op.disk hc ho
      fun written inode' v' rd' hw hstop h => ⟨written, rfl, hw, hstop, rd', h⟩
  exact h.of_run hrun

/-- **Write, then read.** When `ext2_write` has returned `n > 0`, the file reads back as the old
contents overlaid with the `n` bytes, in memory and after a new `ext2_read_inode`, the other files
are unchanged, and successive `file_read` calls return the pieces of the contents, exactly if each
of them asks for a range below `2 ^ 32` and for less than `2 ^ 31` bytes of the file. -/
theorem write_reads_back (op : Opened v G e inode) (sy : inode.Synced)
    (hrange : offset + count < 2 ^ 32)
    (hrun : (ext2Write inode buf count offset).run v = ((ret, inode'), v')) (hret : 0 < ret)
    (file : File) (hfile : file.handle.inode = inode') (hoff : file.offset < 2 ^ 32)
    (rbuf : Bytes) (counts : List ℕ) (hcounts : ∀ c ∈ counts, c < 2 ^ 32) :
    ReadsBack G e v inode buf offset ret.toNat v' file rbuf counts ↔
      Fits (max inode.size (offset + ret.toNat)) counts file.offset := by
  obtain ⟨written, hw, hle, -, rd', hwr⟩ := op.wrote (by omega) (by omega) hrun
  have hn : ret.toNat = written := by
    rw [hw] at hret ⊢
    unfold toInt32 at *
    split_ifs at hret ⊢ <;> omega
  have hino : inode'.ino = inode.ino := by rw [hwr.same]
  have hsize : inode'.size = max inode.size (offset + written) := by
    rw [hwr.size]
    unfold add32
    rw [Nat.mod_eq_of_lt (by omega)]
  have hsy := hwr.synced sy
  have hx : MapOk G v'.core inode'.disk := by
    have := hwr.own.mapOk op.alloc
    rwa [update_self] at this
  subst hfile
  have hreads := fileReads_iff rd' rbuf counts hx hsy.bounded.size hcounts hoff
  rw [hn, ← hsize, ← hreads]
  refine ⟨fun h => h.reads, fun h => ⟨fun i hi => ?_, hsize, fun m hm hne => ⟨?_, fun i hi => ?_⟩,
    ?_, h, ?_⟩⟩
  · rw [hwr.content i hi]
    have hiff : sub32 i offset < written ↔ offset ≤ i ∧ i < offset + written := by
      unfold sub32; omega
    refine if_ctx_congr hiff (fun hc => congrArg buf ?_) fun _ => rfl
    unfold sub32; omega
  · rw [hwr.ino, update_of_ne hne]
  · exact content_congr (hwr.other m hm hne _ (rd'.wf.pos_div_lt hi))
  · have h : After (ext2ReadInode inode.ino) v' fun a s =>
        a = some file.handle.inode ∧ s = v' := by
      refine (rd'.readInode op.alloc.1).mpr ⟨?_, rfl⟩
      rw [hwr.ino, update_self, hsy.onDisk, ← hino, hsy.fields]
    exact Prod.ext h.1 h.2
  · rw [h]
    exact pieces_flatten _ _ _ _ _

end WriteRead

theorem synced_ofDisk (v : Vol) (n : ℕ) : (Inode.ofDisk n (v.core.ino n)).Synced where
  fields := rfl
  tail i hi := by
    show (if v.geo.IsInode n then Bytes.zero.copy 0 _ 128 else Bytes.zero) i = 0
    split_ifs
    · rw [Bytes.copy_of_not_mem _ _ (by omega)]
      rfl
    · rfl

/-- The file of the small volume, opened. -/
noncomputable def openFile : Inode := Inode.ofDisk 11 (fileVol.core.ino 11)

theorem openFile_opened : Opened fileVol sampleVol.geo fileVol.core.ino openFile :=
  ⟨fileVol_ready, fileVol_opened.own, ⟨by decide, by decide +kernel⟩, rfl⟩

/-- Two bytes written at offset 1 of the three-byte file. -/
noncomputable def wroteFile : (ℤ × Inode) × Vol :=
  (ext2Write openFile (Bytes.ofList [120, 121]) 2 1).run fileVol

theorem wroteFile_eq : (ext2Write openFile (Bytes.ofList [120, 121]) 2 1).run fileVol =
    ((2, wroteFile.1.2), wroteFile.2) := by
  have h : wroteFile.1.1 = 2 := by decide +kernel
  exact Prod.ext (Prod.ext h rfl) rfl

theorem openFile_size : openFile.size = 3 := by decide +kernel

theorem openFile_synced : openFile.Synced := synced_ofDisk fileVol 11

/-- The two bytes are read back by two reads. -/
theorem write_reads_back_file :
    ReadsBack sampleVol.geo fileVol.core.ino fileVol openFile (Bytes.ofList [120, 121]) 1 2
      wroteFile.2 ⟨⟨wroteFile.1.2, false⟩, false, 0⟩ Bytes.zero [1, 5] := by
  have h := write_reads_back openFile_opened openFile_synced (by norm_num) wroteFile_eq
    (by norm_num) ⟨⟨wroteFile.1.2, false⟩, false, 0⟩ rfl (by norm_num) Bytes.zero [1, 5] (by simp)
  rw [openFile_size] at h
  exact h.mpr ⟨Or.inr ⟨by norm_num, by norm_num⟩, Or.inr ⟨by norm_num, by norm_num⟩, trivial⟩

/-- A request for `2 ^ 32 - 1` bytes at offset 1 of the three-byte file is not cut at the end of the
file, since `offset + count` wraps around to `0`, and the result reads as the error `-1`. -/
theorem file_read_count_wraps :
    ((fileRead ⟨⟨wroteFile.1.2, false⟩, false, 1⟩ Bytes.zero (2 ^ 32 - 1)).run wroteFile.2).1.1 =
        -1 ∧
      ¬ ReadsBack sampleVol.geo fileVol.core.ino fileVol openFile (Bytes.ofList [120, 121]) 1 2
        wroteFile.2 ⟨⟨wroteFile.1.2, false⟩, false, 1⟩ Bytes.zero [2 ^ 32 - 1] := by
  obtain ⟨written, hw, hle, -, rd', hwr⟩ :=
    openFile_opened.wrote (by norm_num) (by norm_num) wroteFile_eq
  generalize hfile : (⟨⟨wroteFile.1.2, false⟩, false, 1⟩ : File) = file
  have hx : MapOk sampleVol.geo wroteFile.2.core file.handle.inode.disk := by
    have := hwr.own.mapOk openFile_opened.alloc
    rw [← hfile]
    rwa [update_self] at this
  have hsize : file.handle.inode.size = 3 := by rw [← hfile]; decide +kernel
  have hoff : file.offset = 1 := by rw [← hfile]
  have hlen : toInt32 (readLen 3 1 (2 ^ 32 - 1)) = -1 := by decide
  have hret := run_fileRead rd' Bytes.zero hx (by rw [hsize]; norm_num)
    (show 2 ^ 32 - 1 < 2 ^ 32 by norm_num)
  rw [hsize, hoff, hlen] at hret
  refine ⟨hret, fun h => ?_⟩
  have hfits := (fileReads_iff rd' Bytes.zero [2 ^ 32 - 1] hx (by rw [hsize]; norm_num)
    (by simp) (by rw [hoff]; norm_num)).mp h.reads
  rw [hsize, hoff] at hfits
  rcases hfits.1 with h1 | ⟨h1, -⟩ <;> norm_num at h1

end DvivonOS
