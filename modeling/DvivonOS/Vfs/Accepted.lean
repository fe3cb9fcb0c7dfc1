import DvivonOS.Ext2.Recorded
import DvivonOS.Vfs.Mount

/-!
# Superblocks that are accepted

`ext2_validate_superblock` looks at the magic number, the block size and the revision. The other
fields of an accepted superblock are divided by at the mount (`ext2_fill_super`) and in every later
call; which accepted superblocks are safe is a condition on them (`FieldsOk`).
-/

namespace DvivonOS.Recorded

open TraceM

variable {α β : Type}

/-! ## Later calls -/

inductive LaterCall
  | readInodeRaw (ino : ℕ)
  | writeInodeRaw (ino : ℕ) (x : Bytes)
  | allocBlock
  | freeBlock (block : ℕ)
  | allocInode
  | freeInode (ino : ℕ)

def LaterCall.run : LaterCall → RecM Unit
  | .readInodeRaw ino => do let _ ← ext2ReadInodeRaw ino
  | .writeInodeRaw ino x => do let _ ← ext2WriteInodeRaw ino x
  | .allocBlock => do let _ ← ext2AllocBlock
  | .freeBlock block => ext2FreeBlock block
  | .allocInode => do let _ ← ext2AllocInode
  | .freeInode ino => ext2FreeInode ino

def runCalls : List LaterCall → RecM Unit
  | [] => return ()
  | c :: cs => do
    c.run
    runCalls cs

/-- Not a division by zero. -/
def Event.Defined (e : Event) : Prop := e ≠ .divide 0

/-- The numbers that are divided by are not zero. -/
structure Divides (G : Geo) : Prop where
  bpg : G.bpg ≠ 0
  ipg : G.ipg ≠ 0
  isize : G.isize ≠ 0
  ipb : G.ipb ≠ 0
  gdpb : G.gdpb ≠ 0

/-! ## What keeps the geometry -/

/-- A computation that leaves the geometry. -/
def Stays (m : FsM α) : Prop := ∀ v, After m v fun _ v' => v'.geo = v.geo

theorem Stays.bind {m : FsM α} {f : α → FsM β} (h : Stays m) (hf : ∀ a, Stays (f a)) :
    Stays (m >>= f) := by
  intro v
  rw [after_bind]
  exact (h v).mono fun a v₁ h₁ => (hf a v₁).mono fun _ v₂ h₂ => h₂.trans h₁

theorem Stays.ite {c : Prop} [Decidable c] {m m' : FsM α} (h : Stays m) (h' : Stays m') :
    Stays (if c then m else m') := by
  split_ifs
  exacts [h, h']

theorem stays_pure (a : α) : Stays (pure a : FsM α) := fun _ => rfl

theorem stays_get : Stays (get : FsM Vol) := fun _ => rfl

theorem stays_kmallocOk : Stays kmallocOk := fun _ => rfl

theorem stays_writeBlock (b : ℕ) (buf : Bytes) : Stays (ext2WriteBlock b buf) := fun _ => rfl

theorem stays_readBlock (b : ℕ) : Stays (ext2ReadBlock b) := by
  intro v
  unfold ext2ReadBlock
  simp only [after_bind, after_get, after_set]
  cases v.env.read 0 <;> rfl

theorem stays_flushSuperblock : Stays ext2FlushSuperblock :=
  stays_get.bind fun _ => (stays_writeBlock _ _).ite (stays_kmallocOk.bind fun _ =>
    (stays_pure _).ite ((stays_readBlock _).bind fun _ => stays_writeBlock _ _))

theorem stays_flushGroupDesc (g : ℕ) : Stays (DvivonOS.ext2FlushGroupDesc g) :=
  stays_get.bind fun _ => stays_kmallocOk.bind fun _ =>
    (stays_pure _).ite ((stays_readBlock _).bind fun _ => stays_writeBlock _ _)

theorem stays_readInodeRaw (ino : ℕ) : Stays (DvivonOS.ext2ReadInodeRaw ino) :=
  Stays.ite (stays_pure _) (stays_get.bind fun _ => stays_kmallocOk.bind fun _ =>
    (stays_pure _).ite ((stays_readBlock _).bind fun _ => (stays_pure _).ite (stays_pure _)))

theorem stays_writeInodeRaw (ino : ℕ) (x : Bytes) : Stays (DvivonOS.ext2WriteInodeRaw ino x) :=
  Stays.ite (stays_pure _) (stays_get.bind fun _ => stays_kmallocOk.bind fun _ =>
    (stays_pure _).ite ((stays_readBlock _).bind fun _ =>
      (stays_pure _).ite (stays_writeBlock _ _)))

/-! ## What divides by no zero -/

/-- From a volume with the geometry `G` the run divides by no zero and keeps the geometry. -/
def Keeps (G : Geo) (m : RecM α) : Prop :=
  ∀ v, v.geo = G → Emits m v Event.Defined fun _ v' => v'.geo = G

variable {G : Geo}

theorem Keeps.bind {m : RecM α} {f : α → RecM β} (h : Keeps G m) (hf : ∀ a, Keeps G (f a)) :
    Keeps G (m >>= f) := by
  intro v hv
  rw [emits_bind]
  exact (h v hv).mono fun a v₁ h₁ => hf a v₁ h₁

theorem Keeps.ite {c : Prop} [Decidable c] {m m' : RecM α} (h : Keeps G m) (h' : Keeps G m') :
    Keeps G (if c then m else m') := by
  split_ifs
  exacts [h, h']

theorem keeps_pure (a : α) : Keeps G (pure a : RecM α) := fun _ hv => (emits_pure a).mpr hv

theorem Stays.keeps {m : FsM α} (h : Stays m) : Keeps G (quiet m) := fun v hv =>
  (emits_quiet m).mpr ((h v).mono fun _ _ h' => h'.trans hv)

theorem keeps_get {f : Vol → RecM β} (hf : ∀ v, v.geo = G → Keeps G (f v)) :
    Keeps G (quiet get >>= f) := fun v hv => by
  rw [emits_bind, emits_quiet]
  exact hf v hv v hv

theorem keeps_divide {d : ℕ} (h : d ≠ 0) : Keeps G (emit (.divide d) : RecM Unit) := by
  intro v hv
  refine (emits_emit _).mpr ⟨?_, hv⟩
  intro he
  exact h (Event.divide.inj he)

theorem keeps_emit {e : Event} (h : ∀ d, e ≠ .divide d) : Keeps G (emit e : RecM Unit) :=
  fun _ hv => (emits_emit e).mpr ⟨h 0, hv⟩

theorem keeps_addFree (k : Kind) (g d : ℕ) : Keeps G (quiet (modify fun v => v.addFree k g d)) :=
  Stays.keeps fun _ => addFree_geo

section Calls

variable (hG : Divides G)

include hG

theorem keeps_flushGroupDesc (g : ℕ) : Keeps G (ext2FlushGroupDesc g) :=
  keeps_get fun v hv => (keeps_divide (by subst hv; exact hG.gdpb)).bind fun _ =>
    (stays_flushGroupDesc g).keeps

theorem keeps_inodeLoc (ino : ℕ) : Keeps G (inodeLoc ino) := by
  refine keeps_get fun v hv => (keeps_pure ()).ite ?_
  subst hv
  exact (keeps_divide hG.ipg).bind fun _ => (keeps_divide hG.isize).bind fun _ =>
    (keeps_divide hG.ipb).bind fun _ => keeps_emit fun _ h => by cases h

theorem keeps_allocLoop (k : Kind) (n : ℕ) : ∀ g, Keeps G (allocLoop k n g) := by
  induction n with
  | zero => exact fun _ => keeps_pure _
  | succ n ih =>
    intro g
    refine keeps_get fun v _ => (ih _).ite ((stays_readBlock _).keeps.bind fun r => ?_)
    dsimp only
    cases findClear r.2 (v.groupBits k g) with
    | none => exact ih _
    | some i =>
      exact (stays_writeBlock _ _).keeps.bind fun _ => (keeps_addFree _ _ _).bind fun _ =>
        (keeps_flushGroupDesc hG g).bind fun _ => stays_flushSuperblock.keeps.bind fun _ =>
          keeps_pure _

theorem keeps_alloc (k : Kind) : Keeps G (ext2Alloc k) :=
  keeps_get fun _ _ => (keeps_pure _).ite (stays_kmallocOk.keeps.bind fun _ =>
    (keeps_pure _).ite (keeps_allocLoop hG k _ _))

theorem keeps_free (k : Kind) (n : ℕ) : Keeps G (ext2Free k n) := by
  have hdiv : ∀ v : Vol, v.geo = G → v.sPerGroup k ≠ 0 := by
    rintro v rfl
    cases k with
    | block => exact hG.bpg
    | inode => exact hG.ipg
  have hclear : ∀ g i, Keeps G (emitClear k g i) := by
    cases k with
    | block => exact fun _ _ => keeps_emit fun _ h => by cases h
    | inode => exact fun _ _ => keeps_pure _
  refine keeps_get fun v hv => (keeps_divide (hdiv v hv)).bind fun _ =>
    (keeps_emit fun _ h => by cases h).bind fun _ => stays_kmallocOk.keeps.bind fun _ =>
      (keeps_pure ()).ite ((stays_readBlock _).keeps.bind fun _ => (hclear _ _).bind fun _ => ?_)
  exact (stays_writeBlock _ _).keeps.bind fun _ => (keeps_addFree _ _ _).bind fun _ =>
    (keeps_flushGroupDesc hG _).bind fun _ => stays_flushSuperblock.keeps.bind fun _ => keeps_pure _

theorem keeps_call (c : LaterCall) : Keeps G c.run := by
  cases c with
  | readInodeRaw ino =>
    exact ((keeps_inodeLoc hG ino).bind fun _ => (stays_readInodeRaw ino).keeps).bind fun _ =>
      keeps_pure _
  | writeInodeRaw ino x =>
    exact ((keeps_inodeLoc hG ino).bind fun _ => (stays_writeInodeRaw ino x).keeps).bind fun _ =>
      keeps_pure _
  | allocBlock => exact (keeps_alloc hG .block).bind fun _ => keeps_pure _
  | freeBlock b => exact keeps_free hG .block b
  | allocInode => exact (keeps_alloc hG .inode).bind fun _ => keeps_pure _
  | freeInode ino => exact keeps_free hG .inode ino

theorem keeps_runCalls (cs : List LaterCall) : Keeps G (runCalls cs) := by
  induction cs with
  | nil => exact keeps_pure _
  | cons c cs ih => exact (keeps_call hG c).bind fun _ => ih

end Calls

end DvivonOS.Recorded

namespace DvivonOS.Mounting

open Objects Refs Recorded TraceM

/-! ## The mount -/

/-- A step of the mount that divides by no zero. -/
def Defined {α : Type} (m : MountM (Outcome α)) : Prop :=
  ∀ s, After m s fun r _ => r ≠ .divideError

/-- The device has `sb` where the superblock is read. -/
def Offers (sb : Bytes) (s : Store MountState) : Prop :=
  After ext2ReadSuperblock s.rest fun r _ => r = (0, sb)

section Mount

variable {fs : FsData} {sb : Bytes}

theorem failed_ne {α : Type} : (Outcome.failed : Outcome α) ≠ .divideError := by simp

theorem ok_ne {α : Type} (a : α) : Outcome.ok a ≠ .divideError := by simp

section

variable (hipg : sbInodesPerGroup fs.sb ≠ 0) (hipb : fs.blockSize / sbInodeSize fs.sb ≠ 0) (ino : ℕ)

include hipg hipb ino

theorem readInodeRaw_defined :
    Defined (Mounting.ext2ReadInodeRaw fs ino) := by
  intro s
  unfold Mounting.ext2ReadInodeRaw
  rw [if_neg hipg, if_neg hipb, after_bind]
  refine after_newObj (fun y s₁ _ _ _ => ?_) (fun _ _ _ => failed_ne)
  simp only [after_bind, after_onRest, after_dropObj]
  refine After.mono (Q := fun _ _ => True) trivial fun r _ _ => ?_
  split_ifs
  exacts [ok_ne _, failed_ne]

theorem readInode_defined :
    Defined (Mounting.ext2ReadInode fs ino) := by
  intro s
  unfold Mounting.ext2ReadInode
  rw [after_bind]
  refine after_newObj (fun y s₁ _ _ _ => ?_) (fun _ _ _ => failed_ne)
  rw [after_bind]
  refine (readInodeRaw_defined hipg hipb ino s₁).mono fun r s₂ hr => ?_
  cases r with
  | divideError => exact absurd rfl hr
  | failed => exact failed_ne
  | ok x =>
    rw [after_bind]
    refine After.mono (Q := fun _ _ => True) trivial fun p _ _ => ?_
    cases p with
    | none => exact failed_ne
    | some p => exact ok_ne _

end

theorem fillGroups_defined (hipg : sbInodesPerGroup sb ≠ 0)
    (hipb : sbBlockSize sb / sbInodeSize sb ≠ 0) (fsObj sbObj : ℕ) :
    Defined (fillGroups fsObj sbObj sb) := by
  intro s
  unfold fillGroups
  rw [after_bind]
  refine after_newObj (fun y s₁ _ _ _ => ?_) (fun _ _ _ => failed_ne)
  rw [after_bind]
  refine After.mono (Q := fun _ _ => True) trivial fun gd s₂ _ => ?_
  cases gd with
  | none => exact failed_ne
  | some gd =>
    rw [after_bind]
    refine (readInode_defined hipg hipb ext2RootIno s₂).mono fun r s₃ hr => ?_
    cases r with
    | divideError => exact absurd rfl hr
    | failed => exact failed_ne
    | ok x => exact ok_ne _

/-- `ext2_fill_super` on a device with a superblock whose divisors are not zero. -/
theorem fillSuper_defined (hbpg : sbBlocksPerGroup sb ≠ 0) (hsize : sbInodeSize sb ≠ 0)
    (hipg : sbInodesPerGroup sb ≠ 0) (hipb : sbBlockSize sb / sbInodeSize sb ≠ 0)
    {s : Store MountState} (h : Offers sb s) :
    After ext2FillSuper s fun r _ => r ≠ .divideError := by
  unfold ext2FillSuper
  rw [after_bind]
  refine after_newObj (fun y s₁ _ _ hrest₁ => ?_) (fun _ _ _ => failed_ne)
  rw [after_bind]
  refine after_newObj (fun z s₂ _ _ hrest₂ => ?_) (fun _ _ _ => failed_ne)
  rw [after_bind, after_onRest, hrest₂, hrest₁]
  refine After.mono h fun r s₃ hr => ?_
  subst hr
  dsimp only
  split_ifs with hbad hzero
  · exact failed_ne
  · obtain h0 | h0 := hzero
    exacts [absurd h0 hbpg, absurd h0 hsize]
  · rw [after_bind]
    exact fillGroups_defined hipg hipb y z _

end Mount

/-! ## The bounds -/

/-- The bounds that the arithmetic of the volume relies on. -/
structure Bounds (sb : Bytes) : Prop where
  isize_ge : 128 ≤ sbInodeSize sb
  isize_dvd : sbInodeSize sb ∣ sbBlockSize sb
  bpg_pos : 1 ≤ sbBlocksPerGroup sb
  bpg_le : sbBlocksPerGroup sb ≤ 8 * sbBlockSize sb
  ipg_pos : 1 ≤ sbInodesPerGroup sb
  ipg_le : sbInodesPerGroup sb ≤ 8 * sbBlockSize sb
  first_lt : sb.get32 20 < sb.get32 4

/-- Neither the mount nor a later call divides by zero, and the bounds hold. -/
structure MountSafe (sb : Bytes) : Prop where
  mount : ∀ s, Offers sb s → After ext2FillSuper s fun r _ => r ≠ .divideError
  calls : ∀ (v : Vol) (cs : List LaterCall), v.sb = sb → v.blockSize = sbBlockSize sb →
    Emits (runCalls cs) v Event.Defined fun _ _ => True
  bounds : Bounds sb

/-- The condition on the fields: `s_inode_size` is a power of two from 128 to the block size unless
the revision is 0, the groups have at least one and at most a bitmap of blocks and inodes, and the
first data block is a block. -/
structure FieldsOk (sb : Bytes) : Prop where
  inode : sb.get32 76 = 0 ∨ ∃ k ≤ 3 + sb.get32 24 % 32, sb.get16 88 = 2 ^ (7 + k)
  blocks : 1 ≤ sb.get32 32 ∧ sb.get32 32 ≤ 2 ^ (13 + sb.get32 24 % 32)
  inodes : 1 ≤ sb.get32 40 ∧ sb.get32 40 ≤ 2 ^ (13 + sb.get32 24 % 32)
  first : sb.get32 20 < sb.get32 4

theorem blockSize_of_valid {sb : Bytes} (hv : ext2ValidateSuperblock sb = true) :
    sb.get32 24 % 32 ≤ 2 ∧ sbBlockSize sb = 2 ^ (10 + sb.get32 24 % 32) ∧ sb.get32 76 ≤ 1 := by
  obtain ⟨-, hmin, hmax, hrev⟩ := of_decide_eq_true hv
  unfold ext2MinBlockSize ext2MaxBlockSize ext2DynamicRev sbBlockSize at *
  have hlt : sb.get32 24 % 32 < 32 := Nat.mod_lt _ (by norm_num)
  generalize sb.get32 24 % 32 = k at *
  refine ⟨?_, ?_, hrev⟩ <;> interval_cases k <;> simp_all

section Fields

variable {sb : Bytes} (hv : ext2ValidateSuperblock sb = true)

include hv

theorem inodeSize_iff : (128 ≤ sbInodeSize sb ∧ sbInodeSize sb ∣ sbBlockSize sb) ↔
    (sb.get32 76 = 0 ∨ ∃ k ≤ 3 + sb.get32 24 % 32, sb.get16 88 = 2 ^ (7 + k)) := by
  obtain ⟨-, hbs, hrev⟩ := blockSize_of_valid hv
  rw [hbs]
  unfold sbInodeSize ext2DynamicRev
  by_cases h0 : sb.get32 76 = 0
  · rw [if_neg (by omega)]
    refine iff_of_true ⟨le_rfl, ?_⟩ (.inl h0)
    exact pow_dvd_pow 2 (show 7 ≤ 10 + sb.get32 24 % 32 by omega)
  · rw [if_pos (by omega)]
    constructor
    · rintro ⟨hge, hdvd⟩
      obtain ⟨j, hj, he⟩ := (Nat.dvd_prime_pow Nat.prime_two).mp hdvd
      have hj7 : 7 ≤ j := by
        by_contra hlt
        have hlt' : 2 ^ j < 2 ^ 7 := Nat.pow_lt_pow_right (by norm_num) (by omega)
        omega
      exact .inr ⟨j - 7, by omega, by rw [he, Nat.add_sub_cancel' hj7]⟩
    · rintro (h | ⟨k, hk, he⟩)
      · exact absurd h h0
      · rw [he]
        have hpow : 2 ^ 7 ≤ 2 ^ (7 + k) := Nat.pow_le_pow_right (by norm_num) (by omega)
        exact ⟨hpow, pow_dvd_pow 2 (by omega)⟩

theorem bounds_iff : Bounds sb ↔ FieldsOk sb := by
  obtain ⟨-, hbs, -⟩ := blockSize_of_valid hv
  have h8 : 8 * sbBlockSize sb = 2 ^ (13 + sb.get32 24 % 32) := by
    rw [hbs, show (8 : ℕ) = 2 ^ 3 from rfl, ← pow_add, ← Nat.add_assoc]
  constructor
  · intro h
    refine ⟨(inodeSize_iff hv).mp ⟨h.isize_ge, h.isize_dvd⟩, ⟨h.bpg_pos, ?_⟩, ⟨h.ipg_pos, ?_⟩,
      h.first_lt⟩
    exacts [h8 ▸ h.bpg_le, h8 ▸ h.ipg_le]
  · intro h
    obtain ⟨hge, hdvd⟩ := (inodeSize_iff hv).mpr h.inode
    exact ⟨hge, hdvd, h.blocks.1, h8 ▸ h.blocks.2, h.inodes.1, h8 ▸ h.inodes.2, h.first⟩

theorem divides_of_bounds (h : Bounds sb) {v : Vol} (hsb : v.sb = sb)
    (hsize : v.blockSize = sbBlockSize sb) : Divides v.geo := by
  obtain ⟨-, hbs, -⟩ := blockSize_of_valid hv
  have hpos : 2 ^ 10 ≤ sbBlockSize sb := by
    rw [hbs]
    exact Nat.pow_le_pow_right (by norm_num) (by omega)
  have hge := h.isize_ge
  have hle := Nat.le_of_dvd (by omega) h.isize_dvd
  subst hsb
  refine ⟨?_, ?_, ?_, ?_, ?_⟩
  · exact Nat.one_le_iff_ne_zero.mp h.bpg_pos
  · exact Nat.one_le_iff_ne_zero.mp h.ipg_pos
  · show sbInodeSize v.sb ≠ 0
    omega
  · show v.blockSize / sbInodeSize v.sb ≠ 0
    rw [hsize]
    exact (Nat.div_pos hle (by omega)).ne'
  · show v.blockSize / 32 ≠ 0
    omega

/-- **Accepted superblocks.** The mount and the calls after it are safe exactly for the accepted
superblocks whose other fields are in order. -/
theorem mountSafe_iff : MountSafe sb ↔ FieldsOk sb := by
  rw [← bounds_iff hv]
  refine ⟨MountSafe.bounds, fun h => ⟨fun s hs => ?_, fun v cs hsb hsize => ?_, h⟩⟩
  · obtain ⟨-, hbs, -⟩ := blockSize_of_valid hv
    have hge := h.isize_ge
    have hle := Nat.le_of_dvd (by rw [hbs]; positivity) h.isize_dvd
    have hbpg := h.bpg_pos
    have hipg := h.ipg_pos
    exact fillSuper_defined (by omega) (by omega) (by omega)
      (Nat.div_pos hle (by omega)).ne' hs
  · exact (keeps_runCalls (divides_of_bounds hv h hsb hsize) cs v rfl).mono fun _ _ _ => trivial

end Fields

/-- A volume of 64 blocks of 1024 bytes in one group. -/
def smallSb : Bytes :=
  ((((Bytes.zero.put16 56 ext2Magic).put32 4 64).put32 20 1).put32 32 8192).put32 40 16

theorem smallSb_mountSafe : MountSafe smallSb := by
  refine (mountSafe_iff (by decide +kernel)).mpr ⟨.inl ?_, ⟨?_, ?_⟩, ⟨?_, ?_⟩, ?_⟩ <;>
    decide +kernel

/-- A superblock with only the magic number. -/
def magicSb : Bytes := Bytes.zero.put16 56 ext2Magic

/-- A device with that superblock. -/
def magicDevice : Store MountState where
  objs := { live := ∅, next := 0, gives := fun _ => true, refs := fun _ => 0, misused := false }
  rest :=
    { dev := ataDisk, sector := fun k => if k = 2 then magicSb else Bytes.zero
      read := fun _ => none, write := fun _ => none, mountList := [], rootMount := none
      sbReads := [] }

/-- It is accepted, and the mount divides by its number of blocks in a group, which is zero. -/
theorem magic_divides : ext2ValidateSuperblock magicSb = true ∧
    (ext2FillSuper.run magicDevice).1 = .divideError ∧ ¬ MountSafe magicSb := by
  refine ⟨by decide +kernel, rfl, fun h => ?_⟩
  have hpos := h.bounds.bpg_pos
  exact absurd hpos (by decide +kernel)

end DvivonOS.Mounting
