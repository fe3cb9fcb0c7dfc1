import DvivonOS.Ext2.Layout

/-!
# The primitives on the abstract volume

What block I/O, the metadata writers, the bitmap operations and the raw inode operations do to a
volume whose layout is well formed, when `kmalloc` and the reads succeed (`Ready`): first as an
explicit new volume (`Vol.recount`, ...), then as a change of one part of the abstract volume.
-/

namespace DvivonOS

open Bytes Function

/-! ## Block I/O -/

section Device

variable {v : Vol} (hk : v.env = Env.ok)

include hk

theorem after_kmallocOk {Q : Bool → Vol → Prop} : After kmallocOk v Q ↔ Q true v := by
  obtain ⟨disk, sb, gd, bs, n, root, env⟩ := v
  subst hk
  exact Iff.rfl

theorem after_kmalloc {α : Type} {x y : FsM α} {Q : α → Vol → Prop} :
    After (do if !(← kmallocOk) then x else y) v Q ↔ After y v Q := by
  rw [after_bind, after_kmallocOk hk, Bool.not_true, if_neg Bool.false_ne_true]

theorem after_readBlock {b : ℕ} {Q : ℤ × Bytes → Vol → Prop} :
    After (ext2ReadBlock b) v Q ↔ Q (0, v.disk b) v := by
  obtain ⟨disk, sb, gd, bs, n, root, env⟩ := v
  subst hk
  exact Iff.rfl

omit hk in
theorem after_writeBlock {b : ℕ} {buf : Bytes} {Q : ℤ → Vol → Prop} :
    After (ext2WriteBlock b buf) v Q ↔ Q 0 (v.write b buf) := Iff.rfl

end Device

namespace Vol

variable (v : Vol) (g : ℕ)

def flushSb : Vol :=
  if v.blockSize = 1024 then v.write 1 v.sb
  else v.write 0 ((v.disk 0).copy ext2SuperblockOffset v.sb sizeofSuperblock)

def flushGd : Vol :=
  let blk := v.geo.first + 1 + g / v.geo.gdpb
  v.write blk ((v.disk blk).copy (g % v.geo.gdpb * 32) (v.gd g) 32)

/-- Write the bitmap of group `g` and change the counts by `d`. -/
def recount (k : Kind) (g d : ℕ) (buf : Bytes) : Vol :=
  (((v.write (v.geo.addr (k.loc g)) buf).addFree k g d).flushGd g).flushSb

def setUsedDirs (x : ℕ) : Vol :=
  { v with gd := update v.gd g ((v.gd g).put16 16 x) }

def putInode (n : ℕ) (x : Bytes) : Vol :=
  v.write (v.geo.addr (v.geo.iloc n))
    ((v.disk (v.geo.addr (v.geo.iloc n))).copy (v.geo.ioff n) x 128)

def take (k : Kind) (g i : ℕ) : Vol :=
  v.recount k g (2 ^ 32 - 1) ((v.disk (v.geo.addr (k.loc g))).setBit i)

def drop (k : Kind) (g i : ℕ) : Vol :=
  v.recount k g 1 ((v.disk (v.geo.addr (k.loc g))).clearBit i)

end Vol

/-! ## The metadata writers -/

section Flush

variable {v : Vol} {k : Kind} {g d : ℕ}

theorem after_flushSuperblock (hk : v.env = Env.ok) {Q : ℤ → Vol → Prop} :
    After ext2FlushSuperblock v Q ↔ Q 0 v.flushSb := by
  unfold ext2FlushSuperblock Vol.flushSb
  simp only [after_bind, after_get]
  split_ifs with h
  · exact after_writeBlock
  · simp only [after_bind, after_kmallocOk hk, Bool.not_true, Bool.false_eq_true, if_false,
      after_readBlock hk, after_writeBlock]

theorem gdBlock_eq (wf : v.geo.Wf) (hg : g < v.geo.groups) :
    add32 (v.sFirstDataBlock + 1) (g / (v.blockSize / sizeofGroupDesc)) =
      v.geo.first + 1 + g / v.geo.gdpb := by
  have h1 := (wf.range _ (Geo.Wf.gdt_valid hg)).2
  have h2 := wf.blocks_lt
  exact Nat.mod_eq_of_lt (lt_trans h1 h2)

theorem after_flushGroupDesc (hk : v.env = Env.ok) (wf : v.geo.Wf) (hg : g < v.geo.groups)
    {Q : ℤ → Vol → Prop} : After (ext2FlushGroupDesc g) v Q ↔ Q 0 (v.flushGd g) := by
  unfold ext2FlushGroupDesc Vol.flushGd
  simp only [after_bind, after_get, after_kmallocOk hk, Bool.not_true, Bool.false_eq_true,
    if_false, after_readBlock hk, after_writeBlock, gdBlock_eq wf hg]
  exact Iff.rfl

theorem flushSb_eq (wf : v.geo.Wf) :
    ∃ buf, v.flushSb = v.write (v.geo.addr .sb) buf := by
  have hs : v.sFirstDataBlock = if v.blockSize = 1024 then 1 else 0 := wf.start
  unfold Vol.flushSb
  split_ifs with h
  · rw [if_pos h] at hs
    exact ⟨v.sb, by show _ = v.write v.sFirstDataBlock _; rw [hs]⟩
  · rw [if_neg h] at hs
    exact ⟨_, by show _ = v.write v.sFirstDataBlock _; rw [hs]⟩

/-- The geometry reads neither the free counts nor the counts of a descriptor. -/
theorem geo_congr {v' : Vol} (hbs : v'.blockSize = v.blockSize)
    (hn : v'.groupsCount = v.groupsCount) (hsb : ∀ i, i < 12 ∨ 20 ≤ i → v'.sb i = v.sb i)
    (hgd : ∀ k i, i < 12 → v'.gd k i = v.gd k i) : v'.geo = v.geo := by
  have h32 : ∀ o, o + 4 ≤ 12 ∨ 20 ≤ o → v'.sb.get32 o = v.sb.get32 o := fun o ho =>
    get32_congr fun i _ _ => hsb i (by omega)
  have h16 : v'.sb.get16 88 = v.sb.get16 88 := get16_congr fun i _ _ => hsb i (by omega)
  have hg : ∀ o, o + 4 ≤ 12 → ∀ k, (v'.gd k).get32 o = (v.gd k).get32 o := fun o ho k =>
    get32_congr fun i _ _ => hgd k i (by omega)
  apply Geo.ext
  · exact hbs
  · exact h32 20 (by omega)
  · exact h32 4 (by omega)
  · exact h32 32 (by omega)
  · exact h32 40 (by omega)
  · exact hn
  · show v'.inodeSize = v.inodeSize
    unfold Vol.inodeSize Vol.sRevLevel Vol.sInodeSize
    rw [h32 76 (by omega), h16]
  · exact funext (hg 0 (by omega))
  · exact funext (hg 4 (by omega))
  · exact funext (hg 8 (by omega))

theorem update_gd_lt {o x : ℕ} (ho : 12 ≤ o) (k : ℕ) {i : ℕ} (hi : i < 12) :
    update v.gd g ((v.gd g).put16 o x) k i = v.gd k i := by
  by_cases hk : k = g
  · rw [hk, update_self, put16_of_not_mem _ _ (by omega)]
  · rw [update_of_ne hk]

@[simp] theorem addFree_geo : (v.addFree k g d).geo = v.geo := by
  have hsb : 12 ≤ k.sbOff ∧ k.sbOff + 4 ≤ 20 := by cases k <;> decide
  have hgd : 12 ≤ k.gdOff := by cases k <;> decide
  exact geo_congr rfl rfl (fun _ hi => put32_of_not_mem _ _ (by omega))
    fun k _ hi => update_gd_lt hgd k hi

@[simp] theorem setUsedDirs_geo : (v.setUsedDirs g d).geo = v.geo :=
  geo_congr rfl rfl (fun _ _ => rfl) fun k _ hi => update_gd_lt (by omega) k hi

theorem core_congr {v' : Vol} (hg : v'.geo = v.geo) (hd : v'.disk = v.disk) :
    v'.core = v.core := by
  unfold Vol.core Vol.kbit
  rw [hg, hd]

end Flush

/-! ## What stays -/

/-- The volume has the well-formed layout `G`, its cached root inode is `r`, and `kmalloc` and
the reads succeed. -/
structure Ready (v : Vol) (G : Geo) (r : Inode) : Prop where
  geo : v.geo = G
  wf : G.Wf
  env : v.env = Env.ok
  root : v.root = r

namespace Ready

variable {v : Vol} {G : Geo} {r : Inode} (rd : Ready v G r) {k : Kind} {g d b i : ℕ} {buf : Bytes}

include rd

theorem write : Ready (v.write b buf) G r := ⟨rd.geo, rd.wf, rd.env, rd.root⟩

theorem writeAt (b : ℕ) (buf : Bytes) : Ready (v.write b buf) G r := rd.write

theorem wf' : v.geo.Wf := by rw [rd.geo]; exact rd.wf

theorem of_counts {v' : Vol} (hg : v'.geo = v.geo) (he : v'.env = v.env)
    (hr : v'.root = v.root) : Ready v' G r :=
  ⟨hg.trans rd.geo, rd.wf, he.trans rd.env, hr.trans rd.root⟩

theorem flushSb : Ready v.flushSb G r ∧ v.flushSb.core = v.core := by
  obtain ⟨buf, h⟩ := flushSb_eq rd.wf'
  rw [h]
  exact ⟨rd.write, core_write_static rd.wf' (Or.inl rfl) trivial⟩

theorem flushGd (hg : g < G.groups) :
    Ready (v.flushGd g) G r ∧ (v.flushGd g).core = v.core := by
  have hg' : g < v.geo.groups := by rw [rd.geo]; exact hg
  exact ⟨rd.write, core_write_static (a := .gdt (g / v.geo.gdpb)) rd.wf' (Or.inr ⟨_, rfl⟩)
    (Geo.Wf.gdt_valid hg')⟩

theorem setUsedDirs : Ready (v.setUsedDirs g d) G r ∧ (v.setUsedDirs g d).core = v.core :=
  ⟨rd.of_counts setUsedDirs_geo rfl rfl, core_congr setUsedDirs_geo rfl⟩

theorem counted (hg : g < G.groups) : Ready (((v.addFree k g d).flushGd g).flushSb) G r ∧
    ((v.addFree k g d).flushGd g).flushSb.core = v.core := by
  have r1 : Ready (v.addFree k g d) G r := rd.of_counts addFree_geo rfl rfl
  have c1 : (v.addFree k g d).core = v.core := core_congr addFree_geo rfl
  obtain ⟨r2, c2⟩ := r1.flushGd hg
  obtain ⟨r3, c3⟩ := r2.flushSb
  exact ⟨r3, c3.trans (c2.trans c1)⟩

theorem recount (hg : g < G.groups) (hi : i < G.kbits k g) {x : Bool}
    (hbuf : ∀ j, buf.bit j = if j = i then x else v.kbit k g j) :
    Ready (v.recount k g d buf) G r ∧
      (v.recount k g d buf).core = v.core.setKused k (G.knum k g i) x := by
  have h := rd.geo
  subst h
  obtain ⟨r', c'⟩ := (rd.writeAt (v.geo.addr (k.loc g)) buf).counted (k := k) (d := d) hg
  exact ⟨r', c'.trans (core_write_bitmap rd.wf k hg hi hbuf)⟩

theorem take (hg : g < G.groups) (hi : i < G.kbits k g) :
    Ready (v.take k g i) G r ∧ (v.take k g i).core = v.core.setKused k (G.knum k g i) true :=
  rd.recount hg hi fun _ => bit_setBit _ _ _

theorem drop (hg : g < G.groups) (hi : i < G.kbits k g) :
    Ready (v.drop k g i) G r ∧ (v.drop k g i).core = v.core.setKused k (G.knum k g i) false :=
  rd.recount hg hi fun _ => bit_clearBit _ _ _

/-- The block or inode `n` is released. -/
theorem dropped {n : ℕ} (hn : G.KRange k n) :
    Ready (v.drop k (G.kgroup k n) (G.kindex k n)) G r ∧
      (v.drop k (G.kgroup k n) (G.kindex k n)).core = v.core.setKused k n false := by
  have h := rd.drop (rd.wf.kgroup_lt hn) (rd.wf.kindex_lt hn)
  rwa [Geo.Wf.knum_eq hn] at h

end Ready

/-! ## The scans -/

theorem findClear_some {bitmap : Bytes} {bits i : ℕ} (h : findClear bitmap bits = some i) :
    i < bits ∧ bitmap.bit i = false := by
  unfold findClear at h
  exact ⟨List.mem_range.mp (List.mem_of_find?_eq_some h), by simpa using List.find?_some h⟩

theorem findClear_none {bitmap : Bytes} {bits : ℕ} :
    findClear bitmap bits = none ↔ ∀ i < bits, bitmap.bit i = true := by
  unfold findClear
  simp [List.find?_eq_none]

/-- The loop over the groups that both allocators run: the first group with a nonzero free count
and a clear bit, among the `n` groups from `g` on. -/
def scanGroups (free : ℕ → ℕ) (find : ℕ → Option ℕ) : ℕ → ℕ → Option (ℕ × ℕ)
  | 0, _ => none
  | n + 1, g =>
    if free g = 0 then scanGroups free find n (g + 1)
    else
      match find g with
      | none => scanGroups free find n (g + 1)
      | some i => some (g, i)

theorem scanGroups_some {free : ℕ → ℕ} {find : ℕ → Option ℕ} :
    ∀ {n g : ℕ} {p : ℕ × ℕ}, scanGroups free find n g = some p →
      p.1 < g + n ∧ find p.1 = some p.2
  | 0, _, _, h => by simp [scanGroups] at h
  | n + 1, g, p, h => by
    unfold scanGroups at h
    split_ifs at h with h0
    · obtain ⟨h1, h2⟩ := scanGroups_some h
      exact ⟨by omega, h2⟩
    · split at h
      · obtain ⟨h1, h2⟩ := scanGroups_some h
        exact ⟨by omega, h2⟩
      · rename_i i hi
        obtain rfl := Option.some.inj h
        exact ⟨by dsimp only; omega, hi⟩

theorem scanGroups_none {free : ℕ → ℕ} {find : ℕ → Option ℕ} :
    ∀ {n g : ℕ}, scanGroups free find n g = none →
      ∀ k, g ≤ k → k < g + n → free k = 0 ∨ find k = none
  | 0, _, _, k, h1, h2 => by omega
  | n + 1, g, h, k, h1, h2 => by
    unfold scanGroups at h
    have hrest : scanGroups free find n (g + 1) = none ∧ (free g = 0 ∨ find g = none) := by
      split_ifs at h with h0
      · exact ⟨h, Or.inl h0⟩
      · split at h
        · rename_i hf
          exact ⟨h, Or.inr hf⟩
        · simp at h
    rcases Nat.eq_or_lt_of_le h1 with rfl | h1
    · exact hrest.2
    · exact scanGroups_none hrest.1 k h1 (by omega)

/-- The bit that an allocation takes. -/
def Vol.firstFree (v : Vol) (k : Kind) : Option (ℕ × ℕ) :=
  if v.sb.get32 k.sbOff = 0 then none
  else scanGroups (fun g => (v.gd g).get16 k.gdOff)
    (fun g => findClear (v.disk (v.bgBitmap k g)) (v.groupBits k g)) v.groupsCount 0

/-! ## `ext2_alloc_block`, `ext2_free_block`, `ext2_alloc_inode`, `ext2_free_inode` -/

theorem bgBitmap_eq (v : Vol) (k : Kind) (g : ℕ) : v.bgBitmap k g = v.geo.addr (k.loc g) := by
  cases k <;> rfl

section Alloc

variable {v : Vol} {G : Geo} {r : Inode} (rd : Ready v G r) {k : Kind} {g i n : ℕ}

include rd

theorem firstNumber_eq : v.firstNumber k = G.kbase k := by
  cases k with
  | block => exact congrArg Geo.first rd.geo
  | inode => rfl

theorem sPerGroup_eq : v.sPerGroup k = G.kper k := by
  cases k with
  | block => exact congrArg Geo.bpg rd.geo
  | inode => exact congrArg Geo.ipg rd.geo

theorem groupBits_eq (hg : g < G.groups) : v.groupBits k g = G.kbits k g := by
  have h := rd.geo
  subst h
  cases k with
  | inode => rfl
  | block =>
    have wf := rd.wf
    have h1 := wf.group_start_lt hg
    have h2 := wf.blocks_lt
    have h3 := wf.first_le
    change (if g = v.geo.groups - 1 then
      if sub32 (sub32 v.geo.blocks (g * v.geo.bpg % 2 ^ 32)) v.geo.first < v.geo.bpg then
        sub32 (sub32 v.geo.blocks (g * v.geo.bpg % 2 ^ 32)) v.geo.first
      else v.geo.bpg else v.geo.bpg) = v.geo.bits g
    unfold Geo.bits
    split_ifs with hl hr
    · unfold sub32 at hr ⊢
      rw [Nat.mod_eq_of_lt (by omega : g * v.geo.bpg < 2 ^ 32)] at hr ⊢
      omega
    · unfold sub32 at hr
      rw [Nat.mod_eq_of_lt (by omega : g * v.geo.bpg < 2 ^ 32)] at hr
      omega
    · -- not the last group: the next one starts inside the volume
      have h4 := wf.group_start_lt (show g + 1 < v.geo.groups by omega)
      rw [add_mul, one_mul] at h4
      omega

theorem add32_knum (hg : g < G.groups) (hi : i < G.kbits k g) :
    add32 (v.firstNumber k) (g * v.sPerGroup k + i) = G.knum k g i := by
  have h := rd.wf.krange_lt (rd.wf.knum_range hg hi)
  unfold add32
  rw [firstNumber_eq rd, sPerGroup_eq rd, ← Nat.add_assoc]
  exact Nat.mod_eq_of_lt h

/-- The end of the four functions: the bitmap is written, the counters are changed and flushed. -/
theorem after_recount {α : Type} {d : ℕ} {buf : Bytes} {a : α} {Q : α → Vol → Prop}
    (hg : g < G.groups) :
    After (do
      let _ ← ext2WriteBlock (v.bgBitmap k g) buf
      modify fun v => v.addFree k g d
      let _ ← ext2FlushGroupDesc g
      let _ ← ext2FlushSuperblock
      return a : FsM α) v Q ↔ Q a (v.recount k g d buf) := by
  have r1 : Ready (v.write (v.bgBitmap k g) buf) G r := rd.write
  have r2 : Ready ((v.write (v.bgBitmap k g) buf).addFree k g d) G r :=
    r1.of_counts addFree_geo rfl rfl
  rw [after_bind, after_writeBlock, after_bind, after_modify, after_bind,
    after_flushGroupDesc r2.env r2.wf' (by rw [r2.geo]; exact hg), after_bind,
    after_flushSuperblock (r2.flushGd hg).1.env, after_pure, bgBitmap_eq]
  exact Iff.rfl

theorem after_allocLoop {Q : ℕ → Vol → Prop} : ∀ n g, g + n ≤ G.groups →
    (After (allocLoop k n g) v Q ↔
      match scanGroups (fun g => (v.gd g).get16 k.gdOff)
        (fun g => findClear (v.disk (v.bgBitmap k g)) (v.groupBits k g)) n g with
      | none => Q 0 v
      | some (g, i) => Q (G.knum k g i) (v.take k g i))
  | 0, _, _ => Iff.rfl
  | n + 1, g, hn => by
    have ih := after_allocLoop (Q := Q) n (g + 1) (by omega)
    unfold allocLoop scanGroups
    simp only [after_bind, after_get]
    split_ifs with h0
    · exact ih
    · rw [after_bind, after_readBlock rd.env]
      dsimp only
      cases hi : findClear (v.disk (v.bgBitmap k g)) (v.groupBits k g) with
      | none => exact ih
      | some i =>
        have hg : g < G.groups := by omega
        have hib : i < G.kbits k g := by
          rw [← groupBits_eq rd hg]
          exact (findClear_some hi).1
        refine (after_recount rd hg).trans ?_
        rw [add32_knum rd hg hib, bgBitmap_eq]
        exact Iff.rfl

theorem after_alloc (k : Kind) {Q : ℕ → Vol → Prop} :
    After (ext2Alloc k) v Q ↔
      match v.firstFree k with
      | none => Q 0 v
      | some (g, i) => Q (G.knum k g i) (v.take k g i) := by
  unfold ext2Alloc Vol.firstFree
  simp only [after_bind, after_get]
  split_ifs with h0
  · exact Iff.rfl
  · rw [after_kmalloc rd.env]
    exact after_allocLoop rd _ _ (by rw [← rd.geo]; exact le_of_eq (Nat.zero_add _))

theorem firstFree_some {p : ℕ × ℕ} (h : v.firstFree k = some p) :
    p.1 < G.groups ∧ p.2 < G.kbits k p.1 ∧ v.kbit k p.1 p.2 = false := by
  unfold Vol.firstFree at h
  split_ifs at h
  obtain ⟨h1, h2⟩ := scanGroups_some h
  obtain ⟨h3, h4⟩ := findClear_some h2
  have hg : p.1 < G.groups := by rw [← rd.geo]; exact lt_of_lt_of_eq h1 (Nat.zero_add _)
  rw [groupBits_eq rd hg] at h3
  rw [bgBitmap_eq] at h4
  exact ⟨hg, h3, h4⟩

/-- The release of a number with a group, also behind the end of the volume. -/
theorem after_free_of_group (hlt : n < 2 ^ 32) (hle : G.kbase k ≤ n)
    (hg : G.kgroup k n < G.groups) {Q : Unit → Vol → Prop} :
    After (ext2Free k n) v Q ↔ Q () (v.drop k (G.kgroup k n) (G.kindex k n)) := by
  have hrel : sub32 n (v.firstNumber k) = n - G.kbase k := by
    rw [firstNumber_eq rd]
    unfold sub32
    omega
  unfold ext2Free
  simp only [after_bind, after_get]
  rw [hrel, sPerGroup_eq rd, after_kmallocOk rd.env, Bool.not_true, if_neg Bool.false_ne_true,
    after_bind, after_readBlock rd.env]
  refine (after_recount rd hg).trans ?_
  rw [bgBitmap_eq]
  exact Iff.rfl

theorem after_free (hn : G.KRange k n) {Q : Unit → Vol → Prop} :
    After (ext2Free k n) v Q ↔ Q () (v.drop k (G.kgroup k n) (G.kindex k n)) :=
  after_free_of_group rd (rd.wf.krange_lt hn) (Geo.Wf.kbase_le hn) (rd.wf.kgroup_lt hn)

end Alloc

/-! ## On the abstract volume -/

/-- A data block that is not in use. -/
structure Vacant (G : Geo) (c : Core) (b : ℕ) : Prop where
  range : G.InRange b
  data : ¬ G.Meta b
  free : c.used b = false

theorem Vacant.ne_zero {G : Geo} {c : Core} {b : ℕ} (h : Vacant G c b) : b ≠ 0 := by
  rintro rfl
  -- block 0 is below the first block or holds the superblock
  exact h.data ⟨.sb, trivial, Nat.le_zero.mp h.range.1⟩

/-- Every metadata block is marked used. -/
def MetaUsed (G : Geo) (c : Core) : Prop := ∀ b, G.Meta b → c.used b = true

namespace Ready

variable {v : Vol} {G : Geo} {r : Inode} (rd : Ready v G r) {b n : ℕ}

include rd

theorem kused_eq {k : Kind} (hn : G.KRange k n) :
    v.core.kused k n = v.kbit k (G.kgroup k n) (G.kindex k n) := by
  have h := rd.geo
  subst h
  exact core_kused hn

theorem disk_eq (hb : ¬ G.Meta b) : v.disk b = v.core.data b := by
  have h := rd.geo
  subst h
  exact (if_neg hb).symm

theorem kused_knum {k : Kind} {g i : ℕ} (hg : g < G.groups) (hi : i < G.kbits k g) :
    v.core.kused k (G.knum k g i) = v.kbit k g i := by
  have hip : i < G.kper k := lt_of_lt_of_le hi Geo.Wf.kbits_le_kper
  rw [rd.kused_eq (rd.wf.knum_range hg hi), Geo.Wf.kgroup_knum hip, Geo.Wf.kindex_knum hip]

/-- An allocation fails and changes nothing, or returns a block that was free, which it marks
used. -/
theorem allocBlock (hm : MetaUsed G v.core) {Q : ℕ → Vol → Prop} (h0 : Q 0 v)
    (h1 : ∀ b v', Vacant G v.core b → Ready v' G r → v'.core = v.core.setUsed b true → Q b v') :
    After ext2AllocBlock v Q := by
  refine (after_alloc rd .block).mpr ?_
  cases hf : v.firstFree .block with
  | none => exact h0
  | some p =>
    obtain ⟨hg, hi, hbit⟩ := firstFree_some rd hf
    rw [← rd.kused_knum hg hi] at hbit
    obtain ⟨r', c'⟩ := rd.take hg hi
    have hmeta : ¬ G.Meta (G.knum .block p.1 p.2) := fun hmt => by
      rw [show v.core.kused .block _ = true from hm _ hmt] at hbit; exact Bool.noConfusion hbit
    exact h1 _ _ ⟨rd.wf.knum_range hg hi, hmeta, hbit⟩ r' c'

theorem freeBlock (hb : G.InRange b) {Q : Unit → Vol → Prop}
    (h : ∀ v', Ready v' G r → v'.core = v.core.setUsed b false → Q () v') :
    After (ext2FreeBlock b) v Q := by
  obtain ⟨r', c'⟩ := rd.dropped (k := .block) hb
  exact (after_free (k := .block) rd hb).mpr (h _ r' c')

theorem inodeLoc_eq (hn : G.IsInode n) : v.inodeLoc n = (G.addr (G.iloc n), G.ioff n) := by
  have h := rd.geo
  subst h
  have h1 := (rd.wf.range _ (rd.wf.iloc_valid hn)).2
  have h2 := rd.wf.blocks_lt
  unfold Vol.inodeLoc
  rw [Prod.mk.injEq]
  exact ⟨Nat.mod_eq_of_lt (lt_trans h1 h2), rfl⟩

theorem readInodeRaw (hn : G.IsInode n) {Q : ℤ × Bytes → Vol → Prop} :
    After (ext2ReadInodeRaw n) v Q ↔ Q (0, v.core.ino n) v := by
  have hino : v.core.ino n =
      Bytes.zero.copy 0 ((v.disk (G.addr (G.iloc n))).drop (G.ioff n)) 128 := by
    have h := rd.geo
    subst h
    exact if_pos hn
  have hn0 : n ≠ 0 := by have := hn.1; omega
  unfold ext2ReadInodeRaw
  rw [if_neg hn0]
  simp only [after_bind, after_get, rd.inodeLoc_eq hn, after_kmallocOk rd.env, Bool.not_true,
    Bool.false_eq_true, if_false, after_readBlock rd.env, if_true, after_pure]
  rw [hino]
  exact Iff.rfl

theorem after_writeInodeRaw (hn : G.IsInode n) {x : Bytes} {Q : ℤ → Vol → Prop} :
    After (ext2WriteInodeRaw n x) v Q ↔ Q 0 (v.putInode n x) := by
  have hn0 : n ≠ 0 := by have := hn.1; omega
  have hg := rd.geo
  subst hg
  unfold ext2WriteInodeRaw
  rw [if_neg hn0]
  simp only [after_bind, after_get, rd.inodeLoc_eq hn, after_kmallocOk rd.env, Bool.not_true,
    Bool.false_eq_true, if_false, after_readBlock rd.env, ne_eq, not_true_eq_false,
    after_writeBlock]
  exact Iff.rfl

theorem putInode (hn : G.IsInode n) (x : Bytes) : Ready (v.putInode n x) G r ∧
    (v.putInode n x).core = v.core.setIno n (Bytes.zero.copy 0 x 128) := by
  refine ⟨rd.write, ?_⟩
  have hg := rd.geo
  subst hg
  exact core_write_itab rd.wf hn x

theorem writeInodeRaw (hn : G.IsInode n) {x : Bytes} {Q : ℤ → Vol → Prop}
    (h : ∀ v', Ready v' G r → v'.core = v.core.setIno n (Bytes.zero.copy 0 x 128) → Q 0 v') :
    After (ext2WriteInodeRaw n x) v Q := by
  rw [rd.after_writeInodeRaw hn]
  exact h _ (rd.putInode hn x).1 (rd.putInode hn x).2

theorem core_write (hb : ¬ G.Meta b) (buf : Bytes) :
    (v.write b buf).core = v.core.setData b buf := by
  have hg := rd.geo
  subst hg
  exact core_write_data rd.wf hb

theorem writeData (hb : ¬ G.Meta b) {buf : Bytes} {Q : ℤ → Vol → Prop}
    (h : ∀ v', Ready v' G r → v'.core = v.core.setData b buf → Q 0 v') :
    After (ext2WriteBlock b buf) v Q := by
  rw [after_writeBlock]
  exact h _ rd.write (rd.core_write hb buf)

end Ready

end DvivonOS
