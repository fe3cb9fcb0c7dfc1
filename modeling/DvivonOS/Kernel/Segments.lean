import DvivonOS.Memory.UserSpace
import DvivonOS.Kernel.Elf

/-!
# Loading segments

The loop of `load_elf` over the program headers refines a loader on abstract address spaces
(`loadAll`). A segment allocates every page its inner loop visits and then stores its bytes; it
faults if one of its bytes is not present. The inner loop starts at `vaddr` and not at the beginning
of its page, so for an unaligned segment it can miss the last page.
-/

namespace DvivonOS

open List

/-! ## Program headers -/

/-- The fields of a program header that the loader uses. -/
structure ProgramHeader where
  type : ℕ
  offset : ℕ
  vaddr : ℕ
  filesz : ℕ
  memsz : ℕ
deriving DecidableEq

/-- The program header at an offset of the file. -/
def programHeader (b : Bytes) (ph : ℕ) : ProgramHeader where
  type := Bytes.get32 (wrap32 b) ph
  offset := Bytes.get32 (wrap32 b) (ph + 4)
  vaddr := Bytes.get32 (wrap32 b) (ph + 8)
  filesz := Bytes.get32 (wrap32 b) (ph + 16)
  memsz := Bytes.get32 (wrap32 b) (ph + 20)

/-- `n` pages from that of the address `v` on. -/
def pagesFrom (v n : ℕ) : List ℕ := (List.range n).map fun i => v / pageSize + i

namespace ProgramHeader

variable (h : ProgramHeader)

/-- The pages that the loop over the pages visits. -/
def pages : List ℕ := pagesFrom h.vaddr ((h.memsz + (pageSize - 1)) / pageSize)

def Holds (a : ℕ) : Prop := h.vaddr ≤ a ∧ a < h.vaddr + h.memsz

instance (a : ℕ) : Decidable (h.Holds a) := by unfold Holds; infer_instance

/-- Byte `k` of the segment: from the file, or zero. -/
def content (b : Bytes) (k : ℕ) : UInt8 := if k < h.filesz then wrap32 b (h.offset + k) else 0

/-- The segment lies in the user half and has room for its bytes of the file. -/
structure Fits : Prop where
  user : ∀ a, h.Holds a → a < kernelHigherHalf
  file : h.filesz ≤ h.memsz

def load (b : Bytes) (s : Space) : Option Space :=
  (s.allocAll h.pages).bind (Space.write (h.content b) h.vaddr h.memsz)

end ProgramHeader

def loadAll (b : Bytes) : List ProgramHeader → Space → Option Space
  | [], s => some s
  | h :: hs, s => (h.load b s).bind (loadAll b hs)

def segments (b : Bytes) (phs : List ℕ) : List ProgramHeader :=
  (phs.map (programHeader b)).filter fun h => h.type = ptLoad

theorem segments_head {b : Bytes} {ph : ℕ} {phs : List ℕ}
    (htype : (programHeader b ph).type = ptLoad) : programHeader b ph ∈ segments b (ph :: phs) := by
  simp [segments, htype]

theorem segments_tail {b : Bytes} {ph : ℕ} {phs : List ℕ} {h : ProgramHeader}
    (hh : h ∈ segments b phs) : h ∈ segments b (ph :: phs) := by
  unfold segments at hh ⊢
  rw [map_cons, filter_cons]
  split_ifs
  · exact mem_cons_of_mem _ hh
  · exact hh

/-! ## What is read -/

/-- One of the `n` bytes at an offset, on 32 bits. -/
def ReadsAt (offset n r : ℕ) : Prop := ∃ k < n, r = (offset + k) % 2 ^ 32

/-- The offsets that are read for the program header at `ph`. -/
def HeaderReads (b : Bytes) (ph r : ℕ) : Prop :=
  ReadsAt ph 24 r ∨ (programHeader b ph).type = ptLoad ∧
    ReadsAt (programHeader b ph).offset (programHeader b ph).filesz r

theorem mem_reads {offset n r : ℕ} :
    r ∈ (List.range n).map (fun k => (offset + k) % 2 ^ 32) ↔ ReadsAt offset n r := by
  rw [mem_map]
  constructor
  · rintro ⟨k, hk, rfl⟩
    exact ⟨k, mem_range.mp hk, rfl⟩
  · rintro ⟨k, hk, rfl⟩
    exact ⟨k, mem_range.mpr hk, rfl⟩

theorem ReadsAt.shift {o n k l r : ℕ} (h : ReadsAt (o + k) n r) (hl : k + n ≤ l) :
    ReadsAt o l r := by
  obtain ⟨i, hi, rfl⟩ := h
  exact ⟨k + i, by omega, by rw [Nat.add_assoc]⟩

section Fetch

variable {m : Machine} {s : Space} {b : Bytes} {R : ℕ → Prop}

theorem fetch32_run (m : Machine) (b : Bytes) (offset : ℕ) : (fetch32 b offset).run m =
    .ok (Bytes.get32 (wrap32 b) offset,
      m.note ((List.range 4).map fun k => (offset + k) % 2 ^ 32)) := rfl

theorem fetch8_source (b : Bytes) (offset : ℕ) :
    Source (fun k => fetch8 b (offset + k)) (fun k => wrap32 b (offset + k)) fun k =>
      (List.range 1).map fun j => (offset + k + j) % 2 ^ 32 := fun _ _ => rfl

theorem Shows.note (h : Shows m s) (l : List ℕ) : Shows (m.note l) s :=
  ⟨h.space.note l, h.free, h.tables, h.mem⟩

theorem Stays.note {m' : Machine} (h : Stays R m m') {offset n : ℕ}
    (hR : ∀ r, ReadsAt offset n r → R r) :
    Stays R m (m'.note ((List.range n).map fun k => (offset + k) % 2 ^ 32)) where
  cr3 := h.cr3
  nextPid := h.nextPid
  runQueue := h.runQueue
  reads r hr := by
    rcases mem_append.mp hr with hr | hr
    · exact Or.inr (hR r (mem_reads.mp hr))
    · exact h.reads r hr

end Fetch

/-! ## Pages -/

section Pages

variable {s : Space} {stop : ℕ}

theorem pagesFrom_succ (v n : ℕ) :
    pagesFrom v (n + 1) = v / pageSize :: pagesFrom (v + pageSize) n := by
  unfold pagesFrom
  rw [range_succ_eq_map, map_cons, map_map, Nat.add_div_right _ (by decide),
    Nat.add_zero]
  congr 1
  apply map_congr_left
  intro i _
  show v / pageSize + (i + 1) = v / pageSize + 1 + i
  omega

theorem Shows.allocPages : ∀ n fuel v m s, Shows m s → n < fuel →
    (v < stop → stop ≤ kernelHigherHalf) → (stop - v + (pageSize - 1)) / pageSize = n →
    Wp (allocPages stop fuel v)
      (fun _ m' => ∃ s', s.allocAll (pagesFrom v n) = some s' ∧ Shows m' s' ∧
        Stays (fun _ => False) m m')
      (fun _ => s.allocAll (pagesFrom v n) = none) m := by
  intro n
  induction n with
  | zero =>
    intro fuel v m s h hfuel _ hn
    have hge : ¬v < stop := by
      unfold pageSize at hn
      omega
    obtain ⟨fuel, rfl⟩ : ∃ f, fuel = f + 1 := ⟨fuel - 1, by omega⟩
    rw [DvivonOS.allocPages, if_neg hge, wp_pure]
    exact ⟨s, rfl, h, .rfl⟩
  | succ n ih =>
    intro fuel v m s h hfuel hstop hn
    have hlt : v < stop := by
      by_contra hge
      rw [Nat.sub_eq_zero_of_le (not_lt.mp hge)] at hn
      cases hn
    replace hstop := hstop hlt
    have hpage : v / pageSize < userPages :=
      Nat.div_lt_of_lt_mul (lt_of_lt_of_le hlt (hstop.trans (by decide)))
    have hwrap : (v + pageSize) % 2 ^ 32 = v + pageSize := by
      apply Nat.mod_eq_of_lt
      unfold kernelHigherHalf at hstop
      unfold pageSize
      omega
    have hrest : (stop - (v + pageSize) + (pageSize - 1)) / pageSize = n := by
      unfold pageSize at hn ⊢
      omega
    obtain ⟨fuel, rfl⟩ : ∃ f, fuel = f + 1 := ⟨fuel - 1, by omega⟩
    rw [DvivonOS.allocPages, if_pos hlt, wp_bind, hwrap, pagesFrom_succ, Space.allocAll]
    apply (h.alloc hpage).weaken
    · rintro r m' ⟨s', hs', h', hk⟩
      rw [hs', Option.bind_some]
      apply (ih fuel (v + pageSize) m' s' h' (by omega) (fun _ => hstop) hrest).mono
      rintro _ m'' ⟨s'', hs'', h'', hk'⟩
      exact ⟨s'', hs'', h'', hk.trans hk' fun _ hr => hr.elim id id⟩
    · intro _ hnone
      rw [hnone, Option.bind_none]

end Pages

/-! ## One segment -/

section Segment

variable {m : Machine} {s : Space} {b : Bytes} {p : ProgramHeader}

theorem Stores.trans {m1 m2 : Machine} {R R1 R2 : ℕ → Prop} (h1 : Stores m m1 R1)
    (h2 : Stores m1 m2 R2) (hR : ∀ r, R1 r ∨ R2 r → R r) : Stores m m2 R where
  pmm := h2.pmm.trans h1.pmm
  pd := h2.pd.trans h1.pd
  pt := h2.pt.trans h1.pt
  cr3 := h2.cr3.trans h1.cr3
  nextPid := h2.nextPid.trans h1.nextPid
  runQueue := h2.runQueue.trans h1.runQueue
  reads r hr := by
    rcases h2.reads r hr with hr | hr
    · exact (h1.reads r hr).imp_right fun h => hR r (Or.inl h)
    · exact Or.inr (hR r (Or.inr hr))

theorem ProgramHeader.Fits.lt (hfit : p.Fits) {k : ℕ} (hk : k < p.memsz) :
    p.vaddr + k < userPages * pageSize :=
  hfit.user _ ⟨Nat.le_add_right _ _, Nat.add_lt_add_left hk _⟩

theorem UserSpace.storeSegment (h : UserSpace m) (hfit : p.Fits) :
    Wp (do
        storeBytes (fun k => fetch8 b (p.offset + k)) p.vaddr p.filesz
        if p.filesz < p.memsz then
          memset ((p.vaddr + p.filesz) % 2 ^ 32) 0 (p.memsz - p.filesz))
      (fun _ m' => m.user.Mapped p.vaddr p.memsz ∧ UserSpace m' ∧
        m'.user = m.user.store (p.content b) p.vaddr p.memsz ∧
        Stores m m' (ReadsAt p.offset p.filesz))
      (fun _ => ¬m.user.Mapped p.vaddr p.memsz) m := by
  have hfile := hfit.file
  have hsplit : p.filesz + (p.memsz - p.filesz) = p.memsz := by omega
  have hmapped : m.user.Mapped p.vaddr p.memsz ↔ m.user.Mapped p.vaddr p.filesz ∧
      m.user.Mapped (p.vaddr + p.filesz) (p.memsz - p.filesz) := by
    rw [← UserMem.mapped_add, hsplit]
  rw [wp_bind]
  apply (h.storeBytes_wp (fetch8_source b p.offset) p.filesz fun k hk =>
    hfit.lt (lt_of_lt_of_le hk hfile)).weaken
  · rintro _ m1 ⟨hmap, h1, hu1, hst⟩
    have hreads : ∀ r, (∃ k < p.filesz, r ∈ (List.range 1).map fun j =>
        (p.offset + k + j) % 2 ^ 32) ∨ False → ReadsAt p.offset p.filesz r := by
      rintro r (⟨k, hk, hkr⟩ | hno)
      · exact ⟨k, hk, by simpa using hkr⟩
      · exact hno.elim
    by_cases hlt : p.filesz < p.memsz
    · have hwrap : (p.vaddr + p.filesz) % 2 ^ 32 = p.vaddr + p.filesz :=
        Nat.mod_eq_of_lt ((hfit.lt hlt).trans (by decide))
      rw [if_pos hlt, hwrap]
      apply (h1.memset_wp fun k hk => by
        rw [Nat.add_assoc]
        exact hfit.lt (by omega)).weaken
      · rintro _ m2 ⟨hmap2, h2, hu2, hst2⟩
        rw [hu1, UserMem.mapped_store] at hmap2
        refine ⟨hmapped.mpr ⟨hmap, hmap2⟩, h2, ?_, hst.trans hst2 hreads⟩
        rw [hu2, hu1, UserMem.store_store, hsplit]
        rfl
      · intro _ hno hall
        rw [hu1, UserMem.mapped_store] at hno
        exact hno (hmapped.mp hall).2
    · have heq : p.memsz = p.filesz := by omega
      rw [if_neg hlt, wp_pure]
      refine ⟨heq ▸ hmap, h1, ?_, hst.trans ⟨rfl, rfl, rfl, rfl, rfl, rfl, fun _ => Or.inl⟩ hreads⟩
      rw [hu1, heq]
      funext a
      unfold UserMem.store ProgramHeader.content
      split_ifs with ha hk
      · rfl
      · omega
      · rfl
  · intro _ hno hall
    exact hno (hmapped.mp hall).1

theorem Shows.write (h : Shows m s) (hfit : p.Fits) :
    Wp (do
        storeBytes (fun k => fetch8 b (p.offset + k)) p.vaddr p.filesz
        if p.filesz < p.memsz then
          memset ((p.vaddr + p.filesz) % 2 ^ 32) 0 (p.memsz - p.filesz))
      (fun _ m' => ∃ s', s.write (p.content b) p.vaddr p.memsz = some s' ∧ Shows m' s' ∧
        Stays (ReadsAt p.offset p.filesz) m m')
      (fun _ => s.write (p.content b) p.vaddr p.memsz = none) m := by
  unfold Space.write
  rw [h.mem]
  apply (h.space.storeSegment hfit).weaken
  · rintro _ m' ⟨hmap, h', hu, hst⟩
    rw [if_pos hmap]
    refine ⟨_, rfl, ⟨h', ?_, fun i hi => ?_, hu.symm⟩, hst.cr3, hst.nextPid, hst.runQueue, hst.reads⟩
    · rw [hst.pmm]
      exact h.free
    · rw [hst.pd, hst.cr3]
      exact h.tables i hi
  · intro _ hno
    rw [if_neg hno]

theorem Shows.loadSegment (h : Shows m s) {ph : ℕ} (hp : programHeader b ph = p)
    (hload : p.type = ptLoad) (hfit : p.Fits) :
    Wp (loadSegment b ph)
      (fun _ m' => ∃ s', p.load b s = some s' ∧ Shows m' s' ∧ Stays (HeaderReads b ph) m m')
      (fun _ => p.load b s = none) m := by
  have htype : Bytes.get32 (wrap32 b) ph = ptLoad := (congrArg ProgramHeader.type hp).trans hload
  have hvaddr : Bytes.get32 (wrap32 b) (ph + 8) = p.vaddr := congrArg ProgramHeader.vaddr hp
  have hmemsz : Bytes.get32 (wrap32 b) (ph + 20) = p.memsz := congrArg ProgramHeader.memsz hp
  have hoffset : Bytes.get32 (wrap32 b) (ph + 4) = p.offset := congrArg ProgramHeader.offset hp
  have hfilesz : Bytes.get32 (wrap32 b) (ph + 16) = p.filesz := congrArg ProgramHeader.filesz hp
  have hend : p.vaddr < p.vaddr + p.memsz → p.vaddr + p.memsz ≤ kernelHigherHalf := by
    intro hlt
    have := hfit.user (p.vaddr + p.memsz - 1) ⟨by omega, by omega⟩
    omega
  have hstop : (p.vaddr + p.memsz) % 2 ^ 32 = p.vaddr + p.memsz := by
    have hv32 : p.vaddr < 2 ^ 32 := hvaddr ▸ Bytes.get32_lt ..
    apply Nat.mod_eq_of_lt
    unfold kernelHigherHalf at hend
    omega
  have hrounds : (p.memsz + (pageSize - 1)) / pageSize < 2 ^ 20 + 1 := by
    have hm32 : p.memsz < 2 ^ 32 := hmemsz ▸ Bytes.get32_lt ..
    unfold pageSize
    omega
  have hhead : ∀ k r, k + 4 ≤ 24 → ReadsAt (ph + k) 4 r → HeaderReads b ph r :=
    fun k r hk hr => Or.inl (hr.shift hk)
  unfold DvivonOS.loadSegment ProgramHeader.load
  rw [wp_bind, wp_of_run (fetch32_run ..), if_pos htype, wp_bind, wp_of_run (fetch32_run ..),
    hvaddr, wp_bind, wp_of_run (fetch32_run ..), hmemsz, wp_bind, hstop]
  apply (Shows.allocPages _ _ p.vaddr _ s (((h.note _).note _).note _) hrounds hend
    (by rw [Nat.add_sub_cancel_left])).weaken
  · rintro _ m2 ⟨s2, hs2, h2, hk2⟩
    have hk : Stays (HeaderReads b ph) m m2 := by
      have hk1 := ((Stays.rfl (m := m).note (hhead 0 · (by decide))).note
        (hhead 8 · (by decide))).note (hhead 20 · (by decide))
      exact hk1.trans hk2 fun r hr => hr.elim id False.elim
    rw [wp_bind, wp_of_run (fetch32_run ..), hoffset, wp_bind, wp_of_run (fetch32_run ..), hfilesz]
    apply (((h2.note _).note _).write hfit).weaken
    · rintro _ m3 ⟨s3, hs3, h3, hk3⟩
      refine ⟨s3, ?_, h3, ?_⟩
      · rw [ProgramHeader.pages, hs2]
        exact hs3
      · apply ((hk.note (hhead 4 · (by decide))).note (hhead 16 · (by decide))).trans hk3
        rintro r (hr | hr)
        · exact hr
        · subst hp
          exact Or.inr ⟨hload, hr⟩
    · intro _ hnone
      rw [ProgramHeader.pages, hs2]
      exact hnone
  · intro _ hnone
    rw [ProgramHeader.pages, hnone, Option.bind_none]

theorem Shows.loadSegments : ∀ (phs : List ℕ) {m s}, Shows m s →
    (∀ p ∈ segments b phs, p.Fits) →
    Wp (loadSegments b phs)
      (fun _ m' => ∃ s', loadAll b (segments b phs) s = some s' ∧ Shows m' s' ∧
        Stays (fun r => ∃ ph ∈ phs, HeaderReads b ph r) m m')
      (fun _ => loadAll b (segments b phs) s = none) m := by
  intro phs
  induction phs with
  | nil =>
    intro m s h _
    exact ⟨s, rfl, h, .rfl⟩
  | cons ph phs ih =>
    intro m s h hfit
    have hreads : ∀ r, HeaderReads b ph r ∨ (∃ ph ∈ phs, HeaderReads b ph r) →
        ∃ ph' ∈ ph :: phs, HeaderReads b ph' r := by
      rintro r (hr | ⟨ph', hph', hr⟩)
      · exact ⟨ph, mem_cons_self, hr⟩
      · exact ⟨ph', mem_cons_of_mem _ hph', hr⟩
    rw [DvivonOS.loadSegments, wp_bind]
    by_cases hload : (programHeader b ph).type = ptLoad
    · have hcons : segments b (ph :: phs) = programHeader b ph :: segments b phs := by
        simp [segments, hload]
      rw [hcons] at hfit ⊢
      apply (h.loadSegment rfl hload (hfit _ mem_cons_self)).weaken
      · rintro _ m1 ⟨s1, hs1, h1, hk1⟩
        rw [loadAll, hs1, Option.bind_some]
        apply (ih h1 fun p hp => hfit p (mem_cons_of_mem _ hp)).mono
        rintro _ m2 ⟨s2, hs2, h2, hk2⟩
        exact ⟨s2, hs2, h2, hk1.trans hk2 hreads⟩
      · intro _ hnone
        rw [loadAll, hnone, Option.bind_none]
    · have hcons : segments b (ph :: phs) = segments b phs := by
        simp [segments, hload]
      have hk1 := Stays.rfl (m := m).note fun r (hr : ReadsAt ph 4 r) =>
        (Or.inl (hr.shift (k := 0) (by decide)) : HeaderReads b ph r)
      rw [hcons] at hfit ⊢
      unfold DvivonOS.loadSegment
      rw [wp_bind, wp_of_run (fetch32_run ..),
        if_neg (show ¬Bytes.get32 (wrap32 b) ph = ptLoad from hload), wp_pure]
      apply (ih (h.note _) hfit).mono
      rintro _ m2 ⟨s2, hs2, h2, hk2⟩
      exact ⟨s2, hs2, h2, hk1.trans hk2 hreads⟩

end Segment

end DvivonOS
