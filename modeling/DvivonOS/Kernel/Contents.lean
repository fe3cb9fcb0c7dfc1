import DvivonOS.Kernel.Loader

/-!
# What a loaded process sees

With enough frames, what a process sees of its segments depends only on the program headers. Every
segment shows zeros on the pages its loop visits and then its own bytes, so

1. the loader faults at the first segment with a byte on a page that no loop up to its own has
   visited (`Covered`): the loop starts at `vaddr`, and for an unaligned segment it can miss the last
   page;
2. a byte of the file is lost if a later segment visits its page (`Kept`), unless it is zero anyway.
-/

namespace DvivonOS

open List

/-! ## Conditions on the program headers -/

/-- The pages that the segments allocate, in order and with repetitions. -/
def visited (hs : List ProgramHeader) : List ℕ := hs.flatMap ProgramHeader.pages

/-- Every byte of a segment is on a page that this segment or one before it allocates. -/
def Covered (hs : List ProgramHeader) : Prop :=
  ∀ l h l', hs = l ++ h :: l' → ∀ a, h.Holds a → a / pageSize ∈ visited (l ++ [h])

/-- A byte of the file on a page that a later segment allocates is zero. -/
def Kept (b : Bytes) (hs : List ProgramHeader) : Prop :=
  hs.Pairwise fun h h' => ∀ k < h.filesz, (h.vaddr + k) / pageSize ∈ h'.pages →
    wrap32 b (h.offset + k) = 0

def DisjointSegments (hs : List ProgramHeader) : Prop :=
  hs.Pairwise fun h h' => ∀ a, h.Holds a → ¬h'.Holds a

/-- The memory shows the bytes of the segments. -/
def Contents (b : Bytes) (hs : List ProgramHeader) (S : UserMem) : Prop :=
  ∀ h ∈ hs, ∀ k < h.memsz, S (h.vaddr + k) = some (h.content b k)

/-- The frames that loading the segments takes: the page directory, the pages of the stack and of the
segments, and the page tables. -/
def framesNeeded (hs : List ProgramHeader) : ℕ :=
  1 + (stackPages userStackPages ++ visited hs).length +
    Space.newTables (fun _ => false) (stackPages userStackPages ++ visited hs)

/-! ## One segment -/

namespace ProgramHeader

/-- What is shown after a segment has been loaded. -/
def shown (h : ProgramHeader) (b : Bytes) (S : UserMem) : UserMem := fun a =>
  if h.Holds a then some (h.content b (a - h.vaddr))
  else if a / pageSize ∈ h.pages then some 0 else S a

variable {b : Bytes} {h : ProgramHeader} {s : Space} {l : List ℕ}

theorem shown_ne_none (hcov : ∀ a, h.Holds a → a / pageSize ∈ h.pages ∨ s.mem a ≠ none) (a : ℕ) :
    h.shown b s.mem a ≠ none ↔ a / pageSize ∈ h.pages ∨ s.mem a ≠ none := by
  unfold shown
  split_ifs with hholds hpage
  · exact iff_of_true nofun (hcov a hholds)
  · exact iff_of_true nofun (Or.inl hpage)
  · rw [or_iff_right hpage]

theorem mapped_iff {S S' : UserMem}
    (hS : ∀ a, S' a = if a / pageSize ∈ h.pages then some 0 else S a) :
    S'.Mapped h.vaddr h.memsz ↔ ∀ a, h.Holds a → a / pageSize ∈ h.pages ∨ S a ≠ none := by
  have hpresent : ∀ a, S' a ≠ none ↔ a / pageSize ∈ h.pages ∨ S a ≠ none := by
    intro a
    rw [hS a]
    split_ifs with hmem <;> simp [hmem]
  constructor
  · intro hall a ⟨hle, hlt⟩
    have := hall (a - h.vaddr) (by omega)
    rwa [Nat.add_sub_cancel' hle, hpresent] at this
  · intro hall k hk
    exact (hpresent _).mpr (hall _ ⟨Nat.le_add_right _ _, Nat.add_lt_add_left hk _⟩)

/-- **Loading a segment** with enough frames. -/
theorem load_covered (hb : s.Budget (h.pages ++ l))
    (hcov : ∀ a, h.Holds a → a / pageSize ∈ h.pages ∨ s.mem a ≠ none) :
    ∃ s', h.load b s = some s' ∧ s'.Budget l ∧ s'.mem = h.shown b s.mem := by
  obtain ⟨s1, hs1, hb1, hmem⟩ := hb.allocAll
  unfold load Space.write
  rw [hs1, Option.bind_some, if_pos ((mapped_iff hmem).mpr hcov)]
  refine ⟨_, rfl, hb1, ?_⟩
  funext a
  unfold shown
  rw [← hmem a]
  rfl

theorem load_uncovered (hb : s.Budget (h.pages ++ l))
    (hcov : ¬∀ a, h.Holds a → a / pageSize ∈ h.pages ∨ s.mem a ≠ none) : h.load b s = none := by
  obtain ⟨s1, hs1, -, hmem⟩ := hb.allocAll
  unfold load Space.write
  rw [hs1, Option.bind_some, if_neg fun hmapped => hcov ((mapped_iff hmem).mp hmapped)]

end ProgramHeader

/-! ## All segments -/

/-- `Covered`, with some addresses present before. -/
def CoveredFrom (S : UserMem) (hs : List ProgramHeader) : Prop :=
  ∀ l h l', hs = l ++ h :: l' → ∀ a, h.Holds a → a / pageSize ∈ visited (l ++ [h]) ∨ S a ≠ none

section All

variable {b : Bytes} {h : ProgramHeader} {hs : List ProgramHeader} {s s' : Space}

theorem coveredFrom_cons : CoveredFrom s.mem (h :: hs) ↔
    (∀ a, h.Holds a → a / pageSize ∈ h.pages ∨ s.mem a ≠ none) ∧
      CoveredFrom (h.shown b s.mem) hs := by
  have hvisited : ∀ a l h', a / pageSize ∈ visited (h :: l ++ [h']) ∨ s.mem a ≠ none ↔
      a / pageSize ∈ visited (l ++ [h']) ∨ a / pageSize ∈ h.pages ∨ s.mem a ≠ none := by
    intro a l h'
    unfold visited
    rw [cons_append, flatMap_cons, mem_append, or_assoc, or_left_comm]
  constructor
  · intro hall
    have hfirst : ∀ a, h.Holds a → a / pageSize ∈ h.pages ∨ s.mem a ≠ none := by
      intro a ha
      simpa [visited] using hall [] h hs rfl a ha
    refine ⟨hfirst, ?_⟩
    rintro l h' l' rfl a ha
    rw [ProgramHeader.shown_ne_none hfirst, ← hvisited]
    exact hall (h :: l) h' l' rfl a ha
  · rintro ⟨hfirst, hrest⟩ l h' l' heq a ha
    cases l with
    | nil =>
      obtain ⟨rfl, -⟩ := List.cons.inj heq
      simpa [visited] using hfirst a ha
    | cons h0 l =>
      obtain ⟨rfl, hl⟩ := List.cons.inj heq
      rw [hvisited, ← ProgramHeader.shown_ne_none (b := b) hfirst]
      exact hrest l h' l' hl a ha

theorem loadAll_uncovered (hb : s.Budget (visited hs)) (hcov : ¬CoveredFrom s.mem hs) :
    loadAll b hs s = none := by
  induction hs generalizing s with
  | nil => exact absurd (fun l h l' heq => absurd heq (by simp)) hcov
  | cons h hs ih =>
    rw [loadAll]
    by_cases hfirst : ∀ a, h.Holds a → a / pageSize ∈ h.pages ∨ s.mem a ≠ none
    · obtain ⟨s1, hs1, hb1, hmem⟩ := ProgramHeader.load_covered (b := b) hb hfirst
      rw [hs1, Option.bind_some]
      apply ih hb1
      rw [hmem]
      exact fun hrest => hcov (coveredFrom_cons.mpr ⟨hfirst, hrest⟩)
    · rw [ProgramHeader.load_uncovered hb hfirst, Option.bind_none]

/-- The bytes of a segment are shown after the later ones if those leave only zeros behind. -/
theorem first_kept {S S' : UserMem} (hfile : h.filesz ≤ h.memsz)
    (hdisj : ∀ h' ∈ hs, ∀ a, h.Holds a → ¬h'.Holds a)
    (hother : ∀ a, (∀ h' ∈ hs, ¬h'.Holds a) →
      S' a = if a / pageSize ∈ visited hs then some 0 else h.shown b S a) :
    (∀ k < h.memsz, S' (h.vaddr + k) = some (h.content b k)) ↔
      ∀ h' ∈ hs, ∀ k < h.filesz, (h.vaddr + k) / pageSize ∈ h'.pages →
        wrap32 b (h.offset + k) = 0 := by
  have hbyte : ∀ k < h.memsz, S' (h.vaddr + k) = some (h.content b k) ↔
      ((h.vaddr + k) / pageSize ∈ visited hs → h.content b k = 0) := by
    intro k hk
    have hholds : h.Holds (h.vaddr + k) := ⟨Nat.le_add_right _ _, Nat.add_lt_add_left hk _⟩
    have hshown : h.shown b S (h.vaddr + k) = some (h.content b k) := by
      unfold ProgramHeader.shown
      rw [if_pos hholds, Nat.add_sub_cancel_left]
    rw [hother _ fun h' hh' => hdisj h' hh' _ hholds, hshown]
    split_ifs with hpage
    · rw [Option.some_inj, eq_comm]
      exact ⟨fun h _ => h, fun h => h hpage⟩
    · exact iff_of_true rfl fun h => absurd h hpage
  constructor
  · intro hall h' hh' k hk hpage
    have hmem : (h.vaddr + k) / pageSize ∈ visited hs := mem_flatMap.mpr ⟨h', hh', hpage⟩
    have hzero := (hbyte k (by omega)).mp (hall k (by omega)) hmem
    rwa [ProgramHeader.content, if_pos hk] at hzero
  · intro hall k hk
    refine (hbyte k hk).mpr fun hmem => ?_
    obtain ⟨h', hh', hpage⟩ := mem_flatMap.mp hmem
    unfold ProgramHeader.content
    split_ifs with hkf
    · exact hall h' hh' k hkf hpage
    · rfl

/-- Where no segment lies, the memory shows zeros on the visited pages and else what it showed. -/
theorem loadAll_covered (hb : s.Budget (visited hs)) (hcov : CoveredFrom s.mem hs)
    (hfile : ∀ h ∈ hs, h.filesz ≤ h.memsz) (hdisj : DisjointSegments hs) :
    ∃ s', loadAll b hs s = some s' ∧ (Contents b hs s'.mem ↔ Kept b hs) ∧
      ∀ a, (∀ h ∈ hs, ¬h.Holds a) →
        s'.mem a = if a / pageSize ∈ visited hs then some 0 else s.mem a := by
  induction hs generalizing s with
  | nil => exact ⟨s, rfl, iff_of_true nofun List.Pairwise.nil, fun a _ => by simp [visited]⟩
  | cons h hs ih =>
    obtain ⟨hfirst, hrest⟩ := coveredFrom_cons.mp hcov
    obtain ⟨s1, hs1, hb1, hmem⟩ := ProgramHeader.load_covered (b := b) hb hfirst
    rw [← hmem] at hrest
    obtain ⟨hd1, hd2⟩ := pairwise_cons.mp hdisj
    obtain ⟨s2, hs2, hkept, hother⟩ := ih hb1 hrest
      (fun h' hh' => hfile h' (mem_cons_of_mem _ hh')) hd2
    refine ⟨s2, by rw [loadAll, hs1]; exact hs2, ?_, fun a ha => ?_⟩
    · have hfirst' := first_kept (hfile h mem_cons_self) hd1 fun a ha => hmem ▸ hother a ha
      unfold Contents Kept at *
      rw [forall_mem_cons, pairwise_cons, hkept, hfirst']
    · rw [forall_mem_cons] at ha
      rw [hother a ha.2, hmem, visited, visited, flatMap_cons]
      unfold ProgramHeader.shown
      rw [if_neg ha.1]
      by_cases hpage : a / pageSize ∈ hs.flatMap ProgramHeader.pages
      · simp [hpage]
      · by_cases hown : a / pageSize ∈ h.pages
        · simp [hown]
        · simp [hpage, hown]

end All

/-! ## The process -/

/-- The bytes of the segments are shown in the address space of the process that has been added. -/
def ShowsSegments (m m' : Machine) (b : Bytes) : Prop :=
  ∃ p : Process, m'.runQueue = m.runQueue ++ [p] ∧
    Contents b (elfSegments b) (m'.inSpace p.pdPhys).user

/-- A file whose segments are disjoint, lie below the stack and have room for their bytes of the
file. -/
structure WellFormed (b : Bytes) : Prop where
  magic : Magic b
  disjoint : DisjointSegments (elfSegments b)
  below : ∀ h ∈ elfSegments b, ∀ a, h.Holds a → a < processStackTop - userStackPages * pageSize
  file : ∀ h ∈ elfSegments b, h.filesz ≤ h.memsz

section Process

variable {m : Machine} {b : Bytes} {proc kstack : ℕ}

theorem stackPages_above {a : ℕ} (ha : a < processStackTop - userStackPages * pageSize) :
    a / pageSize ∉ stackPages userStackPages := by
  have hlt : a / pageSize < processStackTop / pageSize - userStackPages :=
    Nat.div_lt_of_lt_mul (lt_of_lt_of_le ha (by decide))
  intro hmem
  have hge : ∀ p ∈ stackPages userStackPages, processStackTop / pageSize - userStackPages ≤ p := by
    decide
  exact absurd (hge _ hmem) (not_le.mpr hlt)

theorem WellFormed.fits (h : WellFormed b) : ∀ p ∈ elfSegments b, p.Fits := fun p hp =>
  ⟨fun a ha => (h.below p hp a ha).trans (by decide), h.file p hp⟩

theorem loadProcess_contents (h : WellFormed b) {free : ℕ}
    (hframes : framesNeeded (elfSegments b) ≤ free) :
    (¬Covered (elfSegments b) → loadProcess b (elfSegments b) (free - 1) = none) ∧
      (Covered (elfSegments b) → ∃ s, loadProcess b (elfSegments b) (free - 1) = some s ∧
        (Contents b (elfSegments b) s.mem ↔ Kept b (elfSegments b))) := by
  have hb : (emptySpace (free - 1)).Budget
      (stackPages userStackPages ++ visited (elfSegments b)) := by
    unfold framesNeeded at hframes
    show _ + Space.newTables (fun _ => false) _ ≤ free - 1
    omega
  obtain ⟨s, hs, hbs, hmem⟩ := hb.allocAll
  -- the stack pages show nothing where the segments are
  have hcov : Covered (elfSegments b) ↔ CoveredFrom s.mem (elfSegments b) := by
    have hnone : ∀ p ∈ elfSegments b, ∀ a, p.Holds a → s.mem a = none := by
      intro p hp a ha
      rw [hmem, if_neg (stackPages_above (h.below p hp a ha))]
      rfl
    constructor
    · intro hall l p l' heq a ha
      exact Or.inl (hall l p l' heq a ha)
    · intro hall l p l' heq a ha
      have hp : p ∈ elfSegments b := by rw [heq]; simp
      exact (hall l p l' heq a ha).resolve_right fun hne => hne (hnone p hp a ha)
  unfold loadProcess
  rw [hb.allocUntil, hs, Option.bind_some, hcov]
  constructor
  · exact loadAll_uncovered hbs
  · intro hc
    obtain ⟨s', hs', hkept, -⟩ := loadAll_covered hbs hc h.file h.disjoint
    exact ⟨s', hs', hkept⟩

theorem Loaded.showsSegments {m' : Machine} {s : Space} (h : Loaded m m' b s) :
    ShowsSegments m m' b ↔ Contents b (elfSegments b) s.mem := by
  obtain ⟨p, hq, -, hshow⟩ := h.process
  unfold ShowsSegments
  rw [hshow.mem]
  constructor
  · rintro ⟨p', hq', hcontents⟩
    rw [hq] at hq'
    obtain rfl : p = p' := singleton_inj.mp (append_cancel_left hq')
    exact hcontents
  · intro hcontents
    exact ⟨p, hq, hcontents⟩

theorem loadElf_contents (size : ℕ) (hm : m.Ok) (h : WellFormed b) (hproc : proc ≠ 0) (hk : kstack ≠ 0)
    (hframes : framesNeeded (elfSegments b) ≤ m.pmm.free) :
    (¬Covered (elfSegments b) → ∀ r m', (loadElf proc kstack b size).run m ≠ .ok (r, m')) ∧
      (Covered (elfSegments b) → ∃ m', (loadElf proc kstack b size).run m = .ok (0, m') ∧
        (ShowsSegments m m' b ↔ Kept b (elfSegments b))) := by
  have hfree : 0 < m.pmm.free := by
    unfold framesNeeded at hframes
    omega
  have hwp := loadElf_wp size hm h.magic hproc hk hfree h.fits
  obtain ⟨hno, hyes⟩ := loadProcess_contents h hframes
  constructor
  · intro hcov r m' hrun
    obtain ⟨-, s, hs, -⟩ := hwp.of_run hrun
    rw [hno hcov] at hs
    cases hs
  · intro hcov
    obtain ⟨s, hs, hkept⟩ := hyes hcov
    rw [hs] at hwp
    obtain ⟨_, m', hrun, rfl, s', hs', hloaded⟩ := (hwp.weaken (fun _ _ h => h) nofun).returns
    cases hs'
    exact ⟨m', hrun, hloaded.showsSegments.trans hkept⟩

/-- **A well-formed file is loaded right**, with enough memory, exactly if every byte of a segment is
on a page that its own loop over the pages or an earlier one visits, and the bytes of the file on a
page that a later segment visits are zero. Without the first condition the call does not return, and
without the second the process sees zeros. -/
theorem load_elf_contents_iff (size : ℕ) (hm : m.Ok) (h : WellFormed b) (hproc : proc ≠ 0)
    (hk : kstack ≠ 0) (hframes : framesNeeded (elfSegments b) ≤ m.pmm.free) :
    ((∃ m', (loadElf proc kstack b size).run m = .ok (0, m') ∧ ShowsSegments m m' b) ↔
        Covered (elfSegments b) ∧ Kept b (elfSegments b)) ∧
      ((∀ m', (loadElf proc kstack b size).run m = .ok (0, m') → ShowsSegments m m' b) ↔
        (Covered (elfSegments b) → Kept b (elfSegments b))) := by
  obtain ⟨hno, hyes⟩ := loadElf_contents size hm h hproc hk hframes
  by_cases hcov : Covered (elfSegments b)
  · obtain ⟨m', hrun, hkept⟩ := hyes hcov
    have hret : ∀ m'', (loadElf proc kstack b size).run m = .ok (0, m'') → m'' = m' := by
      intro m'' hrun'
      rw [hrun] at hrun'
      cases hrun'
      rfl
    refine ⟨⟨?_, ?_⟩, ⟨?_, ?_⟩⟩
    · rintro ⟨m'', hrun', hshows⟩
      exact ⟨hcov, hkept.mp (hret m'' hrun' ▸ hshows)⟩
    · rintro ⟨-, hk'⟩
      exact ⟨m', hrun, hkept.mpr hk'⟩
    · intro hall _
      exact hkept.mp (hall m' hrun)
    · intro hk' m'' hrun'
      exact hret m'' hrun' ▸ hkept.mpr (hk' hcov)
  · refine ⟨iff_of_false ?_ fun h => hcov h.1, iff_of_true ?_ fun h => absurd h hcov⟩
    · rintro ⟨m', hrun, -⟩
      exact hno hcov 0 m' hrun
    · intro m' hrun
      exact absurd hrun (hno hcov 0 m')

end Process

theorem covered_of_own {hs : List ProgramHeader}
    (h : ∀ p ∈ hs, ∀ a, p.Holds a → a / pageSize ∈ p.pages) : Covered hs := by
  rintro l p l' rfl a ha
  apply mem_flatMap.mpr
  exact ⟨p, by simp, h p (by simp) a ha⟩

theorem page_of_holds {p : ProgramHeader} {a n : ℕ} (ha : p.Holds a) (h1 : n * pageSize ≤ p.vaddr)
    (h2 : p.vaddr + p.memsz ≤ n * pageSize + pageSize) : a / pageSize = n :=
  page_div_iff.mpr ⟨h1.trans ha.1, ha.2.trans_le h2⟩

/-- A file with one segment: four bytes of the file and a zero at `0x1000`. -/
def alignedFile : Bytes := fun i =>
  match i with
  | 0 => 0x7F
  | 1 => 0x45
  | 2 => 0x4C
  | 3 => 0x46
  | 28 => 52
  | 44 => 1
  | 52 => 1
  | 61 => 0x10
  | 68 => 4
  | 72 => 5
  | _ => 0

theorem alignedFile_segments : elfSegments alignedFile = [⟨1, 0, 0x1000, 4, 5⟩] := by decide

theorem load_elf_contents_iff_aligned : ∃ m',
    (loadElf 1 1 alignedFile 84).run bootMachine = .ok (0, m') ∧
      ShowsSegments bootMachine m' alignedFile := by
  have hwf : WellFormed alignedFile := by
    refine ⟨by decide, ?_, ?_, ?_⟩
    · rw [alignedFile_segments]
      exact pairwise_singleton _ _
    · rw [alignedFile_segments, forall_mem_singleton]
      exact fun a ha => lt_trans ha.2 (by decide)
    · rw [alignedFile_segments, forall_mem_singleton]
      decide
  have hframes : framesNeeded (elfSegments alignedFile) ≤ bootMachine.pmm.free := by
    rw [alignedFile_segments, bootMachine_free]
    decide
  apply (load_elf_contents_iff 84 bootMachine_ok hwf (by decide) (by decide) hframes).1.mpr
  rw [alignedFile_segments]
  refine ⟨covered_of_own ?_, pairwise_singleton _ _⟩
  rw [forall_mem_singleton]
  intro a ha
  rw [page_of_holds (n := 1) ha (by decide) (by decide)]
  decide

/-- A file with two segments on one page: a byte of the file at `0x1000`, and a zero at `0x1800`. -/
def sharedPageFile : Bytes := fun i =>
  match i with
  | 0 => 0x7F
  | 1 => 0x45
  | 2 => 0x4C
  | 3 => 0x46
  | 28 => 52
  | 44 => 2
  | 52 => 1
  | 61 => 0x10
  | 68 => 1
  | 72 => 1
  | 84 => 1
  | 93 => 0x18
  | 104 => 1
  | _ => 0

theorem sharedPageFile_segments :
    elfSegments sharedPageFile = [⟨1, 0, 0x1000, 1, 1⟩, ⟨1, 0, 0x1800, 0, 1⟩] := by decide

/-- The second segment clears the byte of the first. -/
theorem shared_page_cleared : WellFormed sharedPageFile ∧
    framesNeeded (elfSegments sharedPageFile) ≤ bootMachine.pmm.free ∧ ∃ m',
      (loadElf 1 1 sharedPageFile 116).run bootMachine = .ok (0, m') ∧
        ¬ShowsSegments bootMachine m' sharedPageFile := by
  have hwf : WellFormed sharedPageFile := by
    refine ⟨by decide, ?_, ?_, ?_⟩
    · rw [sharedPageFile_segments]
      refine pairwise_pair.mpr fun a h1 h2 => absurd (lt_of_lt_of_le h1.2 ?_) (not_lt.mpr h2.1)
      decide
    · rw [sharedPageFile_segments]
      rw [forall_mem_cons, forall_mem_singleton]
      exact ⟨fun a ha => lt_trans ha.2 (by decide), fun a ha => lt_trans ha.2 (by decide)⟩
    · rw [sharedPageFile_segments]
      decide
  have hframes : framesNeeded (elfSegments sharedPageFile) ≤ bootMachine.pmm.free := by
    rw [sharedPageFile_segments, bootMachine_free]
    decide
  refine ⟨hwf, hframes, ?_⟩
  have hcov : Covered (elfSegments sharedPageFile) := by
    rw [sharedPageFile_segments]
    apply covered_of_own
    rw [forall_mem_cons, forall_mem_singleton]
    constructor
    · intro a ha
      rw [page_of_holds (n := 1) ha (by decide) (by decide)]
      decide
    · intro a ha
      rw [page_of_holds (n := 1) ha (by decide) (by decide)]
      decide
  obtain ⟨m', hrun, hkept⟩ := (loadElf_contents 116 bootMachine_ok hwf (by decide : (1 : ℕ) ≠ 0)
    (by decide : (1 : ℕ) ≠ 0) hframes).2 hcov
  refine ⟨m', hrun, fun hshows => ?_⟩
  have hk := hkept.mp hshows
  rw [sharedPageFile_segments] at hk
  exact absurd (pairwise_pair.mp hk 0 (by decide) (by decide)) (by decide)

end DvivonOS
