import DvivonOS.Kernel.Segments

/-!
# The whole loader

`load_elf` refines the abstract loader: the new address space starts empty, gets its stack pages as
far as the frames go, and then the segments (`loadProcess`).

Without a kernel stack or without a frame for the page directory there is no new address space. The
loader goes on in the current one.
-/

namespace DvivonOS

open Function

/-! ## The file header -/

def Magic (b : Bytes) : Prop := b 0 = 0x7F ∧ b 1 = 0x45 ∧ b 2 = 0x4C ∧ b 3 = 0x46

/-- The number of bytes of `header->ident` that are looked at. -/
def identLength (b : Bytes) : ℕ :=
  if b 0 ≠ 0x7F then 1 else if b 1 ≠ 0x45 then 2 else if b 2 ≠ 0x4C then 3 else 4

def phOffset (b : Bytes) : ℕ := Bytes.get32 (wrap32 b) 28

def phCount (b : Bytes) : ℕ := Bytes.get16 (wrap32 b) 44

def elfSegments (b : Bytes) : List ProgramHeader :=
  segments b (headerOffsets (phOffset b) (phCount b))

/-- The last `n` pages of the user stack, in the order they are allocated in. -/
def stackPages : ℕ → List ℕ
  | 0 => []
  | n + 1 => (processStackTop / pageSize - (userStackPages - n)) :: stackPages n

def emptySpace (free : ℕ) : Space := ⟨free, fun _ => false, fun _ => none⟩

def loadProcess (b : Bytes) (hs : List ProgramHeader) (free : ℕ) : Option Space :=
  ((emptySpace free).allocUntil (stackPages userStackPages)).bind (loadAll b hs)

/-- The kernel's page directory is a used frame, and nothing has been mapped or stored yet. -/
structure Machine.Fresh (m : Machine) : Prop where
  pmm : m.pmm.Ok
  directory : m.cr3 ≠ 0
  used : testBit (m.cr3 / pageSize) m.pmm.bitmap = true
  maps : m.accesses.maps = []
  writes : m.accesses.writes = []

/-- The kernel's state when `load_elf` is called. -/
structure Machine.Ok (m : Machine) : Prop extends m.Fresh where
  reads : m.accesses.reads = []

theorem Machine.Fresh.note {m : Machine} (h : m.Fresh) (l : List ℕ) : (m.note l).Fresh :=
  ⟨h.pmm, h.directory, h.used, h.maps, h.writes⟩

instance (b : Bytes) : Decidable (Magic b) := by unfold Magic; infer_instance

section Header

variable {m : Machine} {b : Bytes}

theorem fetch8_run (m : Machine) (b : Bytes) {o : ℕ} (ho : o < 2 ^ 32) :
    (fetch8 b o).run m = .ok (b o, m.note [o]) := by
  have hmod : o % 2 ^ 32 = o := Nat.mod_eq_of_lt ho
  show Except.ok (b (o % 2 ^ 32), m.note [o % 2 ^ 32]) = _
  rw [hmod]

theorem identOk_wp (m : Machine) (b : Bytes) :
    Wp (identOk b) (fun r m' => (r = true ↔ Magic b) ∧
      ∃ l, m' = m.note l ∧ ∀ r, r ∈ l ↔ r < identLength b) (fun _ => False) m := by
  unfold identOk identLength Magic
  rw [wp_bind, wp_of_run (fetch8_run _ b (by decide))]
  by_cases h0 : b 0 = 0x7F
  · rw [if_neg (not_not.mpr h0), if_neg (not_not.mpr h0)]
    show Wp (fetch8 b 1 >>= _) _ _ _
    rw [wp_bind, wp_of_run (fetch8_run _ b (by decide))]
    by_cases h1 : b 1 = 0x45
    · rw [if_neg (not_not.mpr h1), if_neg (not_not.mpr h1)]
      show Wp (fetch8 b 2 >>= _) _ _ _
      rw [wp_bind, wp_of_run (fetch8_run _ b (by decide))]
      by_cases h2 : b 2 = 0x4C
      · rw [if_neg (not_not.mpr h2), if_neg (not_not.mpr h2)]
        show Wp (fetch8 b 3 >>= _) _ _ _
        rw [wp_bind, wp_of_run (fetch8_run _ b (by decide))]
        by_cases h3 : b 3 = 0x46
        · rw [if_neg (not_not.mpr h3)]
          exact ⟨by simp [h0, h1, h2, h3], [3, 2, 1, 0], rfl, by simp; omega⟩
        · rw [if_pos h3]
          exact ⟨by simp [h3], [3, 2, 1, 0], rfl, by simp; omega⟩
      · rw [if_pos h2, if_pos h2]
        exact ⟨by simp [h2], [2, 1, 0], rfl, by simp; omega⟩
    · rw [if_pos h1, if_pos h1]
      exact ⟨by simp [h1], [1, 0], rfl, by simp; omega⟩
  · rw [if_pos h0, if_pos h0]
    exact ⟨by simp [h0], [0], rfl, by simp⟩

end Header

/-! ## The new address space -/

def Machine.inSpace (m : Machine) (d : ℕ) : Machine := { m with cr3 := d }

def NewSpace (m : Machine) (d : ℕ) : Prop := d ≠ 0 ∧ testBit (d / pageSize) m.pmm.bitmap = false

section Process

variable {m : Machine} {b : Bytes} {s : Space}

theorem vmmSwitchAddressSpace_run (m : Machine) {d : ℕ} (hd : d ≠ 0) :
    (vmmSwitchAddressSpace d).run m = .ok ((), m.inSpace d) := by
  unfold vmmSwitchAddressSpace
  rw [if_pos hd]
  rfl

theorem Shows.allocStack : ∀ n {m s}, Shows m s →
    Wp (allocStack n)
      (fun _ m' => ∃ s', s.allocUntil (stackPages n) = some s' ∧ Shows m' s' ∧
        Stays (fun _ => False) m m')
      (fun _ => s.allocUntil (stackPages n) = none) m := by
  intro n
  induction n with
  | zero =>
    intro m s h
    exact ⟨s, rfl, h, .rfl⟩
  | succ n ih =>
    intro m s h
    have haddr : processStackTop - (userStackPages - n) * pageSize =
        (processStackTop / pageSize - (userStackPages - n)) * pageSize := by
      have hexact : processStackTop / pageSize * pageSize = processStackTop := by decide
      rw [Nat.sub_mul (processStackTop / pageSize), hexact]
    have hpage : processStackTop / pageSize - (userStackPages - n) < userPages :=
      lt_of_le_of_lt (Nat.sub_le _ _) (by decide)
    rw [DvivonOS.allocStack, wp_bind, haddr, stackPages, Space.allocUntil]
    apply (h.alloc hpage).weaken
    · rintro r m' ⟨s', hs', h', hk⟩
      rw [hs', Option.bind_some]
      by_cases hr : r = true
      · subst hr
        rw [if_pos rfl, if_pos rfl]
        apply (ih h').mono
        rintro _ m'' ⟨s'', hs'', h'', hk'⟩
        exact ⟨s'', hs'', h'', hk.trans hk' fun _ hr => hr.elim id id⟩
      · rw [if_neg hr, if_neg hr, wp_pure]
        exact ⟨s', rfl, h', hk⟩
    · intro _ hnone
      rw [hnone, Option.bind_none]

theorem shows_empty (h : m.pmm.Ok) (hpd : ∀ i < 768, m.pd m.cr3 i = none)
    (hmaps : m.accesses.maps = []) (hwrites : m.accesses.writes = []) :
    Shows m (emptySpace m.pmm.free) := by
  have hpage : ∀ p < userPages, m.page p = none := by
    intro p hp
    unfold Machine.page
    rw [hpd _ (table_lt hp), Option.bind_none]
  refine ⟨⟨h, ?_, ?_, ?_, ?_, ?_, ?_, ?_⟩, rfl, ?_, ?_⟩
  · intro i hi t ht
    rw [hpd i hi] at ht
    cases ht
  · intro i hi j _ t ht
    rw [hpd i hi] at ht
    cases ht
  · intro p hp f hf
    rw [hpage p hp] at hf
    cases hf
  · intro p hp q _ f hf
    rw [hpage p hp] at hf
    cases hf
  · intro p hp hne
    exact absurd (hpage p hp) hne
  · simp [hmaps]
  · simp [hwrites]
  · intro i hi
    rw [hpd i hi]
    rfl
  · funext a
    unfold Machine.user
    split_ifs with ha
    · rw [Machine.translate_eq, hpage _ ha]
      rfl
    · rfl

theorem vmmCreateAddressSpace_wp (h : m.Fresh) (hfree : 0 < m.pmm.free) :
    Wp vmmCreateAddressSpace
      (fun d m' => NewSpace m d ∧ Shows (m'.inSpace d) (emptySpace (m.pmm.free - 1)) ∧
        Stays (fun _ => False) m m')
      (fun _ => False) m := by
  obtain ⟨n, hn⟩ := h.pmm.takes hfree
  have hused := h.used
  set d := (pmmAllocPage m.pmm).1 with hd
  set q := (pmmAllocPage m.pmm).2 with hq
  have hdiv : d / pageSize = n := by rw [hn.addr, entry_index]
  have hne : d ≠ m.cr3 := by
    intro heq
    rw [← heq, hdiv, hn.clear] at hused
    cases hused
  have hcount := hn.free
  unfold vmmCreateAddressSpace
  rw [wp_bind, wp_of_run (show allocFrame.run m = .ok (d, { m with pmm := q }) from rfl),
    if_neg (hn.ne_zero h.pmm), wp_bind, wp_modify, wp_pure]
  refine ⟨⟨hn.ne_zero h.pmm, hdiv ▸ hn.clear⟩, ?_, ⟨rfl, rfl, rfl, fun r hr => Or.inl hr⟩⟩
  rw [show m.pmm.free - 1 = q.free by omega]
  apply shows_empty
  · exact hn.ok h.pmm
  · intro i hi
    show update (update m.pd d _) m.cr3 _ d i = none
    rw [update_of_ne hne, update_self, if_pos hi]
  · exact h.maps
  · exact h.writes

theorem processInit_wp (h : m.Fresh) (hfree : 0 < m.pmm.free) {kstack : ℕ} (hk : kstack ≠ 0)
    (entry : ℕ) :
    Wp (processInit kstack entry)
      (fun p m' => NewSpace m p.pdPhys ∧ m'.cr3 = m.cr3 ∧ m'.runQueue = m.runQueue ∧
        (∀ r ∈ m'.accesses.reads, r ∈ m.accesses.reads) ∧
        ∃ s, (emptySpace (m.pmm.free - 1)).allocUntil (stackPages userStackPages) = some s ∧
          Shows (m'.inSpace p.pdPhys) s)
      (fun _ => (emptySpace (m.pmm.free - 1)).allocUntil (stackPages userStackPages) = none) m := by
  unfold processInit
  rw [wp_bind, wp_get, wp_bind, wp_modify, if_neg hk]
  show Wp (vmmCreateAddressSpace >>= _) _ _ _
  rw [wp_bind]
  apply (vmmCreateAddressSpace_wp (m := { m with nextPid := m.nextPid + 1 })
    ⟨h.pmm, h.directory, h.used, h.maps, h.writes⟩ hfree).weaken _ fun _ => False.elim
  rintro d m1 ⟨hnew, hshow, hkeep⟩
  rw [wp_bind, wp_get, wp_bind, wp_of_run (vmmSwitchAddressSpace_run m1 hnew.1), wp_bind]
  apply (Shows.allocStack userStackPages hshow).weaken _ fun _ hnone => hnone
  rintro ok m2 ⟨s, hs, h2, hk2⟩
  have hback : m1.cr3 = m.cr3 := hkeep.cr3
  rw [wp_bind, wp_of_run (vmmSwitchAddressSpace_run m2 (hback ▸ h.directory)), wp_pure]
  refine ⟨hnew, hback, hk2.runQueue.trans hkeep.runQueue, fun r hr => ?_, s, hs, ?_⟩
  · exact (hkeep.reads r ((hk2.reads r hr).resolve_right id)).resolve_right id
  · have hcr : m2.cr3 = d := hk2.cr3
    subst hcr
    exact h2

end Process

/-! ## `load_elf` -/

/-- The offsets that are read for a file with the right magic number. -/
def FileReads (b : Bytes) (r : ℕ) : Prop :=
  r < 46 ∨ ∃ ph ∈ headerOffsets (phOffset b) (phCount b), HeaderReads b ph r

/-- A process has been loaded into a new address space that shows `s`. -/
structure Loaded (m m' : Machine) (b : Bytes) (s : Space) : Prop where
  reads : ∀ r ∈ m'.accesses.reads, FileReads b r
  process : ∃ p : Process, m'.runQueue = m.runQueue ++ [p] ∧ NewSpace m p.pdPhys ∧
    Shows (m'.inSpace p.pdPhys) s

section Load

variable {m : Machine} {b : Bytes} {proc kstack size : ℕ}

theorem identLength_le (b : Bytes) : identLength b ≤ 4 := by
  unfold identLength
  split_ifs <;> omega

theorem noteReads_run (m : Machine) (o n : ℕ) : (noteReads o n).run m =
    .ok ((), m.note ((List.range n).map fun k => (o + k) % 2 ^ 32)) := rfl

theorem Machine.note_note (m : Machine) (l l' : List ℕ) : (m.note l).note l' = m.note (l' ++ l) := by
  unfold Machine.note
  rw [List.append_assoc]

theorem Shows.runQueue {s : Space} (h : Shows m s) (l : List Process) :
    Shows { m with runQueue := l } s :=
  ⟨⟨h.space.pmm, h.space.table, h.space.table_inj, h.space.frame, h.space.frame_inj, h.space.own,
    h.space.maps, h.space.writes⟩, h.free, h.tables, h.mem⟩

/-- What `load_elf` does with a file that has the right magic number. -/
def loadAccepted (kstack : ℕ) (b : Bytes) : VmM ℤ := do
  let p ← processInit kstack (Bytes.get32 (wrap32 b) 24)
  let oldCr3 := (← get).cr3
  vmmSwitchAddressSpace p.pdPhys
  noteReads 28 4
  noteReads 44 2
  loadSegments b (headerOffsets (phOffset b) (phCount b))
  vmmSwitchAddressSpace oldCr3
  schedulerAddProcess p
  return 0

theorem loadElf_accepted (hmagic : Magic b) (hproc : proc ≠ 0) {Q : ℤ → Machine → Prop}
    {E : VmStop → Prop} (h : ∀ l, (∀ r ∈ l, r < 46) → Wp (loadAccepted kstack b) Q E (m.note l)) :
    Wp (loadElf proc kstack b size) Q E m := by
  unfold loadElf
  rw [wp_bind]
  apply (identOk_wp m b).weaken _ fun _ => False.elim
  rintro r m1 ⟨hr, l, rfl, hl⟩
  rw [hr.mpr hmagic, if_neg (by decide), if_neg hproc]
  show Wp (fetch32 b 24 >>= _) _ _ _
  rw [wp_bind, wp_of_run (fetch32_run ..), Machine.note_note]
  apply h
  intro r hr
  rcases List.mem_append.mp hr with hr | hr
  · obtain ⟨k, hk, rfl⟩ := mem_reads.mp hr
    rw [Nat.mod_eq_of_lt (by omega)]
    omega
  · have := (hl r).mp hr
    have := identLength_le b
    omega

theorem mem_headerReads {l : List ℕ} {r : ℕ}
    (hr : r ∈ ((m.note ((List.range 4).map fun k => (28 + k) % 2 ^ 32)).note
      ((List.range 2).map fun k => (44 + k) % 2 ^ 32)).accesses.reads)
    (hm : r ∈ m.accesses.reads → r ∈ l) (hl : ∀ r ∈ l, r < 46) : r < 46 := by
  rcases List.mem_append.mp hr with hr | hr
  · obtain ⟨k, hk, rfl⟩ := mem_reads.mp hr
    rw [Nat.mod_eq_of_lt (by omega)]
    omega
  rcases List.mem_append.mp hr with hr | hr
  · obtain ⟨k, hk, rfl⟩ := mem_reads.mp hr
    rw [Nat.mod_eq_of_lt (by omega)]
    omega
  · exact hl r (hm hr)

theorem loadElf_wp (size : ℕ) (h : m.Ok) (hmagic : Magic b) (hproc : proc ≠ 0) (hk : kstack ≠ 0)
    (hfree : 0 < m.pmm.free) (hfit : ∀ p ∈ elfSegments b, p.Fits) :
    Wp (loadElf proc kstack b size)
      (fun r m' => r = 0 ∧ ∃ s, loadProcess b (elfSegments b) (m.pmm.free - 1) = some s ∧
        Loaded m m' b s)
      (fun _ => loadProcess b (elfSegments b) (m.pmm.free - 1) = none) m := by
  apply loadElf_accepted hmagic hproc
  intro l hl
  unfold loadAccepted loadProcess
  rw [wp_bind]
  apply (processInit_wp (h.toFresh.note l) hfree hk _).weaken
  · rintro p m2 ⟨hnew, hcr3, hqueue, hreads2, s, hs, hshow⟩
    have hs' : (emptySpace (m.pmm.free - 1)).allocUntil (stackPages userStackPages) = some s := hs
    have hreads : ∀ r ∈ m2.accesses.reads, r ∈ l := by
      intro r hr
      have := hreads2 r hr
      rwa [show (m.note l).accesses.reads = l ++ m.accesses.reads from rfl, h.reads,
        List.append_nil] at this
    rw [wp_bind, wp_get, wp_bind, wp_of_run (vmmSwitchAddressSpace_run _ hnew.1), wp_bind,
      wp_of_run (noteReads_run ..), wp_bind, wp_of_run (noteReads_run ..), wp_bind]
    apply (Shows.loadSegments _ ((hshow.note _).note _) hfit).weaken
    · rintro _ m3 ⟨s3, hs3, h3, hk3⟩
      have hback : m2.cr3 ≠ 0 := hcr3 ▸ h.directory
      rw [wp_bind, wp_of_run (vmmSwitchAddressSpace_run m3 hback), wp_bind]
      refine ⟨rfl, s3, ?_, fun r hr => ?_, p, ?_, hnew, ?_⟩
      · rw [hs', Option.bind_some]
        exact hs3
      · exact (hk3.reads r hr).imp_left fun hr => mem_headerReads hr (hreads r) hl
      · show m3.runQueue ++ [p] = _
        rw [hk3.runQueue]
        exact congrArg (· ++ [p]) hqueue
      · have hcr : m3.cr3 = p.pdPhys := hk3.cr3
        have hq := h3.runQueue (m3.runQueue ++ [p])
        rw [← hcr]
        exact hq
    · intro _ hnone
      rw [hs', Option.bind_some]
      exact hnone
  · intro _ hnone
    have hnone' : (emptySpace (m.pmm.free - 1)).allocUntil (stackPages userStackPages) = none := hnone
    rw [hnone', Option.bind_none]

end Load

/-- A machine with thirty free frames; frame 1 is the kernel's page directory. -/
def bootMachine : Machine where
  pmm := ⟨fun w => if w = 0 then 3 else bitmapAllBitsSet, 1, 0⟩
  byte _ := 0
  pd _ _ := none
  pt _ _ := none
  cr3 := pageSize
  nextPid := 1
  runQueue := []
  accesses := ⟨[], [], []⟩

theorem bootMachine_ok : bootMachine.Ok where
  pmm := ⟨by decide, by decide, by decide, by decide⟩
  directory := by decide
  used := by decide
  maps := rfl
  writes := rfl
  reads := rfl

theorem bootMachine_free : bootMachine.pmm.free = 30 := by decide

end DvivonOS
