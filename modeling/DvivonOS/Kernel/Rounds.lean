import DvivonOS.Kernel.Contents
import DvivonOS.Kernel.Failures

/-!
# The loop over the pages of a segment

The counter of the loop and its bound are on 32 bits. All the addresses that the counter takes are
equal to `vaddr` modulo the page size, so if the end of the segment is beyond the last of these
addresses, the counter comes round to zero and never reaches it. With an end that wraps round itself
the loop does not start.
-/

namespace DvivonOS

/-- The loop over the pages of the segment ends: the segment is empty, its end wraps round, or an
address that the counter takes is not below its end. -/
def ProgramHeader.Reached (h : ProgramHeader) : Prop :=
  h.memsz = 0 ∨ 2 ^ 32 ≤ h.vaddr + h.memsz ∨
    h.vaddr + h.memsz + pageSize ≤ 2 ^ 32 + h.vaddr % pageSize

instance (h : ProgramHeader) : Decidable h.Reached := by
  unfold ProgramHeader.Reached; infer_instance

/-- Whatever the state of the machine, `load_elf` does not run for ever on the file, and the loop
over the pages of a segment tests its condition at most once more than `memsz / PAGE_SIZE + 1`
times. -/
structure Terminates (b : Bytes) : Prop where
  load : ∀ m proc kstack size, (loadElf proc kstack b size).run m ≠ .error .endless
  rounds : ∀ h ∈ elfSegments b, ∀ m, (allocPages ((h.vaddr + h.memsz) % 2 ^ 32)
    (h.memsz / pageSize + 1 + 1) h.vaddr).run m ≠ .error .endless

/-! ## Segments whose loop ends -/

section Ends

variable {stop : ℕ}

theorem Touches.not_endless {α : Type} {f : VmM α} (hf : Touches (fun _ => False) False f)
    (m : Machine) : f.run m ≠ .error .endless := by
  intro hrun
  rcases (hf m).of_error hrun with h | h
  · cases h
  · exact h

theorem allocPages_not_started {v fuel : ℕ} {E : VmStop → Prop} (h : stop ≤ v) :
    Touches E False (allocPages stop (fuel + 1) v) := by
  unfold allocPages
  rw [if_neg (Nat.not_lt.mpr h)]
  exact .pure ()

/-- The counter does not wrap round as long as it is below the end. -/
theorem allocPages_ends {E : VmStop → Prop} : ∀ {n fuel v : ℕ}, n < fuel →
    stop ≤ v + n * pageSize → stop + pageSize ≤ 2 ^ 32 + v % pageSize →
    Touches E False (allocPages stop fuel v)
  | 0, fuel + 1, v, _, hreach, _ => allocPages_not_started (by omega)
  | n + 1, fuel + 1, v, hn, hreach, htop => by
    unfold allocPages
    split_ifs with hlt
    · have hnext : v + pageSize < 2 ^ 32 := by
        unfold pageSize at htop ⊢
        omega
      rw [Nat.mod_eq_of_lt hnext]
      refine (Touches.vmmAllocUserPageAt _).quiet fun _ => ?_
      apply allocPages_ends (Nat.lt_of_succ_lt_succ hn)
      · linarith
      · rwa [Nat.add_mod_right]
    · exact .pure ()

theorem ProgramHeader.Reached.ends {h : ProgramHeader} (hr : h.Reached) (hv : h.vaddr < 2 ^ 32)
    (hm : h.memsz < 2 ^ 32) {fuel : ℕ} (hfuel : h.memsz / pageSize + 1 < fuel)
    {E : VmStop → Prop} :
    Touches E False (allocPages ((h.vaddr + h.memsz) % 2 ^ 32) fuel h.vaddr) := by
  obtain ⟨fuel, rfl⟩ := Nat.exists_eq_succ_of_ne_zero (Nat.ne_zero_of_lt hfuel)
  rcases hr with h0 | hwrap | htop
  · rw [h0, Nat.add_zero, Nat.mod_eq_of_lt hv]
    exact allocPages_not_started le_rfl
  · exact allocPages_not_started (by omega)
  · have hstop : h.vaddr + h.memsz < 2 ^ 32 := by
      unfold pageSize at htop
      omega
    rw [Nat.mod_eq_of_lt hstop]
    apply allocPages_ends hfuel _ htop
    unfold pageSize
    omega

end Ends

theorem programHeader_lt (b : Bytes) (ph : ℕ) :
    (programHeader b ph).vaddr < 2 ^ 32 ∧ (programHeader b ph).memsz < 2 ^ 32 :=
  ⟨Bytes.get32_lt .., Bytes.get32_lt ..⟩

theorem elfSegments_lt {b : Bytes} {h : ProgramHeader} (hh : h ∈ elfSegments b) :
    h.vaddr < 2 ^ 32 ∧ h.memsz < 2 ^ 32 := by
  unfold elfSegments segments at hh
  obtain ⟨ph, -, rfl⟩ := List.mem_map.mp (List.mem_of_mem_filter hh)
  exact programHeader_lt b ph

/-! ## Segments whose loop does not end -/

/-- Every page is present, and no frame is free. -/
structure Starved (m : Machine) : Prop where
  pmm : m.pmm.Ok
  full : m.pmm.free = 0
  present : ∀ v, (m.translate v).isSome

namespace Starved

variable {m : Machine} {b : Bytes} {stop : ℕ}

theorem note (h : Starved m) (l : List ℕ) : Starved (m.note l) := ⟨h.pmm, h.full, h.present⟩

theorem vmmAllocUserPageAt (h : Starved m) (v : ℕ) {E : VmStop → Prop} :
    Wp (vmmAllocUserPageAt v) (fun _ m' => m' = m) E m := by
  unfold DvivonOS.vmmAllocUserPageAt
  rw [wp_bind, wp_of_run (allocFrame_full h.pmm h.full), if_pos rfl]
  rfl

theorem storeBytes (h : Starved m) {src : ℕ → VmM UInt8}
    (hsrc : ∀ k m, Starved m → Wp (src k) (fun _ => Starved) (· = .endless) m) (v : ℕ) :
    ∀ n, Wp (storeBytes src v n) (fun _ => Starved) (· = .endless) m
  | 0 => h
  | n + 1 => by
    unfold DvivonOS.storeBytes
    rw [wp_bind]
    apply (h.storeBytes hsrc v n).mono
    intro _ m₁ h₁
    rw [wp_bind]
    apply (hsrc n m₁ h₁).mono
    intro x m₂ h₂
    have hrun := storeByte_run m₂ ((v + n) % 2 ^ 32) x
    obtain ⟨a, ha⟩ := Option.isSome_iff_exists.mp (h₂.present ((v + n) % 2 ^ 32))
    rw [ha] at hrun
    rw [wp_of_run hrun]
    exact ⟨h₂.pmm, h₂.full, h₂.present⟩

theorem memset (h : Starved m) (v : ℕ) (x : UInt8) (n : ℕ) :
    Wp (memset v x n) (fun _ => Starved) (· = .endless) m := by
  unfold DvivonOS.memset
  apply h.storeBytes
  intro k m' h'
  exact h'

/-- Without frames the loop over the pages changes nothing, and it does not return if the counter
takes no address at or above the end. -/
theorem allocPages (h : Starved m) : ∀ fuel v, v < 2 ^ 32 →
    Wp (allocPages stop fuel v)
      (fun _ m' => m' = m ∧ ¬2 ^ 32 + v % pageSize < stop + pageSize) (· = .endless) m
  | 0, _, _ => rfl
  | fuel + 1, v, hv => by
    unfold DvivonOS.allocPages
    split_ifs with hlt
    · rw [wp_bind]
      apply (h.vmmAllocUserPageAt _).mono
      intro _ m' hm'
      rw [hm']
      apply (h.allocPages fuel _ (Nat.mod_lt _ (by decide))).mono
      rintro _ _ ⟨rfl, hend⟩
      have hmod : (v + pageSize) % 2 ^ 32 % pageSize = v % pageSize := by
        rw [Nat.mod_mod_of_dvd _ (by decide), Nat.add_mod_right]
      exact ⟨rfl, hmod ▸ hend⟩
    · refine ⟨rfl, ?_⟩
      unfold pageSize
      omega

theorem reached_of_end {h : ProgramHeader} (hv : h.vaddr < 2 ^ 32) (hm : h.memsz < 2 ^ 32)
    (hend : ¬2 ^ 32 + h.vaddr % pageSize < (h.vaddr + h.memsz) % 2 ^ 32 + pageSize) :
    h.Reached := by
  unfold ProgramHeader.Reached
  omega

theorem loadSegment (h : Starved m) (ph : ℕ) :
    Wp (loadSegment b ph)
      (fun _ m' => Starved m' ∧
        ((programHeader b ph).type = ptLoad → (programHeader b ph).Reached))
      (· = .endless) m := by
  obtain ⟨hv, hm⟩ := programHeader_lt b ph
  unfold DvivonOS.loadSegment
  rw [wp_bind, wp_of_run (fetch32_run ..)]
  split_ifs with htype
  · rw [wp_bind, wp_of_run (fetch32_run ..), wp_bind, wp_of_run (fetch32_run ..), wp_bind]
    apply (((h.note _).note _).note _).allocPages _ _ hv |>.mono
    rintro _ _ ⟨rfl, hend⟩
    have hreached : (programHeader b ph).Reached := reached_of_end hv hm hend
    rw [wp_bind, wp_of_run (fetch32_run ..), wp_bind, wp_of_run (fetch32_run ..), wp_bind]
    have hfetch (k : ℕ) (m' : Machine) (h' : Starved m') : Wp (fetch8 b
        ((programHeader b ph).offset + k)) (fun _ => Starved) (· = .endless) m' := h'.note _
    apply (Starved.storeBytes (((((h.note _).note _).note _).note _).note _) hfetch _ _).mono
    intro _ m₁ h₁
    split_ifs with hlt
    · exact (h₁.memset _ 0 _).mono fun _ _ h₂ => ⟨h₂, fun _ => hreached⟩
    · exact ⟨h₁, fun _ => hreached⟩
  · exact ⟨h.note _, fun htype' => absurd htype' htype⟩

theorem loadSegments {b : Bytes} : ∀ {phs : List ℕ} {m : Machine}, Starved m →
    Wp (loadSegments b phs) (fun _ _ => ∀ h ∈ segments b phs, h.Reached) (· = .endless) m
  | [], _, _ => by simp [DvivonOS.loadSegments, segments]
  | ph :: phs, m, h => by
    unfold DvivonOS.loadSegments
    rw [wp_bind]
    apply (h.loadSegment ph).mono
    rintro _ m₁ ⟨h₁, hfirst⟩
    apply (loadSegments h₁).mono
    intro _ _ hrest p hp
    unfold segments at hp hrest
    rw [List.map_cons, List.filter_cons] at hp
    split_ifs at hp with htype
    · rcases List.mem_cons.mp hp with rfl | hp
      · exact hfirst (of_decide_eq_true htype)
      · exact hrest p hp
    · exact hrest p hp

end Starved

def fullMachine : Machine :=
  { bootMachine with
    pmm := ⟨fun _ => bitmapAllBitsSet, 1, 0⟩
    pd := fun _ _ => some (2 * pageSize)
    pt := fun _ _ => some (3 * pageSize) }

theorem fullMachine_fresh : fullMachine.Fresh where
  pmm := ⟨by decide, by decide, by decide, by decide⟩
  directory := by decide
  used := by decide
  maps := rfl
  writes := rfl

theorem fullMachine_free : fullMachine.pmm.free = 0 := by decide

theorem loadElf_fullMachine {b : Bytes} (size : ℕ) (hmagic : Magic b) :
    Wp (loadElf 1 1 b size) (fun _ _ => ∀ h ∈ elfSegments b, h.Reached) (· = .endless)
      fullMachine := by
  apply loadElf_accepted hmagic one_ne_zero
  intro l _
  unfold loadAccepted
  rw [wp_bind]
  apply (processInit_none (fullMachine_fresh.note l) (Or.inr fullMachine_free) _).weaken _
    fun _ => False.elim
  rintro p _ ⟨hp, rfl⟩
  rw [wp_bind, wp_get, wp_bind, hp]
  show Wp (noteReads 28 4 >>= _) _ _ _
  rw [wp_bind, wp_of_run (noteReads_run ..), wp_bind, wp_of_run (noteReads_run ..), wp_bind]
  apply (Starved.loadSegments (m := Machine.note _ _) _).mono
  · intro _ m₂ hreached
    rw [wp_bind]
    show Wp (vmmSwitchAddressSpace fullMachine.cr3) _ _ m₂
    rw [wp_of_run (vmmSwitchAddressSpace_run m₂ fullMachine_fresh.directory)]
    exact hreached
  · exact ⟨fullMachine_fresh.pmm, fullMachine_free, fun _ => rfl⟩

theorem loadElf_endless {b : Bytes} (size : ℕ) (hmagic : Magic b)
    (hnot : ¬∀ h ∈ elfSegments b, h.Reached) :
    (loadElf 1 1 b size).run fullMachine = .error .endless := by
  have hstops := (loadElf_fullMachine size hmagic).mono fun _ _ hreached => hnot hreached
  obtain ⟨e, hrun, he⟩ := hstops.stops
  rw [hrun, he]

/-! ## Termination -/

/-- **`load_elf` ends** on a file exactly if the loop over the pages of every segment comes to an
address that is not below the end of the segment. -/
theorem load_elf_terminates_iff {b : Bytes} (hmagic : Magic b) :
    Terminates b ↔ ∀ h ∈ elfSegments b, h.Reached := by
  constructor
  · intro hb
    by_contra hnot
    exact hb.load fullMachine 1 1 0 (loadElf_endless 0 hmagic hnot)
  · intro hreached
    constructor
    · intro m proc kstack size hrun
      by_cases hproc : proc = 0
      · cases (loadElf_faults hmagic hproc).of_error hrun
      · have hpages : ∀ h ∈ elfSegments b, Touches (fun _ => False) False
            (allocPages ((h.vaddr + h.memsz) % 2 ^ 32) (2 ^ 20 + 1) h.vaddr) := by
          intro h hh
          obtain ⟨hv, hm⟩ := elfSegments_lt hh
          apply (hreached h hh).ends hv hm
          unfold pageSize
          omega
        rcases (Ends.loadElf_accepted hmagic hproc hpages).of_error hrun with he | he
        · cases he
        · exact he
    · intro h hh
      obtain ⟨hv, hm⟩ := elfSegments_lt hh
      exact ((hreached h hh).ends hv hm (Nat.lt_succ_self _)).not_endless

theorem load_elf_terminates_aligned : Magic alignedFile ∧ Terminates alignedFile := by
  refine ⟨by decide, (load_elf_terminates_iff (by decide)).mpr ?_⟩
  rw [alignedFile_segments, List.forall_mem_singleton]
  decide

/-- A file with one segment, of one byte at `0xFFFFF000`. -/
def topFile : Bytes := fun i =>
  match i with
  | 0 => 0x7F
  | 1 => 0x45
  | 2 => 0x4C
  | 3 => 0x46
  | 28 => 52
  | 44 => 1
  | 52 => 1
  | 61 => 0xF0
  | 62 => 0xFF
  | 63 => 0xFF
  | 72 => 1
  | _ => 0

/-- From the last page the counter comes round to zero, and the loop over the pages never ends. -/
theorem last_page_endless :
    Magic topFile ∧ (loadElf 1 1 topFile 84).run fullMachine = .error .endless := by
  have hmagic : Magic topFile := by decide
  have hsegs : elfSegments topFile = [⟨1, 0, 0xFFFFF000, 0, 1⟩] := by decide
  have hnot : ¬∀ h ∈ elfSegments topFile, h.Reached := by
    rw [hsegs, List.forall_mem_singleton]
    decide
  exact ⟨hmagic, loadElf_endless 84 hmagic hnot⟩

end DvivonOS
