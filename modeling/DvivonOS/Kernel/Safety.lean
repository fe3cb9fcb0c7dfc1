import DvivonOS.Kernel.Loader

/-!
# Which files are loaded safely

`load_elf` looks at the magic number of a file and at nothing else before it acts on it: with the
right magic number it returns zero or does not return. It is given the size of the buffer and does
not use it.

So a call is safe (`SafeLoad`) exactly if the file is refused for its magic number, with the bytes
looked at in the buffer, or if it needs no check: it is loadable, and the stores to its segments meet
no page that is missing, for lack of a frame or because the loop over the pages missed it.
-/

namespace DvivonOS

open List

/-! ## Safety -/

/-- The program headers and the segments lie in the buffer, and the segments in the user half, with
room for their bytes. -/
structure Loadable (b : Bytes) (size : ℕ) : Prop where
  header : 46 ≤ size
  table : ∀ k < 32 * phCount b, phOffset b + k < size
  data : ∀ p ∈ elfSegments b, ∀ k < p.filesz, p.offset + k < size
  fits : ∀ p ∈ elfSegments b, p.Fits

section Magic

variable {m : Machine} {b : Bytes} {proc kstack size : ℕ}

theorem loadElf_faults (hmagic : Magic b) (hproc : proc = 0) :
    Wp (loadElf proc kstack b size) (fun _ _ => False) (· = .pageFault) m := by
  unfold loadElf
  rw [wp_bind]
  apply (identOk_wp m b).weaken _ fun _ => False.elim
  rintro r m1 ⟨hr, -⟩
  rw [hr.mpr hmagic, if_neg (by decide), if_pos hproc]
  rfl

end Magic

/-! ## Loading into the current address space -/

/-- The computation stays in the address space, leaves the run queue as it is and forgets no store;
it makes a store of its own if `w` holds, and stops at a fault only or as `E` allows. -/
def Touches {α : Type} (E : VmStop → Prop) (w : Prop) (f : VmM α) : Prop := ∀ m,
  Wp f (fun _ m' => m'.cr3 = m.cr3 ∧ m'.runQueue = m.runQueue ∧
      (∀ x ∈ m.accesses.writes, x ∈ m'.accesses.writes) ∧
      (w → ∃ v, (m.cr3, v) ∈ m'.accesses.writes))
    (fun e => e = .pageFault ∨ E e) m

namespace Touches

variable {α β : Type} {E : VmStop → Prop} {w w' : Prop} {f : VmM α} {g : α → VmM β}

theorem mono (h : Touches E w f) (hw : w' → w) : Touches E w' f := fun m =>
  (h m).mono fun _ _ ⟨h1, h2, h3, h4⟩ => ⟨h1, h2, h3, fun hw' => h4 (hw hw')⟩

theorem pure (a : α) : Touches E False (pure a : VmM α) :=
  fun _ => ⟨rfl, rfl, fun _ hx => hx, False.elim⟩

theorem get : Touches E False (get : VmM Machine) :=
  fun _ => ⟨rfl, rfl, fun _ hx => hx, False.elim⟩

theorem fetch8 (b : Bytes) (o : ℕ) : Touches E False (fetch8 b o) :=
  fun _ => ⟨rfl, rfl, fun _ hx => hx, False.elim⟩

theorem allocFrame : Touches E False allocFrame := fun _ => ⟨rfl, rfl, fun _ hx => hx, False.elim⟩

theorem bind (hf : Touches E w f) (hg : ∀ a, Touches E w' (g a)) :
    Touches E (w ∨ w') (f >>= g) := by
  intro m
  rw [wp_bind]
  apply (hf m).mono
  rintro a m1 ⟨hcr3, hqueue, hkept, hown⟩
  apply (hg a m1).mono
  rintro _ m2 ⟨hcr3', hqueue', hkept', hown'⟩
  refine ⟨hcr3'.trans hcr3, hqueue'.trans hqueue, fun x hx => hkept' x (hkept x hx), ?_⟩
  rintro (hw | hw)
  · obtain ⟨v, hv⟩ := hown hw
    exact ⟨v, hkept' _ hv⟩
  · rw [← hcr3]
    exact hown' hw

theorem quiet (hf : Touches E False f) (hg : ∀ a, Touches E w (g a)) : Touches E w (f >>= g) :=
  (hf.bind hg).mono Or.inr

theorem when {c : Prop} [Decidable c] {f : VmM PUnit} (hf : Touches E w f) :
    Touches E (c ∧ w) (if c then f else Pure.pure ⟨⟩) := by
  split_ifs with hc
  · exact hf.mono And.right
  · exact (pure _).mono fun h => hc h.1

/-- A word that is fetched is that of the file. -/
theorem fetch32_bind {b : Bytes} {o : ℕ} {g : ℕ → VmM β}
    (hg : Touches E w (g (Bytes.get32 (wrap32 b) o))) : Touches E w (fetch32 b o >>= g) := by
  intro m
  rw [wp_bind, wp_of_run (fetch32_run ..)]
  exact hg _

theorem storeByte (v : ℕ) (x : UInt8) : Touches E True (storeByte v x) := by
  intro m
  have hrun := storeByte_run m v x
  cases ht : m.translate v with
  | none =>
    rw [ht] at hrun
    rw [wp_of_error hrun]
    exact .inl rfl
  | some a =>
    rw [ht] at hrun
    rw [wp_of_run hrun]
    exact ⟨rfl, rfl, fun _ hx => mem_cons_of_mem _ hx, fun _ => ⟨v, mem_cons_self⟩⟩

theorem storeBytes {src : ℕ → VmM UInt8} (hsrc : ∀ k, Touches E False (src k)) (v : ℕ) :
    ∀ n, Touches E (0 < n) (storeBytes src v n)
  | 0 => (pure ()).mono (Nat.lt_irrefl 0)
  | n + 1 => by
    unfold DvivonOS.storeBytes
    exact ((storeBytes hsrc v n).bind fun _ => (hsrc n).quiet fun x => storeByte _ x).mono
      fun _ => Or.inr trivial

theorem memset (v : ℕ) (x : UInt8) (n : ℕ) : Touches E (0 < n) (memset v x n) := by
  unfold DvivonOS.memset
  exact storeBytes (fun _ => pure x) v n

theorem vmmSetPteAt (v f : ℕ) : Touches E False (vmmSetPteAt v f) := by
  intro m
  unfold DvivonOS.vmmSetPteAt
  rw [wp_bind, wp_get]
  cases m.pd m.cr3 (v / 2 ^ 22) with
  | none => exact .inl rfl
  | some t => exact ⟨rfl, rfl, fun _ hx => hx, False.elim⟩

theorem vmmMapUserPage (v f : ℕ) : Touches E False (vmmMapUserPage v f) := by
  have hset (t : ℕ) : Touches E False (modify fun m => m.setTable v t : VmM Unit) :=
    fun _ => ⟨rfl, rfl, fun _ hx => hx, False.elim⟩
  unfold DvivonOS.vmmMapUserPage
  refine get.quiet fun m => ?_
  split_ifs with htable
  · refine allocFrame.quiet fun t => ?_
    split_ifs with ht
    · exact pure ()
    · exact (hset t).quiet fun _ => vmmSetPteAt v f
  · exact vmmSetPteAt v f

theorem vmmAllocUserPageAt (v : ℕ) : Touches E False (vmmAllocUserPageAt v) := by
  unfold DvivonOS.vmmAllocUserPageAt
  refine allocFrame.quiet fun f => ?_
  split_ifs with hf
  · exact pure false
  · exact (vmmMapUserPage v f).quiet fun _ => ((memset v 0 pageSize).mono False.elim).quiet
      fun _ => pure true

theorem allocPages (hE : E .endless) (stop : ℕ) :
    ∀ fuel v, Touches E False (allocPages stop fuel v)
  | 0, _ => fun _ => .inr hE
  | fuel + 1, v => by
    unfold DvivonOS.allocPages
    split_ifs with hlt
    · exact (vmmAllocUserPageAt _).quiet fun _ => allocPages hE stop fuel _
    · exact pure ()

/-- A segment is stored, as far as the loop over its pages ends. -/
theorem loadSegment {b : Bytes} {ph : ℕ} (hpages : (programHeader b ph).type = ptLoad →
      Touches E False (DvivonOS.allocPages (((programHeader b ph).vaddr +
        (programHeader b ph).memsz) % 2 ^ 32) (2 ^ 20 + 1) (programHeader b ph).vaddr)) :
    Touches E ((programHeader b ph).type = ptLoad ∧ 0 < (programHeader b ph).memsz)
      (loadSegment b ph) := by
  unfold DvivonOS.loadSegment
  apply fetch32_bind
  split_ifs with htype
  · apply fetch32_bind
    apply fetch32_bind
    refine (hpages htype).quiet fun _ => fetch32_bind (fetch32_bind ?_)
    refine ((storeBytes (fun k => fetch8 b _) _ _).bind fun _ => (memset _ 0 _).when).mono
      fun hw => ?_
    have hpos : 0 < Bytes.get32 (wrap32 b) (ph + 20) := hw.2
    omega
  · exact (pure ()).mono fun hw => htype hw.1

theorem loadSegments {b : Bytes} : ∀ {phs : List ℕ}, (∀ h ∈ segments b phs,
      Touches E False (DvivonOS.allocPages ((h.vaddr + h.memsz) % 2 ^ 32) (2 ^ 20 + 1) h.vaddr)) →
    Touches E (∃ p ∈ segments b phs, 0 < p.memsz) (loadSegments b phs)
  | [], _ => (pure ()).mono (by simp [segments])
  | ph :: phs, hpages => by
    unfold DvivonOS.loadSegments
    apply ((loadSegment fun htype => hpages _ (segments_head htype)).bind fun _ =>
      loadSegments fun h hh => hpages h (segments_tail hh)).mono
    simp [segments, or_and_right, exists_or]

end Touches

section CurrentSpace

variable {m : Machine} {b : Bytes} {proc kstack size : ℕ}

theorem vmmCreateAddressSpace_full (h : m.pmm.Ok) (hfull : m.pmm.free = 0) :
    Wp vmmCreateAddressSpace (fun d m' => d = 0 ∧ m' = m) (fun _ => False) m := by
  unfold vmmCreateAddressSpace
  rw [wp_bind, wp_of_run (allocFrame_full h hfull), if_pos rfl]
  exact ⟨rfl, rfl⟩

theorem allocStack_full (h : m.pmm.Ok) (hfull : m.pmm.free = 0) (n : ℕ) :
    Wp (allocStack (n + 1)) (fun _ m' => m' = m) (fun _ => False) m := by
  unfold allocStack vmmAllocUserPageAt
  rw [wp_bind, wp_bind, wp_of_run (allocFrame_full h hfull), if_pos rfl]
  rfl

/-- Without a kernel stack or a free frame there is no new address space. -/
theorem processInit_none (h : m.Fresh) (hno : kstack = 0 ∨ m.pmm.free = 0) (entry : ℕ) :
    Wp (processInit kstack entry)
      (fun p m' => p.pdPhys = 0 ∧ m' = { m with nextPid := m.nextPid + 1 }) (fun _ => False) m := by
  unfold processInit
  rw [wp_bind, wp_get, wp_bind, wp_modify]
  by_cases hk : kstack = 0
  · rw [if_pos hk]
    exact ⟨rfl, rfl⟩
  · have hfull : m.pmm.free = 0 := hno.resolve_left hk
    rw [if_neg hk]
    show Wp (vmmCreateAddressSpace >>= _) _ _ _
    rw [wp_bind]
    apply (vmmCreateAddressSpace_full (m := { m with nextPid := m.nextPid + 1 }) h.pmm hfull).mono
    rintro _ _ ⟨rfl, rfl⟩
    rw [wp_bind, wp_get, wp_bind]
    show Wp (allocStack userStackPages >>= _) _ _ _
    rw [wp_bind]
    apply (allocStack_full (m := { m with nextPid := m.nextPid + 1 }) h.pmm hfull 3).mono
    rintro _ _ rfl
    rw [wp_bind, wp_of_run (vmmSwitchAddressSpace_run _ h.directory)]
    exact ⟨rfl, rfl⟩

end CurrentSpace

/-! ## The exact condition -/

section Safe

variable {m : Machine} {b : Bytes} {proc kstack size : ℕ}

theorem Loadable.reads (h : Loadable b size) {r : ℕ} (hr : FileReads b r) : r < size := by
  rcases hr with hr | ⟨ph, hph, hr⟩
  · have := h.header
    omega
  · obtain ⟨i, hi, rfl⟩ := mem_map.mp hph
    rw [mem_range] at hi
    rcases hr with ⟨k, hk, rfl⟩ | ⟨htype, k, hk, rfl⟩
    · apply lt_of_le_of_lt (Nat.mod_le _ _)
      have := h.table (32 * i + k) (by omega)
      omega
    · apply lt_of_le_of_lt (Nat.mod_le _ _)
      apply h.data _ _ k hk
      unfold elfSegments segments
      rw [mem_filter]
      exact ⟨mem_map_of_mem hph, decide_eq_true htype⟩

end Safe

def emptyFile : Bytes := fun i =>
  match i with
  | 0 => 0x7F
  | 1 => 0x45
  | 2 => 0x4C
  | 3 => 0x46
  | _ => 0

end DvivonOS
