import DvivonOS.Memory.PmmRuns

/-!
# The bitmap after `pmm_init`

Which bits `pmm_init` leaves clear, and how many words of the bitmap the allocator scans. The bits
are those of the pages the available entries contain, except in one case: the rounding up of an
entry in the last page of the 64-bit space wraps to `0`, and the entry then clears every page below
4 GiB. The number of scanned words is computed from the end of the highest entry and is not cut at
4 GiB.
-/

namespace DvivonOS

/-- `KERNEL_PHYS` of the linker script, the address of `_kernel_start`. -/
def kernelPhys : ℕ := 0x00200000

/-! ## What is asked of the bitmap -/

/-- The whole page `n` lies in the entry. -/
def MmapEntry.Contains (e : MmapEntry) (n : ℕ) : Prop :=
  e.addr ≤ n * pageSize ∧ (n + 1) * pageSize ≤ e.addr + e.len

/-- The whole page `n` lies in one available entry. -/
def Available (mmap : List MmapEntry) (n : ℕ) : Prop :=
  ∃ e ∈ mmap, e.type = multibootMemoryAvailable ∧ e.Contains n

/-- A byte of page `n` lies in `[_kernel_start, _kernel_end - KERNEL_HIGHER_HALF)`. -/
def KernelPage (kernelStart kernelEnd n : ℕ) : Prop :=
  n * pageSize < kernelEnd - kernelHigherHalf ∧ kernelStart < (n + 1) * pageSize

/-- Page `n` may be handed out, as far as the kernel's own pages go. -/
def Unreserved (kernelEnd n : ℕ) : Prop :=
  pageTableCount ≤ n ∧ ¬KernelPage kernelPhys kernelEnd n

/-- The clear bits are those of the available pages that are not reserved, and the scanned words lie
in the bitmap. -/
structure PmmInitOk (kernelEnd : ℕ) (mmap : List MmapEntry) (p : Pmm) : Prop where
  clear : ∀ n < maxPages,
    testBit n p.bitmap = false ↔ Available mmap n ∧ Unreserved kernelEnd n
  words : p.usableEndWords ≤ maxPages / bitmapEntryBits

/-! ## What the loops do -/

section Loops

variable {bitmap : PageBitmap} {n : ℕ}

theorem pages_lt_iff {a b : ℕ} : a * pageSize < b * pageSize ↔ a < b :=
  Nat.mul_lt_mul_right (by decide)

theorem div_page (a : ℕ) : a * pageSize / pageSize = a := Nat.mul_div_cancel _ (by decide)

theorem next_page (a : ℕ) : a * pageSize + pageSize = (a + 1) * pageSize :=
  (Nat.succ_mul a pageSize).symm

/-- The loop from page `a` to page `b` clears the bits of these pages, as far as they lie below
4 GiB. -/
theorem clearPages_spec {b : ℕ} (hb : b * pageSize < 2 ^ 64) (hn : n < maxPages) :
    ∀ fuel a bitmap, b ≤ a + fuel →
      testBit n (clearPages (b * pageSize) fuel (a * pageSize) bitmap) =
        (!decide (a ≤ n ∧ n < b) && testBit n bitmap) := by
  intro fuel
  induction fuel with
  | zero =>
    intro a bitmap hf
    have hnot : ¬(a ≤ n ∧ n < b) := by omega
    rw [decide_eq_false hnot, Bool.not_false, Bool.true_and]
    rfl
  | succ fuel ih =>
    intro a bitmap hf
    unfold clearPages
    by_cases hab : a < b
    · have hnext : (a * pageSize + pageSize) % 2 ^ 64 = (a + 1) * pageSize := by
        rw [next_page]
        exact Nat.mod_eq_of_lt (lt_of_le_of_lt (Nat.mul_le_mul_right _ hab) hb)
      rw [if_pos (pages_lt_iff.mpr hab), hnext, ih (a + 1) _ (by omega), div_page]
      have hlow : a * pageSize < memory4gbLimit ↔ a < maxPages := by
        unfold memory4gbLimit maxPages pageSize
        omega
      by_cases ha : a < maxPages
      · have ha32 : a % 2 ^ 32 = a := Nat.mod_eq_of_lt (lt_trans ha (by decide))
        rw [if_pos (hlow.mpr ha), ha32, testBit_clearBit, ← Bool.and_assoc]
        refine congrArg (· && testBit n bitmap) ?_
        by_cases hna : n = a
        · simp [hna, hab]
        · have : decide (a + 1 ≤ n ∧ n < b) = decide (a ≤ n ∧ n < b) :=
            decide_eq_decide.mpr (by omega)
          rw [this, decide_eq_false hna, Bool.not_false, Bool.and_true]
      · have hna : ¬(a + 1 ≤ n ∧ n < b) := by omega
        have hnb : ¬(a ≤ n ∧ n < b) := by omega
        rw [if_neg (mt hlow.mp ha), decide_eq_false hna, decide_eq_false hnb]
    · rw [if_neg (mt pages_lt_iff.mp hab)]
      have hnot : ¬(a ≤ n ∧ n < b) := by omega
      rw [decide_eq_false hnot, Bool.not_false, Bool.true_and]

/-- The loop over the kernel sets the bits of the pages from `a` on that begin below `stop`. -/
theorem reservePages_spec {stop : ℕ} (hstop : stop ≤ 2 ^ 31) :
    ∀ fuel a bitmap, stop < (a + fuel) * pageSize →
      testBit n (reservePages stop fuel (a * pageSize) bitmap) =
        (decide (a ≤ n ∧ n * pageSize < stop) || testBit n bitmap) := by
  intro fuel
  induction fuel with
  | zero =>
    intro a bitmap hf
    have hnot : ¬(a ≤ n ∧ n * pageSize < stop) := by
      unfold pageSize at *
      omega
    rw [decide_eq_false hnot, Bool.false_or]
    rfl
  | succ fuel ih =>
    intro a bitmap hf
    unfold reservePages
    by_cases hab : a * pageSize < stop
    · have hnext : (a * pageSize + pageSize) % 2 ^ 32 = (a + 1) * pageSize := by
        have hp : pageSize < 2 ^ 31 := by decide
        rw [Nat.mod_eq_of_lt (by omega), next_page]
      rw [if_pos hab, hnext, ih (a + 1) _ (by rwa [Nat.add_right_comm, Nat.add_assoc]), div_page,
        testBit_setBit, ← Bool.or_assoc]
      refine congrArg (· || testBit n bitmap) ?_
      by_cases hna : n = a
      · simp [hna, hab]
      · have : decide (a + 1 ≤ n ∧ n * pageSize < stop) = decide (a ≤ n ∧ n * pageSize < stop) :=
          decide_eq_decide.mpr (by omega)
        rw [this, decide_eq_false hna, Bool.or_false]
    · rw [if_neg hab]
      have hnot : ¬(a ≤ n ∧ n * pageSize < stop) := by
        unfold pageSize at *
        omega
      rw [decide_eq_false hnot, Bool.false_or]

theorem testBit_fill (k : ℕ) :
    testBit n (fun i => if i < k then bitmapAllBitsSet else bitmap i) =
      (decide (n < k * bitmapEntryBits) || testBit n bitmap) := by
  have hiff : n / bitmapEntryBits < k ↔ n < k * bitmapEntryBits :=
    Nat.div_lt_iff_lt_mul (by decide)
  by_cases h : n < k * bitmapEntryBits
  · rw [decide_eq_true h, Bool.true_or]
    exact testBit_all (if_pos (hiff.mpr h))
  · rw [decide_eq_false h, Bool.false_or]
    unfold testBit
    exact congrArg (BitVec.getLsbD · _) (if_neg (mt hiff.mp h))

end Loops

/-! ## The memory map -/

/-- The first and the last page of the loop over an entry. -/
def MmapEntry.Clears (e : MmapEntry) (n : ℕ) : Prop :=
  e.type = multibootMemoryAvailable ∧ e.start ≤ n * pageSize ∧ n * pageSize < e.stop

instance (e : MmapEntry) (n : ℕ) : Decidable (e.Clears n) := by
  unfold MmapEntry.Clears
  infer_instance

/-- The page in which the highest available entry ends. -/
def topPage : List MmapEntry → ℕ
  | [] => 0
  | e :: es =>
    if e.type = multibootMemoryAvailable then max ((e.addr + e.len) / pageSize) (topPage es)
    else topPage es

section Entries

variable {e : MmapEntry} {mmap : List MmapEntry} {n : ℕ}

theorem MmapEntry.stop_eq (he : e.addr + e.len < 2 ^ 64) :
    e.stop = (e.addr + e.len) / pageSize * pageSize := by
  unfold MmapEntry.stop
  rw [Nat.mod_eq_of_lt he]

theorem MmapEntry.stop_lt (e : MmapEntry) : e.stop < 2 ^ 64 :=
  lt_of_le_of_lt (Nat.div_mul_le_self _ _) (Nat.mod_lt _ (by decide))

theorem topPage_lt (hm : ∀ e ∈ mmap, e.addr + e.len < 2 ^ 64) : topPage mmap < 2 ^ 52 := by
  induction mmap with
  | nil => decide
  | cons e es ih =>
    have hes := ih fun e' he' => hm e' (List.mem_cons_of_mem _ he')
    have he : (e.addr + e.len) / pageSize < 2 ^ 52 :=
      Nat.div_lt_of_lt_mul (by have := hm e List.mem_cons_self; unfold pageSize; omega)
    unfold topPage
    split_ifs
    · exact max_lt he hes
    · exact hes

/-- The bits that the loop over the map leaves set. -/
theorem freeEntries_bits (hn : n < maxPages) : ∀ mmap bitmap usableEnd,
    testBit n (freeEntries mmap (bitmap, usableEnd)).1 =
      (decide (∀ e ∈ mmap, ¬e.Clears n) && testBit n bitmap) := by
  intro mmap
  induction mmap with
  | nil => simp [freeEntries]
  | cons e es ih =>
    intro bitmap usableEnd
    unfold freeEntries
    by_cases ht : e.type = multibootMemoryAvailable
    · have hclear : testBit n (clearPages e.stop ((e.stop - e.start) / pageSize + 1) e.start
          bitmap) = (!decide (e.Clears n) && testBit n bitmap) := by
        have hstart : e.start = (e.addr + (pageSize - 1)) % 2 ^ 64 / pageSize * pageSize := rfl
        have hstop : e.stop = (e.addr + e.len) % 2 ^ 64 / pageSize * pageSize := rfl
        set a := (e.addr + (pageSize - 1)) % 2 ^ 64 / pageSize
        set b := (e.addr + e.len) % 2 ^ 64 / pageSize
        have hfuel : b ≤ a + ((b * pageSize - a * pageSize) / pageSize + 1) := by
          rw [← Nat.sub_mul, div_page]
          omega
        have hiff : e.Clears n ↔ a ≤ n ∧ n < b := by
          unfold MmapEntry.Clears
          rw [hstart, hstop, pages_lt_iff, and_iff_right ht]
          exact and_congr_left fun _ => Nat.mul_le_mul_right_iff (by decide)
        rw [hstart, hstop, clearPages_spec (hstop ▸ e.stop_lt) hn _ a bitmap hfuel]
        simp [hiff]
      rw [if_pos ht, ih, hclear, ← Bool.and_assoc]
      congr 1
      by_cases hc : e.Clears n <;> simp [hc]
    · have hc : ¬e.Clears n := fun h => ht h.1
      rw [if_neg ht, ih]
      simp [hc]

/-- `usable_end` is the end of the highest available entry, rounded down. -/
theorem freeEntries_end : ∀ (mmap : List MmapEntry) (bitmap : PageBitmap) (m : ℕ),
    (∀ e ∈ mmap, e.addr + e.len < 2 ^ 64) →
    (freeEntries mmap (bitmap, m * pageSize)).2 = max m (topPage mmap) * pageSize := by
  intro mmap
  induction mmap with
  | nil =>
    intro bitmap m _
    unfold freeEntries topPage
    rw [Nat.max_zero]
  | cons e es ih =>
    intro bitmap m hm
    have hes : ∀ e' ∈ es, e'.addr + e'.len < 2 ^ 64 := fun e' he' => hm e' (.tail _ he')
    unfold freeEntries topPage
    by_cases ht : e.type = multibootMemoryAvailable
    · have hmax : (if m * pageSize < e.stop then e.stop else m * pageSize) =
          max m ((e.addr + e.len) / pageSize) * pageSize := by
        rw [MmapEntry.stop_eq (hm e List.mem_cons_self)]
        split_ifs with hlt
        · rw [max_eq_right (pages_lt_iff.mp hlt).le]
        · rw [max_eq_left (not_lt.mp (mt pages_lt_iff.mpr hlt))]
      rw [if_pos ht, if_pos ht, hmax, ih _ _ hes, max_assoc]
    · rw [if_neg ht, if_neg ht]
      exact ih _ _ hes

/-- The rounding up of the entry's address does not wrap. -/
def MmapEntry.RoundsUp (e : MmapEntry) : Prop := e.addr + (pageSize - 1) < 2 ^ 64

instance (e : MmapEntry) : Decidable e.RoundsUp := by
  unfold MmapEntry.RoundsUp
  infer_instance

theorem MmapEntry.clears_of_contains (ht : e.type = multibootMemoryAvailable)
    (he : e.addr + e.len < 2 ^ 64) (hc : e.Contains n) : e.Clears n := by
  obtain ⟨h1, h2⟩ := hc
  refine ⟨ht, ?_, ?_⟩
  · unfold MmapEntry.start
    unfold pageSize at h1 ⊢
    clear h2 he
    omega
  · rw [MmapEntry.stop_eq he]
    unfold pageSize at *
    omega

/-- No other pages are, if the rounding does not wrap. -/
theorem MmapEntry.contains_of_clears (he : e.addr + e.len < 2 ^ 64) (hr : e.RoundsUp)
    (hc : e.Clears n) : e.Contains n := by
  obtain ⟨-, h1, h2⟩ := hc
  rw [MmapEntry.stop_eq he] at h2
  unfold MmapEntry.start at h1
  rw [Nat.mod_eq_of_lt hr] at h1
  unfold MmapEntry.Contains
  unfold pageSize at *
  omega

/-- An entry whose rounding wraps clears every page below 4 GiB. -/
theorem MmapEntry.clears_of_wraps (ht : e.type = multibootMemoryAvailable)
    (he : e.addr + e.len < 2 ^ 64) (hr : ¬e.RoundsUp) (hn : n < maxPages) : e.Clears n := by
  refine ⟨ht, ?_, ?_⟩
  · unfold MmapEntry.start
    unfold MmapEntry.RoundsUp at hr
    unfold pageSize at *
    omega
  · rw [MmapEntry.stop_eq he]
    unfold MmapEntry.RoundsUp at hr
    unfold maxPages at hn
    unfold pageSize at *
    omega

end Entries

/-! ## `pmm_init` -/

section Init

variable {kernelEnd : ℕ} {mmap : List MmapEntry} {n : ℕ}

theorem pmmInit_clear_iff (memory : PageBitmap) (hk : kernelHigherHalf ≤ kernelEnd)
    (hk' : kernelEnd < 2 ^ 32) (hn : n < maxPages) :
    testBit n (pmmInit kernelPhys kernelEnd mmap memory).bitmap = false ↔
      (∃ e ∈ mmap, e.Clears n) ∧ Unreserved kernelEnd n := by
  have hphys : kernelPhys = 512 * pageSize := rfl
  have hend : (kernelEnd + 2 ^ 32 - kernelHigherHalf) % 2 ^ 32 = kernelEnd - kernelHigherHalf := by
    unfold kernelHigherHalf at *
    omega
  have hstop : kernelEnd - kernelHigherHalf ≤ 2 ^ 31 := by unfold kernelHigherHalf; omega
  have hfuel : kernelEnd - kernelHigherHalf < (512 + ((kernelEnd - kernelHigherHalf -
      512 * pageSize) / pageSize + 1)) * pageSize := by
    unfold pageSize
    omega
  have hkernel : KernelPage kernelPhys kernelEnd n ↔
      512 ≤ n ∧ n * pageSize < kernelEnd - kernelHigherHalf := by
    unfold KernelPage
    rw [hphys, pages_lt_iff, Nat.lt_succ_iff, and_comm]
  have htables : pageTableCount ≤ n ↔ ¬n < pageTableCount / bitmapEntryBits * bitmapEntryBits :=
    Nat.not_lt.symm
  have hall : n < maxPages / bitmapEntryBits * bitmapEntryBits := hn
  unfold pmmInit Unreserved
  dsimp only
  rw [hphys, hend, reservePages_spec hstop _ _ _ hfuel, testBit_fill, freeEntries_bits hn, testBit_fill,
    decide_eq_true hall, ← hphys, hkernel, htables]
  have hex : (¬∀ e ∈ mmap, ¬e.Clears n) ↔ ∃ e ∈ mmap, e.Clears n := by
    push Not
    rfl
  rw [Bool.true_or, Bool.and_true, Bool.or_eq_false_iff, Bool.or_eq_false_iff,
    decide_eq_false_iff_not, decide_eq_false_iff_not, decide_eq_false_iff_not, hex]
  exact ⟨fun ⟨h1, h2, h3⟩ => ⟨h3, h2, h1⟩, fun ⟨h1, h2, h3⟩ => ⟨h3, h2, h1⟩⟩

theorem pmmInit_words {memory : PageBitmap} (hm : ∀ e ∈ mmap, e.addr + e.len < 2 ^ 64) :
    (pmmInit kernelPhys kernelEnd mmap memory).usableEndWords =
      (topPage mmap % 2 ^ 32 + (bitmapEntryBits - 1)) % 2 ^ 32 / bitmapEntryBits := by
  have hend := freeEntries_end mmap
    (fun i => if i < maxPages / bitmapEntryBits then bitmapAllBitsSet else memory i) 0 hm
  rw [Nat.zero_mul, Nat.zero_max] at hend
  have hlt := topPage_lt hm
  have hpages : (topPage mmap * pageSize + (pageSize - 1)) % 2 ^ 64 / pageSize = topPage mmap := by
    unfold pageSize
    omega
  unfold pmmInit
  dsimp only
  rw [hend, hpages]

/-- When the bitmap is as asked: every available entry can be rounded up without a wrap, or the map
has all the pages that are not reserved; and the highest available entry ends at or below 4 GiB, or
so high that the number of its pages wraps to such a number. -/
structure MmapFits (kernelEnd : ℕ) (mmap : List MmapEntry) : Prop where
  rounds : (∀ e ∈ mmap, e.type = multibootMemoryAvailable → e.RoundsUp) ∨
    ∀ n < maxPages, Unreserved kernelEnd n → Available mmap n
  top : topPage mmap % 2 ^ 32 ≤ maxPages ∨ 2 ^ 32 - bitmapEntryBits < topPage mmap % 2 ^ 32

/-- **`pmm_init`.** For every multiboot memory map and every `_kernel_end` in the higher half, the
clear bits are those of the available pages that are not reserved, and the scanned words lie in the
bitmap, exactly if the map fits. -/
theorem pmm_init_marks_available {memory : PageBitmap} (hk : kernelHigherHalf ≤ kernelEnd)
    (hk' : kernelEnd < 2 ^ 32) (hm : ∀ e ∈ mmap, e.addr + e.len < 2 ^ 64) :
    PmmInitOk kernelEnd mmap (pmmInit kernelPhys kernelEnd mmap memory) ↔
      MmapFits kernelEnd mmap := by
  have hwords : (pmmInit kernelPhys kernelEnd mmap memory).usableEndWords ≤
      maxPages / bitmapEntryBits ↔
        topPage mmap % 2 ^ 32 ≤ maxPages ∨ 2 ^ 32 - bitmapEntryBits < topPage mmap % 2 ^ 32 := by
    rw [pmmInit_words hm]
    unfold maxPages bitmapEntryBits
    omega
  constructor
  · intro h
    refine ⟨?_, hwords.mp h.words⟩
    by_contra hno
    push Not at hno
    obtain ⟨⟨e, he, ht, hr⟩, n, hn, hu, hna⟩ := hno
    have hclear := (pmmInit_clear_iff memory hk hk' hn).mpr
      ⟨⟨e, he, MmapEntry.clears_of_wraps ht (hm e he) hr hn⟩, hu⟩
    exact hna ((h.clear n hn).mp hclear).1
  · intro h
    refine ⟨fun n hn => ?_, hwords.mpr h.top⟩
    rw [pmmInit_clear_iff memory hk hk' hn]
    refine and_congr_left fun hu => ⟨?_, ?_⟩
    · rintro ⟨e, he, hc⟩
      rcases h.rounds with hr | hall
      · exact ⟨e, he, hc.1, MmapEntry.contains_of_clears (hm e he) (hr e he hc.1) hc⟩
      · exact hall n hn hu
    · rintro ⟨e, he, ht, hc⟩
      exact ⟨e, he, MmapEntry.clears_of_contains ht (hm e he) hc⟩

end Init

/-- A machine with 128 MiB of memory and a kernel of 4 MiB. -/
def smallMap : List MmapEntry := [⟨0, 0x9FC00, 1⟩, ⟨0xF0000, 0x10000, 2⟩, ⟨0x100000, 0x7EE0000, 1⟩]

theorem pmm_init_marks_available_small :
    PmmInitOk 0xC0600000 smallMap (pmmInit kernelPhys 0xC0600000 smallMap fun _ => 0) := by
  refine (pmm_init_marks_available (by decide) (by decide) ?_).mpr ⟨Or.inl ?_, Or.inl (by decide)⟩
  · intro e he
    fin_cases he <;> decide
  · intro e he _
    fin_cases he <;> decide

/-- **A region above 4 GiB.** 128 KiB of available memory from 4 GiB on: one word more than the
bitmap has is scanned. -/
theorem scan_passes_bitmap :
    (pmmInit kernelPhys 0xC0600000 [⟨0x100000000, 0x20000, 1⟩] fun _ => 0).usableEndWords =
        maxPages / bitmapEntryBits + 1 ∧
      ¬PmmInitOk 0xC0600000 [⟨0x100000000, 0x20000, 1⟩]
        (pmmInit kernelPhys 0xC0600000 [⟨0x100000000, 0x20000, 1⟩] fun _ => 0) := by
  have hw : (pmmInit kernelPhys 0xC0600000 [⟨0x100000000, 0x20000, 1⟩] fun _ => 0).usableEndWords =
      maxPages / bitmapEntryBits + 1 := by
    rw [pmmInit_words (by simp)]
    decide
  exact ⟨hw, fun h => by have := h.words; omega⟩

end DvivonOS
