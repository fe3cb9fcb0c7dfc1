import DvivonOS.Memory.Pmm

/-!
# Histories of the page allocator

The bits of the bitmap are those set at the beginning and those of the pages handed out and not
freed, in every state that allocations and frees reach. The scan visits every word once: after `j`
rounds it stands at word `(start + j) % usable_end_words`, and the words before it are full.
-/

namespace DvivonOS

open Function List

/-! ## Bits -/

section Bits

variable {bitmap : PageBitmap} {m n : ℕ}

theorem getLsbD_one_shiftLeft {i j : ℕ} (hj : j < 32) :
    (1#32 <<< j).getLsbD i = decide (i = j) := by
  rw [BitVec.getLsbD_shiftLeft, BitVec.getLsbD_one]
  by_cases h : i = j
  · simp [h, hj]
  · simp only [h, decide_false]
    simp
    omega

theorem testBit_update (w : ℕ) (x : BitVec 32) :
    testBit n (update bitmap w x) =
      if n / bitmapEntryBits = w then x.getLsbD (n % bitmapEntryBits) else testBit n bitmap := by
  unfold testBit
  by_cases h : n / bitmapEntryBits = w
  · rw [h, update_self, if_pos rfl]
  · rw [update_of_ne h, if_neg h]

theorem bit_eq_iff : n = m ↔ n / bitmapEntryBits = m / bitmapEntryBits ∧
    n % bitmapEntryBits = m % bitmapEntryBits := by
  unfold bitmapEntryBits
  omega

theorem testBit_setBit : testBit n (setBit m bitmap) = (decide (n = m) || testBit n bitmap) := by
  have hm : m % bitmapEntryBits < 32 := Nat.mod_lt _ (by decide)
  unfold setBit
  rw [testBit_update, BitVec.getLsbD_or, getLsbD_one_shiftLeft hm]
  by_cases h : n / bitmapEntryBits = m / bitmapEntryBits
  · rw [if_pos h, ← h, Bool.or_comm]
    congr 1
    exact decide_eq_decide.mpr (by rw [bit_eq_iff (n := n), and_iff_right h])
  · rw [if_neg h, decide_eq_false fun h' => h (by rw [h']), Bool.false_or]

theorem testBit_clearBit :
    testBit n (clearBit m bitmap) = (!decide (n = m) && testBit n bitmap) := by
  have hm : m % bitmapEntryBits < 32 := Nat.mod_lt _ (by decide)
  have hn : n % bitmapEntryBits < 32 := Nat.mod_lt _ (by decide)
  unfold clearBit
  rw [testBit_update, BitVec.getLsbD_and, BitVec.getLsbD_not, getLsbD_one_shiftLeft hm]
  by_cases h : n / bitmapEntryBits = m / bitmapEntryBits
  · rw [if_pos h, ← h, Bool.and_comm, decide_eq_true hn, Bool.true_and]
    congr 2
    exact decide_eq_decide.mpr (by rw [bit_eq_iff (n := n), and_iff_right h])
  · rw [if_neg h, decide_eq_false fun h' => h (by rw [h']), Bool.not_false, Bool.true_and]

theorem testBit_all (h : bitmap (n / bitmapEntryBits) = bitmapAllBitsSet) :
    testBit n bitmap = true := by
  have hn : n % bitmapEntryBits < 32 := Nat.mod_lt _ (by decide)
  unfold testBit
  rw [h]
  show (BitVec.allOnes 32).getLsbD _ = true
  rw [BitVec.getLsbD_allOnes, decide_eq_true hn]

theorem builtinFfs_spec {word : BitVec 32} (h : word ≠ bitmapAllBitsSet) :
    0 < builtinFfs (~~~word) ∧ builtinFfs (~~~word) - 1 < 32 ∧
      word.getLsbD (builtinFfs (~~~word) - 1) = false := by
  unfold builtinFfs
  cases hf : (List.range 32).find? fun k => (~~~word).getLsbD k with
  | none =>
    refine absurd (BitVec.eq_of_getLsbD_eq fun k hk => ?_) h
    have := List.find?_eq_none.mp hf k (mem_range.mpr hk)
    rw [BitVec.getLsbD_not, decide_eq_true hk, Bool.true_and] at this
    show _ = (BitVec.allOnes 32).getLsbD k
    rw [BitVec.getLsbD_allOnes, decide_eq_true hk]
    simpa using this
  | some k =>
    have hk := mem_range.mp (mem_of_find?_eq_some hf)
    have := List.find?_some hf
    rw [BitVec.getLsbD_not, decide_eq_true hk, Bool.true_and] at this
    dsimp only
    rw [Nat.add_sub_cancel]
    exact ⟨Nat.succ_pos k, hk, by simpa using this⟩

end Bits

/-! ## One allocation -/

/-- What `pmm.c` relies on: the cursor lies in the scanned words, which lie in the bitmap, and page
`0` is used. -/
structure Pmm.Ok (p : Pmm) : Prop where
  pos : 0 < p.usableEndWords
  le : p.usableEndWords ≤ maxPages / bitmapEntryBits
  cursor : p.lastAlloc < p.usableEndWords
  zero : testBit 0 p.bitmap = true

/-- Page `n` has been handed out in `p`. -/
structure Takes (p : Pmm) (n addr : ℕ) (p' : Pmm) : Prop where
  lt : n < p.usableEndWords * bitmapEntryBits
  clear : testBit n p.bitmap = false
  addr : addr = n * pageSize
  bits : ∀ m, testBit m p'.bitmap = (decide (m = n) || testBit m p.bitmap)
  words : p'.usableEndWords = p.usableEndWords
  cursor : p'.lastAlloc < p.usableEndWords

section Scan

variable {p : Pmm} {start : ℕ} (hs : start < p.usableEndWords)
  (hle : p.usableEndWords ≤ maxPages / bitmapEntryBits)

include hs

theorem next_word (j : ℕ) :
    (if p.usableEndWords ≤ (start + j) % p.usableEndWords + 1 then 0
      else (start + j) % p.usableEndWords + 1) = (start + (j + 1)) % p.usableEndWords := by
  have hlt := Nat.mod_lt (start + j) (by omega : 0 < p.usableEndWords)
  rw [← Nat.add_assoc, ← Nat.mod_add_mod (start + j)]
  generalize (start + j) % p.usableEndWords = w at hlt ⊢
  split_ifs with h
  · rw [show w + 1 = p.usableEndWords by omega, Nat.mod_self]
  · rw [Nat.mod_eq_of_lt (by omega)]

/-- The scan is back at its start after `usable_end_words` rounds, and not before. -/
theorem back_at_start {j : ℕ} (hj : j < p.usableEndWords) :
    (start + (j + 1)) % p.usableEndWords = start ↔ j + 1 = p.usableEndWords := by
  constructor
  · intro h
    by_contra hne
    rcases Nat.lt_or_ge (start + (j + 1)) p.usableEndWords with h1 | h1
    · rw [Nat.mod_eq_of_lt h1] at h; omega
    · rw [Nat.mod_eq_sub_mod h1, Nat.mod_eq_of_lt (by omega)] at h; omega
  · intro h
    rw [h, Nat.add_mod_right, Nat.mod_eq_of_lt hs]

/-- The loop ends after at most `usable_end_words` rounds. -/
theorem pmmScan_fuel (extra : ℕ) : ∀ fuel j, j + (fuel + 1) = p.usableEndWords →
    pmmScan p start (fuel + 1 + extra) ((start + j) % p.usableEndWords) =
      pmmScan p start (fuel + 1) ((start + j) % p.usableEndWords) := by
  intro fuel
  induction fuel with
  | zero =>
    intro j hj
    have hback := (back_at_start hs (by omega : j < p.usableEndWords)).mpr hj
    rw [Nat.add_comm]
    unfold pmmScan
    rw [next_word hs j, if_pos hback, if_pos hback]
  | succ fuel ih =>
    intro j hj
    have hnot := mt (back_at_start hs (by omega : j < p.usableEndWords)).mp (by omega)
    rw [show fuel + 1 + 1 + extra = fuel + 1 + extra + 1 by omega]
    unfold pmmScan
    rw [next_word hs j, if_neg hnot, if_neg hnot, ih (j + 1) (by omega)]

include hle

/-- **The scan** takes a page, or finds all words full. -/
theorem pmmScan_spec : ∀ fuel j, j + fuel = p.usableEndWords →
    (∀ t < j, p.bitmap ((start + t) % p.usableEndWords) = bitmapAllBitsSet) →
    (∃ n addr p', pmmScan p start fuel ((start + j) % p.usableEndWords) = (addr, p') ∧
        Takes p n addr p') ∨
      (pmmScan p start fuel ((start + j) % p.usableEndWords) = (0, p) ∧
        ∀ t < p.usableEndWords, p.bitmap ((start + t) % p.usableEndWords) = bitmapAllBitsSet) := by
  intro fuel
  induction fuel with
  | zero =>
    intro j hj hfull
    obtain rfl : j = p.usableEndWords := by omega
    exact Or.inr ⟨rfl, hfull⟩
  | succ fuel ih =>
    intro j hj hfull
    have hlt := Nat.mod_lt (start + j) (by omega : 0 < p.usableEndWords)
    unfold pmmScan
    rw [next_word hs j]
    set w := (start + j) % p.usableEndWords with hw
    by_cases hword : p.bitmap w = bitmapAllBitsSet
    · have hfull' : ∀ t < j + 1,
          p.bitmap ((start + t) % p.usableEndWords) = bitmapAllBitsSet := by
        intro t ht
        rcases Nat.lt_succ_iff_lt_or_eq.mp ht with ht | rfl
        · exact hfull t ht
        · exact hword
      rw [if_neg (fun h => h.1 hword)]
      dsimp only
      split_ifs with hback
      · have hj' := (back_at_start hs (by omega)).mp hback
        exact Or.inr ⟨rfl, hj' ▸ hfull'⟩
      · exact ih (j + 1) (by omega) hfull'
    · obtain ⟨h1, h2, h3⟩ := builtinFfs_spec hword
      set bit := builtinFfs (~~~p.bitmap w) - 1 with hbit
      have hdiv : (w * bitmapEntryBits + bit) / bitmapEntryBits = w := by
        unfold bitmapEntryBits; omega
      have hmod : (w * bitmapEntryBits + bit) % bitmapEntryBits = bit := by
        unfold bitmapEntryBits; omega
      rw [if_pos ⟨hword, h1⟩]
      refine Or.inl ⟨w * bitmapEntryBits + bit, _, _, rfl, ?_, ?_, ?_, fun m => ?_, rfl, hlt⟩
      · unfold bitmapEntryBits; omega
      · unfold testBit
        rw [hdiv, hmod]
        exact h3
      · refine Nat.mod_eq_of_lt ?_
        unfold maxPages at hle
        unfold bitmapEntryBits pageSize at *
        omega
      · have := @testBit_setBit p.bitmap (w * bitmapEntryBits + bit) m
        unfold setBit at this
        rwa [hdiv, hmod] at this

end Scan

theorem Pmm.Ok.alloc {p : Pmm} (h : p.Ok) :
    (∃ n, Takes p n (pmmAllocPage p).1 (pmmAllocPage p).2) ∨
      (pmmAllocPage p = (0, p) ∧ ∀ n < p.usableEndWords * bitmapEntryBits,
        testBit n p.bitmap = true) := by
  have hpos := h.pos
  unfold pmmAllocPage
  rw [if_neg (by omega)]
  have hspec := pmmScan_spec h.cursor h.le p.usableEndWords 0 (Nat.zero_add _)
    fun t ht => absurd ht (Nat.not_lt_zero t)
  rw [Nat.add_zero, Nat.mod_eq_of_lt h.cursor] at hspec
  rcases hspec with ⟨n, addr, p', heq, ht⟩ | ⟨heq, hfull⟩
  · rw [heq]
    exact Or.inl ⟨n, ht⟩
  · refine Or.inr ⟨heq, fun n hn => testBit_all ?_⟩
    have hw : n / bitmapEntryBits < p.usableEndWords := Nat.div_lt_of_lt_mul (by rwa [mul_comm])
    generalize n / bitmapEntryBits = w at hw ⊢
    -- the word is met after `w - start` rounds, counted around the end
    have hround := hfull ((w + p.usableEndWords - p.lastAlloc) % p.usableEndWords)
      (Nat.mod_lt _ hpos)
    have hcur := h.cursor
    rwa [Nat.add_mod_mod, show p.lastAlloc + (w + p.usableEndWords - p.lastAlloc) =
      w + p.usableEndWords by omega, Nat.add_mod_right, Nat.mod_eq_of_lt hw] at hround

section

variable {p p' : Pmm} {n addr : ℕ} (h : p.Ok) (ht : Takes p n addr p')

include h ht

theorem Takes.ok : p'.Ok where
  pos := by rw [ht.words]; exact h.pos
  le := by rw [ht.words]; exact h.le
  cursor := by rw [ht.words]; exact ht.cursor
  zero := by rw [ht.bits, h.zero, Bool.or_true]

theorem Takes.ne_zero : addr ≠ 0 := by
  intro h0
  have hn : n = 0 := by
    have := ht.addr
    unfold pageSize at this
    omega
  have := ht.clear
  rw [hn, h.zero] at this
  cases this

/-- Where there is a frame to take, `pmm_alloc_page` takes one. -/
theorem Pmm.Ok.alloc_ne_zero :
    (pmmAllocPage p).1 ≠ 0 := by
  obtain ⟨m, hm⟩ | ⟨-, hfull⟩ := h.alloc
  · exact hm.ne_zero h
  · cases (hfull n ht.lt).symm.trans ht.clear

end

/-! ## Free frames -/

/-- The number of frames that can still be allocated. -/
def Pmm.free (p : Pmm) : ℕ :=
  ((Finset.range (p.usableEndWords * bitmapEntryBits)).filter fun n =>
    testBit n p.bitmap = false).card

theorem Takes.free {p p' : Pmm} {n addr : ℕ} (h : Takes p n addr p') : p'.free + 1 = p.free := by
  have hmem : n ∈ (Finset.range (p.usableEndWords * bitmapEntryBits)).filter fun n =>
      testBit n p.bitmap = false := by
    rw [Finset.mem_filter, Finset.mem_range]
    exact ⟨h.lt, h.clear⟩
  have herase : (Finset.range (p'.usableEndWords * bitmapEntryBits)).filter (fun n =>
      testBit n p'.bitmap = false) = ((Finset.range (p.usableEndWords * bitmapEntryBits)).filter
        fun n => testBit n p.bitmap = false).erase n := by
    ext m
    simp only [Finset.mem_filter, Finset.mem_erase, h.words, h.bits, Bool.or_eq_false_iff,
      decide_eq_false_iff_not]
    tauto
  unfold Pmm.free
  rw [herase]
  exact Finset.card_erase_add_one hmem

theorem Pmm.Ok.takes {p : Pmm} (h : p.Ok) (hf : 0 < p.free) :
    ∃ n, Takes p n (pmmAllocPage p).1 (pmmAllocPage p).2 := by
  rcases h.alloc with ht | ⟨-, hfull⟩
  · exact ht
  · obtain ⟨n, hn⟩ := Finset.card_pos.mp hf
    rw [Finset.mem_filter, Finset.mem_range] at hn
    rw [hfull n hn.1] at hn
    exact absurd hn.2 (by simp)

theorem Pmm.Ok.free_eq_zero {p : Pmm} (h : p.Ok) (hnone : (pmmAllocPage p).1 = 0) : p.free = 0 := by
  by_contra hf
  obtain ⟨n, ht⟩ := h.takes (Nat.pos_of_ne_zero hf)
  exact ht.ne_zero h hnone

theorem Pmm.Ok.free_succ {p : Pmm} (h : p.Ok) (hpage : (pmmAllocPage p).1 ≠ 0) :
    (pmmAllocPage p).2.Ok ∧ (pmmAllocPage p).2.free + 1 = p.free := by
  rcases h.alloc with ⟨n, ht⟩ | ⟨hfull, -⟩
  · exact ⟨ht.ok h, ht.free⟩
  · exact absurd (congrArg Prod.fst hfull) hpage

theorem Pmm.Ok.alloc_none {p : Pmm} (h : p.Ok) (hnone : (pmmAllocPage p).1 = 0) :
    (pmmAllocPage p).2 = p := by
  rcases h.alloc with ⟨n, ht⟩ | ⟨hfull, -⟩
  · exact absurd hnone (ht.ne_zero h)
  · exact congrArg Prod.snd hfull

/-! ## Histories -/

/-- The allocator and the addresses that have been handed out and not freed. -/
structure PmmClient where
  pmm : Pmm
  held : List ℕ

/-- A call of `pmm_alloc_page`, or of `pmm_free_page` with a held page. -/
inductive PmmStep : PmmClient → PmmClient → Prop
  | alloc (s : PmmClient) : PmmStep s ⟨(pmmAllocPage s.pmm).2,
      if (pmmAllocPage s.pmm).1 = 0 then s.held else (pmmAllocPage s.pmm).1 :: s.held⟩
  | free (s : PmmClient) (addr : ℕ) : addr ∈ s.held →
      PmmStep s ⟨pmmFreePage s.pmm addr, s.held.erase addr⟩

/-- From the allocator `p₀` on: the set bits are those of `p₀` and those of the held pages, which
are different pages that were free in `p₀`. -/
structure PmmHolds (p₀ : Pmm) (s : PmmClient) : Prop where
  zero : testBit 0 p₀.bitmap = true
  ok : s.pmm.Ok
  words : s.pmm.usableEndWords = p₀.usableEndWords
  nodup : s.held.Nodup
  pages : ∀ a ∈ s.held, ∃ n, a = n * pageSize ∧ testBit n p₀.bitmap = false
  bits : ∀ n, testBit n s.pmm.bitmap = (testBit n p₀.bitmap || decide (n * pageSize ∈ s.held))

namespace PmmHolds

variable {p₀ : Pmm} {s : PmmClient}

theorem page_inj {n m : ℕ} (h : n * pageSize = m * pageSize) : n = m :=
  Nat.eq_of_mul_eq_mul_right (by decide) h

theorem fresh (h : PmmHolds p₀ s) {n addr : ℕ} {p' : Pmm} (ht : Takes s.pmm n addr p') :
    testBit n p₀.bitmap = false ∧ addr ∉ s.held := by
  have := ht.clear
  rw [h.bits, Bool.or_eq_false_iff, decide_eq_false_iff_not] at this
  exact ⟨this.1, ht.addr ▸ this.2⟩

theorem alloc (h : PmmHolds p₀ s) {n addr : ℕ} {p' : Pmm} (ht : Takes s.pmm n addr p') :
    PmmHolds p₀ ⟨p', addr :: s.held⟩ := by
  obtain ⟨h1, h2⟩ := h.fresh ht
  refine ⟨h.zero, ht.ok h.ok, ht.words.trans h.words, nodup_cons.mpr ⟨h2, h.nodup⟩, ?_, fun m => ?_⟩
  · intro a ha
    rcases mem_cons.mp ha with rfl | ha
    · exact ⟨n, ht.addr, h1⟩
    · exact h.pages a ha
  · rw [ht.bits, h.bits, ht.addr]
    have hiff : m * pageSize ∈ n * pageSize :: s.held ↔ m = n ∨ m * pageSize ∈ s.held := by
      rw [mem_cons]
      exact or_congr_left ⟨page_inj, fun h => by rw [h]⟩
    rw [decide_eq_decide.mpr hiff, Bool.decide_or, Bool.or_left_comm]

theorem free (h : PmmHolds p₀ s) {addr : ℕ} (ha : addr ∈ s.held) :
    PmmHolds p₀ ⟨pmmFreePage s.pmm addr, s.held.erase addr⟩ := by
  obtain ⟨n, rfl, hn⟩ := h.pages addr ha
  have hdiv : n * pageSize / pageSize = n := Nat.mul_div_cancel _ (by decide)
  have hbits : ∀ m, testBit m (pmmFreePage s.pmm (n * pageSize)).bitmap =
      (!decide (m = n) && testBit m s.pmm.bitmap) := by
    intro m
    unfold pmmFreePage
    rw [hdiv]
    exact testBit_clearBit
  have h0 : n ≠ 0 := by
    rintro rfl
    rw [h.zero] at hn
    cases hn
  refine ⟨h.zero, ⟨h.ok.pos, h.ok.le, h.ok.cursor, ?_⟩, h.words, h.nodup.erase _, fun a ha => ?_,
    fun m => ?_⟩
  · rw [hbits, h.ok.zero, Bool.and_true]
    simpa using Ne.symm h0
  · exact h.pages a (mem_of_mem_erase ha)
  · have hiff : m * pageSize ∈ s.held.erase (n * pageSize) ↔ m ≠ n ∧ m * pageSize ∈ s.held := by
      rw [h.nodup.mem_erase_iff]
      exact and_congr_left fun _ => not_congr ⟨page_inj, fun h => by rw [h]⟩
    rw [hbits, h.bits]
    by_cases hmn : m = n
    · subst hmn
      simp [hiff, hn]
    · simp [hiff, hmn]

theorem initial {p : Pmm} (h : p.Ok) : PmmHolds p ⟨p, []⟩ :=
  ⟨h.zero, h, rfl, nodup_nil, fun a ha => absurd ha not_mem_nil, fun n => by simp⟩

theorem step (h : PmmHolds p₀ s) {s' : PmmClient} (hs : PmmStep s s') : PmmHolds p₀ s' := by
  cases hs with
  | alloc =>
    rcases h.ok.alloc with ⟨n, ht⟩ | ⟨heq, -⟩
    · rw [if_neg (ht.ne_zero h.ok)]
      exact h.alloc ht
    · rw [heq, if_pos rfl]
      exact h
  | free addr ha => exact h.free ha

end PmmHolds

/-- **The page allocator.** In every state reached from `p₀` by allocations and by frees of held
pages, the set bits are those of `p₀` and those of the held pages, which are different pages and
were free in `p₀`. The next allocation ends after at most `usable_end_words` rounds. It returns the
address of a page whose bit was clear, which it sets and no other, which is not held and was free
in `p₀`; or it returns `0`, exactly if all bits of the words `0 .. usable_end_words - 1` are set. A
free clears the bit of its page and no other. -/
theorem pmm_hands_out_free_pages {p₀ : Pmm} (h : p₀.Ok) {s : PmmClient}
    (hr : Relation.ReflTransGen PmmStep ⟨p₀, []⟩ s) :
    (s.held.Nodup ∧ (∀ a ∈ s.held, ∃ n, a = n * pageSize ∧ testBit n p₀.bitmap = false) ∧
      ∀ n, testBit n s.pmm.bitmap = (testBit n p₀.bitmap || decide (n * pageSize ∈ s.held))) ∧
    (∀ fuel, s.pmm.usableEndWords ≤ fuel →
      pmmScan s.pmm s.pmm.lastAlloc fuel s.pmm.lastAlloc = pmmAllocPage s.pmm) ∧
    ((pmmAllocPage s.pmm).1 ≠ 0 → ∃ n < maxPages, (pmmAllocPage s.pmm).1 = n * pageSize ∧
      testBit n s.pmm.bitmap = false ∧ testBit n (pmmAllocPage s.pmm).2.bitmap = true ∧
      (∀ m ≠ n, testBit m (pmmAllocPage s.pmm).2.bitmap = testBit m s.pmm.bitmap) ∧
      (pmmAllocPage s.pmm).1 ∉ s.held ∧ testBit n p₀.bitmap = false) ∧
    ((pmmAllocPage s.pmm).1 = 0 ↔
      ∀ n < p₀.usableEndWords * bitmapEntryBits, testBit n s.pmm.bitmap = true) ∧
    ((pmmAllocPage s.pmm).1 = 0 → (pmmAllocPage s.pmm).2 = s.pmm) ∧
    ∀ n, n * pageSize ∈ s.held → ∀ m, testBit m (pmmFreePage s.pmm (n * pageSize)).bitmap =
      (!decide (m = n) && testBit m s.pmm.bitmap) := by
  have hinv : PmmHolds p₀ s := by
    induction hr with
    | refl => exact .initial h
    | tail _ hs ih => exact ih.step hs
  refine ⟨⟨hinv.nodup, hinv.pages, hinv.bits⟩, fun fuel hf => ?_, fun h0 => ?_, ?_, fun h0 => ?_,
    fun n hn m => ?_⟩
  · have hpos := hinv.ok.pos
    obtain ⟨k, hk⟩ : ∃ k, s.pmm.usableEndWords = k + 1 := ⟨s.pmm.usableEndWords - 1, by omega⟩
    obtain ⟨extra, rfl⟩ := Nat.exists_eq_add_of_le hf
    have := pmmScan_fuel hinv.ok.cursor extra k 0 (by omega)
    rw [show s.pmm.lastAlloc + 0 = s.pmm.lastAlloc from rfl,
      Nat.mod_eq_of_lt hinv.ok.cursor, ← hk] at this
    unfold pmmAllocPage
    rw [if_neg (by omega)]
    exact this
  · rcases hinv.ok.alloc with ⟨n, ht⟩ | ⟨heq, -⟩
    · obtain ⟨h1, h2⟩ := hinv.fresh ht
      refine ⟨n, ?_, ht.addr, ht.clear, ?_, fun m hm => ?_, h2, h1⟩
      · have hlt := ht.lt
        have hle := hinv.ok.le
        unfold maxPages bitmapEntryBits at *
        omega
      · rw [ht.bits, decide_eq_true rfl, Bool.true_or]
      · rw [ht.bits, decide_eq_false hm, Bool.false_or]
    · rw [heq] at h0
      exact absurd rfl h0
  · rw [← hinv.words]
    rcases hinv.ok.alloc with ⟨n, ht⟩ | ⟨heq, hfull⟩
    · refine iff_of_false (ht.ne_zero hinv.ok) fun hall => ?_
      have := ht.clear
      rw [hall n ht.lt] at this
      cases this
    · exact iff_of_true (by rw [heq]) hfull
  · rcases hinv.ok.alloc with ⟨n, ht⟩ | ⟨heq, -⟩
    · exact absurd h0 (ht.ne_zero hinv.ok)
    · rw [heq]
  · unfold pmmFreePage
    rw [Nat.mul_div_cancel _ (by decide)]
    exact testBit_clearBit

/-- Two words of which only page 33 is free: it is handed out, and then nothing is. -/
def onePage : Pmm where
  bitmap := clearBit 33 fun _ => bitmapAllBitsSet
  usableEndWords := 2
  lastAlloc := 0

theorem onePage_ok : onePage.Ok := ⟨by decide, by decide, by decide, by decide⟩

theorem pmm_hands_out_free_pages_one :
    (pmmAllocPage onePage).1 = 33 * pageSize ∧
      (pmmAllocPage (pmmAllocPage onePage).2).1 = 0 := by
  have h := pmm_hands_out_free_pages onePage_ok (.tail .refl (.alloc ⟨onePage, []⟩))
  exact ⟨by decide, h.2.2.2.1.mpr (by decide)⟩

end DvivonOS
