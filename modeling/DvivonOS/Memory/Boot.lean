import DvivonOS.Memory.E820
import DvivonOS.Memory.PmmInit

/-!
# From the BIOS to the pages

The pages that `pmm_alloc_page` hands out are those of the entries that the BIOS has reported as
available.
-/

namespace DvivonOS

open E820

/-- The entries do not wrap, and the available ones end in a page at or below 4 GiB. -/
structure Bounded (mmap : List MmapEntry) : Prop where
  sum_lt : ∀ e ∈ mmap, e.addr + e.len < 2 ^ 64
  rounds : ∀ e ∈ mmap, e.RoundsUp
  pos : 0 < topPage mmap
  le : topPage mmap ≤ maxPages

section Boot

variable {kernelEnd n : ℕ} {mmap : List MmapEntry}

theorem lt_topPage (h : Available mmap n) : n < topPage mmap := by
  obtain ⟨e, he, ht, -, hn⟩ := h
  rw [← Nat.le_div_iff_mul_le (by decide)] at hn
  induction mmap with
  | nil => cases he
  | cons e' es ih =>
    unfold topPage
    obtain rfl | he := List.mem_cons.mp he
    · rw [if_pos ht]
      exact lt_max_of_lt_left hn
    · split_ifs
      · exact lt_max_of_lt_right (ih he)
      · exact ih he

variable (h : Bounded mmap) (hk : kernelHigherHalf ≤ kernelEnd) (hk' : kernelEnd < 2 ^ 32)
  (memory : PageBitmap)

include h

theorem Bounded.words : (pmmInit kernelPhys kernelEnd mmap memory).usableEndWords =
    (topPage mmap + 31) / bitmapEntryBits := by
  have hle := h.le
  rw [pmmInit_words h.sum_lt]
  unfold maxPages bitmapEntryBits at *
  omega

include hk hk'

theorem Bounded.clear_iff (hn : n < maxPages) :
    testBit n (pmmInit kernelPhys kernelEnd mmap memory).bitmap = false ↔
      Available mmap n ∧ Unreserved kernelEnd n := by
  rw [pmmInit_clear_iff memory hk hk' hn]
  refine and_congr_left fun _ => ⟨?_, ?_⟩
  · rintro ⟨e, he, hc⟩
    exact ⟨e, he, hc.1, MmapEntry.contains_of_clears (h.sum_lt e he) (h.rounds e he) hc⟩
  · rintro ⟨e, he, ht, hc⟩
    exact ⟨e, he, MmapEntry.clears_of_contains ht (h.sum_lt e he) hc⟩

theorem Bounded.pmmInit_ok : (pmmInit kernelPhys kernelEnd mmap memory).Ok := by
  have hpos := h.pos
  have hle := h.le
  have hwords : 0 < (pmmInit kernelPhys kernelEnd mmap memory).usableEndWords := by
    rw [h.words]
    exact Nat.div_pos (by unfold bitmapEntryBits; omega) (by decide)
  refine ⟨hwords, ?_, hwords, ?_⟩
  · rw [h.words]
    unfold maxPages bitmapEntryBits at *
    omega
  · by_contra hzero
    obtain ⟨-, hlow, -⟩ := (h.clear_iff hk hk' memory (by decide)).mp
      (Bool.eq_false_of_not_eq_true hzero)
    exact absurd hlow (by decide)

end Boot

theorem PmmStep.low {p₀ : Pmm} {s s' : PmmClient} (h : PmmHolds p₀ s) (hs : PmmStep s s')
    (hlow : ∀ a ∈ s.held, a < maxPages * pageSize) : ∀ a ∈ s'.held, a < maxPages * pageSize := by
  cases hs with
  | alloc =>
    dsimp only
    obtain ⟨n, ht⟩ | ⟨heq, -⟩ := h.ok.alloc
    · rw [if_neg (ht.ne_zero h.ok), ht.addr]
      refine List.forall_mem_cons.mpr ⟨pages_lt_iff.mpr (ht.lt.trans_le ?_), hlow⟩
      exact Nat.mul_le_mul_right _ h.ok.le
    · rwa [heq, if_pos rfl]
  | free addr => exact fun a ha => hlow a (List.mem_of_mem_erase ha)

/-- **The pages of a machine.** After a boot with at most 168 entries and a zero in `%ebx` at their
end, the pages that are held are different pages of available entries, outside the kernel; and
`pmm_alloc_page` returns `0` exactly when all such pages are held. -/
theorem booted_pages {info copy kernelEnd : ℕ} {answers : List Answer} {ds : List Bytes}
    (hp : Placed info copy) (hds : Reports .ebx answers ds) (hn : ds.length ≤ 168)
    (h : Bounded (ds.map fun d => entryAt d 0)) (hk : kernelHigherHalf ≤ kernelEnd)
    (hk' : kernelEnd < 2 ^ 32) (mem kmem : Bytes) (memory : PageBitmap) :
    ∃ fuel mmap, visited info copy answers mem kmem fuel = some mmap ∧ ∀ s : PmmClient,
      Relation.ReflTransGen PmmStep ⟨pmmInit kernelPhys kernelEnd mmap memory, []⟩ s →
      s.held.Nodup ∧ (∀ a ∈ s.held, ∃ n, a = n * pageSize ∧
        Available (ds.map fun d => entryAt d 0) n ∧ Unreserved kernelEnd n) ∧
      ((pmmAllocPage s.pmm).1 = 0 ↔ ∀ n, Available (ds.map fun d => entryAt d 0) n →
        Unreserved kernelEnd n → n * pageSize ∈ s.held) := by
  obtain ⟨-, fuel, hvisited⟩ := hp.right hds hn mem kmem
  refine ⟨fuel, _, hvisited, fun s hs => ?_⟩
  obtain ⟨hinv, hlow⟩ : PmmHolds (pmmInit kernelPhys kernelEnd _ memory) s ∧
      ∀ a ∈ s.held, a < maxPages * pageSize := by
    induction hs with
    | refl => exact ⟨.initial (h.pmmInit_ok hk hk' memory), by simp⟩
    | tail _ hstep ih => exact ⟨ih.1.step hstep, hstep.low ih.1 ih.2⟩
  refine ⟨hinv.nodup, fun a ha => ?_, ?_⟩
  · obtain ⟨n, rfl, hn⟩ := hinv.pages a ha
    exact ⟨n, rfl, (h.clear_iff hk hk' memory (pages_lt_iff.mp (hlow _ ha))).mp hn⟩
  · have hwords := hinv.words.trans (h.words memory)
    obtain ⟨n, ht⟩ | ⟨heq, hfull⟩ := hinv.ok.alloc
    · obtain ⟨hfree, hnew⟩ := hinv.fresh ht
      refine iff_of_false (ht.ne_zero hinv.ok) fun hall => ?_
      have hlt : n < maxPages := ht.lt.trans_le (Nat.mul_le_mul_right _ hinv.ok.le)
      obtain ⟨ha, hu⟩ := (h.clear_iff hk hk' memory hlt).mp hfree
      exact hnew (ht.addr ▸ hall n ha hu)
    · refine iff_of_true (by rw [heq]) fun n ha hu => ?_
      have hlt := lt_topPage ha
      have hbit := hfull n (by rw [hwords]; unfold bitmapEntryBits; omega)
      rw [hinv.bits, (h.clear_iff hk hk' memory (hlt.trans_le h.le)).mpr ⟨ha, hu⟩] at hbit
      simpa using hbit

def wholeEntry : Bytes := (Bytes.zero.put32 8 0x8000000).put32 16 1

theorem booted_pages_whole :
    ∃ fuel mmap, visited 0x9000 0xC0100000 [⟨false, smap, 0, wholeEntry⟩] Bytes.zero Bytes.zero
      fuel = some mmap ∧ ∀ s : PmmClient,
        Relation.ReflTransGen PmmStep ⟨pmmInit kernelPhys 0xC0600000 mmap fun _ => 0, []⟩ s →
        s.held.Nodup := by
  obtain ⟨fuel, mmap, hvisited, hpages⟩ := @booted_pages 0x9000 0xC0100000 0xC0600000 _ _
    ⟨by decide, by decide⟩ (.last wholeEntry) (by simp) ⟨by decide, by decide, by decide, by decide⟩
    (by decide) (by decide) Bytes.zero Bytes.zero fun _ => 0
  exact ⟨fuel, mmap, hvisited, fun s hs => (hpages s hs).1⟩

end DvivonOS
