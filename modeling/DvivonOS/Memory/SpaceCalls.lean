import DvivonOS.Memory.Isolation

/-!
# The functions of `vmm.c` on address spaces

Each function keeps `Spaces`. The same proofs serve a processor without a translation cache and one
with a cache (`b`), of which `Known` says what it may still hold: of user pages anything at all,
since these are invalidated before they are used, and of the pages of the kernel half anything or
nothing out of date, since the entry of such a page is only set where the page is invalidated next.
-/

namespace DvivonOS.Windows

open Function Paging

/-! ## The cache -/

/-- What the cache may hold: the windows on page tables are as the tables say, the scratch window and
the pages of the user half may be out of date. -/
structure Known (b : Bool) (A : Stale) : Prop where
  wide : b = true → ∀ p, p / 1024 ≠ 1023 ∨ p = windowPage 1022 →
    A p = Set.univ ∨ KernelSlot (p / 1024)
  narrow : b = true → ∀ k < 1022, A (windowPage k) = ∅

/-- Frame `f` is no page table of the kernel half. -/
def OffKernel {σ : Type} (c : View σ) (f : ℕ) : Prop :=
  ∀ k, KernelSlot k → frameOf (entry c.mem c.cr3 k) ≠ f

section Known

variable {σ : Type} {b : Bool} {A : Stale} {c c' : View σ} {mem' : Bytes} {f k p : ℕ}

theorem OffKernel.congr (h : OffKernel c f)
    (hsame : ∀ k, KernelSlot k → entry mem' c.cr3 k = entry c.mem c.cr3 k) :
    OffKernel { c with mem := mem' } f := by
  intro k hk
  rw [hsame k hk]
  exact h k hk

/-- Writes to a frame that is no page table of the kernel half keep the walks there. -/
theorem OffKernel.lookup (h : OffKernel c f) (hm : OnlyIn f c.mem mem')
    (hsame : ∀ k < 1024, k ≠ 1022 → IsPresent (entry c.mem c.cr3 k) →
      entry mem' c.cr3 k = entry c.mem c.cr3 k) (hp : KernelSlot (p / 1024)) {t : Translation}
    (hl : lookup c.mem c.cr3 p = some t) : lookup mem' c.cr3 p = some t := by
  have hslot := hp
  unfold KernelSlot at hslot
  have hpde : IsPresent (entry c.mem c.cr3 (p / 1024)) := by
    by_contra hpde
    simp [Paging.lookup, hpde] at hl
  rw [← hl]
  refine lookup_congr_entries (hsame _ (by omega) (by omega) hpde) fun t ht => ?_
  exact hm.entry (aligned_of_named ht) ((named_eq_some ht).2 ▸ h _ hp) (Nat.mod_lt _ (by norm_num))

theorem Known.settled (h : Known b A) (hk : k < 1022) : Settled b A c (windowPage k) := by
  intro hb t ht
  rw [h.narrow hb k hk] at ht
  cases ht

/-- The windows of present slots stay as they are. -/
theorem Known.step (h : Known b A) (hb : b = true) (hself : SelfMapped c.mem c.cr3)
    (hsame : ∀ k < 1024, k ≠ 1022 → IsPresent (entry c.mem c.cr3 k) →
      entry mem' c.cr3 k = entry c.mem c.cr3 k) {t : Translation}
    (hkernel : KernelSlot (p / 1024) → lookup c.mem c.cr3 p = some t → lookup mem' c.cr3 p = some t)
    (hpt : lookup c.mem c.cr3 p = some t ∨ t ∈ A p) : lookup mem' c.cr3 p = some t ∨ t ∈ A p := by
  by_cases hslot : KernelSlot (p / 1024)
  · exact hpt.imp_left (hkernel hslot)
  by_cases hout : p / 1024 ≠ 1023 ∨ p = windowPage 1022
  · exact .inr ((h.wide hb p hout).resolve_right hslot ▸ Set.mem_univ t)
  · rw [not_or, not_not] at hout
    obtain ⟨hlast, hne⟩ := hout
    refine hpt.imp_left fun hl => ?_
    have hpk : p = 1023 * 1024 + p % 1024 := by omega
    have hk : p % 1024 ≠ 1022 := fun he => hne (by rw [hpk, he]; rfl)
    have hself' := hsame 1023 (by norm_num) (by norm_num) hself.1
    have hp : IsPresent (entry c.mem c.cr3 (p % 1024)) := by
      by_contra hp
      simp [lookup, hlast, hself.2, hp] at hl
    rw [← hl]
    exact lookup_congr_last hself hlast hself' (hsame _ (Nat.mod_lt _ (by norm_num)) hk hp)

/-- A write to a frame that is no page table of the kernel half. -/
theorem Known.steps (h : Known b A) (hself : SelfMapped c.mem c.cr3) (hm : OnlyIn f c.mem mem')
    (hoff : b = true → OffKernel c f)
    (hsame : ∀ k < 1024, k ≠ 1022 → IsPresent (entry c.mem c.cr3 k) →
      entry mem' c.cr3 k = entry c.mem c.cr3 k) : Steps b A c A { c with mem := mem' } :=
  fun hb _ _ hpt => h.step hb hself hsame (fun hk => (hoff hb).lookup hm hsame hk) hpt

theorem steps_update (h : Steps b A c A c')
    (hp : ∀ t, lookup c.mem c.cr3 p = some t → lookup c'.mem c'.cr3 p = some t) :
    Steps b (update A p ∅) c (update A p ∅) c' := by
  intro hb q t hqt
  by_cases hq : q = p
  · subst hq
    rw [update_self] at hqt ⊢
    exact hqt.imp_left (hp t)
  · rw [update_of_ne hq] at hqt ⊢
    exact h hb q t hqt

theorem steps_forget : Steps b (update A p ∅) c A c := by
  intro _ q t hqt
  by_cases hq : q = p
  · subst hq
    rw [update_self] at hqt
    exact hqt.imp_right fun h => h.elim
  · rwa [update_of_ne hq] at hqt

theorem settled_update : Settled b (update A p ∅) c p := by
  intro _ t ht
  rw [update_self] at ht
  exact ht.elim

theorem settled_update_of_ne {q : ℕ} (hq : q ≠ p) (h : Settled b A c q) :
    Settled b (update A p ∅) c q := by
  intro hb t ht
  rw [update_of_ne hq] at ht
  exact h hb t ht

end Known

/-! ## Allocation and `memset` -/

section Calls

variable {K : Kernel} {dirs : List ℕ} {b : Bool} {A : Stale} {c : View Pmm}
  {F : View Pmm → Prop}

theorem spec_allocPage (hok : c.rest.Ok) :
    Spec b A c allocPage A (fun f c' =>
      ((pmmAllocPage c.rest).1 = 0 ∧ f = 0 ∧ c' = c) ∨
        f ≠ 0 ∧ (∃ n, Takes c.rest n f (pmmAllocPage c.rest).2) ∧
          c' = { c with rest := (pmmAllocPage c.rest).2 }) F := by
  refine spec_onRest pmmAllocPage ?_
  obtain ⟨n, ht⟩ | ⟨he, -⟩ := hok.alloc
  · exact .inr ⟨ht.ne_zero hok, ⟨n, ht⟩, rfl⟩
  · rw [he]
    exact .inl ⟨rfl, rfl, rfl⟩

theorem fill_succ (mem : Bytes) (a n : ℕ) (x : UInt8) :
    mem.fill a x (n + 1) = (mem.fill a x n).put8 (a + n) x := by
  funext i
  unfold Bytes.fill Bytes.put8
  by_cases hi : i = a + n
  · rw [if_pos hi, if_pos (by omega)]
  · rw [if_neg hi]
    exact if_congr (by omega) rfl rfl

/-- `memset` of a whole page that is mapped to `f`, as long as writes to `f` keep the walk. -/
theorem spec_memset_frame {v f : ℕ} (hv : v % 4096 = 0) (hv' : v + 4096 ≤ 2 ^ 32) (hf : Aligned f)
    (hwalk : ∀ mem', OnlyIn f c.mem mem' → Settled b A { c with mem := mem' } (v / 4096) ∧
      SelfMapped mem' c.cr3 ∧ ∃ g, lookup mem' c.cr3 (v / 4096) = some ⟨f, g⟩)
    (hst : ∀ mem' mem'', OnlyIn f c.mem mem' → OnlyIn f mem' mem'' →
      Steps b A { c with mem := mem' } A { c with mem := mem'' }) :
    Spec b A c (memset v 0 pageSize) A
      (fun _ c' => c' = { c with mem := c.mem.fill f 0 4096 }) F := by
  refine spec_repeatTo (fun n c' => c' = { c with mem := c.mem.fill f 0 n }) ?_ ?_
  · have h₀ : c.mem.fill f 0 0 = c.mem := by
      funext i
      exact if_neg (by omega)
    rw [h₀]
  · rintro n hn _ rfl
    have hn' : n < 4096 := hn
    have hadd : add32 v n = v + n := by
      unfold add32
      omega
    have hpage : (v + n) / 4096 = v / 4096 := by omega
    have hoff : (v + n) % 4096 = n := by omega
    have honly : OnlyIn f c.mem (c.mem.fill f 0 n) := onlyIn_fill hf 0 hn'.le
    obtain ⟨hset, hself, g, hg⟩ := hwalk _ honly
    rw [hadd]
    refine spec_store8 (hpage ▸ hset) (fun _ => hself) (fun hnone => ?_) 0 fun t ht => ?_
    · rw [hpage, hg] at hnone
      cases hnone
    · rw [hpage, hg] at ht
      cases ht
      rw [hoff, fill_succ]
      refine ⟨hst _ _ honly ?_, rfl⟩
      nth_rw 1 [← frameOf_add hf hn']
      exact onlyIn_put8 0

section Memset

variable {t k : ℕ} (hA : Known b A) (hself : SelfMapped c.mem c.cr3)
  (ht : named c.mem c.cr3 k = some t)

include hA hself ht

/-- The table of slot `k` is cleared through its window. -/
theorem spec_memset_window (hk : k < 1022) (hne : t ≠ c.cr3) (hoff : b = true → OffKernel c t) :
    Spec b A c (memset (ptsWindow + k * pageSize) 0 pageSize) A
      (fun _ c' => c' = { c with mem := c.mem.fill t 0 4096 }) F := by
  obtain ⟨hp, hte⟩ := named_eq_some ht
  have hcr3 := hself.aligned
  have hwin : ptsWindow + k * pageSize = 4096 * windowPage k := by
    unfold ptsWindow pageSize windowPage
    omega
  have hlt : windowPage k < 2 ^ 20 := by
    unfold windowPage
    omega
  have hpage : 4096 * windowPage k / 4096 = windowPage k := by omega
  have hsame {mem' : Bytes} (hm : OnlyIn t c.mem mem') {j : ℕ} (hj : j < 1024) :
      entry mem' c.cr3 j = entry c.mem c.cr3 j := hm.entry hcr3 hne.symm hj
  have hself' {mem' : Bytes} (hm : OnlyIn t c.mem mem') : SelfMapped mem' c.cr3 :=
    hself.congr (hsame hm (by norm_num))
  rw [hwin]
  refine spec_memset_frame (by omega) (by omega) (aligned_of_named ht)
    (fun mem' hm => ⟨?_, hself' hm, isGlobal (entry c.mem c.cr3 k), ?_⟩) fun mem' mem'' hm hm' => ?_
  · rw [hpage]
    exact hA.settled hk
  · have he := hsame hm (show k < 1024 by omega)
    rw [hpage, windowPage, lookup_last_block (hself' hm) (by omega) (he ▸ hp), he, hte]
  · refine hA.steps (hself' hm) hm' (fun hb => (hoff hb).congr fun j hj =>
      hsame hm hj.lt) fun j hj _ _ => ?_
    exact (hsame (hm.trans hm') hj).trans (hsame hm hj).symm

/-- A page of the table of slot `k`, which has just been invalidated, is cleared. -/
theorem spec_memset_page {v f : ℕ} (hk : k = v / 2 ^ 22) (hv : v % 4096 = 0) (hv' : v < 0xFF800000)
    (hf : named c.mem t (v / 4096 % 1024) = some f) (hne : f ≠ c.cr3) (hft : f ≠ t)
    (hoff : b = true → OffKernel c f) :
    Spec b (update A (v / 4096) ∅) c (memset v 0 pageSize) (update A (v / 4096) ∅)
      (fun _ c' => c' = { c with mem := c.mem.fill f 0 4096 }) F := by
  subst hk
  have hdiv : v / 4096 / 1024 = v / 2 ^ 22 := by omega
  have hmod : v / 4096 % 1024 < 1024 := Nat.mod_lt _ (by norm_num)
  obtain ⟨hp, hte⟩ := named_eq_some ht
  obtain ⟨hfp, hfe⟩ := named_eq_some hf
  have hlook : lookup c.mem c.cr3 (v / 4096) =
      some ⟨f, isGlobal (entry c.mem t (v / 4096 % 1024))⟩ := by
    simp only [lookup, hdiv, ← hte, hfe]
    exact if_pos ⟨hp, hfp⟩
  have hsame {mem' : Bytes} (hm : OnlyIn f c.mem mem') {j : ℕ} (hj : j < 1024) :
      entry mem' c.cr3 j = entry c.mem c.cr3 j := hm.entry hself.aligned hne.symm hj
  have hwalk {mem' : Bytes} (hm : OnlyIn f c.mem mem') :
      lookup mem' c.cr3 (v / 4096) = lookup c.mem c.cr3 (v / 4096) := by
    refine lookup_congr_entries (hsame hm (by omega)) fun t' ht' => ?_
    rw [hdiv, ht] at ht'
    cases ht'
    exact hm.entry (aligned_of_named ht) hft.symm hmod
  have hself' {mem' : Bytes} (hm : OnlyIn f c.mem mem') : SelfMapped mem' c.cr3 :=
    hself.congr (hsame hm (by norm_num))
  refine spec_memset_frame hv (by omega) (aligned_of_named hf)
    (fun mem' hm => ⟨settled_update, hself' hm, _, (hwalk hm).trans hlook⟩)
    fun mem' mem'' hm hm' => steps_update ?_ fun r hr => ?_
  · refine hA.steps (hself' hm) hm' (fun hb => (hoff hb).congr fun j hj =>
      hsame hm hj.lt) fun j hj _ _ => ?_
    exact (hsame (hm.trans hm') hj).trans (hsame hm hj).symm
  · exact (hwalk (hm.trans hm')).trans ((hwalk hm).symm.trans hr)

end Memset

theorem Spaces.isTable_of_named (h : Spaces K dirs c) {d i t : ℕ} (hd : d ∈ dirs) (hi : i < 1022)
    (ht : named c.mem d i = some t) : IsTable K c.mem dirs t := by
  by_cases hu : i < 768
  · exact .inl (.inr ⟨d, i, hd, hu, ht⟩)
  · have hk : KernelSlot i := ⟨by omega, hi⟩
    rw [h.kernel d hd i hk] at ht
    exact .inr ⟨i, hk, (Option.some.inj ht).symm⟩

theorem Spaces.offKernel (h : Spaces K dirs c) {f : ℕ} (hf : ∀ k, KernelSlot k → f ≠ K.table k) :
    OffKernel c f := fun k hk he =>
  hf k hk (he.symm.trans (named_eq_some (h.kernel c.cr3 h.current k hk)).2.symm)

theorem Spaces.lookup_same (h : Spaces K dirs c) {mem' : Bytes} {d p : ℕ} (hd : d ∈ dirs)
    (hp : p / 1024 < 1022) (hs : SameTables (IsTable K c.mem dirs) c.mem mem') :
    lookup mem' d p = lookup c.mem d p :=
  lookup_congr_entries (hs d (.inl (.inl hd)) _ (by omega)) fun t ht =>
    hs t (h.isTable_of_named hd hp ht) _ (Nat.mod_lt _ (by norm_num))

theorem Spaces.lookup_congr (h : Spaces K dirs c) {mem' : Bytes} {p : ℕ} (hp : p / 1024 < 1022)
    (hs : SameTables (IsTable K c.mem dirs) c.mem mem') :
    lookup mem' c.cr3 p = lookup c.mem c.cr3 p := h.lookup_same h.current hp hs

/-- Only the frames of the page of `v` and of the one behind it are written. -/
def OnlyPages (v : ℕ) (c : View Pmm) (mem' : Bytes) : Prop :=
  ∀ a, (∀ i < 4096, ∀ t, lookup c.mem c.cr3 ((v + i) / 4096) = some t → frameOf a ≠ t.frame) →
    mem' a = c.mem a

/-- The first `n` bytes from `v` on are mapped and zero, and no other byte has changed. -/
structure Cleared (v n : ℕ) (c : View Pmm) (mem' : Bytes) : Prop where
  zero : ∀ i < n, ∃ t, lookup c.mem c.cr3 ((v + i) / 4096) = some t ∧
    mem' (t.frame + (v + i) % 4096) = 0
  other : ∀ a, (∀ i < n, ∀ t, lookup c.mem c.cr3 ((v + i) / 4096) = some t →
    a ≠ t.frame + (v + i) % 4096) → mem' a = c.mem a

theorem aligned_of_lookup {mem : Bytes} {d p : ℕ} {t : Translation}
    (ht : lookup mem d p = some t) : Aligned t.frame := by
  simp only [lookup] at ht
  split at ht
  · cases ht
    exact aligned_frameOf _
  · cases ht

theorem Cleared.onlyPages {v : ℕ} {mem' : Bytes} (h : Cleared v 4096 c mem') :
    OnlyPages v c mem' := by
  intro a ha
  refine h.other a fun i hi t ht he => ha i hi t ht ?_
  rw [he]
  exact frameOf_add (aligned_of_lookup ht) (Nat.mod_lt _ (by norm_num))

theorem Cleared.succ {v n : ℕ} {mem' : Bytes} {t : Translation} (h : Cleared v n c mem')
    (ht : lookup c.mem c.cr3 ((v + n) / 4096) = some t) :
    Cleared v (n + 1) c (mem'.put8 (t.frame + (v + n) % 4096) 0) := by
  constructor
  · intro i hi
    rcases Nat.lt_succ_iff_lt_or_eq.mp hi with hi | rfl
    · obtain ⟨t', ht', hz⟩ := h.zero i hi
      refine ⟨t', ht', ?_⟩
      by_cases he : t'.frame + (v + i) % 4096 = t.frame + (v + n) % 4096
      · rw [he]
        exact if_pos rfl
      · rw [Bytes.put8_of_ne _ _ he, hz]
    · exact ⟨t, ht, if_pos rfl⟩
  · intro a ha
    rw [Bytes.put8_of_ne _ _ (ha n (Nat.lt_succ_self n) t ht)]
    exact h.other a fun i hi => ha i (Nat.lt_succ_of_lt hi)

/-- `memset` of a page that maps no tables: it stops at the first byte whose page is not mapped. With
a cache the address has to be aligned: the page has been invalidated, the one behind it has not. -/
theorem spec_memset_data {v : ℕ} (hA : Known b A) (h : Spaces K dirs c)
    (hv : v + 4096 ≤ 0xFF800000) (halign : b = true → v % 4096 = 0)
    (hdata : ∀ i < 4096, ∀ t, lookup c.mem c.cr3 ((v + i) / 4096) = some t →
      ¬IsTable K c.mem dirs t.frame)
    (hF : ∀ mem', SameTables (IsTable K c.mem dirs) c.mem mem' →
      (∃ i < 4096, lookup c.mem c.cr3 ((v + i) / 4096) = none) → F { c with mem := mem' }) :
    Spec b (update A (v / 4096) ∅) c (memset v 0 pageSize)
      (update A (v / 4096) ∅)
      (fun _ c' => ∃ mem', c' = { c with mem := mem' } ∧
        SameTables (IsTable K c.mem dirs) c.mem mem' ∧ Cleared v 4096 c mem') F := by
  refine spec_repeatTo (fun n c' => ∃ mem', c' = { c with mem := mem' } ∧
    SameTables (IsTable K c.mem dirs) c.mem mem' ∧ Cleared v n c mem')
    ⟨c.mem, rfl, fun _ _ _ _ => rfl, fun i hi => absurd hi (Nat.not_lt_zero i), fun _ _ => rfl⟩ ?_
  rintro n hn _ ⟨mem', rfl, hs, hclear⟩
  have hn' : n < 4096 := hn
  have hadd : add32 v n = v + n := by
    unfold add32
    omega
  have hlook {q : ℕ} (hq : q / 1024 < 1022) : lookup mem' c.cr3 q = lookup c.mem c.cr3 q :=
    h.lookup_congr hq hs
  have hself : SelfMapped mem' c.cr3 :=
    (h.self c.cr3 h.current).congr (hs c.cr3 (.inl (.inl h.current)) 1023 (by norm_num))
  have hset : Settled b (update A (v / 4096) ∅) { c with mem := mem' }
      ((v + n) / 4096) := by
    intro hb
    have hal := halign hb
    rw [show (v + n) / 4096 = v / 4096 by omega]
    exact settled_update hb
  rw [hadd]
  refine spec_store8 hset (fun _ => hself) (fun hnone => hF mem' hs ⟨n, hn', ?_⟩) 0 fun t ht => ?_
  · rw [← hlook (by omega)]
    exact hnone
  rw [hlook (by omega)] at ht
  -- the byte is in the frame of the page, which is no table
  have hnot := hdata n hn' t ht
  have hframe : frameOf (t.frame + (v + n) % 4096) = t.frame :=
    frameOf_add (aligned_of_lookup ht) (Nat.mod_lt _ (by norm_num))
  have honly : OnlyIn t.frame mem' (mem'.put8 (t.frame + (v + n) % 4096) 0) := by
    nth_rw 1 [← hframe]
    exact onlyIn_put8 0
  have hs' : SameTables (IsTable K c.mem dirs) mem' (mem'.put8 (t.frame + (v + n) % 4096) 0) := by
    intro t' ht' i hi
    exact honly.entry (h.aligned ht') (fun he => hnot (he ▸ ht')) hi
  have hoff : OffKernel { c with mem := mem' } t.frame :=
    (h.data hs.user).offKernel fun k hk he => hnot (.inr ⟨k, hk, he⟩)
  refine ⟨steps_update (hA.steps hself honly (fun _ => hoff) fun k hk _ _ => ?_) fun t' ht' => ?_, _,
    rfl, hs.trans hs', hclear.succ ht⟩
  · exact hs' c.cr3 (.inl (.inl h.current)) k hk
  · rw [hlook (by omega)] at ht'
    exact (h.lookup_congr (by omega) (hs.trans hs')).trans ht'

theorem spec_invlpg_forget (v : ℕ) : Spec b A c (invlpg v) A (fun _ c' => c' = c) F :=
  (spec_invlpg (Q := fun _ c' => c' = c) v rfl).mono (fun _ _ hc => ⟨steps_forget, hc⟩)
    fun _ hc => hc

/-! ## Page table entries -/

/-- The page is invalidated behind the store; the other pages of the kernel half have to be
translated as before. -/
theorem spec_vmmSetPteAt {v paddr flags t : ℕ} (hA : Known b A) (hself : SelfMapped c.mem c.cr3)
    (hv : v < 0xFF800000) (ht : named c.mem c.cr3 (v / 2 ^ 22) = some t) (hne : t ≠ c.cr3)
    (hflags : flags < 4096)
    (hkernel : b = true → ∀ q, KernelSlot (q / 1024) → q ≠ v / 4096 → ∀ r,
      lookup c.mem c.cr3 q = some r → lookup
        (c.mem.put32 (t + 4 * (v / 4096 % 1024)) (frameOf paddr + flags)) c.cr3 q = some r) :
    Spec b A c (vmmSetPteAt ptsWindow v paddr flags) (update A (v / 4096) ∅)
      (fun _ c' => c' = { c with
        mem := c.mem.put32 (t + 4 * (v / 4096 % 1024)) (frameOf paddr + flags) }) F := by
  obtain ⟨hp, hte⟩ := named_eq_some ht
  have hslot : v / 2 ^ 12 / 1024 = v / 2 ^ 22 := by omega
  have hmod : v / 4096 % 1024 < 1024 := Nat.mod_lt _ (by norm_num)
  have hst : Steps b A c (update A (v / 4096) Set.univ) { c with
      mem := c.mem.put32 (t + 4 * (v / 4096 % 1024)) (frameOf paddr + flags) } := by
    intro hb q r hqr
    by_cases hq : q = v / 4096
    · rw [hq, update_self]
      exact .inr (Set.mem_univ r)
    · rw [update_of_ne hq]
      refine hA.step hb hself (fun k hk _ _ => ?_) (fun hs => hkernel hb q hs hq r) hqr
      exact (onlyIn_put32 (aligned_of_named ht) hmod _).entry hself.aligned hne.symm hk
  unfold vmmSetPteAt
  rw [wordAt_ptsWindow (by omega), hslot, frameOf_or hflags]
  refine (spec_store_window hself (by omega) hmod hp (hA.settled (by omega)) _
    (hte ▸ hst)).bind fun _ c' hc' => ?_
  have hidem : update (update A (v / 4096) Set.univ) (v / 4096) ∅ =
      update A (v / 4096) ∅ := update_idem _ _ _
  rw [if_pos rfl, hc', ← hte, ← hidem]
  exact spec_invlpg v rfl

theorem Spaces.table_not_mem (h : Spaces K dirs c) {d i t : ℕ} (hd : d ∈ dirs) (hi : i < 1022)
    (ht : named c.mem d i = some t) : t ∉ dirs := by
  intro hmem
  by_cases hu : i < 768
  · cases h.unique (.table d i) (.dir t) t ⟨hd, hu, ht⟩ ⟨hmem, rfl⟩
  · have hk : KernelSlot i := ⟨by omega, hi⟩
    rw [h.kernel d hd i hk] at ht
    exact h.apart i hk (.dir t) t ⟨hmem, rfl⟩ (Option.some.inj ht).symm

theorem Spaces.current_apart (h : Spaces K dirs c) (k : ℕ) (hk : KernelSlot k) :
    c.cr3 ≠ K.table k := h.apart k hk (.dir c.cr3) _ ⟨h.current, rfl⟩

/-- The entries of a user page table have no part in the walks of the kernel half. -/
theorem Spaces.setUser_lookup (h : Spaces K dirs c) {d i t j : ℕ}
    (hs : Serves c.mem dirs (.table d i) t) (hj : j < 1024) (e q : ℕ) (hq : KernelSlot (q / 1024))
    {r : Translation} (hl : lookup c.mem c.cr3 q = some r) :
    lookup (c.mem.put32 (t + 4 * j) e) c.cr3 q = some r := by
  have hal := h.serves_aligned hs
  refine (h.offKernel fun k hk => h.apart k hk _ t hs).lookup (onlyIn_put32 hal hj e)
    (fun k hk _ _ => (onlyIn_put32 hal hj e).entry (h.frame _ h.current).1 (fun he => ?_) hk) hq hl
  cases h.unique (.dir t) _ t ⟨he ▸ h.current, rfl⟩ hs

theorem Spaces.table_ne (h : Spaces K dirs c) {i t : ℕ} (hi : i < 1022)
    (ht : named c.mem c.cr3 i = some t) : t ≠ c.cr3 := by
  rintro rfl
  exact h.table_not_mem h.current hi ht h.current

/-! ## User pages -/

theorem Spaces.user_page (h : Spaces K dirs c) {p : ℕ} {t : Translation} (hp : p / 1024 < 768)
    (ht : lookup c.mem c.cr3 p = some t) :
    Serves c.mem dirs (.page c.cr3 (p / 1024) (p % 1024)) t.frame := by
  simp only [lookup] at ht
  split at ht
  case isFalse => cases ht
  case isTrue hpres =>
    cases ht
    exact ⟨h.current, hp, Nat.mod_lt _ (by norm_num), _, named_of_present hpres.1,
      named_of_present hpres.2⟩

theorem Spaces.page_not_isTable (h : Spaces K dirs c) {d i j f : ℕ}
    (hs : Serves c.mem dirs (.page d i j) f) : ¬IsTable K c.mem dirs f := by
  rintro ((hd | ⟨d, i, ht⟩) | ⟨i, hi, he⟩)
  · cases h.unique _ (.dir _) _ hs ⟨hd, rfl⟩
  · cases h.unique _ _ _ hs ht
  · exact h.apart i hi _ _ hs he

theorem userFlags : pagePresent ||| pageRw ||| pageUser = 7 := rfl

/-- The entry of the page of `v` in the user page table `t` is set to a frame. -/
structure SetsPage (K : Kernel) (dirs : List ℕ) (c : View Pmm) (v t phys flags : ℕ)
    (c' : View Pmm) : Prop where
  view : c' = { c with mem := c'.mem }
  set : SetPage K dirs c c.cr3 (v / 2 ^ 22) (v / 4096 % 1024) t (phys + flags) c'.mem
  only : OnlyIn t c.mem c'.mem

theorem SetsPage.keeps {v t phys flags : ℕ} {c' : View Pmm} (hs : SetsPage K dirs c v t phys flags c')
    (h : Spaces K dirs c) (hphys : Spare K dirs c phys) (hflags : flags < 4096) :
    Spaces K dirs c' ∧ c'.cr3 = c.cr3 ∧ Leaves (· ≠ phys) K dirs c dirs c' := by
  have hframe : frameOf (phys + flags) = phys := frameOf_add hphys.aligned hflags
  obtain ⟨hview, hset, honly⟩ := hs
  rw [hview]
  refine ⟨?_, rfl, (hset.leaves h honly).of_spare fun f hf _ _ => ?_⟩
  · refine hset.spaces h h.pmm h.reserved (fun _ => ?_) fun u f _ hu => h.used u f hu
    rw [hframe]
    exact hphys
  · rwa [hframe]

theorem spec_mapUser {v phys t flags : ℕ} (hA : Known b A) (h : Spaces K dirs c)
    (hv : v < 0xC0000000) (ht : named c.mem c.cr3 (v / 2 ^ 22) = some t)
    (hal : Aligned phys) (hlt : phys < 2 ^ 32) (hflags : flags < 4096) :
    Spec b A c (vmmSetPteAt ptsWindow v phys flags) (update A (v / 4096) ∅)
      (fun _ => SetsPage K dirs c v t phys flags) F := by
  have htable : Serves c.mem dirs (.table c.cr3 (v / 2 ^ 22)) t := ⟨h.current, by omega, ht⟩
  have hmod : v / 4096 % 1024 < 1024 := Nat.mod_lt _ (by norm_num)
  have hframe := hal.frameOf_eq
  refine (spec_vmmSetPteAt hA (h.self _ h.current) (by omega) ht (h.table_ne (by omega) ht)
    hflags fun _ q hq _ _ => h.setUser_lookup htable hmod _ q hq).post ?_
  rintro _ c' rfl
  rw [hframe]
  refine ⟨rfl, ⟨htable, hmod, ?_⟩, onlyIn_put32 (aligned_of_named ht) hmod _⟩
  exact h.setEntry (.inl (.inr ⟨_, _, htable⟩)) hmod (by unfold Aligned at hal; omega)

/-- A frame is entered as a table in an empty slot, invalidated and cleared. -/
theorem spec_enterTable {v T : ℕ} (hA : Known b A) (hpd : Settled b A c (windowPage 1023))
    (hself : SelfMapped c.mem c.cr3) (hv : v < 0xC0000000) (hal : Aligned T) (hlt : T < 2 ^ 32)
    (hne : T ≠ c.cr3) (hoff : b = true → OffKernel c T ∧ OffKernel c c.cr3)
    (hempty : ¬IsPresent (entry c.mem c.cr3 (v / 2 ^ 22))) {α : Type} {x : VmmM α}
    {A' : Stale} {R : α → View Pmm → Prop}
    (hx : Spec b A
      { c with mem := (c.mem.put32 (c.cr3 + 4 * (v / 2 ^ 22)) (T + 7)).fill T 0 4096 } x A' R F) :
    Spec b A c (do
        vmmSetPdeAt pdWindow v T (pagePresent ||| pageRw ||| pageUser)
        invlpg (ptsWindow + v / 2 ^ 22 * pageSize)
        memset (ptsWindow + v / 2 ^ 22 * pageSize) 0 pageSize
        x) A' R F := by
  have hkeep {k : ℕ} (hki : k ≠ v / 2 ^ 22) :
      entry (c.mem.put32 (c.cr3 + 4 * (v / 2 ^ 22)) (T + 7)) c.cr3 k = entry c.mem c.cr3 k :=
    entry_put32_of_ne _ hki
  have hnamed : named (c.mem.put32 (c.cr3 + 4 * (v / 2 ^ 22)) (T + 7)) c.cr3 (v / 2 ^ 22) =
      some T :=
    named_of_entry (entry_put32_self (by unfold Aligned at hal; omega)) hal (by norm_num)
      (by norm_num)
  have hself' : SelfMapped (c.mem.put32 (c.cr3 + 4 * (v / 2 ^ 22)) (T + 7)) c.cr3 :=
    hself.congr (hkeep (by omega))
  unfold vmmSetPdeAt
  rw [userFlags, wordAt_pdWindow (by omega), frameOf_or (by norm_num), hal.frameOf_eq]
  refine (spec_store_window hself (by norm_num) (by omega) hself.1 hpd _
    (hA.steps hself (onlyIn_put32 (aligned_frameOf _) (by omega) _)
      (fun hb => by rw [hself.2]; exact (hoff hb).2) fun k hk _ hp => ?_)).bind fun _ c₁ hc₁ => ?_
  · rw [hself.2]
    exact hkeep fun he => hempty (he ▸ hp)
  · have hoff₁ (hb : b = true) : OffKernel { c with
        mem := c.mem.put32 (c.cr3 + 4 * (v / 2 ^ 22)) (T + 7) } T :=
      (hoff hb).1.congr fun k hk => hkeep (by have := hk.1; omega)
    rw [hself.2] at hc₁
    subst hc₁
    refine (spec_invlpg_forget _).bind fun _ c₂ hc₂ => ?_
    subst hc₂
    generalize c.mem.put32 (c.cr3 + 4 * (v / 2 ^ 22)) (T + 7) = mem₁ at hnamed hself' hx hoff₁ ⊢
    refine (spec_memset_window (c := { c with mem := mem₁ }) hA hself' hnamed (by omega) hne
      hoff₁).bind ?_
    rintro _ _ rfl
    exact hx

theorem Spaces.enterTable {i T : ℕ} (h : Spaces K dirs c) (hi : i < 768) (hT : Spare K dirs c T)
    (hempty : ¬IsPresent (entry c.mem c.cr3 i)) {mem' : Bytes}
    (hm : mem' = (c.mem.put32 (c.cr3 + 4 * i) (T + 7)).fill T 0 4096) :
    NewTable K dirs c i T mem' ∧
      ∀ a, frameOf a ≠ c.cr3 → frameOf a ≠ T → mem' a = c.mem a := by
  subst hm
  have hal := hT.aligned
  have hlt := hT.lt
  have hset := h.setEntry (i := i) (e := T + 7) (.inl (.inl h.current)) (by omega) (by
    unfold Aligned at hal
    omega)
  have honly : OnlyIn c.cr3 c.mem (c.mem.put32 (c.cr3 + 4 * i) (T + 7)) :=
    onlyIn_put32 (h.frame c.cr3 h.current).1 (by omega) _
  refine ⟨⟨hi, hempty, hT, hset.trans fun t ht j hj => ?_, fun j hj => entry_fill_zero hj⟩,
    fun a ha ha' => (onlyIn_fill hal 0 le_rfl a ha').trans (honly a ha)⟩
  exact (onlyIn_fill hal 0 le_rfl).entry (h.aligned ht) (fun he => hT.not_isTable (he ▸ ht)) hj

/-- The table `t` of slot `i` was there, or a frame has been taken and entered. -/
inductive TableReady (K : Kernel) (dirs : List ℕ) (c : View Pmm) (i t : ℕ) : View Pmm → Prop
  | old (ht : named c.mem c.cr3 i = some t) : TableReady K dirs c i t c
  | new {n : ℕ} {p' : Pmm} {mem' : Bytes} (ht : Takes c.rest n t p')
      (hn : NewTable K dirs { c with rest := p' } i t mem')
      (hm : ∀ a, frameOf a ≠ c.cr3 → frameOf a ≠ t → mem' a = c.mem a) :
      TableReady K dirs c i t { c with rest := p', mem := mem' }

section TableReady

variable {i t : ℕ} {c₀ : View Pmm} (h : Spaces K dirs c) (hr : TableReady K dirs c i t c₀)

include hr in
theorem TableReady.cr3 : c₀.cr3 = c.cr3 := by
  cases hr <;> rfl

include h hr

theorem TableReady.spaces : Spaces K dirs c₀ := by
  cases hr with
  | old ht => exact h
  | new ht hn hm => exact hn.spaces (h.take ht).1

theorem TableReady.spare {g : ℕ} (hg : Spare K dirs c g) : Spare K dirs c₀ g := by
  cases hr with
  | old ht => exact hg
  | new ht hn hm =>
    obtain ⟨hg', hne⟩ := hg.take h ht
    exact hg'.add_use (hn.serves (h.take ht).1) hne

theorem TableReady.leaves : Leaves (fun _ => True) K dirs c dirs c₀ := by
  cases hr with
  | old ht => exact Leaves.refl _ _ _ _
  | new ht hn hm =>
    exact Leaves.after_take h ht ((hn.leaves (h.take ht).1 hm).of_spare fun _ hf _ => hf.2)

end TableReady

section

variable {v phys : ℕ} (hA : Known b A) (hpd : Settled b A c (windowPage 1023)) (h : Spaces K dirs c)
  (hv : v < 0xC0000000) (hphys : Spare K dirs c phys)
  (hroom : b = true → IsPresent (entry c.mem c.cr3 (v / 2 ^ 22)) ∨ (pmmAllocPage c.rest).1 ≠ 0)

include hA hpd h hv hphys hroom

/-- What `vmm_map_user_page` does: nothing if there is no frame for a page table; with a cache that is
excluded, as the page has not been invalidated then. -/
theorem spec_mapUserPage_cases :
    Spec b A c (vmmMapUserPage v phys) (update A (v / 4096) ∅)
      (fun _ c' => (¬IsPresent (entry c.mem c.cr3 (v / 2 ^ 22)) ∧ (pmmAllocPage c.rest).1 = 0 ∧
          c' = c) ∨
        ((IsPresent (entry c.mem c.cr3 (v / 2 ^ 22)) ∨ (pmmAllocPage c.rest).1 ≠ 0) ∧
          ∃ t c₀, TableReady K dirs c (v / 2 ^ 22) t c₀ ∧ SetsPage K dirs c₀ v t phys 7 c')) F := by
  have hself := h.self c.cr3 h.current
  unfold vmmMapUserPage
  dsimp only
  rw [wordAt_pdWindow (by omega), userFlags]
  refine (spec_load_window hself (by norm_num) (by omega) hself.1 hpd).bind ?_
  rintro pde c₀ ⟨hc₀, hpde⟩
  rw [hself.2] at hpde
  rw [hc₀]
  by_cases hp : IsPresent pde
  · have ht := named_of_present (hpde ▸ hp)
    rw [if_neg (not_not.mpr hp)]
    refine (spec_mapUser hA h hv ht hphys.aligned hphys.lt (by norm_num)).post ?_
    exact fun _ c' hs => .inr ⟨.inl (hpde ▸ hp), _, c, .old ht, hs⟩
  · rw [if_pos hp]
    refine (spec_allocPage h.pmm).bind ?_
    rintro T c₁ (⟨hfull, rfl, hc₁⟩ | ⟨hT, ⟨n, ht⟩, hc₁⟩)
    · rw [if_pos rfl, hc₁]
      refine (spec_pure (R := fun _ c' => c' = c) rfl).mono ?_ fun _ hc => hc
      rintro _ c' hc'
      refine ⟨fun hb => ?_, .inl ⟨hpde ▸ hp, hfull, hc'⟩⟩
      exact absurd (hroom hb) (not_or.mpr ⟨hpde ▸ hp, not_not.mpr hfull⟩)
    · have halloc := h.pmm.alloc_ne_zero ht
      rw [if_neg hT, hc₁]
      generalize (pmmAllocPage c.rest).2 = p' at ht
      obtain ⟨h₁, hT₁⟩ := h.take ht
      have hne' : T ≠ c.cr3 := fun he => hT₁.unserved (.dir c.cr3) ⟨h.current, he⟩
      refine spec_enterTable (c := { c with rest := p' }) hA hpd hself hv hT₁.aligned hT₁.lt hne'
        (fun _ => ⟨h₁.offKernel hT₁.apart, h₁.offKernel h₁.current_apart⟩) (hpde ▸ hp) ?_
      obtain ⟨hn, honly⟩ := h₁.enterTable (i := v / 2 ^ 22) (by omega) hT₁ (hpde ▸ hp) rfl
      have hslot := hn.named_slot h₁
      refine (spec_mapUser hA (hn.spaces h₁) hv hslot hphys.aligned hphys.lt (by norm_num)).post ?_
      exact fun _ c' hs => .inr ⟨.inr halloc, T, _, .new ht hn honly, hs⟩

theorem spec_vmmMapUserPage :
    Spec b A c (vmmMapUserPage v phys) (update A (v / 4096) ∅)
      (fun _ c' => Spaces K dirs c' ∧ c'.cr3 = c.cr3 ∧ Leaves (· ≠ phys) K dirs c dirs c') F := by
  refine (spec_mapUserPage_cases hA hpd h hv hphys hroom).post ?_
  rintro _ c' (⟨-, -, rfl⟩ | ⟨-, t, c₀, hr, hs⟩)
  · exact ⟨h, rfl, Leaves.refl _ _ _ _⟩
  · obtain ⟨h', hcr3, hl⟩ := hs.keeps (hr.spaces h) (hr.spare h hphys) (by norm_num)
    refine ⟨h', hcr3.trans hr.cr3, ?_⟩
    exact ((hr.leaves h).of_spare fun _ _ _ => trivial).trans hl

end

/-- The frame of the first page of the kernel half. -/
def GapFrame (K : Kernel) (mem : Bytes) (f : ℕ) : Prop := named mem (K.table 768) 0 = some f

/-- The pages from a user address on are user pages, but for the one behind the user half. -/
theorem Spaces.user_pages (h : Spaces K dirs c) {v i : ℕ} {t : Translation}
    (hv : v < 0xC0000000) (hi : i < 4096) (ht : lookup c.mem c.cr3 ((v + i) / 4096) = some t) :
    Serves c.mem dirs (.page c.cr3 ((v + i) / 4096 / 1024) ((v + i) / 4096 % 1024)) t.frame ∨
      0xC0000000 < v + 4096 ∧ GapFrame K c.mem t.frame := by
  by_cases hu : (v + i) / 4096 / 1024 < 768
  · exact .inl (h.user_page hu ht)
  · have hp : (v + i) / 4096 = 768 * 1024 := by omega
    obtain ⟨hpde, htable⟩ := named_eq_some (h.kernel c.cr3 h.current 768 ⟨le_rfl, by norm_num⟩)
    simp only [lookup, hp, Nat.mul_div_cancel _ (show 0 < 1024 by norm_num), Nat.mul_mod_left] at ht
    split at ht
    case isTrue hpres =>
      cases ht
      refine .inr ⟨by omega, ?_⟩
      unfold GapFrame
      rw [htable]
      exact named_of_present hpres.2
    case isFalse => cases ht

theorem leaves_pages {v : ℕ} {mem' : Bytes}
    (hs : SameTables (IsTable K c.mem dirs) c.mem mem') (ho : OnlyPages v c mem')
    (huser : ∀ i < 4096, ∀ t, lookup c.mem c.cr3 ((v + i) / 4096) = some t →
      (∃ d j k, Serves c.mem dirs (.page d j k) t.frame) ∨ GapFrame K c.mem t.frame) :
    Leaves (fun g => ¬GapFrame K c.mem g) K dirs c dirs { c with mem := mem' } where
  kernel t ht := hs t (.inr ht)
  spare _ _ hg := hg.data hs.user
  bytes g hgap hg a ha := by
    refine ho a fun i hi t ht he => ?_
    obtain ⟨d, j, k, hu⟩ | hu := huser i hi t ht
    · exact hg.unserved _ (ha ▸ he ▸ hu)
    · exact hgap (ha ▸ he ▸ hu)

theorem SameTables.gap {mem mem' : Bytes} (h : SameKernel K mem mem') :
    named mem' (K.table 768) 0 = named mem (K.table 768) 0 :=
  named_congr (h _ ⟨768, ⟨le_rfl, by norm_num⟩, rfl⟩ 0 (by norm_num))

/-- **`vmm_alloc_user_page_at`**, for any address of the user half. From an address that is not
aligned on, the page behind the user half may be cleared as well. -/
theorem spec_vmmAllocUserPageAt {v : ℕ} (hA : Known b A) (hpd : Settled b A c (windowPage 1023))
    (h : Spaces K dirs c) (hv : v < 0xC0000000) (halign : b = true → v % 4096 = 0)
    (hgap : v + 4096 ≤ 0xC0000000 ∨ ∀ f, GapFrame K c.mem f → Spare K dirs c f)
    (hroom : b = true → (pmmAllocPage c.rest).1 ≠ 0 →
      IsPresent (entry c.mem c.cr3 (v / 2 ^ 22)) ∨ (pmmAllocPage (pmmAllocPage c.rest).2).1 ≠ 0)
    (hF : ∀ c', Spaces K dirs c' → SameKernel K c.mem c'.mem → F c') :
    Spec b A c (vmmAllocUserPageAt v) A (fun _ c' => Spaces K dirs c' ∧ c'.cr3 = c.cr3 ∧
      Leaves (fun g => ¬GapFrame K c.mem g) K dirs c dirs c' ∧
      ∀ g, Spare K dirs c g → Spare K dirs c' g) F := by
  unfold vmmAllocUserPageAt
  refine (spec_allocPage h.pmm).bind ?_
  rintro phys c₁ (⟨-, rfl, hc₁⟩ | ⟨hphys, ⟨n, ht⟩, hc₁⟩)
  · rw [if_pos rfl, hc₁]
    exact spec_pure ⟨h, rfl, Leaves.refl _ _ _ _, fun _ hg => hg⟩
  · have halloc := h.pmm.alloc_ne_zero ht
    rw [if_neg hphys, hc₁]
    generalize (pmmAllocPage c.rest).2 = p' at ht hroom
    obtain ⟨h₁, hsp⟩ := h.take ht
    refine (spec_vmmMapUserPage (c := { c with rest := p' }) hA hpd h₁ hv hsp
      fun hb => hroom hb halloc).bind ?_
    rintro _ c₂ ⟨h₂, hcr3, hk⟩
    have hspare {g : ℕ} (hg : Spare K dirs c g) : Spare K dirs c₂ g :=
      hk.spare g (hg.take h ht).2 (hg.take h ht).1
    have hsame {g : ℕ} (hg : GapFrame K c₂.mem g) : GapFrame K c.mem g :=
      hk.kernel.gap.symm.trans hg
    have hdata (i : ℕ) (hi : i < 4096) (t : Translation)
        (ht : lookup c₂.mem c₂.cr3 ((v + i) / 4096) = some t) : ¬IsTable K c₂.mem dirs t.frame := by
      obtain hu | ⟨hend, hu⟩ := h₂.user_pages hv hi ht
      · exact h₂.page_not_isTable hu
      · exact (hspare (hgap.resolve_left (by omega) _ (hsame hu))).not_isTable
    have hkernel {mem' : Bytes} (hs : SameTables (IsTable K c₂.mem dirs) c₂.mem mem') :
        SameKernel K c.mem mem' := hk.kernel.trans fun t ht => hs t (.inr ht)
    refine (spec_memset_data hA h₂ (by omega) halign hdata
      fun mem' hs _ => hF _ (h₂.data hs.user) (hkernel hs)).bind ?_
    rintro _ _ ⟨mem', rfl, hs, hclear⟩
    have ho := hclear.onlyPages
    refine (spec_pure (R := fun _ c' => c' = { c₂ with mem := mem' }) rfl).mono ?_ fun _ hc => hc
    rintro _ _ rfl
    have hl := leaves_pages hs ho fun i hi t ht =>
      (h₂.user_pages hv hi ht).imp (fun hu => ⟨_, _, _, hu⟩) And.right
    refine ⟨steps_forget, h₂.data hs.user, hcr3, Leaves.after_take h ht ?_, fun g hg =>
      (hspare hg).data hs.user⟩
    exact (hk.of_spare fun _ hf _ => hf.2).trans
      (hl.of_spare fun _ hf _ => fun hg => hf.1 (hsame hg))

section Translate

variable {v : ℕ} (hself : SelfMapped c.mem c.cr3) (hv : v < 2 ^ 32)
  (hpd : Settled b A c (windowPage 1023)) (hset : Settled b A c (windowPage (v / 2 ^ 22)))

include hself hv hpd hset

theorem spec_readEntries {α : Type} {R : α → View Pmm → Prop} {x : VmmM α} {k : ℕ → VmmM α}
    (hx : ¬IsPresent (entry c.mem c.cr3 (v / 2 ^ 22)) → Spec b A c x A R F)
    (hk : IsPresent (entry c.mem c.cr3 (v / 2 ^ 22)) → Spec b A c
      (k (entry c.mem (frameOf (entry c.mem c.cr3 (v / 2 ^ 22))) (v / 4096 % 1024))) A R F) :
    Spec b A c (do
        let pde ← load32 (wordAt pdWindow (v / 2 ^ 22))
        if ¬IsPresent pde then x
        else
          let pte ← load32 (wordAt ptsWindow (v / 2 ^ 12))
          k pte) A R F := by
  have hmod : v / 4096 % 1024 < 1024 := Nat.mod_lt _ (by norm_num)
  have hslot : v / 2 ^ 12 / 1024 = v / 2 ^ 22 := by omega
  rw [wordAt_pdWindow (by omega), wordAt_ptsWindow (by omega), hslot]
  refine (spec_load_window hself (by norm_num) (by omega) hself.1 hpd).bind ?_
  rintro pde _ ⟨rfl, hpde⟩
  rw [hself.2] at hpde
  split
  case isTrue hp => exact hx (hpde ▸ hp)
  case isFalse hp =>
    rw [not_not, hpde] at hp
    refine (spec_load_window hself (by omega) hmod hp hset).bind ?_
    rintro pte _ ⟨rfl, rfl⟩
    exact hk hp

theorem spec_virtToPhys :
    Spec b A c (vmmVirtToPhys v) A
      (fun a c' => c' = c ∧
        a = ((lookup c.mem c.cr3 (v / 4096)).map (·.frame + v % 4096)).getD 0) F := by
  unfold vmmVirtToPhys
  rw [lookup_of_address]
  refine spec_readEntries hself hv hpd hset (fun hp => spec_pure ⟨rfl, ?_⟩) fun hp => ?_
  · rw [if_neg fun h => hp h.1]
    rfl
  · split
    case isTrue hp' =>
      rw [if_neg fun h => hp' h.2]
      exact spec_pure ⟨rfl, rfl⟩
    case isFalse hp' =>
      rw [if_pos ⟨hp, not_not.mp hp'⟩]
      exact spec_pure ⟨rfl, rfl⟩

theorem spec_isMapped :
    Spec b A c (vmmIsMapped v) A
      (fun r c' => c' = c ∧ r = (lookup c.mem c.cr3 (v / 4096)).isSome) F := by
  unfold vmmIsMapped
  rw [lookup_of_address]
  refine spec_readEntries hself hv hpd hset (fun hp => spec_pure ⟨rfl, ?_⟩) fun hp =>
    spec_pure ⟨rfl, ?_⟩
  · rw [if_neg fun h => hp h.1]
    rfl
  · split
    case isTrue hp' => exact decide_eq_true hp'.2
    case isFalse hp' => exact decide_eq_false fun h => hp' ⟨hp, h⟩

end Translate

/-- `vmm_virt_to_phys` of a user address reads the entry of its page. -/
theorem spec_vmmVirtToPhys {v : ℕ} (hA : Known b A) (hpd : Settled b A c (windowPage 1023))
    (h : Spaces K dirs c) (hv : v < 0xC0000000) :
    Spec b A c (vmmVirtToPhys v) A (fun a c' => c' = c ∧ (a = 0 ∨ ∃ t f,
      named c.mem c.cr3 (v / 2 ^ 22) = some t ∧ named c.mem t (v / 4096 % 1024) = some f ∧
        a = f + v % 4096)) F := by
  refine (spec_virtToPhys (h.self _ h.current) (by omega) hpd (hA.settled (by omega))).post ?_
  rintro a _ ⟨rfl, rfl⟩
  refine ⟨rfl, ?_⟩
  rw [lookup_of_address]
  split
  case isTrue hp =>
    exact Or.inr ⟨_, _, named_of_present hp.1, named_of_present hp.2, rfl⟩
  case isFalse => exact Or.inl rfl

theorem testBit_free {p : Pmm} {f g : ℕ} (hf : Aligned f) (hg : Aligned g) (hne : g ≠ f)
    {o : ℕ} (ho : o < 4096) (hused : testBit (g / pageSize) p.bitmap = true) :
    testBit (g / pageSize) (pmmFreePage p (f + o)).bitmap = true := by
  have hpage : g / pageSize ≠ (f + o) / pageSize := by
    unfold Aligned at hf hg
    unfold pageSize
    omega
  simp only [pmmFreePage, testBit_clearBit, hused, Bool.and_true, Bool.not_eq_true',
    decide_eq_false_iff_not]
  exact hpage

theorem spec_vmmFreeUserPage {v : ℕ} (hA : Known b A) (hpd : Settled b A c (windowPage 1023))
    (h : Spaces K dirs c) (hv : v < 0xC0000000) :
    Spec b A c (vmmFreeUserPage v) A
      (fun _ c' => Spaces K dirs c' ∧ c'.cr3 = c.cr3 ∧
        Leaves (fun _ => True) K dirs c dirs c') F := by
  have hi : v / 2 ^ 22 < 768 := by omega
  have hmod : v / 4096 % 1024 < 1024 := Nat.mod_lt _ (by norm_num)
  unfold vmmFreeUserPage
  refine (spec_vmmVirtToPhys hA hpd h hv).bind ?_
  rintro a c₀ ⟨hc₀, ha⟩
  rw [hc₀]
  obtain rfl | ⟨t, f, ht, hf, hfa⟩ := ha
  · rw [if_neg (not_not.mpr rfl)]
    exact spec_pure ⟨h, rfl, Leaves.refl _ _ _ _⟩
  have htable : Serves c.mem dirs (.table c.cr3 (v / 2 ^ 22)) t := ⟨h.current, hi, ht⟩
  have hpage : Serves c.mem dirs (.page c.cr3 (v / 2 ^ 22) (v / 4096 % 1024)) f :=
    ⟨h.current, hi, hmod, t, ht, hf⟩
  have hal := aligned_of_named hf
  have h0 := h.nonzero _ f hpage
  rw [if_pos (by omega)]
  unfold vmmUnmapPage
  refine (spec_vmmSetPteAt hA (h.self _ h.current) (by omega) ht (h.table_ne (by omega) ht)
    (by norm_num) fun _ q hq _ _ => h.setUser_lookup htable hmod _ q hq).bind ?_
  rintro _ c₁ rfl
  refine (spec_onRest (R := fun _ c' => c' = { c with
    mem := c.mem.put32 (t + 4 * (v / 4096 % 1024)) (frameOf 0 + 0)
    rest := pmmFreePage c.rest a }) _ rfl).mono ?_ fun _ hc => hc
  rintro _ _ rfl
  have hset := h.setEntry (e := 0) (.inl (.inr ⟨_, _, htable⟩)) hmod (by norm_num)
  have hsp : SetPage K dirs c c.cr3 (v / 2 ^ 22) (v / 4096 % 1024) t 0 _ := ⟨htable, hmod, hset⟩
  have hfree {g : ℕ} (hg : Aligned g) (hne : g ≠ f) :
      testBit (g / pageSize) c.rest.bitmap = true →
        testBit (g / pageSize) (pmmFreePage c.rest a).bitmap = true := by
    rw [hfa]
    exact testBit_free hal hg hne (Nat.mod_lt _ (by norm_num))
  have hok : (pmmFreePage c.rest a).Ok :=
    ⟨h.pmm.pos, h.pmm.le, h.pmm.cursor, hfree (g := 0) rfl h0.symm h.pmm.zero⟩
  refine ⟨steps_forget, hsp.spaces h hok (fun k hk => ?_) (fun hp => ?_) (fun u g hu hg => ?_),
    rfl, ?_⟩
  · exact hfree (h.aligned (.inr ⟨k, hk, rfl⟩)) (h.apart k hk _ f hpage).symm (h.reserved k hk)
  · exact absurd hp not_present_zero
  · refine hfree (h.serves_aligned hg) (fun he => hu ?_) (h.used u g hg)
    exact h.unique u _ f (he ▸ hg) hpage
  · have hl := hsp.leaves h (onlyIn_put32 (aligned_of_named ht) hmod _)
    have hnot (g : ℕ) (_ : True) : IsPresent 0 → g ≠ frameOf 0 := fun hp =>
      absurd hp not_present_zero
    refine ⟨hl.kernel, fun g hg hs => ?_, fun g hg hs => hl.bytes g (hnot g hg) hs⟩
    have hs' := hl.spare g (hnot g hg) hs
    refine { hs' with used := hfree hs.aligned (fun he => ?_) hs.used }
    exact hs.unserved _ (he ▸ hpage)

end Calls

/-! ## New directories -/

/-- The new directory `N` is in slot 1022 of the current one, with nothing stale of its window. -/
structure Scratch (b : Bool) (N : ℕ) (c : View Pmm) : Prop where
  self : SelfMapped c.mem c.cr3
  slot : named c.mem c.cr3 1022 = some N
  cr3 : Aligned c.cr3
  ne : N ≠ c.cr3
  off : b = true → OffKernel c N

section Scratch

variable {b : Bool} {A : Stale} {c : View Pmm} {F : View Pmm → Prop} {N i : ℕ}

theorem Scratch.aligned (h : Scratch b N c) : Aligned N := aligned_of_named h.slot

theorem Scratch.same (h : Scratch b N c) {mem' : Bytes} (hm : OnlyIn N c.mem mem') {k : ℕ}
    (hk : k < 1024) : entry mem' c.cr3 k = entry c.mem c.cr3 k := hm.entry h.cr3 h.ne.symm hk

theorem Scratch.onlyIn (h : Scratch b N c) {mem' : Bytes} (hm : OnlyIn N c.mem mem') :
    Scratch b N { c with mem := mem' } := by
  refine ⟨h.self.congr (h.same hm (by norm_num)), ?_, h.cr3, h.ne, fun hb =>
    (h.off hb).congr fun k hk => h.same hm hk.lt⟩
  rw [named_congr (h.same hm (by norm_num))]
  exact h.slot

theorem Scratch.spec_store (h : Scratch b N c) (hA : Known b A) (hi : i < 1024) (w : ℕ) :
    Spec b (update A (windowPage 1022) ∅) c (store32 (wordAt pdScratchWindow i) w)
      (update A (windowPage 1022) ∅)
      (fun _ c' => c' = { c with mem := c.mem.put32 (N + 4 * i) w }) F := by
  obtain ⟨hp, hN⟩ := named_eq_some h.slot
  have hm : OnlyIn N c.mem (c.mem.put32 (N + 4 * i) w) := onlyIn_put32 h.aligned hi w
  rw [wordAt_pdScratchWindow hi]
  subst hN
  refine spec_store_window h.self (by norm_num) hi hp settled_update w (steps_update
    (hA.steps h.self hm h.off fun k hk _ _ => h.same hm hk) fun t ht => ?_)
  rw [← ht]
  exact lookup_congr_last h.self rfl (h.same hm (by norm_num))
    (h.same hm (Nat.mod_lt _ (by norm_num)))

theorem Scratch.spec_load (h : Scratch b N c) (hpd : Settled b A c (windowPage 1023))
    (hi : i < 1024) :
    Spec b (update A (windowPage 1022) ∅) c (load32 (wordAt pdWindow i))
      (update A (windowPage 1022) ∅)
      (fun w c' => c' = c ∧ w = entry c.mem c.cr3 i) F := by
  rw [wordAt_pdWindow hi]
  have hl := spec_load_window (F := F) h.self (k := 1023) (by norm_num) hi h.self.1
    (settled_update_of_ne (p := windowPage 1022) (by decide) hpd)
  rwa [h.self.2] at hl

theorem Scratch.spec_clear (h : Scratch b N c) (hA : Known b A) :
    Spec b (update A (windowPage 1022) ∅) c
      (repeatTo 768 fun i => store32 (wordAt pdScratchWindow i) 0)
      (update A (windowPage 1022) ∅)
      (fun _ c' => ∃ mem', c' = { c with mem := mem' } ∧ OnlyIn N c.mem mem' ∧
        ∀ i, entry mem' N i = if i < 768 then 0 else entry c.mem N i) F := by
  refine spec_repeatTo (fun n c' => ∃ mem', c' = { c with mem := mem' } ∧ OnlyIn N c.mem mem' ∧
    ∀ i, entry mem' N i = if i < n then 0 else entry c.mem N i)
    ⟨c.mem, rfl, OnlyIn.refl N _, fun i => (if_neg (by omega)).symm⟩ ?_
  rintro n hn _ ⟨mem', rfl, hm, hz⟩
  refine ((h.onlyIn hm).spec_store hA (by omega) 0).post ?_
  rintro _ _ rfl
  refine ⟨_, rfl, hm.trans (onlyIn_put32 h.aligned (by omega) 0), fun i => ?_⟩
  by_cases hin : i = n
  · rw [hin, entry_put32_self (by norm_num), if_pos (by omega)]
  · rw [entry_put32_of_ne _ hin, hz i]
    exact if_congr (by omega) rfl rfl

theorem Scratch.spec_copy (h : Scratch b N c) (hA : Known b A)
    (hpd : ∀ mem', OnlyIn N c.mem mem' → Settled b A { c with mem := mem' } (windowPage 1023)) :
    Spec b (update A (windowPage 1022) ∅) c
      (repeatTo 254 fun n => copyEntry (768 + n)) (update A (windowPage 1022) ∅)
      (fun _ c' => ∃ mem', c' = { c with mem := mem' } ∧ OnlyIn N c.mem mem' ∧
        ∀ i, entry mem' N i =
          if 768 ≤ i ∧ i < 1022 then entry c.mem c.cr3 i else entry c.mem N i) F := by
  refine spec_repeatTo (fun n c' => ∃ mem', c' = { c with mem := mem' } ∧ OnlyIn N c.mem mem' ∧
    ∀ i, entry mem' N i =
      if 768 ≤ i ∧ i < 768 + n then entry c.mem c.cr3 i else entry c.mem N i)
    ⟨c.mem, rfl, OnlyIn.refl N _, fun i => (if_neg (by omega)).symm⟩ ?_
  rintro n hn _ ⟨mem', rfl, hm, hk⟩
  have h' := h.onlyIn hm
  unfold copyEntry
  refine (h'.spec_load (hpd mem' hm) (by omega)).bind ?_
  rintro pde _ ⟨rfl, hpde⟩
  refine (h'.spec_store hA (by omega) pde).post ?_
  rintro _ _ rfl
  refine ⟨_, rfl, hm.trans (onlyIn_put32 h.aligned (by omega) _), fun i => ?_⟩
  by_cases hin : i = 768 + n
  · rw [hin, entry_put32_self (hpde ▸ entry_lt _ _ _), hpde, if_pos (by omega)]
    exact h.same hm (by omega)
  · rw [entry_put32_of_ne _ hin, hk i]
    exact if_congr (by omega) rfl rfl

end Scratch

/-- What `vmm_create_address_space` writes: the entries of the new directory `N`, and slot 1022 of the
current one. Entry 1022 of the new directory is left as it was. -/
structure Filled (c : View Pmm) (N : ℕ) (mem' : Bytes) : Prop where
  user : ∀ i < 768, entry mem' N i = 0
  kernel : ∀ i, KernelSlot i → entry mem' N i = entry c.mem c.cr3 i
  scratch : entry mem' N 1022 = entry c.mem N 1022
  self : entry mem' N 1023 = N + 0x103
  current : ∀ i < 1024, entry mem' c.cr3 i = if i = 1022 then 0 else entry c.mem c.cr3 i
  other : ∀ a, frameOf a ≠ c.cr3 → frameOf a ≠ N → mem' a = c.mem a

section Create

variable {K : Kernel} {dirs : List ℕ} {b : Bool} {A : Stale} {c : View Pmm}
  {F : View Pmm → Prop} {N : ℕ}

theorem kernelEntry_eq (hN : Aligned N) :
    N ||| pagePresent ||| pageRw ||| pageGlobal = N + 0x103 := by
  have hor : frameOf N ||| 0x103 = frameOf N + 0x103 := frameOf_or (by norm_num)
  rw [hN.frameOf_eq] at hor
  rw [Nat.lor_assoc, Nat.lor_assoc, ← hor]
  rfl

theorem scratch_of_put (hself : SelfMapped c.mem c.cr3) (hN : Aligned N) (hlt : N < 2 ^ 32)
    (hne : N ≠ c.cr3) (hoff : b = true → OffKernel c N) :
    Scratch b N { c with mem := c.mem.put32 (c.cr3 + 4 * 1022) (N + 0x103) } := by
  have hput {k : ℕ} (hk : k ≠ 1022) : entry (c.mem.put32 (c.cr3 + 4 * 1022) (N + 0x103)) c.cr3 k =
      entry c.mem c.cr3 k := entry_put32_of_ne _ hk
  refine ⟨hself.congr (hput (by norm_num)), ?_, hself.aligned, hne, fun hb =>
    (hoff hb).congr fun k hk => hput hk.2.ne⟩
  have he : entry (c.mem.put32 (c.cr3 + 4 * 1022) (N + 0x103)) c.cr3 1022 = N + 0x103 :=
    entry_put32_self (by unfold Aligned at hN; omega)
  exact named_of_entry he hN (by norm_num) (by norm_num)

theorem spec_fillDirectory (hA : Known b A) (hpd : Settled b A c (windowPage 1023))
    (hself : SelfMapped c.mem c.cr3) (hal : Aligned N) (hlt : N < 2 ^ 32) (hne : N ≠ c.cr3)
    (hoff : b = true → OffKernel c N ∧ OffKernel c c.cr3) :
    Spec b A c (do
        store32 (wordAt pdWindow 1022) (N + 0x103)
        invlpg pdScratchWindow
        repeatTo 768 fun i => store32 (wordAt pdScratchWindow i) 0
        repeatTo 254 fun n => copyEntry (768 + n)
        store32 (wordAt pdScratchWindow 1023) (N + 0x103)
        store32 (wordAt pdWindow 1022) 0
        invlpg pdScratchWindow
        return N) A
      (fun N' c' => N' = N ∧ ∃ mem', c' = { c with mem := mem' } ∧ Filled c N mem') F := by
  have hcr3 := hself.aligned
  have hscratch := scratch_of_put hself hal hlt hne fun hb => (hoff hb).1
  have hpage : pdScratchWindow / 4096 = windowPage 1022 := rfl
  rw [wordAt_pdWindow (by norm_num)]
  refine (spec_store_window hself (by norm_num) (by norm_num) hself.1 hpd _
    (hA.steps hself (onlyIn_put32 (aligned_frameOf _) (by norm_num) _)
      (fun hb => by rw [hself.2]; exact (hoff hb).2) fun k hk hne _ => ?_)).bind ?_
  · rw [hself.2]
    exact entry_put32_of_ne _ hne
  rintro _ c₁ hc₁
  rw [hself.2] at hc₁
  subst hc₁
  -- the window of the current directory stays settled while only the new one is written
  have hpd' (mem' : Bytes)
      (hm : OnlyIn N (c.mem.put32 (c.cr3 + 4 * 1022) (N + 0x103)) mem') :
      Settled b A { c with mem := mem' } (windowPage 1023) := by
    intro hb t ht
    have hsame : entry mem' c.cr3 1023 = entry c.mem c.cr3 1023 := by
      rw [hscratch.same hm (by norm_num), entry_put32_of_ne _ (by norm_num)]
    rw [← hpd hb t ht]
    exact lookup_congr_last hself rfl hsame hsame
  have hbase {k : ℕ} (hk : k ≠ 1022) :
      entry (c.mem.put32 (c.cr3 + 4 * 1022) (N + 0x103)) c.cr3 k = entry c.mem c.cr3 k :=
    entry_put32_of_ne _ hk
  have hm₁ : OnlyIn c.cr3 c.mem (c.mem.put32 (c.cr3 + 4 * 1022) (N + 0x103)) :=
    onlyIn_put32 hcr3 (by norm_num) _
  have hoff₁ (hb : b = true) : OffKernel { c with
      mem := c.mem.put32 (c.cr3 + 4 * 1022) (N + 0x103) } c.cr3 :=
    (hoff hb).2.congr fun k hk => hbase hk.2.ne
  generalize c.mem.put32 (c.cr3 + 4 * 1022) (N + 0x103) = mem₁ at *
  refine (spec_invlpg (Q := fun _ c' => c' = { c with mem := mem₁ }) _ rfl).bind ?_
  rintro _ _ rfl
  rw [hpage]
  refine (hscratch.spec_clear hA).bind ?_
  rintro _ _ ⟨mem₂, rfl, hm₂, he₂⟩
  refine ((hscratch.onlyIn hm₂).spec_copy hA fun mem' hm => hpd' mem' (hm₂.trans hm)).bind ?_
  rintro _ _ ⟨mem₃, rfl, hm₃, he₃⟩
  have hm₃' := hm₂.trans hm₃
  refine ((hscratch.onlyIn hm₃').spec_store hA (by norm_num) _).bind ?_
  rintro _ _ rfl
  have hm₄ : OnlyIn N mem₁ (mem₃.put32 (N + 4 * 1023) (N + 0x103)) :=
    hm₃'.trans (onlyIn_put32 hal (by norm_num) _)
  have h₄ := hscratch.onlyIn hm₄
  have hself₄ : entry (mem₃.put32 (N + 4 * 1023) (N + 0x103)) N 1023 = N + 0x103 :=
    entry_put32_self (by unfold Aligned at hal; omega)
  have he₄ {i : ℕ} (hi : i ≠ 1023) :
      entry (mem₃.put32 (N + 4 * 1023) (N + 0x103)) N i = entry mem₃ N i :=
    entry_put32_of_ne _ hi
  generalize mem₃.put32 (N + 4 * 1023) (N + 0x103) = mem₄ at hm₄ h₄ hself₄ he₄ ⊢
  have hst : Steps b (update A (windowPage 1022) ∅) { c with mem := mem₄ } A
      { c with mem := mem₄.put32 (frameOf (entry mem₄ c.cr3 1023) + 4 * 1022) 0 } := by
    intro hb p t hpt
    refine hA.steps h₄.self (onlyIn_put32 (aligned_frameOf _) (by norm_num) _) (fun hb => ?_)
      (fun k hk hne _ => ?_) hb p t (steps_forget hb p t hpt)
    · rw [h₄.self.2]
      exact (hoff₁ hb).congr fun k hk => hscratch.same hm₄ hk.lt
    rw [h₄.self.2]
    exact entry_put32_of_ne _ hne
  refine (spec_store_window h₄.self (by norm_num) (by norm_num) h₄.self.1
    (settled_update_of_ne (by decide) (hpd' _ hm₄)) 0 hst).bind ?_
  rintro _ c₅ hc₅
  rw [h₄.self.2] at hc₅
  subst hc₅
  refine (spec_invlpg_forget _).bind ?_
  rintro _ c₆ rfl
  -- the last store is to the current directory
  have hlast {i : ℕ} (hi : i < 1024) :
      entry (mem₄.put32 (c.cr3 + 4 * 1022) 0) N i = entry mem₄ N i :=
    (onlyIn_put32 hcr3 (by norm_num) 0).entry hal hne hi
  refine spec_pure ⟨rfl, _, rfl, fun i hi => ?_, fun i hi => ?_, ?_, ?_, fun i hi => ?_,
    fun a ha ha' => ?_⟩
  · rw [hlast (by omega), he₄ (by omega), he₃, if_neg (by omega), he₂, if_pos hi]
  · obtain ⟨hlo, hhi⟩ := hi
    rw [hlast (by omega), he₄ (by omega), he₃, if_pos ⟨hlo, hhi⟩, hscratch.same hm₂ (by omega),
      hbase (by omega)]
  · rw [hlast (by norm_num), he₄ (by norm_num), he₃, if_neg (by norm_num), he₂,
      if_neg (by norm_num)]
    exact hm₁.entry hal hne (by norm_num)
  · rw [hlast (by norm_num), hself₄]
  · by_cases hi' : i = 1022
    · rw [if_pos hi', hi', entry_put32_self (by norm_num)]
    · rw [if_neg hi', entry_put32_of_ne _ hi', hscratch.same hm₄ hi, hbase hi']
  · exact (onlyIn_put32 hcr3 (by norm_num) 0 a ha).trans ((hm₄ a ha').trans (hm₁ a ha))

/-- What has been written adds up to a new directory. -/
theorem Spaces.newDir (h : Spaces K dirs c) (hN : Spare K dirs c N) {mem' : Bytes}
    (hf : Filled c N mem') : NewDir K dirs c N mem' := by
  refine ⟨hN, fun t ht i hi => ?_, hf.user, hf.kernel, hf.self⟩
  by_cases htc : t = c.cr3
  · rw [htc, hf.current i hi]
    exact if_congr (by simp) rfl rfl
  · rw [if_neg fun he => htc he.1]
    have hal := h.aligned ht
    refine Bytes.get32_congr fun a h₁ h₂ => ?_
    have ha : frameOf a = t := by
      unfold Aligned at hal
      unfold frameOf
      omega
    exact hf.other a (ha ▸ htc) (ha ▸ fun he => hN.not_isTable (he ▸ ht))

/-- **`vmm_create_address_space`** writes what `Filled` says, or has found no frame. -/
theorem spec_createFilled (hA : Known b A) (hpd : Settled b A c (windowPage 1023))
    (hok : c.rest.Ok) (hself : SelfMapped c.mem c.cr3)
    (hused : testBit (c.cr3 / pageSize) c.rest.bitmap = true)
    (hoff : b = true → ∀ n, Takes c.rest n (pmmAllocPage c.rest).1 (pmmAllocPage c.rest).2 →
      OffKernel c (pmmAllocPage c.rest).1 ∧ OffKernel c c.cr3) :
    Spec b A c vmmCreateAddressSpace A (fun N c' => N = (pmmAllocPage c.rest).1 ∧
      (N = 0 ∧ c' = c ∨ N ≠ 0 ∧ (∃ n, Takes c.rest n N c'.rest) ∧
        c'.rest = (pmmAllocPage c.rest).2 ∧ c'.cr3 = c.cr3 ∧ Filled c N c'.mem)) F := by
  unfold vmmCreateAddressSpace
  refine (spec_onRest (R := fun N c' => N = (pmmAllocPage c.rest).1 ∧
    c' = { c with rest := (pmmAllocPage c.rest).2 }) pmmAllocPage ⟨rfl, rfl⟩).bind ?_
  rintro N _ ⟨hN, rfl⟩
  obtain ⟨n, ht⟩ | ⟨he, -⟩ := hok.alloc
  · rw [← hN] at ht hoff
    obtain ⟨-, hal, hlt⟩ := frame_of_takes hok ht
    have hpd₁ : Settled b A { c with rest := (pmmAllocPage c.rest).2 } (windowPage 1023) := hpd
    rw [if_neg (ht.ne_zero hok)]
    dsimp only
    rw [kernelEntry_eq hal]
    refine (spec_fillDirectory hA hpd₁ hself hal hlt (ne_of_takes hok ht hused).symm
      fun hb => hoff hb n ht).post ?_
    rintro _ _ ⟨rfl, mem', rfl, hf⟩
    exact ⟨hN, .inr ⟨ht.ne_zero hok, ⟨n, ht⟩, rfl, rfl,
      ⟨hf.user, hf.kernel, hf.scratch, hf.self, hf.current, hf.other⟩⟩⟩
  · rw [he] at hN ⊢
    rw [if_pos hN]
    exact spec_pure ⟨rfl, .inl ⟨rfl, rfl⟩⟩

theorem spec_vmmCreateAddressSpace (hA : Known b A) (hpd : Settled b A c (windowPage 1023))
    (h : Spaces K dirs c) :
    Spec b A c vmmCreateAddressSpace A (fun N c' =>
      ((pmmAllocPage c.rest).1 = 0 ∧ N = 0 ∧ c' = c) ∨
      N ≠ 0 ∧ N ∉ dirs ∧ Spaces K (N :: dirs) c' ∧ c'.cr3 = c.cr3 ∧
        Leaves (fun _ => True) K dirs c (N :: dirs) c' ∧ c'.rest = (pmmAllocPage c.rest).2) F := by
  refine (spec_createFilled hA hpd h.pmm (h.self _ h.current)
    (h.used (.dir c.cr3) _ ⟨h.current, rfl⟩) fun _ n ht => ⟨h.offKernel (h.take ht).2.apart,
      h.offKernel h.current_apart⟩).post ?_
  rintro N ⟨mem', cr3, p'⟩ ⟨hN, ⟨h0, hc⟩ | ⟨hN0, ⟨n, ht⟩, hrest, hcr3, hfill⟩⟩
  · exact .inl ⟨hN ▸ h0, h0, hc⟩
  dsimp only at ht hrest hcr3 hfill
  subst hcr3
  obtain ⟨h₁, hsp⟩ := h.take ht
  have hfill₁ : Filled { c with rest := p' } N mem' :=
    ⟨hfill.user, hfill.kernel, hfill.scratch, hfill.self, hfill.current, hfill.other⟩
  have hnew := h₁.newDir hsp hfill₁
  refine .inr ⟨hN0, hnew.not_mem, hnew.spaces h₁, rfl, ?_, hrest⟩
  exact Leaves.after_take h ht ((hnew.leaves h₁ hfill₁.other).of_spare fun _ hf _ => hf.2)

/-- **`vmm_switch_address_space`.** What survives in the cache is global. -/
theorem spec_vmmSwitchAddressSpace (A' : Stale) {d : ℕ} (h : Spaces K dirs c) (hd : d ∈ dirs)
    (hst : b = true → ∀ p t, t.isGlobal = true → (lookup c.mem c.cr3 p = some t ∨ t ∈ A p) →
      lookup c.mem d p = some t ∨ t ∈ A' p) :
    Spec b A c (vmmSwitchAddressSpace d) A'
      (fun _ c' => c' = { c with cr3 := d } ∧ Spaces K dirs c') F := by
  have h' : Spaces K dirs { c with cr3 := d } := { h with current := hd }
  have hne : d ≠ 0 := h.nonzero (.dir d) d ⟨hd, rfl⟩
  unfold vmmSwitchAddressSpace
  rw [if_pos hne]
  refine (spec_writeCr3 d hst (Q := fun _ c' => c' = { c with cr3 := d }) rfl).bind ?_
  rintro _ _ rfl
  refine (spec_readCr3 (Q := fun r c' => r = d ∧ c' = { c with cr3 := d }) ⟨rfl, rfl⟩).bind ?_
  rintro _ _ ⟨rfl, rfl⟩
  exact spec_writeCr3 _ (fun _ _ _ _ h => h) ⟨rfl, h'⟩

end Create

end DvivonOS.Windows
