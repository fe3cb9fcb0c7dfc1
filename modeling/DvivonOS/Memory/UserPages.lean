import DvivonOS.Memory.KernelPages

/-!
# Allocating a user page

What `vmm_alloc_user_page_at` makes of every state and every address of the user half. The frame of
the page and that of its table are taken one after the other, and `vmm_map_user_page` has no result
to say that there was none for the table: the page is then cleared through an address that is not
mapped. A page that is mapped already gets a new frame, and nothing refers to the old one any more.
And the function clears 4096 bytes from the address on, not the page that it has mapped.
-/

namespace DvivonOS.Windows

open Paging

/-- Frame `f` is a directory, a table or a page of some address space, or a page of the kernel. -/
def Reachable (K : Kernel) (dirs : List ℕ) (mem : Bytes) (f : ℕ) : Prop :=
  (∃ u, Serves mem dirs u f) ∨ ∃ p, KernelSlot (p / 1024) ∧ kernelFrame K mem p = some f

/-- A successful allocation: the page has a clear frame that was free, all other translations below
the scratch window are as before in all address spaces, and no frame is lost. -/
structure Allocated (K : Kernel) (dirs : List ℕ) (c : View Pmm) (v : ℕ) (c' : View Pmm) : Prop where
  page : ∃ f, testBit (f / pageSize) c.rest.bitmap = false ∧
    (∃ g, lookup c'.mem c.cr3 (v / 4096) = some ⟨f, g⟩) ∧ ∀ a, frameOf a = f → c'.mem a = 0
  other : ∀ d ∈ dirs, ∀ p, p / 1024 < 1022 → ¬(d = c.cr3 ∧ p = v / 4096) →
    lookup c'.mem d p = lookup c.mem d p
  frames : ∀ f, Reachable K dirs c.mem f →
    Reachable K dirs c'.mem f ∨ testBit (f / pageSize) c'.rest.bitmap = false

/-- A failed one: the tables and the bitmap are as before. -/
structure Refused (K : Kernel) (dirs : List ℕ) (c c' : View Pmm) : Prop where
  tables : SameTables (IsTable K c.mem dirs) c.mem c'.mem
  bitmap : c'.rest.bitmap = c.rest.bitmap

/-- `vmm_alloc_user_page_at` returns, and does what its result says. -/
def AllocRight (K : Kernel) (dirs : List ℕ) (s : Mmu Pmm) (v : ℕ) : Prop :=
  ∃ r s', exec (vmmAllocUserPageAt v) s = (.ok r, s') ∧
    if r then Allocated K dirs s.toView v s'.toView else Refused K dirs s.toView s'.toView

/-! ## What is done -/

/-- The page of `v` in the user half of the current directory. -/
def pageUse (c : View Pmm) (v : ℕ) : Use := .page c.cr3 (v / 2 ^ 22) (v / 4096 % 1024)

/-- The page of `v` has been mapped to frame `f`. -/
structure NewPage (K : Kernel) (dirs : List ℕ) (c : View Pmm) (v f : ℕ) (c' : View Pmm) : Prop where
  spaces : Spaces K dirs c'
  cr3 : c'.cr3 = c.cr3
  page : Serves c'.mem dirs (pageUse c v) f
  other : ∀ d ∈ dirs, ∀ p, p / 1024 < 1022 → ¬(d = c.cr3 ∧ p = v / 4096) →
    lookup c'.mem d p = lookup c.mem d p
  keeps : ∀ u g, u ≠ pageUse c v → Serves c.mem dirs u g → Serves c'.mem dirs u g
  gone : ∀ g, Serves c.mem dirs (pageUse c v) g → ∀ u, ¬Serves c'.mem dirs u g
  marked : ∀ n, testBit n c.rest.bitmap = true → testBit n c'.rest.bitmap = true
  leaves : Leaves (· ≠ f) K dirs c dirs c'
  bytes : ∀ a, frameOf a = f → c'.mem a = c.mem a

section Lookup

variable {K : Kernel} {dirs : List ℕ} {c c₀ c' : View Pmm} {mem' : Bytes} {d p t i e f v : ℕ}

theorem Spaces.lookup_set (h : Spaces K dirs c)
    (hs : SetEntry (IsTable K c.mem dirs) t i e c.mem mem') (hd : d ∈ dirs) (hp : p / 1024 < 1022)
    (hdir : ¬(d = t ∧ p / 1024 = i))
    (htable : named c.mem d (p / 1024) = some t → p % 1024 ≠ i) :
    lookup mem' d p = lookup c.mem d p := by
  refine lookup_congr_entries (entry_of_ne hs hd (by omega) hdir) fun t' ht' => ?_
  rw [hs t' (h.isTable_of_named hd hp ht') _ (Nat.mod_lt _ (by norm_num)), if_neg]
  rintro ⟨rfl, hi⟩
  exact htable ht' hi

theorem TableReady.lookup (h : Spaces K dirs c) (hr : TableReady K dirs c i t c₀) (hd : d ∈ dirs)
    (hp : p / 1024 < 1022) : Paging.lookup c₀.mem d p = Paging.lookup c.mem d p := by
  cases hr with
  | old ht => rfl
  | new ht hn hm =>
    obtain ⟨h₁, -⟩ := h.take ht
    by_cases hslot : d = c.cr3 ∧ p / 1024 = i
    · obtain ⟨rfl, rfl⟩ := hslot
      obtain ⟨-, htable⟩ := named_eq_some (hn.named_slot h₁)
      have hpte : ¬IsPresent (entry _ t (p % 1024)) :=
        hn.clear _ (Nat.mod_lt _ (by norm_num)) ▸ not_present_zero
      simp only [Paging.lookup]
      rw [if_neg fun hboth => hpte (htable ▸ hboth.2), if_neg fun hboth => hn.empty hboth.1]
    · refine h₁.lookup_set hn.set hd hp hslot fun ht' => ?_
      exact absurd h.current (h.table_not_mem hd hp ht')

theorem lookup_of_serves {mem : Bytes} {i j : ℕ} (hs : Serves mem dirs (.page d i j) f) :
    ∃ g, lookup mem d (i * 1024 + j) = some ⟨f, g⟩ := by
  obtain ⟨-, -, hj, t, ht, hf⟩ := hs
  obtain ⟨hpde, rfl⟩ := named_eq_some ht
  obtain ⟨hpte, rfl⟩ := named_eq_some hf
  have hdiv : (i * 1024 + j) / 1024 = i := by omega
  have hmod : (i * 1024 + j) % 1024 = j := by omega
  simp only [lookup, hdiv, hmod]
  exact ⟨_, if_pos ⟨hpde, hpte⟩⟩

end Lookup

section NewPage

variable {K : Kernel} {dirs : List ℕ} {c c₀ c' : View Pmm} {t i f g v : ℕ} {u : Use}

theorem TableReady.serves (h : Spaces K dirs c) (hr : TableReady K dirs c i t c₀)
    (hu : Serves c.mem dirs u g) : Serves c₀.mem dirs u g := by
  cases hr with
  | old ht => exact hu
  | new ht hn hm => exact (hn.serves (h.take ht).1).mpr (Or.inl hu)

/-- The only use that is new is that of a table, of a frame without a use. -/
theorem TableReady.serves_cases (h : Spaces K dirs c) (hr : TableReady K dirs c i t c₀)
    (hu : Serves c₀.mem dirs u g) :
    Serves c.mem dirs u g ∨ u = .table c.cr3 i ∧ ∀ u', ¬Serves c.mem dirs u' g := by
  cases hr with
  | old ht => exact Or.inl hu
  | new ht hn hm =>
    obtain hu | ⟨rfl, rfl⟩ := (hn.serves (h.take ht).1).mp hu
    · exact Or.inl hu
    · exact Or.inr ⟨rfl, hn.spare.unserved⟩

theorem TableReady.marked (hr : TableReady K dirs c i t c₀) {n : ℕ}
    (hn : testBit n c.rest.bitmap = true) : testBit n c₀.rest.bitmap = true := by
  cases hr with
  | old ht => exact hn
  | new ht hn' hm =>
    show testBit n _ = true
    rw [ht.bits, hn, Bool.or_true]

theorem newPage_of_sets (h : Spaces K dirs c) (hf : Spare K dirs c f) (hv : v < 0xC0000000)
    (hr : TableReady K dirs c (v / 2 ^ 22) t c₀) (hs : SetsPage K dirs c₀ v t f 7 c') :
    NewPage K dirs c v f c' := by
  have h₀ := hr.spaces h
  have hf₀ := hr.spare h hf
  have hcr3 := hr.cr3
  have hframe : frameOf (f + 7) = f := frameOf_add hf.aligned (by norm_num)
  obtain ⟨h', hcr3', hl⟩ := hs.keeps h₀ hf₀ (by norm_num)
  have huse : Use.page c₀.cr3 (v / 2 ^ 22) (v / 4096 % 1024) = pageUse c v := by
    rw [hcr3]
    rfl
  have hserves {u : Use} {g : ℕ} : Serves c'.mem dirs u g ↔
      if u = pageUse c v then g = f else Serves c₀.mem dirs u g := by
    rw [hs.set.serves h₀, huse, hframe, and_iff_right (isPresent_add hf.aligned rfl)]
  refine ⟨h', hcr3'.trans hcr3, hserves.mpr (by rw [if_pos rfl]), fun d hd p hp hne => ?_,
    fun u g hu hg => ?_, fun g hg u hu => ?_, fun n hn => ?_, ?_, fun a ha => ?_⟩
  · rw [← hr.lookup h hd hp]
    obtain ⟨hcur, hslot, htable⟩ := hs.set.table
    refine h₀.lookup_set hs.set.set hd hp (fun he => ?_) fun ht' hj => hne ?_
    · exact hs.set.ne_dir h₀ hd he.1
    · by_cases hu : p / 1024 < 768
      · have hsame := h₀.unique (.table d (p / 1024)) _ t ⟨hd, hu, ht'⟩ hs.set.table
        obtain ⟨rfl, hi⟩ := Use.table.inj hsame
        exact ⟨hcr3, by omega⟩
      · have hk : KernelSlot (p / 1024) := ⟨by omega, hp⟩
        rw [h₀.kernel d hd _ hk] at ht'
        exact absurd (Option.some.inj ht').symm (h₀.apart _ hk _ t hs.set.table)
  · rw [hserves, if_neg hu]
    exact hr.serves h hg
  · rw [hserves] at hu
    split_ifs at hu with he
    · exact hf.unserved _ (hu ▸ hg)
    · obtain hu | ⟨-, hnone⟩ := hr.serves_cases h hu
      · exact he (h.unique _ _ g hu hg)
      · exact hnone _ hg
  · rw [hs.view]
    exact hr.marked hn
  · exact ((hr.leaves h).of_spare fun _ _ _ => trivial).trans hl
  · have hne : frameOf a ≠ t := by
      rw [ha]
      rintro rfl
      exact hf₀.unserved _ hs.set.table
    exact (hs.only a hne).trans ((hr.leaves h).bytes f trivial hf a ha)

theorem NewPage.lookup (hn : NewPage K dirs c v f c') :
    ∃ g, Paging.lookup c'.mem c.cr3 (v / 4096) = some ⟨f, g⟩ := by
  obtain ⟨g, hg⟩ := lookup_of_serves hn.page
  rw [show v / 2 ^ 22 * 1024 + v / 4096 % 1024 = v / 4096 by omega] at hg
  exact ⟨g, hg⟩

end NewPage

/-! ## The call -/

/-- The page of `v` has a table, or there is a frame for one behind the frame for the page. -/
def Room (c : View Pmm) (v : ℕ) : Prop :=
  IsPresent (entry c.mem c.cr3 (v / 2 ^ 22)) ∨ (pmmAllocPage (pmmAllocPage c.rest).2).1 ≠ 0

/-- The bytes behind the page that are cleared for an address inside of it are mapped. -/
def NextMapped (c : View Pmm) (v : ℕ) : Prop :=
  v % 4096 = 0 ∨ lookup c.mem c.cr3 (v / 4096 + 1) ≠ none

/-- The page has been mapped and the 4096 bytes from `v` on have been cleared. -/
structure ClearedPage (K : Kernel) (dirs : List ℕ) (c : View Pmm) (v f : ℕ) (c' : View Pmm) :
    Prop where
  mapped : ∃ c₂, NewPage K dirs c v f c₂ ∧ c' = { c₂ with mem := c'.mem } ∧
    SameTables (IsTable K c₂.mem dirs) c₂.mem c'.mem ∧ Cleared v 4096 c₂ c'.mem

section Call

variable {K : Kernel} {dirs : List ℕ} {A : Stale} {c c' : View Pmm} {v f : ℕ}

theorem Spaces.not_isTable (h : Spaces K dirs c) (hv : v < 0xC0000000)
    (hgap : ∀ f, GapFrame K c.mem f → Spare K dirs c f) (i : ℕ) (hi : i < 4096) (t : Translation)
    (ht : lookup c.mem c.cr3 ((v + i) / 4096) = some t) : ¬IsTable K c.mem dirs t.frame := by
  obtain hu | ⟨-, hu⟩ := h.user_pages hv hi ht
  · exact h.page_not_isTable hu
  · exact (hgap _ hu).not_isTable

theorem spec_clearPage (hn : NewPage K dirs c v f c') (hv : v < 0xC0000000)
    (hgap : ∀ g, GapFrame K c.mem g → Spare K dirs c g ∧ g ≠ f) :
    Spec false A c' (memset v 0 pageSize) A
      (fun _ c'' => NextMapped c v ∧ ClearedPage K dirs c v f c'') (fun _ => ¬NextMapped c v) := by
  have hgap' (g : ℕ) (hg : GapFrame K c'.mem g) : Spare K dirs c' g := by
    obtain ⟨hsp, hne⟩ := hgap g (hn.leaves.kernel.gap.symm.trans hg)
    exact hn.leaves.spare g hne hsp
  have hnext : lookup c'.mem c.cr3 (v / 4096 + 1) = lookup c.mem c.cr3 (v / 4096 + 1) :=
    hn.other _ (hn.cr3 ▸ hn.spaces.current) _ (by omega) (by omega)
  obtain ⟨g, hpage⟩ := hn.lookup
  -- the bytes of the page are mapped, the others are on the next one
  have hbehind {i : ℕ} (hi : i < 4096) (hnone : lookup c'.mem c'.cr3 ((v + i) / 4096) = none) :
      ¬NextMapped c v := by
    have hnot : (v + i) / 4096 ≠ v / 4096 := by
      intro he
      rw [he, hn.cr3, hpage] at hnone
      cases hnone
    rw [show (v + i) / 4096 = v / 4096 + 1 by omega, hn.cr3, hnext] at hnone
    rintro (halign | hsome)
    · omega
    · exact hsome hnone
  have hspec := spec_memset_data (F := fun _ => ¬NextMapped c v) (known_false A) hn.spaces
    (v := v) (by omega) (by simp) (hn.spaces.not_isTable hv hgap') fun mem' _ hsome => by
      obtain ⟨i, hi, hnone⟩ := hsome
      exact hbehind hi hnone
  refine (spec_anyCache A hspec).post ?_
  rintro _ _ ⟨mem', rfl, hs, hclear⟩
  refine ⟨?_, c', hn, rfl, hs, hclear⟩
  by_cases halign : v % 4096 = 0
  · exact Or.inl halign
  · obtain ⟨t, ht, -⟩ := hclear.zero (4096 - v % 4096) (by omega)
    rw [show (v + (4096 - v % 4096)) / 4096 = v / 4096 + 1 by omega, hn.cr3, hnext] at ht
    refine Or.inr ?_
    rw [ht]
    exact Option.some_ne_none t

section

variable (h : Spaces K dirs c) (hv : v < 0xC0000000)
  (hgap : ∀ g, GapFrame K c.mem g → Spare K dirs c g)

include h hv hgap

/-- Without a frame for its table the page is not mapped, and clearing it stops at once. -/
theorem spec_clearUnmapped
    (hempty : ¬IsPresent (entry c.mem c.cr3 (v / 2 ^ 22))) :
    Spec false A c (memset v 0 pageSize) A (fun _ _ => False) fun _ => True := by
  have hspec := spec_memset_data (F := fun _ => True) (known_false A) h (v := v) (by omega)
    (by simp) (h.not_isTable hv hgap) fun _ _ _ => trivial
  refine (spec_anyCache A hspec).mono ?_ fun _ hc => hc
  rintro _ _ ⟨mem', -, -, hclear⟩
  obtain ⟨t, ht, -⟩ := hclear.zero 0 (by norm_num)
  rw [Nat.add_zero, lookup_of_address, if_neg fun hboth => hempty hboth.1] at ht
  cases ht

/-- **`vmm_alloc_user_page_at`**: every way it can go. -/
theorem spec_allocUser :
    Spec false A c (vmmAllocUserPageAt v) A
      (fun r c' => r = false ∧ (pmmAllocPage c.rest).1 = 0 ∧ c' = c ∨
        r = true ∧ (pmmAllocPage c.rest).1 ≠ 0 ∧ Room c v ∧ NextMapped c v ∧
          ∃ n, Takes c.rest n (pmmAllocPage c.rest).1 (pmmAllocPage c.rest).2 ∧
            ClearedPage K dirs { c with rest := (pmmAllocPage c.rest).2 } v
              (pmmAllocPage c.rest).1 c')
      (fun _ => (pmmAllocPage c.rest).1 ≠ 0 ∧ ¬(Room c v ∧ NextMapped c v)) := by
  unfold vmmAllocUserPageAt
  refine (spec_onRest (R := fun f c' => f = (pmmAllocPage c.rest).1 ∧
    c' = { c with rest := (pmmAllocPage c.rest).2 }) pmmAllocPage ⟨rfl, rfl⟩).bind ?_
  rintro f c₁ ⟨hf, hc₁⟩
  obtain ⟨n, ht⟩ | ⟨he, -⟩ := h.pmm.alloc
  · obtain ⟨h₁, hsp⟩ := h.take ht
    have hf0 := ht.ne_zero h.pmm
    rw [hc₁, hf, if_neg hf0]
    have hgap₁ (g : ℕ) (hg : GapFrame K c.mem g) :
        Spare K dirs { c with rest := (pmmAllocPage c.rest).2 } g ∧ g ≠ (pmmAllocPage c.rest).1 :=
      (hgap g hg).take h ht
    refine (spec_anyCache A (spec_mapUserPage_cases (known_false A) (settled_false _ _ _) h₁ hv hsp
      (by simp))).bind ?_
    rintro _ c₂ (⟨hempty, hfull, hc₂⟩ | ⟨hroom, t, c₀, hr, hs⟩)
    · rw [hc₂]
      have hnot : ¬Room c v := not_or.mpr ⟨hempty, not_not.mpr hfull⟩
      have hstop : Spec false A _ (memset v 0 pageSize) A (fun _ _ => False)
          fun _ => (pmmAllocPage c.rest).1 ≠ 0 ∧ ¬(Room c v ∧ NextMapped c v) :=
        (spec_clearUnmapped h₁ hv (fun g hg => (hgap₁ g hg).1) hempty).mono
          (fun _ _ hfalse => False.elim hfalse) fun _ _ => ⟨hf0, fun hboth => hnot hboth.1⟩
      exact hstop.bind fun _ _ hfalse => hfalse.elim
    · have hn := newPage_of_sets h₁ hsp hv hr hs
      refine Spec.bind ((spec_clearPage hn hv hgap₁).mono (fun _ _ hc => ⟨steps_false A A _ _, hc⟩)
        fun _ hnot => ⟨hf0, fun hboth => hnot hboth.2⟩) ?_
      rintro _ c₃ ⟨hnext, hclear⟩
      exact spec_pure (Or.inr ⟨rfl, hf0, hroom, hnext, n, ht, hclear⟩)
  · have hzero : (pmmAllocPage c.rest).1 = 0 := by rw [he]
    rw [hf, if_pos hzero, hc₁, he]
    exact spec_pure (Or.inl ⟨rfl, rfl, rfl⟩)

end

end Call

/-! ## What is left -/

section Outcome

variable {K : Kernel} {dirs : List ℕ} {c c' : View Pmm} {v f a : ℕ}

section ClearedPage

variable (h : ClearedPage K dirs c v f c')

include h

theorem ClearedPage.serves :
    ∃ c₂, NewPage K dirs c v f c₂ ∧ ∀ u g, Serves c'.mem dirs u g ↔ Serves c₂.mem dirs u g := by
  obtain ⟨c₂, hn, -, hs, -⟩ := h.mapped
  exact ⟨c₂, hn, fun u g => hs.user.serves⟩

theorem ClearedPage.kernel : SameKernel K c.mem c'.mem := by
  obtain ⟨c₂, hn, -, hs, -⟩ := h.mapped
  exact hn.leaves.kernel.trans fun t ht => hs t (.inr ht)

theorem ClearedPage.lookup {d p : ℕ} (hd : d ∈ dirs) (hp : p / 1024 < 1022)
    (hne : ¬(d = c.cr3 ∧ p = v / 4096)) : Paging.lookup c'.mem d p = Paging.lookup c.mem d p := by
  obtain ⟨c₂, hn, -, hs, -⟩ := h.mapped
  exact (hn.spaces.lookup_same hd hp hs).trans (hn.other d hd p hp hne)

theorem ClearedPage.lookup_page (hv : v < 0xC0000000) :
    ∃ g, Paging.lookup c'.mem c.cr3 (v / 4096) = some ⟨f, g⟩ := by
  obtain ⟨c₂, hn, -, hs, -⟩ := h.mapped
  obtain ⟨g, hg⟩ := hn.lookup
  exact ⟨g, (hn.spaces.lookup_same (hn.cr3 ▸ hn.spaces.current) (by omega) hs).trans hg⟩

theorem ClearedPage.marked {n : ℕ} (hn : testBit n c.rest.bitmap = true) :
    testBit n c'.rest.bitmap = true := by
  obtain ⟨c₂, hn₂, hc', -⟩ := h.mapped
  rw [hc']
  exact hn₂.marked n hn

theorem ClearedPage.zero (ha : frameOf a = f) (hoff : v % 4096 ≤ a % 4096) : c'.mem a = 0 := by
  obtain ⟨c₂, hn, -, -, hclear⟩ := h.mapped
  obtain ⟨g, hg⟩ := hn.lookup
  obtain ⟨t, ht, hz⟩ := hclear.zero (a % 4096 - v % 4096) (by omega)
  rw [show (v + (a % 4096 - v % 4096)) / 4096 = v / 4096 by omega, hn.cr3, hg] at ht
  cases ht
  have haddr : f + (v + (a % 4096 - v % 4096)) % 4096 = a := by
    unfold frameOf at ha
    omega
  rwa [haddr] at hz

theorem ClearedPage.stale (hv : v < 0xC0000000) (hgap : ∀ g, GapFrame K c.mem g → g ≠ f)
    (ha : frameOf a = f) (hoff : a % 4096 < v % 4096) : c'.mem a = c.mem a := by
  obtain ⟨c₂, hn, -, -, hclear⟩ := h.mapped
  obtain ⟨g, hg⟩ := hn.lookup
  refine (hclear.other a fun i hi t ht he => ?_).trans (hn.bytes a ha)
  by_cases hpage : (v + i) / 4096 = v / 4096
  · rw [hpage, hn.cr3, hg] at ht
    cases ht
    have hle : v % 4096 ≤ (v + i) % 4096 := by omega
    dsimp only [frameOf] at he ha
    omega
  · -- the frame of the next page is another one
    have hne : t.frame ≠ f := by
      rintro rfl
      obtain hu | ⟨-, hu⟩ := hn.spaces.user_pages hv hi ht
      · obtain ⟨-, hj, hk⟩ := Use.page.inj (hn.spaces.unique _ _ _ hu hn.page)
        omega
      · exact hgap _ (hn.leaves.kernel.gap.symm.trans hu) rfl
    have hframe : frameOf (t.frame + (v + i) % 4096) = t.frame :=
      frameOf_add (aligned_of_lookup ht) (Nat.mod_lt _ (by norm_num))
    rw [← he, ha] at hframe
    exact hne hframe.symm

theorem ClearedPage.gone {g : ℕ} (hg : Serves c.mem dirs (pageUse c v) g) {u : Use} :
    ¬Serves c'.mem dirs u g := by
  obtain ⟨c₂, hn, hs⟩ := h.serves
  rw [hs]
  exact hn.gone g hg u

theorem ClearedPage.keeps {g : ℕ} {u : Use} (hu : u ≠ pageUse c v) (hg : Serves c.mem dirs u g) :
    Serves c'.mem dirs u g := by
  obtain ⟨c₂, hn, hs⟩ := h.serves
  exact (hs u g).mpr (hn.keeps u g hu hg)

end ClearedPage

/-- A frame that the page has had is not lost: the kernel maps it too. -/
def OldShared (K : Kernel) (c : View Pmm) (v : ℕ) : Prop :=
  ∀ t, Paging.lookup c.mem c.cr3 (v / 4096) = some t →
    ∃ q, KernelSlot (q / 1024) ∧ kernelFrame K c.mem q = some t.frame

theorem ClearedPage.frames_iff (h : Spaces K dirs c) (hcp : ClearedPage K dirs c v f c')
    (hv : v < 0xC0000000) :
    (∀ g, Reachable K dirs c.mem g →
      Reachable K dirs c'.mem g ∨ testBit (g / pageSize) c'.rest.bitmap = false) ↔
    OldShared K c v := by
  have hkernel {q : ℕ} (hq : KernelSlot (q / 1024)) :
      kernelFrame K c'.mem q = kernelFrame K c.mem q := kernelFrame_congr hcp.kernel hq
  constructor
  · intro hframes t ht
    have hserve : Serves c.mem dirs (pageUse c v) t.frame := by
      have hpage := h.user_page (by omega) ht
      rwa [Nat.div_div_eq_div_mul] at hpage
    obtain (⟨u, hu⟩ | ⟨q, hq, hk⟩) | hfree := hframes t.frame (Or.inl ⟨_, hserve⟩)
    · exact absurd hu (hcp.gone hserve)
    · exact ⟨q, hq, (hkernel hq).symm.trans hk⟩
    · rw [hcp.marked (h.used _ _ hserve)] at hfree
      cases hfree
  · intro hold g hg
    have hshared {q : ℕ} (hq : KernelSlot (q / 1024)) (hk : kernelFrame K c.mem q = some g) :
        Reachable K dirs c'.mem g := Or.inr ⟨q, hq, (hkernel hq).trans hk⟩
    obtain ⟨u, hu⟩ | ⟨q, hq, hk⟩ := hg
    · by_cases he : u = pageUse c v
      · rw [he] at hu
        obtain ⟨b, hlook⟩ := lookup_of_serves hu
        rw [show v / 2 ^ 22 * 1024 + v / 4096 % 1024 = v / 4096 by omega] at hlook
        obtain ⟨q, hq, hk⟩ := hold _ hlook
        exact Or.inl (hshared hq hk)
      · exact Or.inl (Or.inl ⟨u, hcp.keeps he hu⟩)
    · exact Or.inl (hshared hq hk)

theorem ClearedPage.zero_iff (hcp : ClearedPage K dirs c v f c') (hv : v < 0xC0000000)
    (hgap : ∀ g, GapFrame K c.mem g → g ≠ f) (hal : Aligned f) :
    (∀ a, frameOf a = f → c'.mem a = 0) ↔ ∀ i < v % 4096, c.mem (f + i) = 0 := by
  constructor
  · intro hzero i hi
    have hframe : frameOf (f + i) = f := frameOf_add hal (by omega)
    rw [← hcp.stale hv hgap hframe (by unfold Aligned at hal; omega)]
    exact hzero _ hframe
  · intro hbytes a ha
    by_cases hoff : a % 4096 < v % 4096
    · rw [hcp.stale hv hgap ha hoff, show a = f + a % 4096 by unfold frameOf at ha; omega]
      exact hbytes _ hoff
    · exact hcp.zero ha (by omega)

theorem ClearedPage.allocated_iff {n : ℕ} {p' : Pmm} (h : Spaces K dirs c)
    (ht : Takes c.rest n f p') (hcp : ClearedPage K dirs { c with rest := p' } v f c')
    (hv : v < 0xC0000000) (hgap : ∀ g, GapFrame K c.mem g → g ≠ f) :
    Allocated K dirs c v c' ↔ OldShared K c v ∧ ∀ i < v % 4096, c.mem (f + i) = 0 := by
  obtain ⟨h₁, hsp⟩ := h.take ht
  have hframes := hcp.frames_iff h₁ hv
  have hzero := hcp.zero_iff hv hgap hsp.aligned
  obtain ⟨g, hg⟩ := hcp.lookup_page hv
  constructor
  · intro ha
    obtain ⟨f', -, ⟨g', hg'⟩, hclear⟩ := ha.page
    cases hg.symm.trans hg'
    exact ⟨hframes.mp ha.frames, hzero.mp hclear⟩
  · rintro ⟨hold, hbytes⟩
    refine ⟨⟨f, ?_, ⟨g, hg⟩, hzero.mpr hbytes⟩, fun d hd p hp hne => hcp.lookup hd hp hne,
      hframes.mpr hold⟩
    rw [ht.addr, Nat.mul_div_cancel _ (by norm_num [pageSize])]
    exact ht.clear

end Outcome

/-- **`vmm_alloc_user_page_at`** does what it says exactly when there is no frame for the page, or
one for its table too, no frame is lost, and no byte of the page is behind an address inside of it
or before it. -/
theorem alloc_user_right_iff {K : Kernel} {dirs : List ℕ} {s : Mmu Pmm} {v : ℕ} (hs : NoCache s)
    (h : Spaces K dirs s.toView) (hgap : ∀ g, GapFrame K s.mem g → Spare K dirs s.toView g)
    (hv : v < kernelHigherHalf) :
    AllocRight K dirs s v ↔ (pmmAllocPage s.rest).1 = 0 ∨
      Room s.toView v ∧ OldShared K s.toView v ∧ (v % 4096 = 0 ∨
        lookup s.mem s.cr3 (v / 4096 + 1) ≠ none ∧
          ∀ i < v % 4096, s.mem ((pmmAllocPage s.rest).1 + i) = 0) := by
  have hv' : v < 0xC0000000 := hv
  obtain ⟨hok, herr⟩ := spec_noCache (spec_allocUser (A := fun _ => ∅) h hv' hgap) hs
  have hbytes : NextMapped s.toView v →
      ((∀ i < v % 4096, s.mem ((pmmAllocPage s.rest).1 + i) = 0) ↔ (v % 4096 = 0 ∨
        lookup s.mem s.cr3 (v / 4096 + 1) ≠ none ∧
          ∀ i < v % 4096, s.mem ((pmmAllocPage s.rest).1 + i) = 0)) := by
    rintro (halign | hnext)
    · exact iff_of_true (fun i hi => by omega) (Or.inl halign)
    · refine ⟨fun hb => Or.inr ⟨hnext, hb⟩, ?_⟩
      rintro (halign | ⟨-, hb⟩)
      · exact fun i hi => by omega
      · exact hb
  cases hx : exec (vmmAllocUserPageAt v) s with
  | mk r s' =>
    cases r with
    | error e =>
      obtain ⟨hf0, hnot⟩ := herr e s' hx
      refine iff_of_false ?_ ?_
      · rintro ⟨r, s'', hx', -⟩
        cases hx.symm.trans hx'
      · rintro (hzero | ⟨hroom, -, halign | ⟨hnext, -⟩⟩)
        · exact hf0 hzero
        · exact hnot ⟨hroom, Or.inl halign⟩
        · exact hnot ⟨hroom, Or.inr hnext⟩
    | ok r =>
      have hright : AllocRight K dirs s v ↔ if r then Allocated K dirs s.toView v s'.toView
          else Refused K dirs s.toView s'.toView := by
        refine ⟨?_, fun hr => ⟨r, s', hx, hr⟩⟩
        rintro ⟨r', s'', hx', hr⟩
        cases hx.symm.trans hx'
        exact hr
      rw [hright]
      obtain ⟨-, ⟨rfl, hzero, hsame⟩ | ⟨rfl, hf0, hroom, hnext, n, ht, hcp⟩⟩ := hok r s' hx
      · refine iff_of_true ?_ (Or.inl hzero)
        rw [hsame]
        exact ⟨fun _ _ _ _ => rfl, rfl⟩
      · rw [or_iff_right hf0, and_iff_right hroom, ← hbytes hnext]
        exact hcp.allocated_iff h ht hv' fun g hg => ((hgap g hg).take h ht).2

/-! The sample machine, and one with a single free frame. -/

theorem booted_gap {tables : ℕ} {c : View Pmm} (h : Booted tables c) {K : Kernel} {dirs : List ℕ}
    (hK : K.table 768 = tables) (g : ℕ) (hg : GapFrame K c.mem g) : Spare K dirs c g := by
  have hempty : ¬IsPresent (entry c.mem tables 0) := by
    rw [h.gap]
    exact not_present_zero
  unfold GapFrame at hg
  rw [hK, named_of_not_present hempty] at hg
  cases hg

theorem alloc_user_right_sample :
    AllocRight (bootKernel 0x201000 0x200000) [0x200000] sampleMachine 0x400000 := by
  refine (alloc_user_right_iff sampleMachine_noCache sampleView_booted.spaces
    (booted_gap sampleView_booted rfl) (by decide)).mpr (Or.inr ⟨Or.inr (by decide), ?_,
      Or.inl rfl⟩)
  intro t ht
  rw [lookup_of_address, if_neg] at ht
  · cases ht
  · rintro ⟨hpde, -⟩
    exact absurd hpde (sampleView_booted.user 1 (by norm_num) ▸ not_present_zero)

/-- All frames of the first 8 MiB are used, and one behind them is free. -/
def lastFramePmm : Pmm where
  bitmap w := if w < 64 then bitmapAllBitsSet else 0xFFFFFFFE
  usableEndWords := 65
  lastAlloc := 64

theorem lastFramePmm_used {n : ℕ} (hn : n < 2048) : testBit n lastFramePmm.bitmap = true := by
  refine testBit_all (if_pos ?_)
  unfold bitmapEntryBits
  omega

theorem lastFramePmm_ok : lastFramePmm.Ok :=
  ⟨by decide, by decide, by decide, lastFramePmm_used (by norm_num)⟩

def lastFrameMachine : Mmu Pmm := { sampleMachine with rest := lastFramePmm }

theorem lastFrameMachine_booted : Booted 0x201000 lastFrameMachine.toView :=
  booted_of_entries lastFramePmm_ok (fun _ hn => lastFramePmm_used hn)
    (fun _ hi => sampleMem_entry hi) sampleMem_gap

/-- With one free frame and no table for the page the call ends in a page fault. -/
theorem alloc_user_last_frame :
    Spaces (bootKernel 0x201000 0x200000) [0x200000] lastFrameMachine.toView ∧
    ¬∃ r s', exec (vmmAllocUserPageAt 0x400000) lastFrameMachine = (.ok r, s') := by
  have hboot := lastFrameMachine_booted
  refine ⟨hboot.spaces, ?_⟩
  rintro ⟨r, s', hx⟩
  have hspec := spec_allocUser (A := fun _ => ∅) (v := 0x400000) hboot.spaces (by norm_num)
    (booted_gap hboot rfl)
  obtain ⟨hok, -⟩ := spec_noCache (s := lastFrameMachine) hspec sampleMachine_noCache
  obtain ⟨-, ⟨-, hzero, -⟩ | ⟨-, -, hroom, -⟩⟩ := hok r s' hx
  · exact absurd hzero (by decide)
  · obtain hpde | hsecond := hroom
    · exact absurd hpde (hboot.user 1 (by norm_num) ▸ not_present_zero)
    · exact hsecond (by decide)

end DvivonOS.Windows
