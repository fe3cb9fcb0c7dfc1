import DvivonOS.Memory.NewDirectory

/-!
# Mapping a user page

`vmm_map_user_page` and `vmm_free_user_page` against the walk of the processor, with the rights of
both levels: the entry that is written through the window is the one the processor reads, and no
address of another page depends on it. This asks of the directory that no frame serves as two of its
tables, and that the tables of the user half can be written and used by the user: the function does
not look at the rights of a table that is there.
-/

namespace DvivonOS.Windows

open Paging

/-- The tables below the scratch slot are different used frames, none of them the directory, and
those of the user half are open to the user. -/
structure WellFormed (c : View Pmm) : Prop where
  table : ∀ i < 1022, ∀ t, named c.mem c.cr3 i = some t →
    t ≠ c.cr3 ∧ testBit (t / pageSize) c.rest.bitmap = true
  apart : ∀ i < 1022, ∀ j < 1022, ∀ t, named c.mem c.cr3 i = some t →
    named c.mem c.cr3 j = some t → i = j
  rights : ∀ i < 768, IsPresent (entry c.mem c.cr3 i) →
    isWritable (entry c.mem c.cr3 i) = true ∧ isUser (entry c.mem c.cr3 i) = true

/-- A used frame other than the first that is neither the directory nor one of its tables. -/
structure PageFrame (c : View Pmm) (f : ℕ) : Prop where
  aligned : Aligned f
  lt : f < 2 ^ 32
  nonzero : f ≠ 0
  used : testBit (f / pageSize) c.rest.bitmap = true
  not_directory : f ≠ c.cr3
  not_table : ∀ i < 1022, named c.mem c.cr3 i ≠ some f

/-! ## Entries and walks -/

/-- Slot `k` of the current directory names the table `t`, and no other slot does. -/
structure Slot (c : View Pmm) (k t : ℕ) : Prop where
  lt : k < 1022
  self : SelfMapped c.mem c.cr3
  named : named c.mem c.cr3 k = some t
  ne : t ≠ c.cr3
  other : ∀ i < 1022, i ≠ k → Windows.named c.mem c.cr3 i ≠ some t

section Walk

variable {c : View Pmm} {k t j e a : ℕ}

theorem pageWalk_congr {mem mem' : Bytes} {d : ℕ}
    (hpde : entry mem' d (a / 2 ^ 22) = entry mem d (a / 2 ^ 22))
    (hpte : ∀ t, named mem d (a / 2 ^ 22) = some t →
      entry mem' t (a / 4096 % 1024) = entry mem t (a / 4096 % 1024)) :
    pageWalk mem' d a = pageWalk mem d a := by
  simp only [pageWalk, hpde]
  by_cases hp : IsPresent (entry mem d (a / 2 ^ 22))
  · rw [hpte _ (named_of_present hp)]
  · rw [if_neg fun h => hp h.1, if_neg fun h => hp h.1]

/-- Setting entry `j` of the table in slot `k` changes the walk in one page. -/
theorem Slot.walk_set (h : Slot c k t) (hj : j < 1024) (he : e < 2 ^ 32) (ha : a < 0xFF800000) :
    pageWalk (c.mem.put32 (t + 4 * j) e) c.cr3 a =
      if a / 4096 = k * 1024 + j then
        if IsPresent e then
          some ⟨frameOf e + a % 4096, isWritable (entry c.mem c.cr3 k) && isWritable e,
            isUser (entry c.mem c.cr3 k) && isUser e⟩
        else none
      else pageWalk c.mem c.cr3 a := by
  obtain ⟨hp, ht⟩ := named_eq_some h.named
  have hal := aligned_of_named h.named
  have hdir {i : ℕ} (hi : i < 1024) :
      entry (c.mem.put32 (t + 4 * j) e) c.cr3 i = entry c.mem c.cr3 i :=
    (onlyIn_put32 hal hj e).entry h.self.aligned h.ne.symm hi
  split_ifs with hpage hpres
  · have hk : a / 2 ^ 22 = k := by omega
    have hj' : a / 4096 % 1024 = j := by omega
    simp only [pageWalk, hk, hj', hdir (show k < 1024 by have := h.lt; omega), ← ht,
      entry_put32_self he]
    exact if_pos ⟨hp, hpres⟩
  · have hk : a / 2 ^ 22 = k := by omega
    have hj' : a / 4096 % 1024 = j := by omega
    simp only [pageWalk, hk, hj', hdir (show k < 1024 by have := h.lt; omega), ← ht,
      entry_put32_self he]
    exact if_neg fun hboth => hpres hboth.2
  · refine pageWalk_congr (hdir (by omega)) fun t' ht' => ?_
    by_cases htt : t' = t
    · subst htt
      have hk : a / 2 ^ 22 = k := by
        by_contra hne
        exact h.other _ (by omega) hne ht'
      exact entry_put32_of_ne _ (by omega)
    · exact (onlyIn_put32 hal hj e).entry (aligned_of_named ht') htt (Nat.mod_lt _ (by norm_num))

theorem Slot.set (h : Slot c k t) (hj : j < 1024) :
    Slot { c with mem := c.mem.put32 (t + 4 * j) e } k t := by
  have hal := aligned_of_named h.named
  have hdir {i : ℕ} (hi : i < 1024) :
      entry (c.mem.put32 (t + 4 * j) e) c.cr3 i = entry c.mem c.cr3 i :=
    (onlyIn_put32 hal hj e).entry h.self.aligned h.ne.symm hi
  have hlt := h.lt
  refine ⟨h.lt, ?_, ?_, h.ne, fun i hi hne => ?_⟩
  · exact h.self.congr (hdir (by norm_num))
  · rw [named_congr (hdir (by omega))]
    exact h.named
  · rw [named_congr (hdir (by omega))]
    exact h.other i hi hne

/-- The new table: a clear frame in an empty slot of the user half. -/
def withTable (mem : Bytes) (d k T : ℕ) : Bytes := (mem.put32 (d + 4 * k) (T + 7)).fill T 0 4096

variable {T : ℕ} (hself : SelfMapped c.mem c.cr3) (hw : WellFormed c) (hT : Aligned T)
  (hlt : T < 2 ^ 32) (hne : T ≠ c.cr3) (hfree : ∀ i < 1022, named c.mem c.cr3 i ≠ some T)
  (hk : k < 768) (hempty : ¬IsPresent (entry c.mem c.cr3 k))

include hself hT hne in
theorem entry_withTable_of_ne {i : ℕ} (hi : i < 1024) (hik : i ≠ k) :
    entry (withTable c.mem c.cr3 k T) c.cr3 i = entry c.mem c.cr3 i := by
  unfold withTable
  rw [(onlyIn_fill hT 0 le_rfl).entry hself.aligned hne.symm hi, entry_put32_of_ne _ hik]

include hself hT hne hlt hk in
theorem entry_withTable_self : entry (withTable c.mem c.cr3 k T) c.cr3 k = T + 7 := by
  unfold withTable
  rw [(onlyIn_fill hT 0 le_rfl).entry hself.aligned hne.symm (by omega)]
  exact entry_put32_self (by unfold Aligned at hT; omega)

include hself hT hne hlt hk hfree in
theorem slot_withTable : Slot { c with mem := withTable c.mem c.cr3 k T } k T := by
  have hpde := entry_withTable_self hself hT hlt hne hk
  refine ⟨by omega, hself.congr (entry_withTable_of_ne hself hT hne (by norm_num) (by omega)),
    named_of_entry hpde hT (by norm_num) (by norm_num), hne, fun i hi hik => ?_⟩
  · rw [named_congr (entry_withTable_of_ne hself hT hne (by omega) hik)]
    exact hfree i hi

include hself hw hT hlt hne hfree hk hempty in
/-- A new table shows nothing that was not there before. -/
theorem walk_withTable (ha : a < 0xFF800000) :
    pageWalk (withTable c.mem c.cr3 k T) c.cr3 a = pageWalk c.mem c.cr3 a := by
  by_cases hak : a / 2 ^ 22 = k
  · have hpde := entry_withTable_self hself hT hlt hne hk
    have hpte : entry (withTable c.mem c.cr3 k T) T (a / 4096 % 1024) = 0 :=
      entry_fill_zero (Nat.mod_lt _ (by norm_num))
    simp only [pageWalk, hak, hpde, frameOf_add hT (show 7 < 4096 by norm_num), hpte]
    rw [if_neg fun h => not_present_zero h.2, if_neg fun h => hempty h.1]
  · refine pageWalk_congr (entry_withTable_of_ne hself hT hne (by omega) hak) fun t ht => ?_
    have hal := aligned_of_named ht
    have htT : t ≠ T := by
      rintro rfl
      exact hfree _ (by omega) ht
    have htc := (hw.table _ (by omega) t ht).1
    have hmod : a / 4096 % 1024 < 1024 := Nat.mod_lt _ (by norm_num)
    unfold withTable
    rw [(onlyIn_fill hT 0 le_rfl).entry hal htT hmod,
      (onlyIn_put32 hself.aligned (by omega) _).entry hal htc hmod]

end Walk

/-! ## The calls -/

/-- The walk of the page of `v` finds frame `p`, with the rights `w` to write and `u` of the user, and
that of every other address below the scratch window is as before. -/
structure MapsTo (w u : Bool) (c : View Pmm) (v p : ℕ) (c' : View Pmm) : Prop where
  cr3 : c'.cr3 = c.cr3
  page : ∀ a, a / 4096 = v / 4096 → pageWalk c'.mem c'.cr3 a = some ⟨p + a % 4096, w, u⟩
  other : ∀ a < 0xFF800000, a / 4096 ≠ v / 4096 → pageWalk c'.mem c'.cr3 a = pageWalk c.mem c.cr3 a

/-- The page of `v` is mapped to frame `p`, open to the user. -/
abbrev Mapped : View Pmm → ℕ → ℕ → View Pmm → Prop := MapsTo true true

/-- The page of `v` is not present, every other address is translated as before, and frame `p` is
free, as are those that were free before. -/
structure Unmapped (c : View Pmm) (v p : ℕ) (c' : View Pmm) : Prop where
  cr3 : c'.cr3 = c.cr3
  page : ∀ a, a / 4096 = v / 4096 → pageWalk c'.mem c'.cr3 a = none
  other : ∀ a < 0xFF800000, a / 4096 ≠ v / 4096 → pageWalk c'.mem c'.cr3 a = pageWalk c.mem c.cr3 a
  frames : ∀ n, testBit n c'.rest.bitmap = (!decide (n = p / pageSize) && testBit n c.rest.bitmap)

section Calls

variable {A : Stale} {c : View Pmm} {F : View Pmm → Prop} {v p t : ℕ}

theorem rights_add_seven (hp : Aligned p) :
    isWritable (p + 7) = true ∧ isUser (p + 7) = true := by
  unfold Aligned at hp
  unfold isWritable isUser
  rw [decide_eq_true_iff, decide_eq_true_iff]
  omega

/-- The entry of the page is set, with the table in its slot. The rights are those of the table. -/
theorem spec_setUserEntry (h : Slot c (v / 2 ^ 22) t) (hv : v < 0xC0000000) (hp : Aligned p)
    (hlt : p < 2 ^ 32) :
    Spec false A c (vmmSetPteAt ptsWindow v p (pagePresent ||| pageRw ||| pageUser)) A
      (fun _ c' => Slot c' (v / 2 ^ 22) t ∧ MapsTo (isWritable (entry c.mem c.cr3 (v / 2 ^ 22)))
        (isUser (entry c.mem c.cr3 (v / 2 ^ 22))) c v p c') F := by
  have hmod : v / 4096 % 1024 < 1024 := Nat.mod_lt _ (by norm_num)
  have he : p + 7 < 2 ^ 32 := by
    unfold Aligned at hp
    omega
  have hframe := hp.frameOf_eq
  obtain ⟨hwrite, huser⟩ := rights_add_seven hp
  refine (spec_vmmSetPteAt (known_false A) h.self (by omega) h.named h.ne (by decide) (by simp)).mono ?_
    fun _ hc => hc
  rintro _ _ rfl
  rw [userFlags, hframe]
  refine ⟨steps_false _ _ _ _, h.set hmod, rfl, fun a ha => ?_, fun a ha hne => ?_⟩
  · show pageWalk (c.mem.put32 _ _) c.cr3 a = _
    rw [h.walk_set hmod he (by omega), if_pos (by omega), if_pos (isPresent_add hp rfl),
      frameOf_add hp (by norm_num), hwrite, huser, Bool.and_true, Bool.and_true]
  · show pageWalk (c.mem.put32 _ _) c.cr3 a = _
    rw [h.walk_set hmod he ha, if_neg (by omega)]

theorem spec_mapPresent (h : Slot c (v / 2 ^ 22) t) (hv : v < 0xC0000000) (hp : Aligned p)
    (hlt : p < 2 ^ 32) :
    Spec false A c (vmmMapUserPage v p) A
      (fun _ c' => Slot c' (v / 2 ^ 22) t ∧ MapsTo (isWritable (entry c.mem c.cr3 (v / 2 ^ 22)))
        (isUser (entry c.mem c.cr3 (v / 2 ^ 22))) c v p c') F := by
  obtain ⟨hpres, -⟩ := named_eq_some h.named
  unfold vmmMapUserPage
  dsimp only
  rw [wordAt_pdWindow (by omega)]
  refine (spec_load_window h.self (by norm_num) (by omega) h.self.1 (settled_false _ _ _)).bind ?_
  rintro pde c₀ ⟨hc₀, hpde⟩
  rw [h.self.2] at hpde
  rw [hc₀, if_neg (not_not.mpr (hpde ▸ hpres))]
  exact spec_setUserEntry h hv hp hlt

section

variable (hok : c.rest.Ok) (hself : SelfMapped c.mem c.cr3)
  (hused : testBit (c.cr3 / pageSize) c.rest.bitmap = true) (hw : WellFormed c)

include hok hself hused hw

theorem spec_mapEmpty
    (hv : v < 0xC0000000) (hp : Aligned p) (hlt : p < 2 ^ 32)
    (hempty : ¬IsPresent (entry c.mem c.cr3 (v / 2 ^ 22))) (halloc : (pmmAllocPage c.rest).1 ≠ 0) :
    Spec false A c (vmmMapUserPage v p) A
      (fun _ c' => (∃ t, Slot c' (v / 2 ^ 22) t) ∧ Mapped c v p c') F := by
  unfold vmmMapUserPage
  dsimp only
  rw [wordAt_pdWindow (by omega)]
  refine (spec_load_window hself (by norm_num) (by omega) hself.1 (settled_false _ _ _)).bind ?_
  rintro pde c₀ ⟨hc₀, hpde⟩
  rw [hself.2] at hpde
  rw [hc₀, if_pos (hpde ▸ hempty)]
  refine (spec_allocPage hok).bind ?_
  rintro T c₁ (⟨hfull, -⟩ | ⟨hT0, ⟨n, ht⟩, hc₁⟩)
  · exact absurd hfull halloc
  rw [if_neg hT0, hc₁]
  obtain ⟨-, hal, hlt'⟩ := frame_of_takes hok ht
  have hne : T ≠ c.cr3 := (ne_of_takes hok ht hused).symm
  have hfree (i : ℕ) (hi : i < 1022) : named c.mem c.cr3 i ≠ some T := fun hT =>
    ne_of_takes hok ht (hw.table i hi T hT).2 rfl
  generalize (pmmAllocPage c.rest).2 = p' at ht ⊢
  refine spec_enterTable (c := { c with rest := p' }) (known_false A) (settled_false _ _ _) hself
    hv hal hlt' hne (by simp) hempty ?_
  have hslot := slot_withTable (c := { c with rest := p' }) (k := v / 2 ^ 22) hself hal hlt' hne
    hfree (by omega)
  obtain ⟨hwrite, huser⟩ := rights_add_seven hal
  rw [← entry_withTable_self (k := v / 2 ^ 22) hself hal hlt' hne (by omega)] at hwrite huser
  refine (spec_setUserEntry hslot hv hp hlt).post ?_
  rintro _ c' ⟨hslot', hmap⟩
  rw [hwrite, huser] at hmap
  refine ⟨⟨T, hslot'⟩, hmap.cr3, hmap.page, fun a ha hne' => ?_⟩
  exact (hmap.other a ha hne').trans
    (walk_withTable (c := c) hself hw hal hlt' hne hfree (by omega) hempty ha)

theorem spec_mapUserPage
    (hp : PageFrame c p) (hv : v < 0xC0000000)
    (hroom : IsPresent (entry c.mem c.cr3 (v / 2 ^ 22)) ∨ (pmmAllocPage c.rest).1 ≠ 0) :
    Spec false A c (vmmMapUserPage v p) A
      (fun _ c' => (∃ t, Slot c' (v / 2 ^ 22) t) ∧ Mapped c v p c') F := by
  by_cases hpres : IsPresent (entry c.mem c.cr3 (v / 2 ^ 22))
  · have hnamed := named_of_present hpres
    have hslot : Slot c (v / 2 ^ 22) _ := ⟨by omega, hself, hnamed,
      (hw.table _ (by omega) _ hnamed).1, fun i hi hne hi' =>
        hne (hw.apart i hi _ (by omega) _ hi' hnamed)⟩
    obtain ⟨hwrite, huser⟩ := hw.rights _ (by omega) hpres
    refine (spec_mapPresent hslot hv hp.aligned hp.lt).post ?_
    rintro _ c' ⟨hslot', hmap⟩
    rw [hwrite, huser] at hmap
    exact ⟨⟨_, hslot'⟩, hmap⟩
  · exact spec_mapEmpty hok hself hused hw hv hp.aligned hp.lt hpres (hroom.resolve_left hpres)

end

theorem spec_freeUserPage (h : Slot c (v / 2 ^ 22) t) (hv : v < 0xC0000000) (hp : Aligned p)
    (h0 : p ≠ 0) {w u : Bool} (hpage : pageWalk c.mem c.cr3 v = some ⟨p + v % 4096, w, u⟩) :
    Spec false A c (vmmFreeUserPage v) A (fun _ => Unmapped c v p) F := by
  have hmod : v / 4096 % 1024 < 1024 := Nat.mod_lt _ (by norm_num)
  have hlook := pageWalk_eq_lookup c.mem c.cr3 v
  rw [hpage, Option.map_some] at hlook
  unfold vmmFreeUserPage
  refine (spec_virtToPhys h.self (by omega) (settled_false _ _ _) (settled_false _ _ _)).bind ?_
  rintro a c₀ ⟨hc₀, ha⟩
  have ha' : a = p + v % 4096 := by rw [ha, ← hlook, Option.getD_some]
  rw [hc₀, if_pos (by omega)]
  unfold vmmUnmapPage
  refine (spec_vmmSetPteAt (known_false A) h.self (by omega) h.named h.ne (by norm_num)
    (by simp)).bind ?_
  rintro _ _ rfl
  refine (spec_onRest (R := fun _ c' => c' = { c with
    mem := c.mem.put32 (t + 4 * (v / 4096 % 1024)) (frameOf 0 + 0)
    rest := pmmFreePage c.rest a }) _ rfl).post ?_
  rintro _ _ rfl
  refine ⟨rfl, fun b hb => ?_, fun b hb hne => ?_, fun n => ?_⟩
  · show pageWalk (c.mem.put32 _ _) c.cr3 b = _
    have hempty : ¬IsPresent (frameOf 0 + 0) := not_present_zero
    rw [h.walk_set hmod (by decide) (by omega), if_pos (by omega), if_neg hempty]
  · show pageWalk (c.mem.put32 _ _) c.cr3 b = _
    rw [h.walk_set hmod (by decide) hb, if_neg (by omega)]
  · have hdiv : a / pageSize = p / pageSize := by
      unfold Aligned at hp
      unfold pageSize
      omega
    show testBit n (clearBit _ _) = _
    rw [testBit_clearBit, hdiv]

end Calls

/-! ## Every call -/

/-- The code's two ways to ask for a translation give that of the processor. -/
structure Agrees (s : Mmu Pmm) : Prop where
  phys : ∀ a < 2 ^ 32, ∃ s', s'.toView = s.toView ∧
    exec (vmmVirtToPhys a) s = (.ok (((pageWalk s.mem s.cr3 a).map (·.addr)).getD 0), s')
  mapped : ∀ a < 2 ^ 32, ∃ s', s'.toView = s.toView ∧
    exec (vmmIsMapped a) s = (.ok (pageWalk s.mem s.cr3 a).isSome, s')

theorem agrees_of_self {s : Mmu Pmm} (hs : NoCache s) (hself : SelfMapped s.mem s.cr3) :
    Agrees s := by
  constructor
  · intro a ha
    obtain ⟨r, s', hx, -, hview, hr⟩ := spec_returns (A := fun _ => ∅)
      (spec_virtToPhys hself ha (settled_false _ _ _) (settled_false _ _ _)) hs
    refine ⟨s', hview, ?_⟩
    rw [hx, pageWalk_eq_lookup, hr]
  · intro a ha
    obtain ⟨r, s', hx, -, hview, hr⟩ := spec_returns (A := fun _ => ∅)
      (spec_isMapped hself ha (settled_false _ _ _) (settled_false _ _ _)) hs
    refine ⟨s', hview, ?_⟩
    rw [hx, hr, ← Option.isSome_map (f := fun t => t.frame + a % 4096), ← pageWalk_eq_lookup,
      Option.isSome_map]

/-- **Mapping a user page.** From every well-formed directory, for every address of the user half and
every frame for a page, with the table of the page there or a frame for it: the walk then finds the
frame, no other translation has changed, the code and the processor agree on all of them, and
`vmm_free_user_page` takes the page and its frame back. -/
theorem map_user_page_right {s : Mmu Pmm} (h : Running s) (hw : WellFormed s.toView) {v p : ℕ}
    (hv : v < kernelHigherHalf) (hp : PageFrame s.toView p)
    (hroom : IsPresent (entry s.mem s.cr3 (v / 2 ^ 22)) ∨ (pmmAllocPage s.rest).1 ≠ 0) :
    ∃ s₁ s₂, exec (vmmMapUserPage v p) s = (.ok (), s₁) ∧ Mapped s.toView v p s₁.toView ∧
      Agrees s₁ ∧ exec (vmmFreeUserPage v) s₁ = (.ok (), s₂) ∧
      Unmapped s₁.toView v p s₂.toView := by
  have hv' : v < 0xC0000000 := hv
  obtain ⟨_, s₁, hx₁, hs₁, ⟨t, hslot⟩, hmap⟩ := spec_returns (A := fun _ => ∅)
    (spec_mapUserPage h.pmm h.self h.used hw hp hv' hroom) h.noCache
  obtain ⟨_, s₂, hx₂, -, hfree⟩ := spec_returns (A := fun _ => ∅)
    (spec_freeUserPage hslot hv' hp.aligned hp.nonzero (hmap.page v rfl)) hs₁
  exact ⟨s₁, s₂, hx₁, hmap, agrees_of_self hs₁ hslot.self, hx₂, hfree⟩

/-! The sample machine, and one with a table that is not open to the user. -/

theorem sampleMem_named {i t : ℕ} (hi : i < 1022) (ht : named sampleMem 0x200000 i = some t) :
    768 ≤ i ∧ t = 0x201000 + (i - 768) * pageSize := by
  obtain ⟨hp, rfl⟩ := named_eq_some ht
  rw [sampleMem_entry (by omega)] at hp ⊢
  unfold sampleEntry at hp ⊢
  split_ifs at hp ⊢ with hu
  · exact absurd hp not_present_zero
  · refine ⟨by omega, frameOf_add (aligned_kernelTable (show Aligned 0x201000 from rfl) i)
      (by norm_num)⟩

theorem sampleMachine_wellFormed : WellFormed sampleMachine.toView where
  table i hi t ht := by
    obtain ⟨hlo, heq⟩ := sampleMem_named hi ht
    unfold pageSize at heq
    refine ⟨show t ≠ 0x200000 by omega, samplePmm_used ?_⟩
    unfold pageSize
    omega
  apart i hi j hj t ht ht' := by
    obtain ⟨hlo, heq⟩ := sampleMem_named hi ht
    obtain ⟨hlo', heq'⟩ := sampleMem_named hj ht'
    unfold pageSize at heq heq'
    omega
  rights i hi hp := by
    have hzero : entry sampleMachine.mem sampleMachine.cr3 i = 0 :=
      (sampleMem_entry (by omega)).trans (if_pos hi)
    rw [hzero] at hp
    exact absurd hp not_present_zero

theorem sampleMachine_frame : PageFrame sampleMachine.toView 0x7FE000 where
  aligned := rfl
  lt := by norm_num
  nonzero := by norm_num
  used := samplePmm_used (by decide)
  not_directory := by decide
  not_table i hi ht := by
    obtain ⟨hlo, heq⟩ := sampleMem_named hi ht
    unfold pageSize at heq
    omega

theorem map_user_page_sample : Running sampleMachine ∧ ∃ s₁,
    exec (vmmMapUserPage 0x400000 0x7FE000) sampleMachine = (.ok (), s₁) ∧
      pageWalk s₁.mem s₁.cr3 0x400010 = some ⟨0x7FE010, true, true⟩ := by
  obtain ⟨s₁, s₂, hx, hmap, -⟩ := map_user_page_right sampleMachine_running
    sampleMachine_wellFormed (v := 0x400000) (by decide) sampleMachine_frame (Or.inr (by decide))
  exact ⟨sampleMachine_running, s₁, hx, hmap.page 0x400010 (by norm_num)⟩

def supervisorMachine : Mmu Pmm :=
  { sampleMachine with mem := sampleMem.put32 (0x200000 + 4 * 0) (0x7FF000 + 3) }

theorem supervisorMachine_entry :
    entry supervisorMachine.mem supervisorMachine.cr3 0 = 0x7FF000 + 3 :=
  entry_put32_self (by norm_num)

theorem supervisorMachine_slot : Slot supervisorMachine.toView 0 0x7FF000 := by
  have hdir {i : ℕ} (hi : i ≠ 0) :
      entry supervisorMachine.mem 0x200000 i = entry sampleMem 0x200000 i := entry_put32_of_ne _ hi
  have hself : SelfMapped sampleMem 0x200000 := sampleMachine_running.self
  refine ⟨by norm_num, ?_, ?_, by decide, fun i hi hne ht => ?_⟩
  · exact hself.congr (hdir (by norm_num))
  · unfold named
    rw [supervisorMachine_entry]
    decide
  · obtain ⟨hlo, heq⟩ := sampleMem_named hi ((named_congr (hdir hne)).symm.trans ht)
    unfold pageSize at heq
    omega

/-- The page is then not open to the user either. -/
theorem map_user_page_supervisor :
    SelfMapped supervisorMachine.mem supervisorMachine.cr3 ∧
      testBit (0x7FE000 / pageSize) supervisorMachine.rest.bitmap = true ∧
      named supervisorMachine.mem supervisorMachine.cr3 0 = some 0x7FF000 ∧
      ∃ s₁, exec (vmmMapUserPage 0 0x7FE000) supervisorMachine = (.ok (), s₁) ∧
        pageWalk s₁.mem s₁.cr3 0 = some ⟨0x7FE000, true, false⟩ := by
  have hslot := supervisorMachine_slot
  refine ⟨hslot.self, samplePmm_used (by decide), hslot.named, ?_⟩
  obtain ⟨_, s₁, hx, -, -, hmap⟩ := spec_returns (A := fun _ => ∅)
    (spec_mapPresent (v := 0) (p := 0x7FE000) hslot (by norm_num) rfl (by norm_num))
    sampleMachine_noCache
  refine ⟨s₁, hx, (hmap.page 0 rfl).trans ?_⟩
  have hentry : entry supervisorMachine.mem supervisorMachine.cr3 (0 / 2 ^ 22) = 0x7FF000 + 3 :=
    supervisorMachine_entry
  rw [hentry]
  decide

end DvivonOS.Windows
