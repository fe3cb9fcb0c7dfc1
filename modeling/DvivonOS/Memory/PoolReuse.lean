import DvivonOS.Memory.PoolRuns

/-!
# What a page holds when it is handed out

A new page of `vmm_alloc_kernel_page` is cleared, a page from the free list is not: `free_list_pop`
clears its two links, and behind them it holds what its last owner has written
(`page_cleared_iff`).
-/

namespace DvivonOS.Windows.Pool

open List Paged Paging

def byteOf (c : View Pmm) (a : ℕ) : Option UInt8 :=
  (lookup c.mem c.cr3 (a / pageSize)).map fun t => c.mem (t.frame + a % pageSize)

section Bytes

variable {K : Kernel} {dirs : List ℕ} {top : ℕ} {h : Heap} {P : Pages} {c : View Pmm}
  {l : PoolVars} {ns : List ℕ} {v x i : ℕ}

theorem Views.byteOf_eq (hV : Views K dirs top h P c) (hv : v ∈ P.held) (hi : i < pageSize) :
    byteOf c (v + i) = some (P.mem (v + i)) := by
  unfold pageSize at hi
  obtain ⟨hal, -⟩ := hV.range v hv
  obtain ⟨f, hf, -, -, hbytes⟩ := hV.page v hv
  obtain ⟨g, hg⟩ := hV.lookup hv hf
  unfold byteOf pageSize
  rw [show (v + i) / 4096 = v / 4096 by omega, show (v + i) % 4096 = i by omega, hg, Option.map_some,
    hbytes i hi]

/-- Behind its links the page that is taken from the list is as it was. -/
theorem popMem_data (hL : Listed l P.mem (ns ++ [x]))
    (hal : ∀ v ∈ ns ++ [x], v % 4096 = 0) (h8 : 8 ≤ i) (hi : i < 4096) :
    popMem l P.mem (x + i) = P.mem (x + i) := by
  apply onlyLinks_popMem hL
  intro v hv
  have hv4 := hal v hv
  have hx4 := hal x (by simp)
  omega

end Bytes

section Runs

variable {tables : ℕ} {s₀ m : Mmu Pmm} {s : PageSys} {r : ℕ} {list : PoolVars}

/-- **Cleared pages.** In every state of a run of the pool with writes of the owners, the page that
`vmm_alloc_kernel_page` hands out is cleared exactly if the free list is empty, or the page at its
tail holds zeros behind its links. -/
theorem page_cleared_iff (hboot : Booted tables s₀.toView) (hcache : NoCache s₀)
    (hscratch : entry s₀.mem s₀.cr3 1022 = 0)
    (hr : Relation.ReflTransGen (fun s s' => ∃ call, PageCall.OfPages call ∧ PageStep call s s')
      (PageSys.boot s₀) s)
    (hx : exec (vmmAllocKernelPage.run s.list) s.mmu = (.ok (r, list), m)) (hr0 : r ≠ 0) :
    (∀ i < pageSize, byteOf m.toView (r + i) = some 0) ↔
      s.list.count = 0 ∨
        ∀ i, 8 ≤ i → i < pageSize → byteOf s.mmu.toView (s.list.tail + i) = some 0 := by
  obtain ⟨h, P, ns, hg⟩ := good_of_run hboot hcache hscratch le_rfl (C := fun _ call => call.OfPages)
    (fun _ _ _ => .inl rfl) (fun _ _ hc => .inr hc) hr
  have hspec := hg.kept.alloc (bootKernel_distinct _ _) hg.le
    (hg.fits (F := fun _ => True) (.inl ⟨rfl, fun _ => trivial⟩))
  obtain ⟨-, hres⟩ := (spec_noCache hspec hg.noCache).1 _ _ hx
  dsimp only at hres
  have hL := hg.kept.listed
  obtain ⟨ns', x, rfl, rfl, hk⟩ | ⟨-, rfl, -⟩ | ⟨rfl, q, k, f, -, -, rfl, -, hk⟩ := hres
  · -- a page from the list
    have hcount : s.list.count ≠ 0 := by
      rw [hL.count, length_append]
      exact Nat.succ_ne_zero _
    have hheld : r ∈ P.held := hg.kept.mem_list (by simp)
    have hal (v : ℕ) (hv : v ∈ ns' ++ [r]) : v % 4096 = 0 :=
      (hg.kept.views.range v (hg.kept.mem_list hv)).1
    have hafter {i : ℕ} (hi : i < pageSize) :
        byteOf m.toView (r + i) = some (popMem s.list P.mem (r + i)) :=
      hk.views.byteOf_eq hheld hi
    have hbefore {i : ℕ} (hi : i < pageSize) := hg.kept.views.byteOf_eq hheld hi
    rw [or_iff_right hcount, hL.tail_eq]
    constructor
    · intro hzero i h8 hi
      rw [hbefore hi, ← popMem_data hL hal h8 hi, ← hafter hi]
      exact hzero i hi
    · intro hzero i hi
      rw [hafter hi]
      by_cases h8 : i < 8
      · rw [popMem_links hL h8]
      · have hz := hzero i (by omega) hi
        rw [hbefore hi] at hz
        rw [popMem_data hL hal (by omega) hi]
        exact hz
  · exact absurd rfl hr0
  · -- a new page
    refine iff_of_true (fun i hi => ?_) (.inl hL.count)
    rw [hk.views.byteOf_eq mem_cons_self hi]
    unfold pageSize at hi
    exact congrArg some (Bytes.fill_of_mem _ _ (by omega) (by omega))

end Runs

/-! ## A page that comes back -/

theorem sampleMachine_scratch : entry sampleMachine.mem sampleMachine.cr3 1022 = 0 :=
  sampleMem_entry (by norm_num)

theorem sampleMachine_page : ∃ v list m,
    exec (vmmAllocKernelPage.run .init) sampleMachine = (.ok (v, list), m) ∧ v ≠ 0 ∧ NoCache m ∧
      ∃ h P, Kept (bootKernel 0x201000 0x200000) [0x200000] 0xFF800000 h P list [v] [] m.toView := by
  have hg := good_boot sampleView_booted sampleMachine_noCache sampleMachine_scratch le_rfl
  have hspec := hg.kept.alloc (F := fun _ => False) (bootKernel_distinct _ _) hg.le
    (.inr (.inr (.inl ⟨0xC0000, le_rfl, by norm_num, sampleView_booted.first_page⟩)))
  obtain ⟨⟨r, list⟩, m, hx, hcache, hres⟩ := spec_returns hspec sampleMachine_noCache
  obtain ⟨ns', x, hnil, -⟩ | ⟨-, -, -, -, hfull⟩ | ⟨-, q, k, f, hlow, -, rfl, -, hk⟩ := hres
  · cases ns' <;> cases hnil
  · exact absurd hfull (by decide)
  · have hlo := hlow.1
    exact ⟨4096 * q, list, m, hx, by omega, hcache, _, _, hk⟩

theorem page_cleared_first : ∃ r list m,
    exec (vmmAllocKernelPage.run .init) sampleMachine = (.ok (r, list), m) ∧ r ≠ 0 ∧
      ∀ i < pageSize, byteOf m.toView (r + i) = some 0 := by
  obtain ⟨v, list, m, hx, hv, -⟩ := sampleMachine_page
  exact ⟨v, list, m, hx, hv, (page_cleared_iff sampleView_booted sampleMachine_noCache
    sampleMachine_scratch .refl hx hv).mpr (.inl rfl)⟩

/-- An owner writes to the first page that is handed out and gives it back. The next page is the same
one, with what has been written to it. -/
theorem page_not_cleared : ∃ s r list m,
    Relation.ReflTransGen (fun s s' => ∃ call, PageCall.OfPages call ∧ PageStep call s s')
      (PageSys.boot sampleMachine) s ∧
    exec (vmmAllocKernelPage.run s.list) s.mmu = (.ok (r, list), m) ∧ r ≠ 0 ∧
      byteOf m.toView (r + 8) = some 1 := by
  have hK := bootKernel_distinct 0x201000 0x200000
  obtain ⟨v, l₁, m₁, hx₁, hv, hc₁, h, P, hk₁⟩ := sampleMachine_page
  obtain ⟨_, m₂, hx₂, hc₂, hk₂⟩ := spec_returns
    (hk₁.write (F := fun _ => False) mem_cons_self (i := 8) (by norm_num) 1) hc₁
  obtain ⟨⟨_, l₃⟩, m₃, hx₃, hc₃, ⟨-, hk₃⟩ | ⟨ns', x, f, hnil, -⟩⟩ := spec_returns
    (hk₂.free (F := fun _ => False) hK (by decide) mem_cons_self) hc₂
  · obtain ⟨⟨r, l₄⟩, m₄, hx₄, -, hres⟩ := spec_returns
      (hk₃.alloc (F := fun _ => False) hK (by simp [vmmFreeListMaxSize]) (.inl (by simp))) hc₃
    obtain ⟨ns', x, hns, rfl, hk₄⟩ | ⟨hnil, -⟩ | ⟨hnil, -⟩ := hres
    · have hnil : ns' = [] ∧ v = r := by
        cases ns' with
        | nil => exact ⟨rfl, singleton_inj.mp hns⟩
        | cons u ns' => exact absurd (congrArg List.length hns) (by simp)
      obtain ⟨rfl, rfl⟩ := hnil
      refine ⟨⟨m₃, l₃, ⟨0, kheapStart⟩, [], []⟩, v, l₄, m₄, ?_, hx₄, hv, ?_⟩
      · have step₁ : PageStep .alloc (PageSys.boot sampleMachine) _ := .alloc hx₁
        rw [if_neg hv] at step₁
        have step₂ : PageStep (.write v 8 1) ⟨m₁, l₁, ⟨0, kheapStart⟩, [v], []⟩ _ :=
          .write mem_cons_self (by decide) hx₂
        have step₃ : PageStep (.free v) ⟨m₂, l₁, ⟨0, kheapStart⟩, [v], []⟩ _ :=
          .free mem_cons_self hx₃
        rw [erase_cons_head] at step₃
        exact ((Relation.ReflTransGen.single ⟨.alloc, trivial, step₁⟩).tail
          ⟨.write v 8 1, trivial, step₂⟩).tail ⟨.free v, trivial, step₃⟩
      · have hal (u : ℕ) (hu : u ∈ [] ++ [v]) : u % 4096 = 0 :=
          (hk₃.views.range u (hk₃.mem_list hu)).1
        rw [hk₄.views.byteOf_eq (hk₄.mem_live mem_cons_self) (by decide)]
        show some (popMem _ _ (v + 8)) = some 1
        rw [popMem_data hk₃.listed hal le_rfl (by norm_num)]
        show some (addMem _ _ _ (v + 8)) = some 1
        rw [onlyLinks_addMem hk₂.listed _ (by simp)]
        exact congrArg some (if_pos rfl)
    · cases hnil
    · cases hnil
  · cases ns' <;> cases hnil

end DvivonOS.Windows.Pool
