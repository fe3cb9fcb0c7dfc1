import DvivonOS.Memory.PmmRuns
import DvivonOS.Memory.Space
import DvivonOS.Memory.Vmm

/-!
# What the current address space shows

The functions of `vmm.c` refine the abstract address space: the machine shows a space (`Shows`), and
`vmm_alloc_user_page_at` does to what it shows what `Space.alloc` says, with the frames as the bitmap
counts them; a loop of stores shows the stored bytes or faults at an address that shows nothing.

Underneath, the page tables of the user half are different used frames, and so are the pages
(`UserSpace`).
-/

namespace DvivonOS

open Function

/-! ## The user half of the current address space -/

namespace Machine

def page (m : Machine) (p : ℕ) : Option ℕ :=
  (m.pd m.cr3 (p / 1024)).bind fun table => m.pt table (p % 1024)

theorem translate_eq (m : Machine) (v : ℕ) :
    m.translate v = (m.page (v / pageSize)).map (· + v % pageSize) := by
  have hdiv : v / 2 ^ 22 = v / pageSize / 1024 := by
    rw [Nat.div_div_eq_div_mul]
    rfl
  unfold translate page
  rw [hdiv]
  cases m.pd m.cr3 (v / pageSize / 1024) <;> rfl

/-- What the user half shows. -/
def user (m : Machine) : UserMem := fun a =>
  if a / pageSize < userPages then (m.translate a).map m.byte else none

end Machine

/-- The tables and pages of the user half are different used frames, everything mapped and stored so
far lies in it, and all its pages have been mapped by the recorded accesses. -/
structure UserSpace (m : Machine) : Prop where
  pmm : m.pmm.Ok
  table : ∀ i < 768, ∀ t, m.pd m.cr3 i = some t → testBit (t / pageSize) m.pmm.bitmap = true
  table_inj : ∀ i < 768, ∀ j < 768, ∀ t, m.pd m.cr3 i = some t → m.pd m.cr3 j = some t → i = j
  frame : ∀ p < userPages, ∀ f, m.page p = some f →
    pageSize ∣ f ∧ testBit (f / pageSize) m.pmm.bitmap = true
  frame_inj : ∀ p < userPages, ∀ q < userPages, ∀ f, m.page p = some f → m.page q = some f → p = q
  own : ∀ p < userPages, m.page p ≠ none → (m.cr3, p) ∈ m.accesses.maps
  maps : ∀ x ∈ m.accesses.maps, x.1 = m.cr3 ∧ x.2 < userPages
  writes : ∀ x ∈ m.accesses.writes, x.1 = m.cr3 ∧ (m.cr3, x.2 / pageSize) ∈ m.accesses.maps

namespace UserSpace

variable {m : Machine}

/-- Two addresses of the user half with the same byte behind them are the same. -/
theorem translate_inj (h : UserSpace m) {a b x : ℕ} (ha : a / pageSize < userPages)
    (hb : b / pageSize < userPages) (h1 : m.translate a = some x) (h2 : m.translate b = some x) :
    a = b := by
  rw [m.translate_eq] at h1 h2
  obtain ⟨f, hf, hfx⟩ := Option.map_eq_some_iff.mp h1
  obtain ⟨g, hg, hgx⟩ := Option.map_eq_some_iff.mp h2
  obtain ⟨k, rfl⟩ := (h.frame _ ha f hf).1
  obtain ⟨l, rfl⟩ := (h.frame _ hb g hg).1
  have hlt : ∀ x, x % pageSize < pageSize := fun x => Nat.mod_lt x (by decide)
  have hoff : a % pageSize = b % pageSize := by
    have := congrArg (· % pageSize) (hfx.trans hgx.symm)
    simpa [Nat.mul_add_mod] using this
  have hkl : pageSize * k = pageSize * l := by omega
  have hpage := h.frame_inj _ ha _ hb _ hf (hkl ▸ hg)
  rw [← Nat.div_add_mod a pageSize, ← Nat.div_add_mod b pageSize, hpage, hoff]

end UserSpace

/-! ## Stores -/

namespace Machine

/-- The offsets `l` of the file have been read. -/
def note (m : Machine) (l : List ℕ) : Machine :=
  { m with accesses := { m.accesses with reads := l ++ m.accesses.reads } }

/-- The byte at `x`, behind the virtual address `v`, has been stored. -/
def put (m : Machine) (v x : ℕ) (b : UInt8) : Machine :=
  { m with
    byte := update m.byte x b
    accesses := { m.accesses with writes := (m.cr3, v) :: m.accesses.writes } }

end Machine

/-- Nothing but bytes and records has changed, and only offsets in `R` have been read. -/
structure Stores (m m' : Machine) (R : ℕ → Prop) : Prop where
  pmm : m'.pmm = m.pmm
  pd : m'.pd = m.pd
  pt : m'.pt = m.pt
  cr3 : m'.cr3 = m.cr3
  nextPid : m'.nextPid = m.nextPid
  runQueue : m'.runQueue = m.runQueue
  reads : ∀ r ∈ m'.accesses.reads, r ∈ m.accesses.reads ∨ R r

/-- The source of a loop of stores: byte `k` is `f k`, and it takes reads at `R k`. -/
def Source (src : ℕ → VmM UInt8) (f : ℕ → UInt8) (R : ℕ → List ℕ) : Prop :=
  ∀ k m, (src k).run m = .ok (f k, m.note (R k))

section Stores

variable {m : Machine} {v n : ℕ}

theorem UserSpace.note (h : UserSpace m) (l : List ℕ) : UserSpace (m.note l) :=
  ⟨h.pmm, h.table, h.table_inj, h.frame, h.frame_inj, h.own, h.maps, h.writes⟩

theorem user_ne_none {a : ℕ} (ha : a / pageSize < userPages) :
    m.user a ≠ none ↔ m.translate a ≠ none := by
  unfold Machine.user
  rw [if_pos ha, ne_eq, Option.map_eq_none_iff]

theorem UserSpace.put (h : UserSpace m) {x : ℕ} (hv : v / pageSize < userPages)
    (hx : m.translate v = some x) (b : UInt8) :
    UserSpace (m.put v x b) ∧ (m.put v x b).user = update m.user v (some b) := by
  have hpage : m.page (v / pageSize) ≠ none := by
    intro hnone
    rw [m.translate_eq, hnone] at hx
    cases hx
  refine ⟨⟨h.pmm, h.table, h.table_inj, h.frame, h.frame_inj, h.own, h.maps, ?_⟩, ?_⟩
  · intro y hy
    rcases List.mem_cons.mp hy with rfl | hy
    · exact ⟨rfl, h.own _ hv hpage⟩
    · exact h.writes y hy
  · funext a
    by_cases ha : a = v
    · subst ha
      rw [update_self]
      show (if a / pageSize < userPages then (m.translate a).map (update m.byte x b)
        else none) = some b
      rw [if_pos hv, hx, Option.map_some, update_self]
    · rw [update_of_ne ha]
      show (if a / pageSize < userPages then (m.translate a).map (update m.byte x b)
        else none) = if a / pageSize < userPages then (m.translate a).map m.byte else none
      split_ifs with hau
      · cases hy : m.translate a with
        | none => rfl
        | some y =>
          have hne : y ≠ x := by
            rintro rfl
            exact ha (h.translate_inj hau hv hy hx)
          rw [Option.map_some, Option.map_some, update_of_ne hne]
      · rfl

theorem storeByte_run (m : Machine) (v : ℕ) (b : UInt8) :
    (storeByte v b).run m = (m.translate v).elim (.error .pageFault) fun x =>
      .ok ((), m.put v x b) := by
  cases hx : m.translate v with
  | none =>
    simp only [storeByte, StateT.run_bind, StateT.run_get, pure_bind, hx]
    rfl
  | some x =>
    simp only [storeByte, StateT.run_bind, StateT.run_get, pure_bind, hx]
    rfl

/-- **A loop of stores** stores its bytes, or faults because one of the addresses is not present. -/
theorem UserSpace.storeBytes_wp (h : UserSpace m) {src : ℕ → VmM UInt8} {f : ℕ → UInt8}
    {R : ℕ → List ℕ} (hs : Source src f R) : ∀ n, (∀ k < n, v + k < userPages * pageSize) →
    Wp (storeBytes src v n)
      (fun _ m' => m.user.Mapped v n ∧ UserSpace m' ∧ m'.user = m.user.store f v n ∧
        Stores m m' fun r => ∃ k < n, r ∈ R k)
      (fun _ => ¬m.user.Mapped v n) m := by
  intro n
  induction n with
  | zero =>
    intro _
    exact ⟨nofun, h, UserMem.store_zero.symm, rfl, rfl, rfl, rfl, rfl, rfl, fun r hr => Or.inl hr⟩
  | succ n ih =>
    intro hn
    unfold storeBytes
    rw [wp_bind]
    have hlast : v + n < userPages * pageSize := hn n (Nat.lt_succ_self n)
    refine (ih fun k hk => hn k (Nat.lt_succ_of_lt hk)).weaken ?_ fun _ hno hall =>
      hno (UserMem.mapped_succ.mp hall).1
    rintro _ m' ⟨hmap, h', huser, hst⟩
    rw [wp_bind, wp_of_run (hs n m')]
    -- the address is on 32 bits, and it shows what it showed before the loop
    have hpage : (v + n) / pageSize < userPages := Nat.div_lt_of_lt_mul (by rwa [mul_comm])
    have hlt : v + n < 2 ^ 32 := hlast.trans (by decide)
    have hshow : (m'.note (R n)).user (v + n) = m.user (v + n) := by
      show m'.user (v + n) = _
      rw [huser]
      exact if_neg (by omega)
    have hrun := storeByte_run (m'.note (R n)) (v + n) (f n)
    rw [Nat.mod_eq_of_lt hlt]
    cases hx : (m'.note (R n)).translate (v + n) with
    | none =>
      rw [hx] at hrun
      rw [wp_of_error hrun, UserMem.mapped_succ, ← hshow, user_ne_none hpage]
      exact fun hall => hall.2 hx
    | some x =>
      rw [hx] at hrun
      obtain ⟨hput, hpu⟩ := (h'.note (R n)).put hpage hx (f n)
      rw [wp_of_run hrun]
      refine ⟨?_, hput, ?_, hst.pmm, hst.pd, hst.pt, hst.cr3, hst.nextPid, hst.runQueue, ?_⟩
      · rw [UserMem.mapped_succ, ← hshow, user_ne_none hpage, hx]
        exact ⟨hmap, nofun⟩
      · rw [hpu, UserMem.store_succ, ← huser]
        rfl
      · intro r hr
        rcases List.mem_append.mp hr with hr | hr
        · exact Or.inr ⟨n, Nat.lt_succ_self n, hr⟩
        · exact (hst.reads r hr).imp id fun ⟨k, hk, hkr⟩ => ⟨k, Nat.lt_succ_of_lt hk, hkr⟩

theorem UserSpace.memset_wp (h : UserSpace m) (hv : ∀ k < n, v + k < userPages * pageSize) :
    Wp (memset v 0 n)
      (fun _ m' => m.user.Mapped v n ∧ UserSpace m' ∧ m'.user = m.user.store (fun _ => 0) v n ∧
        Stores m m' fun _ => False)
      (fun _ => ¬m.user.Mapped v n) m := by
  have hs : Source (fun _ => pure 0) (fun _ => 0) fun _ => [] := fun _ _ => rfl
  unfold memset
  refine (h.storeBytes_wp hs n hv).weaken ?_ fun _ hno => hno
  rintro _ m' ⟨h1, h2, h3, h4⟩
  refine ⟨h1, h2, h3, h4.pmm, h4.pd, h4.pt, h4.cr3, h4.nextPid, h4.runQueue, fun r hr => ?_⟩
  exact (h4.reads r hr).imp_right fun ⟨_, _, hk⟩ => absurd hk List.not_mem_nil

end Stores

/-! ## Pages -/

section Pages

variable {m : Machine} {p : ℕ}

theorem UserSpace.takes (h : UserSpace m) {n addr : ℕ} {q : Pmm} (ht : Takes m.pmm n addr q) :
    UserSpace { m with pmm := q } where
  pmm := ht.ok h.pmm
  table i hi t hit := by
    rw [ht.bits, h.table i hi t hit, Bool.or_true]
  table_inj := h.table_inj
  frame r hr f hf := by
    rw [ht.bits, (h.frame r hr f hf).2, Bool.or_true]
    exact ⟨(h.frame r hr f hf).1, rfl⟩
  frame_inj := h.frame_inj
  own := h.own
  maps := h.maps
  writes := h.writes

theorem table_index (p : ℕ) : p * pageSize / 2 ^ 22 = p / 1024 :=
  Nat.mul_div_mul_right p 1024 (by decide : 0 < pageSize)

theorem entry_index (p : ℕ) : p * pageSize / pageSize = p := Nat.mul_div_cancel p (by decide)

theorem table_lt {q : ℕ} (hq : q < userPages) : q / 1024 < 768 := Nat.div_lt_of_lt_mul hq

theorem pd_setTable (m : Machine) (p t i : ℕ) :
    (m.setTable (p * pageSize) t).pd m.cr3 i =
      if i = p / 1024 then some t else m.pd m.cr3 i := by
  unfold Machine.setTable
  dsimp only
  rw [table_index, update_self, update_apply]

section SetTable

variable (hnone : m.pd m.cr3 (p / 1024) = none) {t : ℕ} (hnew : ∀ j < 768, m.pd m.cr3 j ≠ some t)

include hnone hnew

theorem page_setTable {q : ℕ} (hq : q < userPages) :
    (m.setTable (p * pageSize) t).page q = m.page q := by
  unfold Machine.setTable Machine.page
  dsimp only
  rw [table_index, update_self]
  by_cases hi : q / 1024 = p / 1024
  · rw [hi, update_self, hnone, Option.bind_some, update_self]
    rfl
  · rw [update_of_ne hi]
    cases ht : m.pd m.cr3 (q / 1024) with
    | none => rfl
    | some t' =>
      have hne : t' ≠ t := by
        rintro rfl
        exact hnew _ (table_lt hq) ht
      rw [Option.bind_some, Option.bind_some, update_of_ne hne]

theorem UserSpace.setTable (h : UserSpace m)
    (hbit : testBit (t / pageSize) m.pmm.bitmap = true) :
    UserSpace (m.setTable (p * pageSize) t) ∧ (m.setTable (p * pageSize) t).user = m.user := by
  have hpd := pd_setTable m p t
  have hpage : ∀ q < userPages, (m.setTable (p * pageSize) t).page q = m.page q :=
    fun q hq => page_setTable hnone hnew hq
  refine ⟨⟨h.pmm, ?_, ?_, ?_, ?_, ?_, h.maps, h.writes⟩, ?_⟩
  · intro i hi t' ht'
    rw [show (m.setTable (p * pageSize) t).cr3 = m.cr3 from rfl, hpd] at ht'
    split_ifs at ht' with hip
    · exact Option.some.inj ht' ▸ hbit
    · exact h.table i hi t' ht'
  · intro i hi j hj t' hti htj
    rw [show (m.setTable (p * pageSize) t).cr3 = m.cr3 from rfl, hpd] at hti htj
    split_ifs at hti htj with hip hjp hjp
    · rw [hip, hjp]
    · exact absurd (Option.some.inj hti ▸ htj) (hnew j hj)
    · exact absurd (Option.some.inj htj ▸ hti) (hnew i hi)
    · exact h.table_inj i hi j hj t' hti htj
  · intro q hq f hf
    exact h.frame q hq f (hpage q hq ▸ hf)
  · intro q hq r hr f hqf hrf
    exact h.frame_inj q hq r hr f (hpage q hq ▸ hqf) (hpage r hr ▸ hrf)
  · intro q hq hne
    exact h.own q hq (hpage q hq ▸ hne)
  · funext a
    unfold Machine.user
    split_ifs with ha
    · rw [Machine.translate_eq, Machine.translate_eq, hpage _ ha]
      rfl
    · rfl

end SetTable

/-- The frame `f` has been entered for page `p` in table `t`. -/
def Machine.setPte (m : Machine) (t p f : ℕ) : Machine :=
  { m with
    pt := update m.pt t (update (m.pt t) (p % 1024) (some f))
    accesses := { m.accesses with maps := (m.cr3, p) :: m.accesses.maps } }

theorem vmmSetPteAt_run {t f : ℕ} (ht : m.pd m.cr3 (p / 1024) = some t) :
    (vmmSetPteAt (p * pageSize) f).run m = .ok ((), m.setPte t p f) := by
  rw [← table_index] at ht
  simp only [vmmSetPteAt, StateT.run_bind, StateT.run_get, pure_bind, ht, entry_index]
  rfl

section SetPte

variable {t f : ℕ} (h : UserSpace m) (hp : p < userPages) (ht : m.pd m.cr3 (p / 1024) = some t)

include h hp ht

theorem page_setPte {q : ℕ} (hq : q < userPages) :
    (m.setPte t p f).page q = if q = p then some f else m.page q := by
  have hiff : q = p ↔ q / 1024 = p / 1024 ∧ q % 1024 = p % 1024 := by omega
  unfold Machine.setPte Machine.page
  dsimp only
  by_cases hi : q / 1024 = p / 1024
  · rw [hi, ht, Option.bind_some, Option.bind_some, update_self, update_apply]
    by_cases hm : q % 1024 = p % 1024
    · rw [if_pos hm, if_pos (hiff.mpr ⟨hi, hm⟩)]
    · rw [if_neg hm, if_neg fun hqp => hm (hiff.mp hqp).2]
  · rw [if_neg fun hqp => hi (hiff.mp hqp).1]
    cases htq : m.pd m.cr3 (q / 1024) with
    | none => rfl
    | some t' =>
      have hne : t' ≠ t := by
        rintro rfl
        exact hi (h.table_inj _ (table_lt hq) _ (table_lt hp) _ htq ht)
      rw [Option.bind_some, Option.bind_some, update_of_ne hne]

/-- A page shows the bytes of its new frame, and the others show what they showed. -/
theorem UserSpace.setPte (hf : pageSize ∣ f) (hbit : testBit (f / pageSize) m.pmm.bitmap = true)
    (hnew : ∀ q < userPages, m.page q ≠ some f) :
    UserSpace (m.setPte t p f) ∧
      (∀ a, a / pageSize ≠ p → (m.setPte t p f).user a = m.user a) ∧
      ∀ a, a / pageSize = p → (m.setPte t p f).user a ≠ none := by
  have hpage : ∀ q < userPages, (m.setPte t p f).page q = if q = p then some f else m.page q :=
    fun q hq => page_setPte h hp ht hq
  refine ⟨⟨h.pmm, h.table, h.table_inj, ?_, ?_, ?_, ?_, ?_⟩, ?_, ?_⟩
  · intro q hq g hg
    rw [hpage q hq] at hg
    split_ifs at hg with hqp
    · exact Option.some.inj hg ▸ ⟨hf, hbit⟩
    · exact h.frame q hq g hg
  · intro q hq r hr g hqg hrg
    rw [hpage q hq] at hqg
    rw [hpage r hr] at hrg
    split_ifs at hqg hrg with hqp hrp hrp
    · rw [hqp, hrp]
    · exact absurd (Option.some.inj hqg ▸ hrg) (hnew r hr)
    · exact absurd (Option.some.inj hrg ▸ hqg) (hnew q hq)
    · exact h.frame_inj q hq r hr g hqg hrg
  · intro q hq hne
    rw [hpage q hq] at hne
    split_ifs at hne with hqp
    · exact hqp ▸ List.mem_cons_self
    · exact List.mem_cons_of_mem _ (h.own q hq hne)
  · intro x hx
    rcases List.mem_cons.mp hx with rfl | hx
    · exact ⟨rfl, hp⟩
    · exact h.maps x hx
  · intro x hx
    exact ⟨(h.writes x hx).1, List.mem_cons_of_mem _ (h.writes x hx).2⟩
  · intro a ha
    unfold Machine.user
    split_ifs with hau
    · rw [Machine.translate_eq, Machine.translate_eq, hpage _ hau, if_neg ha]
      rfl
    · rfl
  · intro a ha
    have hau : a / pageSize < userPages := ha ▸ hp
    rw [user_ne_none hau, Machine.translate_eq, hpage _ hau, if_pos ha]
    exact nofun

end SetPte

/-- The page `p` is present, with some bytes. -/
structure MapsPage (m m' : Machine) (p : ℕ) : Prop where
  space : UserSpace m'
  other : ∀ a, a / pageSize ≠ p → m'.user a = m.user a
  present : ∀ a, a / pageSize = p → m'.user a ≠ none
  cr3 : m'.cr3 = m.cr3
  nextPid : m'.nextPid = m.nextPid
  runQueue : m'.runQueue = m.runQueue
  reads : m'.accesses.reads = m.accesses.reads
  tables : ∀ i, m'.pd m'.cr3 i = none ↔ m.pd m.cr3 i = none ∧ i ≠ p / 1024
  free : m'.pmm.free + (if m.pd m.cr3 (p / 1024) = none then 1 else 0) = m.pmm.free

theorem UserSpace.mapUserPage (h : UserSpace m) (hp : p < userPages) {f : ℕ} (hf : pageSize ∣ f)
    (hbit : testBit (f / pageSize) m.pmm.bitmap = true) (hnew : ∀ q < userPages, m.page q ≠ some f)
    (hfree : m.pd m.cr3 (p / 1024) = none → 0 < m.pmm.free) :
    Wp (vmmMapUserPage (p * pageSize) f) (fun _ m' => MapsPage m m' p) (fun _ => False) m := by
  unfold vmmMapUserPage
  rw [wp_bind, wp_get, table_index]
  cases ht : m.pd m.cr3 (p / 1024) with
  | some t =>
    obtain ⟨h1, h2, h3⟩ := h.setPte hp ht hf hbit hnew
    rw [if_neg nofun]
    show Wp (vmmSetPteAt (p * pageSize) f) _ _ m
    rw [wp_of_run (vmmSetPteAt_run ht)]
    refine ⟨h1, h2, h3, rfl, rfl, rfl, rfl, fun i => ?_, ?_⟩
    · show m.pd m.cr3 i = none ↔ _
      constructor
      · intro hi
        refine ⟨hi, ?_⟩
        rintro rfl
        rw [ht] at hi
        cases hi
      · exact And.left
    · rw [ht, if_neg nofun]
      rfl
  | none =>
    obtain ⟨n, hn⟩ := h.pmm.takes (hfree ht)
    set addr := (pmmAllocPage m.pmm).1 with haddr
    set q := (pmmAllocPage m.pmm).2 with hq
    have hne : addr ≠ 0 := hn.ne_zero h.pmm
    have hdiv : addr / pageSize = n := by rw [hn.addr, entry_index]
    -- the frame of the table is new, so it is neither a table nor a page
    have hclear : ∀ x, testBit (x / pageSize) m.pmm.bitmap = true → x ≠ addr := by
      rintro x hx rfl
      rw [hdiv, hn.clear] at hx
      cases hx
    have htable : ∀ j < 768, m.pd m.cr3 j ≠ some addr := fun j hj hjt =>
      hclear addr (h.table j hj addr hjt) rfl
    have hmono : ∀ x, testBit x m.pmm.bitmap = true → testBit x q.bitmap = true := by
      intro x hx
      rw [hn.bits, hx, Bool.or_true]
    have haddrbit : testBit (addr / pageSize) q.bitmap = true := by
      rw [hdiv, hn.bits, decide_eq_true rfl, Bool.true_or]
    have h' := h.takes hn
    obtain ⟨h1, hu⟩ := UserSpace.setTable (m := { m with pmm := q }) ht htable h' haddrbit
    have hpt : (({ m with pmm := q } : Machine).setTable (p * pageSize) addr).pd m.cr3 (p / 1024) =
        some addr := (pd_setTable { m with pmm := q } p addr (p / 1024)).trans (if_pos rfl)
    have hnew' : ∀ r < userPages,
        (({ m with pmm := q } : Machine).setTable (p * pageSize) addr).page r ≠ some f := by
      intro r hr
      rw [page_setTable (m := { m with pmm := q }) ht htable hr]
      exact hnew r hr
    obtain ⟨h2, h3, h4⟩ := h1.setPte hp hpt hf (hmono _ hbit) hnew'
    have hstep : Wp (vmmSetPteAt (p * pageSize) f) (fun _ m' => MapsPage m m' p) (fun _ => False)
        (({ m with pmm := q } : Machine).setTable (p * pageSize) addr) := by
      rw [wp_of_run (vmmSetPteAt_run hpt)]
      refine ⟨h2, fun a ha => (h3 a ha).trans (congrFun hu a), h4, rfl, rfl, rfl, rfl, fun i => ?_,
        ?_⟩
      · refine (iff_of_eq (congrArg (· = none) (pd_setTable { m with pmm := q } p addr i))).trans ?_
        by_cases hi : i = p / 1024
        · rw [if_pos hi]
          exact iff_of_false nofun fun hno => hno.2 hi
        · rw [if_neg hi]
          exact (and_iff_left hi).symm
      · rw [ht, if_pos rfl]
        exact hn.free
    rw [if_pos rfl]
    show Wp (allocFrame >>= _) _ _ m
    rw [wp_bind, wp_of_run rfl]
    show Wp (if addr = 0 then _ else _) _ _ _
    rw [if_neg hne]
    exact hstep

theorem page_div_iff {a : ℕ} : a / pageSize = p ↔ p * pageSize ≤ a ∧ a < p * pageSize + pageSize := by
  rw [Nat.div_eq_iff (by decide)]
  have : 0 < pageSize := by decide
  omega

/-- The machine shows the space `s`. -/
structure Shows (m : Machine) (s : Space) : Prop where
  space : UserSpace m
  free : s.free = m.pmm.free
  tables : ∀ i < 768, s.tables i = (m.pd m.cr3 i).isSome
  mem : s.mem = m.user

/-- What the loader keeps while it works in one address space, if it reads only offsets in `R`. -/
structure Stays (R : ℕ → Prop) (m m' : Machine) : Prop where
  cr3 : m'.cr3 = m.cr3
  nextPid : m'.nextPid = m.nextPid
  runQueue : m'.runQueue = m.runQueue
  reads : ∀ r ∈ m'.accesses.reads, r ∈ m.accesses.reads ∨ R r

theorem Stays.rfl {R : ℕ → Prop} : Stays R m m :=
  ⟨Eq.refl _, Eq.refl _, Eq.refl _, fun _ hr => Or.inl hr⟩

theorem Stays.trans {R R1 R2 : ℕ → Prop} {m1 m2 : Machine} (h1 : Stays R1 m m1)
    (h2 : Stays R2 m1 m2) (hR : ∀ r, R1 r ∨ R2 r → R r) : Stays R m m2 where
  cr3 := h2.cr3.trans h1.cr3
  nextPid := h2.nextPid.trans h1.nextPid
  runQueue := h2.runQueue.trans h1.runQueue
  reads r hr := by
    rcases h2.reads r hr with hr | hr
    · exact (h1.reads r hr).imp_right fun h => hR r (Or.inl h)
    · exact Or.inr (hR r (Or.inr hr))

theorem Pmm.Ok.full {p : Pmm} (h : p.Ok) (hf : p.free = 0) : pmmAllocPage p = (0, p) := by
  rcases h.alloc with ⟨n, ht⟩ | hfull
  · have := ht.free
    omega
  · exact hfull.1

theorem page_end (hp : p < userPages) : ∀ k < pageSize, p * pageSize + k < userPages * pageSize := by
  intro k hk
  calc p * pageSize + k < p * pageSize + pageSize := by omega
    _ = (p + 1) * pageSize := (Nat.succ_mul p pageSize).symm
    _ ≤ userPages * pageSize := Nat.mul_le_mul_right _ hp

theorem MapsPage.clear {m2 : Machine} {q : Pmm} (hm : MapsPage { m with pmm := q } m2 p)
    (hp : p < userPages) :
    Wp (do memset (p * pageSize) 0 pageSize; return true)
      (fun r m' => r = true ∧ UserSpace m' ∧ m'.user = m.user.mapPage p ∧
        Stays (fun _ => False) m m' ∧ m'.pmm = m2.pmm ∧ m'.pd = m2.pd) (fun _ => False) m2 := by
  have hmapped : m2.user.Mapped (p * pageSize) pageSize := fun k hk =>
    hm.present _ (page_div_iff.mpr ⟨Nat.le_add_right _ _, Nat.add_lt_add_left hk _⟩)
  rw [wp_bind]
  apply (hm.space.memset_wp (page_end hp)).weaken
  · rintro _ m3 ⟨-, h3, hu3, hst⟩
    refine ⟨rfl, h3, ?_, ⟨hst.cr3.trans hm.cr3, hst.nextPid.trans hm.nextPid,
      hst.runQueue.trans hm.runQueue, fun r hr => ?_⟩, hst.pmm, hst.pd⟩
    · funext a
      rw [hu3]
      unfold UserMem.store UserMem.mapPage
      by_cases ha : a / pageSize = p
      · rw [if_pos (page_div_iff.mp ha), if_pos ha]
      · rw [if_neg (mt page_div_iff.mpr ha), if_neg ha]
        exact hm.other a ha
    · have := (hst.reads r hr).resolve_right id
      rw [hm.reads] at this
      exact Or.inl this
  · exact fun _ hno => hno hmapped

theorem allocFrame_full (h : m.pmm.Ok) (hfull : m.pmm.free = 0) :
    allocFrame.run m = .ok (0, m) := by
  show Except.ok ((pmmAllocPage m.pmm).1, { m with pmm := (pmmAllocPage m.pmm).2 }) = _
  rw [h.full hfull]

/-- Without a frame for its page table, a page is not mapped and clearing it faults. -/
theorem UserSpace.clear_noTable (h : UserSpace m) (hp : p < userPages)
    (ht : m.pd m.cr3 (p / 1024) = none) (hfull : m.pmm.free = 0) (f : ℕ)
    {Q : Bool → Machine → Prop} :
    Wp (do vmmMapUserPage (p * pageSize) f; memset (p * pageSize) 0 pageSize; return true) Q
      (fun _ => True) m := by
  have hnone : m.user (p * pageSize) = none := by
    unfold Machine.user Machine.translate
    rw [table_index, ht, Option.bind_none, Option.map_none, ite_self]
  have hmap : Wp (vmmMapUserPage (p * pageSize) f) (fun _ m' => m' = m) (fun _ => False) m := by
    unfold vmmMapUserPage
    rw [wp_bind, wp_get, table_index, ht, if_pos rfl]
    show Wp (allocFrame >>= _) _ _ m
    rw [wp_bind, wp_of_run (allocFrame_full h.pmm hfull)]
    rfl
  rw [wp_bind]
  apply hmap.weaken
  · rintro _ _ rfl
    rw [wp_bind]
    apply (h.memset_wp (page_end hp)).weaken
    · intro _ m' hm'
      have hfirst := hm'.1 0 (by decide)
      rw [Nat.add_zero] at hfirst
      exact absurd hnone hfirst
    · exact fun _ _ => trivial
  · exact fun _ _ => trivial

theorem Shows.alloc {s : Space} (h : Shows m s) (hp : p < userPages) :
    Wp (vmmAllocUserPageAt (p * pageSize))
      (fun r m' => ∃ s', s.alloc p = some (r, s') ∧ Shows m' s' ∧ Stays (fun _ => False) m m')
      (fun _ => s.alloc p = none) m := by
  have htab : s.tables (p / 1024) = (m.pd m.cr3 (p / 1024)).isSome := h.tables _ (table_lt hp)
  unfold vmmAllocUserPageAt Space.alloc
  rw [h.free, htab, wp_bind]
  by_cases hfull : m.pmm.free = 0
  · rw [wp_of_run (allocFrame_full h.space.pmm hfull), if_pos rfl, if_pos hfull]
    exact ⟨s, rfl, h, .rfl⟩
  · obtain ⟨n, hn⟩ := h.space.pmm.takes (by omega)
    set f := (pmmAllocPage m.pmm).1 with hf
    set q := (pmmAllocPage m.pmm).2 with hq
    have hfree := hn.free
    have hspace := h.space.takes hn
    have hdiv : f / pageSize = n := by rw [hn.addr, entry_index]
    have hbit : testBit (f / pageSize) q.bitmap = true := by
      rw [hdiv, hn.bits, decide_eq_true rfl, Bool.true_or]
    have hnew : ∀ r < userPages, ({ m with pmm := q } : Machine).page r ≠ some f := by
      intro r hr hrf
      have := (h.space.frame r hr f hrf).2
      rw [hdiv, hn.clear] at this
      cases this
    rw [wp_of_run (show allocFrame.run m = .ok (f, { m with pmm := q }) from rfl),
      if_neg (hn.ne_zero h.space.pmm), if_neg hfull]
    by_cases hshort : m.pd m.cr3 (p / 1024) = none ∧ q.free = 0
    · rw [hshort.1, if_neg nofun, if_pos (by omega)]
      exact (hspace.clear_noTable hp hshort.1 hshort.2 f).weaken (fun _ _ hQ => hQ) fun _ _ => rfl
    · have hroom : m.pd m.cr3 (p / 1024) = none → 0 < q.free := fun hnone =>
        Nat.pos_of_ne_zero fun h0 => hshort ⟨hnone, h0⟩
      rw [wp_bind]
      apply (hspace.mapUserPage hp (hn.addr ▸ Dvd.intro_left n rfl) hbit hnew hroom).weaken _ nofun
      intro _ m2 hm2
      apply (hm2.clear hp).weaken _ nofun
      rintro r m3 ⟨rfl, h3, hu3, hk3, hpmm, hpd⟩
      have hfree3 : m3.pmm.free + (if m.pd m.cr3 (p / 1024) = none then 1 else 0) = q.free :=
        hpmm ▸ hm2.free
      have htab3 : ∀ i, m3.pd m3.cr3 i = none ↔ m.pd m.cr3 i = none ∧ i ≠ p / 1024 := by
        intro i
        have htab2 := hm2.tables i
        rw [hm2.cr3] at htab2
        rw [hpd, hk3.cr3]
        exact htab2
      have hother : ∀ i, i ≠ p / 1024 → (m3.pd m3.cr3 i).isSome = (m.pd m.cr3 i).isSome := by
        intro i hi
        rw [Bool.eq_iff_iff, Option.isSome_iff_ne_none, Option.isSome_iff_ne_none, ne_eq, htab3,
          and_iff_left hi]
      have hown : (m3.pd m3.cr3 (p / 1024)).isSome = true := by
        rw [Option.isSome_iff_ne_none, ne_eq, htab3]
        exact fun hno => hno.2 rfl
      by_cases hnone : m.pd m.cr3 (p / 1024) = none
      · have hpos := hroom hnone
        rw [if_pos hnone] at hfree3
        rw [hnone, if_neg nofun, if_neg (by omega)]
        refine ⟨_, rfl, ⟨h3, show _ - 2 = _ by omega, fun i hi => ?_, ?_⟩, hk3⟩
        · by_cases hip : i = p / 1024
          · subst hip
            rw [hown]
            exact update_self ..
          · rw [hother i hip, ← h.tables i hi]
            exact update_of_ne hip ..
        · rw [hu3, h.mem]
      · rw [if_neg hnone] at hfree3
        rw [if_pos (Option.isSome_iff_ne_none.mpr hnone)]
        refine ⟨_, rfl, ⟨h3, show _ - 1 = _ by omega, fun i hi => ?_, ?_⟩, hk3⟩
        · by_cases hip : i = p / 1024
          · subst hip
            rw [hown, ← Option.isSome_iff_ne_none.mpr hnone]
            exact htab
          · rw [hother i hip]
            exact h.tables i hi
        · rw [hu3, h.mem]

end Pages

end DvivonOS
