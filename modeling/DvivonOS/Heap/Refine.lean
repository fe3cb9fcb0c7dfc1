import DvivonOS.Heap.Runs

/-!
# The heap refines the arena

Every returning call does to the blocks of the heap what `Arena.Step` says (`Holds.refines`), so
what holds of every history of arenas holds of the heap. Histories here are those of a running
kernel: calls, writes of the owners inside their payloads, and pages that others take from the frame
allocator or give back to it (`HeapStep`).
-/

namespace DvivonOS

/-- What a call does to the blocks of the heap. -/
inductive Arena.Step : Call → Arena → Arena → Prop
  | kmalloc {size p : ℕ} {a a' : Arena} (h : Arena.Malloc (wantedSize size) a p a') :
      Step (.kmalloc size) a a'
  | kfree {L R : List Blk} {b : Blk} {heapMax : ℕ} {pmm : Pmm} (hlive : b.free = false) :
      Step (.kfree (b.addr + 4)) ⟨L ++ b :: R, heapMax, pmm⟩
        ⟨mergeLeft L ⟨b.addr, b.size, true⟩ ++ R, heapMax, pmm⟩

/-- A step of a history: a call that meets `P`, a write of an owner whose request fits, or a change
of the page bitmap by others. -/
inductive HeapStep (P : Call → Client → Prop) : Client → Client → Prop
  | call {c : Call} {s s' : Client} (hc : P c s) (h : CallStep c s s') : HeapStep P s s'
  | write {h : Heap} {live : List (ℕ × ℕ)} {p size i : ℕ} {v : UInt8} (hm : (p, size) ∈ live)
      (hfit : size ≤ 0xFFFFFFF4) (h1 : p ≤ i) (h2 : i < p + size) :
      HeapStep P ⟨h, live⟩ ⟨{ h with mem := h.mem.put8 i v }, live⟩
  | frames {h : Heap} {live : List (ℕ × ℕ)} {pmm : Pmm} (hok : pmm.Ok) :
      HeapStep P ⟨h, live⟩ ⟨{ h with pmm := pmm }, live⟩

def anyCall : Call → Client → Prop := fun _ _ => True

namespace Holds

variable {s s' : Client} {bs : List Blk} {fl : List ℕ} {c : Call}

theorem kmalloc (hold : Holds s bs fl) {size p : ℕ} {h' : Heap}
    (hr : (DvivonOS.kmalloc size).run s.heap = .ok (p, h')) :
    ∃ bs' fl', Holds ⟨h', if p = 0 then s.live else (p, size) :: s.live⟩ bs' fl' ∧
      Arena.Malloc (wantedSize size) (s.heap.arena bs) p (h'.arena bs') := by
  have hw := kmalloc_mallocs (E := fun _ => True) hold.inv size fun _ => trivial
  obtain ⟨bs', fl', hm⟩ := hw.of_run hr
  refine ⟨bs', fl', ?_, hm.arena⟩
  rcases hm.change with ⟨rfl, hk⟩ | ⟨b, rfl, hs, hg⟩
  · rw [if_pos rfl]
    exact hold.of_keeps hm.inv hk
  · rw [if_neg (by omega)]
    exact hold.of_gains hm.inv hg hs

/-- **Refinement.** A call does to the blocks what the arena says. -/
theorem refines (hold : Holds s bs fl) (hstep : CallStep c s s') :
    ∃ bs' fl', Holds s' bs' fl' ∧ Arena.Step c (s.heap.arena bs) (s'.heap.arena bs') := by
  cases hstep with
  | kmalloc _ hr =>
    obtain ⟨bs', fl', hold', hm⟩ := hold.kmalloc hr
    exact ⟨bs', fl', hold', .kmalloc hm⟩
  | @kfree h h' live p size hm hr =>
    obtain ⟨b, hb, hf, hp, -⟩ := hold.block _ hm
    dsimp only at hp
    subst hp
    obtain ⟨L, R, rfl⟩ := List.append_of_mem hb
    obtain ⟨⟨fl', inv'⟩, hl, hend⟩ :=
      (kfree_merges (E := fun _ => True) hold.inv hf).of_run hr
    refine ⟨_, fl', hold.of_loses hm hb rfl inv' hl, ?_⟩
    unfold Heap.arena
    rw [hend.heapMax, hend.pmm]
    exact .kfree hf

theorem ownerWrite {h : Heap} {live : List (ℕ × ℕ)} (hold : Holds ⟨h, live⟩ bs fl) {p size i : ℕ}
    (v : UInt8) (hm : (p, size) ∈ live) (hfit : size ≤ 0xFFFFFFF4) (h1 : p ≤ i)
    (h2 : i < p + size) : Holds ⟨{ h with mem := h.mem.put8 i v }, live⟩ bs fl := by
  obtain ⟨b, hb, hf, hp, hend⟩ := hold.payload hm hfit
  dsimp only at hp hend
  exact hold.write hb hf (by omega) (by omega) v

theorem frames {h : Heap} {live : List (ℕ × ℕ)} (hold : Holds ⟨h, live⟩ bs fl) (pmm : Pmm) :
    Holds ⟨{ h with pmm := pmm }, live⟩ bs fl :=
  ⟨hold.inv.pmm _, hold.nodup, hold.owned, hold.block⟩

end Holds

/-! ## The page bitmap -/

theorem Arena.Malloc.pmm_ok {a a' : Arena} {size p : ℕ} (h : Arena.Malloc size a p a')
    (hok : a.pmm.Ok) : a'.pmm.Ok := by
  obtain ⟨k, hbefore, hend⟩ := h.pages
  have hk := (Arena.pages_free hok fun j hj => (hbefore j hj).2).1
  rcases hend with ⟨-, -, hnone, rfl⟩ | ⟨L, C, R, -, -, -, -, rfl⟩
  · show (pmmAllocPage (a.pages k).pmm).2.Ok
    rw [hk.alloc_none hnone]
    exact hk
  · exact hk

theorem Arena.Step.pmm_ok {a a' : Arena} {c : Call} (h : Arena.Step c a a') (hok : a.pmm.Ok) :
    a'.pmm.Ok := by
  cases h with
  | kmalloc hm => exact hm.pmm_ok hok
  | kfree _ => exact hok

/-- The blocks of a reachable heap, with a page bitmap as `pmm.c` keeps it. -/
structure Reached (s : Client) (bs : List Blk) (fl : List ℕ) : Prop where
  holds : Holds s bs fl
  pmm : s.heap.pmm.Ok

section Reached

variable {s s' : Client} {bs : List Blk} {fl : List ℕ} {P : Call → Client → Prop}

theorem Reached.call (h : Reached s bs fl) {c : Call} (hcall : CallStep c s s') :
    ∃ bs' fl', Reached s' bs' fl' ∧ Arena.Step c (s.heap.arena bs) (s'.heap.arena bs') := by
  obtain ⟨bs', fl', hold', ha⟩ := h.holds.refines hcall
  exact ⟨bs', fl', ⟨hold', ha.pmm_ok h.pmm⟩, ha⟩

theorem Reached.step (h : Reached s bs fl) (hstep : HeapStep P s s') :
    (∃ c bs' fl', P c s ∧ Reached s' bs' fl' ∧
      Arena.Step c (s.heap.arena bs) (s'.heap.arena bs')) ∨
    (Reached s' bs fl ∧ ∀ Q, HeapStep Q s s') := by
  cases hstep with
  | call hc hcall =>
    obtain ⟨bs', fl', h', ha⟩ := h.call hcall
    exact .inl ⟨_, bs', fl', hc, h', ha⟩
  | write hm hfit h1 h2 =>
    exact .inr ⟨⟨h.holds.ownerWrite _ hm hfit h1 h2, h.pmm⟩, fun _ => .write hm hfit h1 h2⟩
  | frames hok => exact .inr ⟨⟨h.holds.frames _, hok⟩, fun _ => .frames hok⟩

end Reached

theorem Reached.initial (mem : Bytes) {pmm : Pmm} (hok : pmm.Ok) :
    Reached (Client.initial mem pmm) [] [] :=
  ⟨Holds.initial mem pmm, hok⟩

theorem smallPmm_ok : smallPmm.Ok := ⟨by decide, by decide, by decide, by decide⟩

theorem reached_of_steps {mem : Bytes} {pmm : Pmm} {s : Client} (hok : pmm.Ok)
    (hr : Relation.ReflTransGen (HeapStep anyCall) (Client.initial mem pmm) s) :
    ∃ bs fl, Reached s bs fl := by
  induction hr with
  | refl => exact ⟨[], [], Reached.initial mem hok⟩
  | tail _ hstep ih =>
    obtain ⟨bs, fl, h⟩ := ih
    rcases h.step hstep with ⟨-, bs', fl', -, h', -⟩ | ⟨h', -⟩
    · exact ⟨bs', fl', h'⟩
    · exact ⟨bs, fl, h'⟩

/-! ## One layout -/

/-- The headers determine the blocks. -/
theorem Tiles.unique {m : Bytes} {a e : ℕ} {bs bs' : List Blk} (h : Tiles a bs e)
    (h' : Tiles a bs' e)
    (hm : ∀ b ∈ bs, m.get32 b.addr &&& (0xFFFFFFFF ^^^ blockFree) = b.size ∧
      (m.get32 b.addr &&& blockFree ≠ 0 ↔ b.free = true))
    (hm' : ∀ b ∈ bs', m.get32 b.addr &&& (0xFFFFFFFF ^^^ blockFree) = b.size ∧
      (m.get32 b.addr &&& blockFree ≠ 0 ↔ b.free = true)) : bs = bs' := by
  induction bs generalizing a bs' with
  | nil =>
    cases bs' with
    | nil => rfl
    | cons c bs' =>
      obtain ⟨-, hc, -, ht⟩ := h'
      have := ht.le
      have hae : a = e := h
      omega
  | cons b bs ih =>
    obtain ⟨hb, hb12, -, ht⟩ := h
    cases bs' with
    | nil =>
      have := ht.le
      have hae : a = e := h'
      omega
    | cons c bs' =>
      obtain ⟨hc, -, -, ht'⟩ := h'
      obtain ⟨hbs, hbf⟩ := hm b List.mem_cons_self
      obtain ⟨hcs, hcf⟩ := hm' c List.mem_cons_self
      rw [hb] at hbs hbf
      rw [hc] at hcs hcf
      have hsize : b.size = c.size := hbs.symm.trans hcs
      have hfree : b.free = c.free := Bool.eq_iff_iff.mpr (hbf.symm.trans hcf)
      have hbc : b = c := by
        cases b; cases c
        simp only at hb hc hsize hfree
        rw [hb, hc, hsize, hfree]
      subst hbc
      rw [ih ht ht' (fun d hd => hm d (List.mem_cons_of_mem _ hd))
        fun d hd => hm' d (List.mem_cons_of_mem _ hd)]

theorem Layout.unique {s : Client} {bs bs' : List Blk} {fl fl' : List ℕ} (h : Layout s bs fl)
    (h' : Layout s bs' fl') : bs = bs' :=
  h.tiles.unique h'.tiles h.header h'.header

end DvivonOS
