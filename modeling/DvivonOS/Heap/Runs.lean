import DvivonOS.Heap.Alloc

/-!
# Histories of the kernel heap

A `Client` is the heap together with the allocations its callers hold, each a pointer with the
size that was asked for. Histories are built from calls of `kmalloc` and `kfree` (`CallStep`) and
from writes of the owners inside their payloads (`OwnerWrite`). `Holds` relates a client to the
blocks of the heap: live blocks and held allocations correspond one to one.
-/

namespace DvivonOS

open List

/-- The heap and the live allocations, each a pointer with the requested size. -/
structure Client where
  heap : Heap
  live : List (ℕ × ℕ)

inductive Call
  | kmalloc (size : ℕ)
  | kfree (ptr : ℕ)

/-- One returning call of `kmalloc`, or of `kfree` on a live pointer. -/
inductive CallStep : Call → Client → Client → Prop
  | kmalloc {h h' : Heap} {live : List (ℕ × ℕ)} {size p : ℕ} (hs : size < 2 ^ 32)
      (hr : (kmalloc size).run h = .ok (p, h')) :
      CallStep (.kmalloc size) ⟨h, live⟩ ⟨h', if p = 0 then live else (p, size) :: live⟩
  | kfree {h h' : Heap} {live : List (ℕ × ℕ)} {p size : ℕ} (hm : (p, size) ∈ live)
      (hr : (kfree p).run h = .ok ((), h')) :
      CallStep (.kfree p) ⟨h, live⟩ ⟨h', live.erase (p, size)⟩

/-- The owner of an allocation writes a byte of its payload. -/
inductive OwnerWrite : Client → Client → Prop
  | write {h : Heap} {live : List (ℕ × ℕ)} {p size i : ℕ} {v : UInt8} (hm : (p, size) ∈ live)
      (h1 : p ≤ i) (h2 : i < p + size) :
      OwnerWrite ⟨h, live⟩ ⟨{ h with mem := h.mem.put8 i v }, live⟩

def Client.initial (mem : Bytes) (pmm : Pmm) : Client := ⟨Heap.empty mem pmm, []⟩

/-- The blocks `bs` represent the heap, and the live ones are the allocations of the client. -/
structure Holds (s : Client) (bs : List Blk) (fl : List ℕ) : Prop where
  inv : Inv s.heap bs fl
  nodup : (s.live.map Prod.fst).Nodup
  owned : ∀ b ∈ bs, b.free = false → ∃ size, (b.addr + 4, size) ∈ s.live
  block : ∀ a ∈ s.live, ∃ b ∈ bs, b.free = false ∧ a.1 = b.addr + 4 ∧ wantedSize a.2 ≤ b.size

namespace Holds

variable {s s' : Client} {bs : List Blk} {fl : List ℕ}

theorem initial (mem : Bytes) (pmm : Pmm) : Holds (Client.initial mem pmm) [] [] where
  inv :=
    { present := fun _ h1 h2 => absurd h1 (not_le.mpr h2)
      bound := by show kheapStart ≤ ptsScratchWindow; decide
      aligned := by show pageSize ∣ kheapStart; decide
      tiles := rfl
      rep := by simp
      linked := rfl
      nodup := nodup_nil
      free := by simp
      full := by simp }
  nodup := nodup_nil
  owned := by simp
  block := by intro a ha; simp [Client.initial] at ha

section

variable (hold : Holds s bs fl)

include hold

theorem of_keeps {h' : Heap} {bs' : List Blk} {fl' : List ℕ}
    (inv' : Inv h' bs' fl') (hk : Keeps bs bs' s.heap.mem h'.mem) : Holds ⟨h', s.live⟩ bs' fl' where
  inv := inv'
  nodup := hold.nodup
  owned b hb hf := hold.owned b ((hk.live b hf).mp hb) hf
  block a ha := by
    obtain ⟨b, hb, hf, hp⟩ := hold.block a ha
    exact ⟨b, (hk.live b hf).mpr hb, hf, hp⟩

theorem of_gains {h' : Heap} {bs' : List Blk} {fl' : List ℕ} {b : Blk}
    {size : ℕ} (inv' : Inv h' bs' fl') (hg : Gains bs bs' s.heap.mem h'.mem b)
    (hs : wantedSize size ≤ b.size) : Holds ⟨h', (b.addr + 4, size) :: s.live⟩ bs' fl' where
  inv := inv'
  nodup := by
    rw [map_cons, nodup_cons]
    refine ⟨fun hm => ?_, hold.nodup⟩
    obtain ⟨a, ha, hap⟩ := mem_map.mp hm
    obtain ⟨c, hc, hcf, hcp, -⟩ := hold.block a ha
    -- an old pointer to the same address would be the new block itself
    have hbm : b ∈ bs' := (hg.live b hg.isLive).mpr (Or.inr rfl)
    have hcm : c ∈ bs' := (hg.live c hcf).mpr (Or.inl hc)
    have heq : c = b := inv'.tiles.eq_of_addr hcm hbm (by rw [hcp] at hap; dsimp only at hap; omega)
    exact hg.fresh (heq ▸ hc)
  owned c hc hf := by
    rcases (hg.live c hf).mp hc with hc | rfl
    · obtain ⟨sz, hm⟩ := hold.owned c hc hf
      exact ⟨sz, mem_cons_of_mem _ hm⟩
    · exact ⟨size, mem_cons_self⟩
  block a ha := by
    rcases mem_cons.mp ha with rfl | ha
    · exact ⟨b, (hg.live b hg.isLive).mpr (Or.inr rfl), hg.isLive, rfl, hs⟩
    · obtain ⟨c, hc, hf, hp⟩ := hold.block a ha
      exact ⟨c, (hg.live c hf).mpr (Or.inl hc), hf, hp⟩

theorem eq_of_ptr {a c : ℕ × ℕ} (ha : a ∈ s.live) (hc : c ∈ s.live)
    (hp : a.1 = c.1) : a = c :=
  inj_on_of_nodup_map hold.nodup ha hc hp

theorem of_loses {h' : Heap} {bs' : List Blk} {fl' : List ℕ} {b : Blk}
    {a : ℕ × ℕ} (ha : a ∈ s.live) (hb : b ∈ bs) (hap : a.1 = b.addr + 4) (inv' : Inv h' bs' fl')
    (hl : Loses bs bs' s.heap.mem h'.mem b) : Holds ⟨h', s.live.erase a⟩ bs' fl' where
  inv := inv'
  nodup := hold.nodup.sublist (erase_sublist.map _)
  owned c hc hf := by
    obtain ⟨hcm, hne⟩ := (hl.live c hf).mp hc
    obtain ⟨sz, hm⟩ := hold.owned c hcm hf
    refine ⟨sz, (mem_erase_of_ne fun e => hne ?_).mpr hm⟩
    rw [← e] at hap
    exact hold.inv.tiles.eq_of_addr hcm hb (by dsimp only at hap; omega)
  block x hx := by
    have hxm := mem_of_mem_erase hx
    obtain ⟨c, hc, hf, hp, hs⟩ := hold.block x hxm
    refine ⟨c, (hl.live c hf).mpr ⟨hc, fun e => ?_⟩, hf, hp, hs⟩
    have hxa : x = a := hold.eq_of_ptr hxm ha (by rw [hp, hap, e])
    rw [hxa] at hx
    exact (List.Nodup.of_map _ hold.nodup).not_mem_erase hx

/-- **One call** keeps the correspondence and changes no byte of an allocation that stays live. -/
theorem callStep {c : Call} (hstep : CallStep c s s') :
    (∃ bs' fl', Holds s' bs' fl') ∧
      ∀ a ∈ s.live, a ∈ s'.live → ∀ b ∈ bs, b.free = false → a.1 = b.addr + 4 →
        ∀ i, b.addr ≤ i → i < b.addr + b.size → s'.heap.mem i = s.heap.mem i := by
  cases hstep with
  | @kmalloc h h' live size p _ hr =>
    have hw := kmalloc_wp (E := fun _ => True) trivial hold.inv size
    obtain ⟨bs', fl', inv', ⟨rfl, hk⟩ | ⟨b, rfl, hs, hg⟩⟩ := hw.of_run hr
    · rw [if_pos rfl]
      exact ⟨⟨bs', fl', hold.of_keeps inv' hk⟩, fun a _ _ b hb hf _ i hi hi' =>
        hk.same b hb hf i hi hi'⟩
    · rw [if_neg (by omega)]
      exact ⟨⟨bs', fl', hold.of_gains inv' hg hs⟩, fun a _ _ c hc hf _ i hi hi' =>
        hg.same c hc hf i hi hi'⟩
  | @kfree h h' live p size hm hr =>
    obtain ⟨b, hb, hf, hp, -⟩ := hold.block _ hm
    dsimp only at hp
    subst hp
    obtain ⟨bs', fl', inv', hl⟩ := (kfree_wp (E := fun _ => True) hold.inv hb hf).of_run hr
    refine ⟨⟨bs', fl', hold.of_loses hm hb rfl inv' hl⟩, fun a ha ha' c hc hcf hac i hi hi' => ?_⟩
    refine hl.same c hc hcf (fun e => ?_) i hi hi'
    have haq : a = (b.addr + 4, size) := hold.eq_of_ptr ha hm (by rw [hac, e])
    rw [haq] at ha'
    exact (List.Nodup.of_map _ hold.nodup).not_mem_erase ha'

theorem calls_return :
    (∀ size, (∃ r, (DvivonOS.kmalloc size).run s.heap = .ok r) ∨
      (DvivonOS.kmalloc size).run s.heap = .error windowFault) ∧
    ∀ a ∈ s.live, ∃ h', (DvivonOS.kfree a.1).run s.heap = .ok ((), h') := by
  constructor
  · intro size
    have hw := kmalloc_wp (E := fun e => e = windowFault) rfl hold.inv size
    cases hr : (DvivonOS.kmalloc size).run s.heap with
    | ok r => exact Or.inl ⟨r, rfl⟩
    | error e => exact Or.inr (by rw [hw.of_error hr])
  · intro a ha
    obtain ⟨b, hb, hf, hp, -⟩ := hold.block a ha
    have hw := kfree_wp (E := fun _ => False) hold.inv hb hf
    rw [hp]
    cases hr : (DvivonOS.kfree (b.addr + 4)).run s.heap with
    | ok r => exact ⟨r.2, rfl⟩
    | error e => exact (hw.of_error hr).elim

end

theorem write (hold : Holds s bs fl) {b : Blk} (hb : b ∈ bs) (hf : b.free = false) {i : ℕ}
    (h1 : b.addr + 4 ≤ i) (h2 : i + 4 < b.addr + b.size) (v : UInt8) :
    Holds ⟨{ s.heap with mem := s.heap.mem.put8 i v }, s.live⟩ bs fl where
  inv := by
    have ok := hold.inv.toOk
    -- no tag and no link lies there
    have htag : ∀ c ∈ bs, c.Rep (s.heap.mem.put8 i v) := by
      intro c hc
      obtain ⟨-, -, c3, -⟩ := ok.bounds hc
      refine (ok.rep c hc).congr c3 (fun j hj hj' => ?_) fun _ j hj hj' => ?_ <;>
      · refine Bytes.put8_of_ne _ _ ?_
        rcases ok.tiles.eq_or_disjoint c hc b hb with rfl | h0 | h0 <;> omega
    have hlink : ∀ x ∈ fl, nextOf (s.heap.mem.put8 i v) x = nextOf s.heap.mem x ∧
        prevOf (s.heap.mem.put8 i v) x = prevOf s.heap.mem x := by
      intro x hx
      obtain ⟨c, hc, rfl, hcf, -, -, c3, -⟩ := ok.node hx
      refine links_congr fun j hj hj' => Bytes.put8_of_ne _ _ ?_
      rcases ok.tiles.eq_or_disjoint c hc b hb with rfl | h0 | h0
      · exact absurd rfl (Blk.ne_of_free hcf hf)
      · omega
      · omega
    exact ⟨⟨ok.present, ok.bound, ok.aligned, ok.tiles, htag, ok.linked.congr hlink, ok.nodup,
      ok.free⟩, hold.inv.full⟩
  nodup := hold.nodup
  owned := hold.owned
  block := hold.block

end Holds

/-! ## The layout of the heap -/

/-- The heap as a reader of the headers sees it: the blocks `bs` tile the region up to
`heap_max`, the ones without `BLOCK_FREE` are the live allocations, and the free list runs
through the others. -/
structure Layout (s : Client) (bs : List Blk) (fl : List ℕ) : Prop where
  tiles : Tiles kheapStart bs s.heap.heapMax
  sum : (bs.map Blk.size).sum = s.heap.heapMax - kheapStart
  header : ∀ b ∈ bs, s.heap.mem.get32 b.addr &&& (0xFFFFFFFF ^^^ blockFree) = b.size ∧
    (s.heap.mem.get32 b.addr &&& blockFree ≠ 0 ↔ b.free = true)
  live : ∀ b ∈ bs, b.free = false ↔ b.addr + 4 ∈ s.live.map Prod.fst
  ptr : ∀ p ∈ s.live.map Prod.fst, ∃ b ∈ bs, p = b.addr + 4
  distinct : (s.live.map Prod.fst).Nodup
  linked : Linked (nextOf s.heap.mem) (prevOf s.heap.mem) 0 s.heap.freeListHead fl
  once : fl.Nodup
  free : ∀ x, x ∈ fl ↔ ∃ b ∈ bs, b.addr = x ∧ b.free = true

theorem Holds.layout {s : Client} {bs : List Blk} {fl : List ℕ} (hold : Holds s bs fl) :
    Layout s bs fl where
  tiles := hold.inv.tiles
  sum := by have := hold.inv.tiles.sum_size; omega
  header b hb := by
    obtain ⟨-, -, -, b4, -, b6⟩ := hold.inv.bounds hb
    rw [(hold.inv.rep b hb).header, tag_size b4 (by omega), tag_free b4]
    cases b.free <;> simp
  live b hb := by
    constructor
    · intro hf
      obtain ⟨size, hm⟩ := hold.owned b hb hf
      exact mem_map_of_mem hm
    · intro hm
      obtain ⟨a, ha, hap⟩ := mem_map.mp hm
      obtain ⟨c, hc, hf, hp, -⟩ := hold.block a ha
      rw [hold.inv.tiles.eq_of_addr hb hc (by omega)]
      exact hf
  ptr p hp := by
    obtain ⟨a, ha, rfl⟩ := mem_map.mp hp
    obtain ⟨b, hb, -, hab, -⟩ := hold.block a ha
    exact ⟨b, hb, hab⟩
  distinct := hold.nodup
  linked := hold.inv.linked
  once := hold.inv.nodup
  free x := by
    refine ⟨hold.inv.free x, ?_⟩
    rintro ⟨b, hb, rfl, hf⟩
    exact hold.inv.full b hb hf

section Histories

variable {mem : Bytes} {pmm : Pmm} {s : Client}

theorem holds_of_calls
    (hr : Relation.ReflTransGen (fun s s' => ∃ c, CallStep c s s') (Client.initial mem pmm) s) :
    ∃ bs fl, Holds s bs fl := by
  induction hr with
  | refl => exact ⟨[], [], Holds.initial mem pmm⟩
  | tail _ hstep ih =>
    obtain ⟨bs, fl, hold⟩ := ih
    obtain ⟨c, hc⟩ := hstep
    exact (hold.callStep hc).1

/-- **Heap layout.** After any history of calls the heap is tiled by its blocks, live and free,
and the free list holds exactly the free ones; and each further call returns, but for a `kmalloc`
that has to grow the heap into the page-table window. -/
theorem kheap_layout
    (hr : Relation.ReflTransGen (fun s s' => ∃ c, CallStep c s s') (Client.initial mem pmm) s) :
    (∃ bs fl, Layout s bs fl) ∧
      (∀ size, (∃ r, (kmalloc size).run s.heap = .ok r) ∨
        (kmalloc size).run s.heap = .error windowFault) ∧
      ∀ a ∈ s.live, ∃ h', (kfree a.1).run s.heap = .ok ((), h') := by
  obtain ⟨bs, fl, hold⟩ := holds_of_calls hr
  exact ⟨⟨bs, fl, hold.layout⟩, hold.calls_return⟩

end Histories

/-! ### Histories on a machine with one word of frames -/

def Heap.after {α : Type} (h : Heap) (m : HeapM α) : Heap :=
  match m.run h with
  | .ok (_, h') => h'
  | .error _ => h

theorem run_after {α : Type} {m : HeapM α} {h : Heap} {a : α}
    (he : (m.run h).toOption.map Prod.fst = some a) : m.run h = .ok (a, h.after m) := by
  unfold Heap.after
  cases hr : m.run h with
  | ok r =>
    rw [hr] at he
    rw [← Option.some.inj he]
  | error e => rw [hr] at he; exact absurd he (by simp [Except.toOption])

def smallPmm : Pmm where
  bitmap := fun i => if i = 0 then 1 else 0
  usableEndWords := 1
  lastAlloc := 0

def smallHeap : Heap := Heap.empty Bytes.zero smallPmm

theorem smallHeap_kmalloc : CallStep (.kmalloc 5) ⟨smallHeap, []⟩
    ⟨smallHeap.after (kmalloc 5), [(kheapStart + 4, 5)]⟩ :=
  .kmalloc (by norm_num) (run_after (a := kheapStart + 4) (by decide +kernel))

theorem smallHeap_kmalloc_again : CallStep (.kmalloc 8)
    ⟨smallHeap.after (kmalloc 5), [(kheapStart + 4, 5)]⟩
    ⟨(smallHeap.after (kmalloc 5)).after (kmalloc 8),
      [(kheapStart + 20, 8), (kheapStart + 4, 5)]⟩ :=
  .kmalloc (by norm_num) (run_after (a := kheapStart + 20) (by decide +kernel))

/-- Two blocks allocated, the first of them freed. -/
theorem kheap_layout_two_blocks :
    ∃ s : Client, s.live = [(kheapStart + 20, 8)] ∧ s.heap.heapMax = kheapStart + pageSize ∧
      (∃ bs fl, Layout s bs fl) := by
  have s3 : CallStep (.kfree (kheapStart + 4)) ⟨(smallHeap.after (kmalloc 5)).after (kmalloc 8),
      [(kheapStart + 20, 8), (kheapStart + 4, 5)]⟩
      ⟨((smallHeap.after (kmalloc 5)).after (kmalloc 8)).after (kfree (kheapStart + 4)),
        [(kheapStart + 20, 8)]⟩ :=
    .kfree (show (kheapStart + 4, 5) ∈ _ by simp) (run_after (by decide +kernel))
  exact ⟨_, rfl, by decide +kernel, (kheap_layout
    (((Relation.ReflTransGen.refl.tail ⟨_, smallHeap_kmalloc⟩).tail
      ⟨_, smallHeap_kmalloc_again⟩).tail ⟨_, s3⟩)).1⟩

/-! ## Payloads -/

/-- The request leaves room for alignment, header and footer below `2 ^ 32`. -/
def Call.Fits : Call → Prop
  | .kmalloc size => size ≤ 0xFFFFFFF4
  | .kfree _ => True

/-- A step of a history with writes: a call whose request fits, or a write of an owner. -/
def FitStep (s s' : Client) : Prop := (∃ c, c.Fits ∧ CallStep c s s') ∨ OwnerWrite s s'

/-- The payload of an allocation that fits lies between the tags of its block. -/
theorem Holds.payload {s : Client} {bs : List Blk} {fl : List ℕ} (hold : Holds s bs fl)
    {a : ℕ × ℕ} (ha : a ∈ s.live) (hfit : a.2 ≤ 0xFFFFFFF4) :
    ∃ b ∈ bs, b.free = false ∧ a.1 = b.addr + 4 ∧ a.1 + a.2 + 4 ≤ b.addr + b.size := by
  obtain ⟨b, hb, hf, hp, hs⟩ := hold.block a ha
  have := le_wantedSize hfit
  exact ⟨b, hb, hf, hp, by omega⟩

theorem FitStep.fits {s s' : Client} (hstep : FitStep s s')
    (hfit : ∀ a ∈ s.live, a.2 ≤ 0xFFFFFFF4) : ∀ a ∈ s'.live, a.2 ≤ 0xFFFFFFF4 := by
  intro a ha
  rcases hstep with ⟨c, hc, hcall⟩ | hw
  · cases hcall with
    | @kmalloc h h' live size p hs hr =>
      dsimp only at ha
      split_ifs at ha with h0
      · exact hfit a ha
      · rcases mem_cons.mp ha with rfl | ha
        · exact hc
        · exact hfit a ha
    | kfree hm hr => exact hfit a (mem_of_mem_erase ha)
  · cases hw with
    | write hm h1 h2 => exact hfit a ha

theorem holds_of_fitSteps {mem : Bytes} {pmm : Pmm} {s : Client}
    (hr : Relation.ReflTransGen FitStep (Client.initial mem pmm) s) :
    (∃ bs fl, Holds s bs fl) ∧ ∀ a ∈ s.live, a.2 ≤ 0xFFFFFFF4 := by
  induction hr with
  | refl => exact ⟨⟨[], [], Holds.initial mem pmm⟩, by intro a ha; simp [Client.initial] at ha⟩
  | tail _ hstep ih =>
    obtain ⟨⟨bs, fl, hold⟩, hfit⟩ := ih
    refine ⟨?_, hstep.fits hfit⟩
    rcases hstep with ⟨c, -, hcall⟩ | hw
    · exact (hold.callStep hcall).1
    · cases hw with
      | write hm h1 h2 =>
        obtain ⟨b, hb, hf, hp, hend⟩ := hold.payload hm (hfit _ hm)
        dsimp only at hp hend
        exact ⟨bs, fl, hold.write hb hf (by omega) (by omega) _⟩

/-- **Payloads.** In a history whose requests fit, the payloads of the live allocations are
pairwise disjoint, and no call changes a byte of a payload that stays live across it. -/
theorem payloads_apart {mem : Bytes} {pmm : Pmm} {s : Client}
    (hr : Relation.ReflTransGen FitStep (Client.initial mem pmm) s) :
    (s.live.Pairwise fun a b => a.1 + a.2 ≤ b.1 ∨ b.1 + b.2 ≤ a.1) ∧
      ∀ c s', CallStep c s s' → ∀ a ∈ s.live, a ∈ s'.live →
        ∀ i, a.1 ≤ i → i < a.1 + a.2 → s'.heap.mem i = s.heap.mem i := by
  obtain ⟨⟨bs, fl, hold⟩, hfit⟩ := holds_of_fitSteps hr
  constructor
  · refine (List.Nodup.of_map _ hold.nodup).pairwise_of_forall_ne ?_
    intro a ha b hb hne
    obtain ⟨x, hx, -, hxp, hxe⟩ := hold.payload ha (hfit a ha)
    obtain ⟨y, hy, -, hyp, hye⟩ := hold.payload hb (hfit b hb)
    rcases hold.inv.tiles.eq_or_disjoint x hx y hy with rfl | h0 | h0
    · exact absurd (hold.eq_of_ptr ha hb (hxp.trans hyp.symm)) hne
    · left; omega
    · right; omega
  · intro c s' hcall a ha ha' i h1 h2
    obtain ⟨b, hb, hf, hp, he⟩ := hold.payload ha (hfit a ha)
    exact (hold.callStep hcall).2 a ha ha' b hb hf hp i (by omega) (by omega)

/-- Two allocations with a write to the first, and a further call. -/
theorem payloads_apart_two_blocks :
    ∃ s : Client, s.live = [(kheapStart + 20, 8), (kheapStart + 4, 5)] ∧
      s.heap.mem (kheapStart + 8) = 7 ∧
      (s.live.Pairwise fun a b => a.1 + a.2 ≤ b.1 ∨ b.1 + b.2 ≤ a.1) ∧
      ∀ c s', CallStep c s s' → (kheapStart + 4, 5) ∈ s'.live →
        s'.heap.mem (kheapStart + 8) = 7 := by
  have s1 : FitStep ⟨smallHeap, []⟩ ⟨smallHeap.after (kmalloc 5), [(kheapStart + 4, 5)]⟩ :=
    Or.inl ⟨.kmalloc 5, show 5 ≤ 0xFFFFFFF4 by norm_num, smallHeap_kmalloc⟩
  have s2 : FitStep ⟨smallHeap.after (kmalloc 5), [(kheapStart + 4, 5)]⟩
      ⟨(smallHeap.after (kmalloc 5)).after (kmalloc 8),
        [(kheapStart + 20, 8), (kheapStart + 4, 5)]⟩ :=
    Or.inl ⟨.kmalloc 8, show 8 ≤ 0xFFFFFFF4 by norm_num, smallHeap_kmalloc_again⟩
  have s3 := OwnerWrite.write (v := 7) (h := (smallHeap.after (kmalloc 5)).after (kmalloc 8))
    (show (kheapStart + 4, 5) ∈ [(kheapStart + 20, 8), (kheapStart + 4, 5)] by simp)
    (show kheapStart + 4 ≤ kheapStart + 8 by omega) (by omega)
  have hp := payloads_apart (((Relation.ReflTransGen.refl.tail s1).tail s2).tail (Or.inr s3))
  have h7 : ((smallHeap.after (kmalloc 5)).after (kmalloc 8)).mem.put8 (kheapStart + 8) 7
      (kheapStart + 8) = 7 := by decide +kernel
  refine ⟨_, rfl, h7, hp.1, fun c s' hc hm => ?_⟩
  exact (hp.2 c s' hc (kheapStart + 4, 5) (by simp) hm (kheapStart + 8) (by simp) (by simp)).trans h7

/-- A request of `0xFFFFFFFD` bytes (a file size of `-3`, `FS_ERR_NOT_FOUND`) wraps to a block of 12
bytes: the next allocation lies inside its payload. -/
theorem payloads_overlap_on_wrap :
    ∃ s : Client, Relation.ReflTransGen (fun s s' => ∃ c, CallStep c s s')
        (Client.initial Bytes.zero smallPmm) s ∧
      ∃ a ∈ s.live, ∃ b ∈ s.live, a.1 < b.1 ∧ b.1 + b.2 < a.1 + a.2 ∧ 0 < b.2 := by
  have s1 : CallStep (.kmalloc 0xFFFFFFFD) ⟨smallHeap, []⟩
      ⟨smallHeap.after (kmalloc 0xFFFFFFFD), [(kheapStart + 4, 0xFFFFFFFD)]⟩ :=
    .kmalloc (by norm_num) (run_after (a := kheapStart + 4) (by decide +kernel))
  have s2 : CallStep (.kmalloc 4)
      ⟨smallHeap.after (kmalloc 0xFFFFFFFD), [(kheapStart + 4, 0xFFFFFFFD)]⟩
      ⟨(smallHeap.after (kmalloc 0xFFFFFFFD)).after (kmalloc 4),
        [(kheapStart + 16, 4), (kheapStart + 4, 0xFFFFFFFD)]⟩ :=
    .kmalloc (by norm_num) (run_after (a := kheapStart + 16) (by decide +kernel))
  refine ⟨_, (Relation.ReflTransGen.refl.tail ⟨_, s1⟩).tail ⟨_, s2⟩,
    (kheapStart + 4, 0xFFFFFFFD), by simp, (kheapStart + 16, 4), by simp, ?_, ?_, by norm_num⟩
  · dsimp only; omega
  · dsimp only; omega

end DvivonOS
