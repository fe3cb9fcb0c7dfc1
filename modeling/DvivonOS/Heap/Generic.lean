import DvivonOS.Heap.Model

/-!
# The allocator over two machines

A relation between computations over two machines that holds of the operations of the allocator and
is closed under sequencing (`Simulation`) holds of every function of `heap-allocator.c`.
-/

namespace DvivonOS.HeapCode

/-- A relation between computations of `m` and of `n` that holds of the operations and is closed
under sequencing. -/
structure Simulation (m n : Type → Type) [Monad m] [HeapOps m] [Monad n] [HeapOps n]
    (R : ∀ {α : Type}, m α → n α → Prop) : Prop where
  pure {α : Type} (a : α) : R (pure a) (pure a)
  bind {α β : Type} {x : m α} {y : n α} {f : α → m β} {g : α → n β} :
    R x y → (∀ a, R (f a) (g a)) → R (x >>= f) (y >>= g)
  load (a : ℕ) : R (load a) (HeapOps.load a)
  store (a v : ℕ) : R (store a v) (HeapOps.store a v)
  freeListHead : R freeListHead HeapOps.freeListHead
  setFreeListHead (b : ℕ) : R (setFreeListHead b) (HeapOps.setFreeListHead b)
  heapMax : R heapMax HeapOps.heapMax
  nextPage : R nextPage HeapOps.nextPage
  stop {α : Type} : R (stop : m α) HeapOps.stop

namespace Simulation

variable {m n : Type → Type} [Monad m] [HeapOps m] [Monad n] [HeapOps n]
  {R : ∀ {α : Type}, m α → n α → Prop} (S : Simulation m n R)

omit [Monad m] [HeapOps m] [Monad n] [HeapOps n] in
theorem rel_ite {α : Type} {p : Prop} [Decidable p] {x x' : m α} {y y' : n α} (hx : R x y)
    (hx' : R x' y') : R (if p then x else x') (if p then y else y') := by
  split
  · exact hx
  · exact hx'

include S

theorem getSize (b : ℕ) : R (getSize b) (HeapCode.getSize b) :=
  S.bind (S.load b) fun _ => S.pure _

theorem setSize (b sz : ℕ) : R (setSize b sz) (HeapCode.setSize b sz) :=
  S.bind (S.load b) fun _ => S.store b _

theorem isFree (b : ℕ) : R (isFree b) (HeapCode.isFree b) :=
  S.bind (S.load b) fun _ => S.pure _

theorem setFree (b : ℕ) : R (setFree b) (HeapCode.setFree b) :=
  S.bind (S.load b) fun _ => S.store b _

theorem clearFree (b : ℕ) : R (clearFree b) (HeapCode.clearFree b) :=
  S.bind (S.load b) fun _ => S.store b _

theorem updateFooter (b : ℕ) : R (updateFooter b) (HeapCode.updateFooter b) :=
  S.bind (S.bind (S.getSize b) fun _ => S.pure _) fun _ => S.bind (S.load b) fun _ => S.store _ _

theorem createFreeBlock (addr size : ℕ) :
    R (createFreeBlock addr size) (HeapCode.createFreeBlock addr size) :=
  S.bind (S.setSize addr size) fun _ => S.bind (S.setFree addr) fun _ =>
    S.bind (S.updateFooter addr) fun _ => S.bind (S.store _ _) fun _ =>
      S.bind (S.store _ _) fun _ => S.pure addr

theorem addFreeBlock (block : ℕ) : R (addFreeBlock block) (HeapCode.addFreeBlock block) := by
  refine S.bind S.freeListHead fun h => S.bind (S.store _ _) fun _ => ?_
  have hend := S.bind (S.store (prevFree block) 0) fun _ => S.setFreeListHead block
  exact rel_ite (S.bind (S.store _ _) fun _ => hend) hend

theorem removeFreeBlock (block : ℕ) :
    R (removeFreeBlock block) (HeapCode.removeFreeBlock block) := by
  have hclear := S.bind (S.store (prevFree block) 0) fun _ => S.store (nextFree block) 0
  have hend := S.bind (S.load (nextFree block)) fun n => S.bind (S.load (prevFree block)) fun p =>
    rel_ite (p := n ≠ 0) (S.bind (S.store (prevFree n) p) fun _ => hclear) hclear
  refine S.bind (S.load _) fun _ => S.bind (S.load _) fun n => ?_
  exact rel_ite (S.bind (S.store _ _) fun _ => hend) (S.bind (S.setFreeListHead n) fun _ => hend)

theorem coalesceBlocks (a b : ℕ) : R (coalesceBlocks a b) (HeapCode.coalesceBlocks a b) :=
  S.bind (S.removeFreeBlock b) fun _ => S.bind (S.getSize a) fun _ =>
    S.bind (S.getSize b) fun _ => S.bind (S.setSize a _) fun _ => S.bind (S.setFree a) fun _ =>
      S.updateFooter a

theorem coalesceWithNext (block : ℕ) :
    R (coalesceWithNext block) (HeapCode.coalesceWithNext block) := by
  refine S.bind (S.getSize block) fun size => S.bind S.heapMax fun h => ?_
  refine rel_ite (S.pure ()) (S.bind (S.isFree _) fun b => ?_)
  exact rel_ite (S.coalesceBlocks _ _) (S.pure ())

theorem coalesceWithPrev (block : ℕ) :
    R (coalesceWithPrev block) (HeapCode.coalesceWithPrev block) := by
  refine rel_ite (S.pure ()) (rel_ite (S.pure ()) (S.bind (S.isFree _) fun b => ?_))
  exact rel_ite (S.bind (S.getSize _) fun _ => S.coalesceBlocks _ _) (S.pure ())

theorem splitBlock (block wantSize : ℕ) :
    R (splitBlock block wantSize) (HeapCode.splitBlock block wantSize) := by
  refine S.bind (S.getSize block) fun _ => rel_ite (S.pure 0) ?_
  exact S.bind (S.setSize _ _) fun _ => S.bind (S.updateFooter _) fun _ =>
    S.bind (S.createFreeBlock _ _) fun b => S.bind (S.addFreeBlock b) fun _ => S.pure b

theorem allocateNewHeapPage : R allocateNewHeapPage (HeapCode.allocateNewHeapPage (m := n)) := by
  refine S.bind S.heapMax fun h => S.bind S.nextPage fun page => rel_ite (S.pure false) ?_
  exact S.bind (S.createFreeBlock _ _) fun b => S.bind (S.addFreeBlock b) fun _ =>
    S.bind (S.coalesceWithPrev b) fun _ => S.pure page

theorem takeBlock (cur currentSize size : ℕ) :
    R (takeBlock cur currentSize size) (HeapCode.takeBlock cur currentSize size) := by
  refine S.bind (S.removeFreeBlock cur) fun _ => S.bind (S.clearFree cur) fun _ => ?_
  exact rel_ite (S.bind (S.splitBlock cur size) fun _ => S.pure _)
    (S.bind (S.updateFooter cur) fun _ => S.pure _)

theorem firstFit (size : ℕ) : ∀ fuel cur : ℕ,
    R (firstFit size fuel cur) (HeapCode.firstFit size fuel cur)
  | 0, _ => S.stop
  | fuel + 1, cur => by
    refine rel_ite (S.pure none) (S.bind (S.getSize cur) fun _ => ?_)
    exact rel_ite (S.bind (S.takeBlock _ _ _) fun _ => S.pure _)
      (S.bind (S.load _) fun next => firstFit size fuel next)

theorem kmallocFuel : ∀ fuel size : ℕ,
    R (kmallocFuel fuel size) (HeapCode.kmallocFuel fuel size)
  | 0, _ => S.stop
  | fuel + 1, size => by
    refine S.bind S.freeListHead fun h => rel_ite (S.bind S.allocateNewHeapPage fun ready => ?_)
      (S.bind (S.pure true) fun ready => ?_)
    all_goals
      refine rel_ite (S.pure 0) (S.bind S.heapMax fun _ => S.bind S.freeListHead fun _ =>
        S.bind (S.firstFit _ _ _) fun found => ?_)
      cases found with
      | some ptr => exact S.pure ptr
      | none =>
        refine S.bind S.allocateNewHeapPage fun grown => ?_
        exact rel_ite (S.pure 0) (kmallocFuel fuel _)

theorem kmalloc (size : ℕ) : R (kmalloc size) (HeapCode.kmalloc size) :=
  S.bind S.heapMax fun _ => S.kmallocFuel _ size

theorem kfree (ptr : ℕ) : R (kfree ptr) (HeapCode.kfree ptr) :=
  rel_ite (S.pure ()) (S.bind (S.setFree _) fun _ => S.bind (S.updateFooter _) fun _ =>
    S.bind (S.addFreeBlock _) fun _ => S.bind (S.coalesceWithPrev _) fun _ =>
      S.coalesceWithNext _)

end Simulation

end DvivonOS.HeapCode
