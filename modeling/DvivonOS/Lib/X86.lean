import DvivonOS.Lib.Bytes

/-!
# The stack of a 32-bit x86 processor

Registers, segment selectors, flat memory, and the instructions that move words between them.
A selector that is pushed takes a word of which it fills the lower half; the upper half is cleared
or left alone, depending on the processor.

`interrupt` is the entry of a gate from an outer ring: the processor takes the stack of the task
state segment and pushes where it came from. `iret` is the way back.
-/

namespace DvivonOS

open Bytes Function List

namespace X86

inductive Reg
  | eax
  | ecx
  | edx
  | ebx
  | esp
  | ebp
  | esi
  | edi
  deriving DecidableEq

inductive Seg
  | cs
  | ss
  | ds
  | es
  | fs
  | gs
  deriving DecidableEq

/-- What does not change while the code runs: how selectors are pushed, the privilege levels of the
descriptors by selector (`none` for the null selectors), and the ring 0 stack of the task state
segment. -/
structure Config where
  zeroExtends : Bool
  dpl : ℕ → Option ℕ
  ss0 : ℕ
  esp0 : ℕ

@[ext]
structure Cpu where
  reg : Reg → ℕ
  seg : Seg → ℕ
  eip : ℕ
  eflags : ℕ
  mem : Bytes

namespace Cpu

def setReg (c : Cpu) (r : Reg) (w : ℕ) : Cpu := { c with reg := update c.reg r w }

def setSeg (c : Cpu) (s : Seg) (w : ℕ) : Cpu := { c with seg := update c.seg s w }

def top (c : Cpu) : ℕ := c.mem.get32 (c.reg .esp)

def down (c : Cpu) : Cpu := c.setReg .esp (sub32 (c.reg .esp) 4)

def up (c : Cpu) (n : ℕ) : Cpu := c.setReg .esp (add32 (c.reg .esp) n)

def push (c : Cpu) (w : ℕ) : Cpu := { c.down with mem := c.mem.put32 (c.down.reg .esp) w }

def pushSel (K : Config) (c : Cpu) (w : ℕ) : Cpu :=
  if K.zeroExtends then c.push w else { c.down with mem := c.mem.put16 (c.down.reg .esp) w }

def pop (c : Cpu) (r : Reg) : Cpu := (c.up 4).setReg r c.top

def popSeg (c : Cpu) (s : Seg) : Cpu := (c.up 4).setSeg s (c.mem.get16 (c.reg .esp))

/-- The requested privilege level of `cs` is the ring. -/
def ring (c : Cpu) : ℕ := c.seg .cs % 4

end Cpu

/-- The instructions, with the operands in the order of the AT&T syntax: `load off base dst` is
`movl off(base), dst` and `store src base` is `movl src, (base)`. -/
inductive Instr
  | load (off : ℕ) (base dst : Reg)
  | store (src base : Reg)
  | move (src dst : Reg)
  | moveLow (imm : ℕ) (dst : Reg)
  | moveSeg (src : Reg) (dst : Seg)
  | pushReg (r : Reg)
  | pushImm (w : ℕ)
  | pushSeg (s : Seg)
  | popSeg (s : Seg)
  | pusha
  | popa
  | addEsp (n : ℕ)
  | ret
  | iret

/-- `pusha` pushes the stack pointer it starts with. -/
def pusha (c : Cpu) : Cpu :=
  (((((((c.push (c.reg .eax)).push (c.reg .ecx)).push (c.reg .edx)).push (c.reg .ebx)).push
    (c.reg .esp)).push (c.reg .ebp)).push (c.reg .esi)).push (c.reg .edi)

/-- `popa` skips the stack pointer. -/
def popa (c : Cpu) : Cpu :=
  ((((((((c.pop .edi).pop .esi).pop .ebp).up 4).pop .ebx).pop .edx).pop .ecx).pop .eax)

/-- On the way to an outer ring a data segment register that the ring may not use is cleared. -/
def dataSeg (K : Config) (ring sel : ℕ) : ℕ :=
  match K.dpl sel with
  | some d => if d < ring then 0 else sel
  | none => sel

/-- The segment registers in the ring of `cs`. -/
def outerSegs (K : Config) (seg : Seg → ℕ) (cs ss : ℕ) : Seg → ℕ
  | .cs => cs
  | .ss => ss
  | s => dataSeg K (cs % 4) (seg s)

def iret (K : Config) (c : Cpu) : Cpu :=
  let cs := c.mem.get16 (add32 (c.reg .esp) 4)
  let c' := { c.up 12 with
    eip := c.top
    eflags := c.mem.get32 (add32 (c.reg .esp) 8)
    seg := update c.seg .cs cs }
  if c.ring < cs % 4 then
    { c' with
      reg := update c'.reg .esp c'.top
      seg := outerSegs K c.seg cs (c.mem.get16 (add32 (c'.reg .esp) 4)) }
  else c'

def exec (K : Config) (c : Cpu) : Instr → Cpu
  | .load off base dst => c.setReg dst (c.mem.get32 (add32 (c.reg base) off))
  | .store src base => { c with mem := c.mem.put32 (c.reg base) (c.reg src) }
  | .move src dst => c.setReg dst (c.reg src)
  | .moveLow imm dst => c.setReg dst (c.reg dst / 65536 * 65536 + imm)
  | .moveSeg src dst => c.setSeg dst (c.reg src % 65536)
  | .pushReg r => c.push (c.reg r)
  | .pushImm w => c.push w
  | .pushSeg s => c.pushSel K (c.seg s)
  | .popSeg s => c.popSeg s
  | .pusha => pusha c
  | .popa => popa c
  | .addEsp n => c.up n
  | .ret => { c.up 4 with eip := c.top }
  | .iret => iret K c

def execAll (K : Config) (code : List Instr) (c : Cpu) : Cpu := code.foldl (exec K) c

theorem execAll_pushImm (K : Config) (w : ℕ) (code : List Instr) (c : Cpu) :
    execAll K (.pushImm w :: code) c = execAll K code (c.push w) := rfl

/-- A gate of the interrupt table: its selector and handler, and whether it leaves interrupts on. -/
structure Gate where
  sel : ℕ
  handler : ℕ
  trap : Bool

/-- The flags at the entry of a gate: trap, nested task, resume and virtual mode are cleared, and
the interrupt flag unless the gate is a trap gate. -/
def Gate.flags (g : Gate) (eflags : ℕ) : ℕ :=
  eflags &&& (2 ^ 32 - 1 - 0x34100) &&& (if g.trap then 2 ^ 32 - 1 else 2 ^ 32 - 1 - 0x200)

/-- What is pushed: a whole word, or a selector. -/
inductive Item
  | word (w : ℕ)
  | sel (w : ℕ)

def Cpu.pushItem (K : Config) (c : Cpu) : Item → Cpu
  | .word w => c.push w
  | .sel w => c.pushSel K w

def Cpu.pushItems (K : Config) (c : Cpu) (items : List Item) : Cpu := items.foldl (Cpu.pushItem K) c

/-- Where a word from the stack goes. -/
inductive Dest
  | reg (r : Reg)
  | seg (s : Seg)
  | skip
  deriving DecidableEq

def Cpu.popDest (c : Cpu) : Dest → Cpu
  | .reg r => c.pop r
  | .seg s => c.popSeg s
  | .skip => c.up 4

def Cpu.popDests (c : Cpu) (ds : List Dest) : Cpu := ds.foldl Cpu.popDest c

/-- The processor on the stack of the task state segment. -/
def onStack (K : Config) (c : Cpu) : Cpu :=
  { c with
    reg := update c.reg .esp K.esp0
    seg := update c.seg .ss K.ss0 }

/-- What the processor pushes at the entry of a gate. -/
def gateItems (c : Cpu) (err : Option ℕ) : List Item :=
  [.sel (c.seg .ss), .word (c.reg .esp), .word c.eflags, .sel (c.seg .cs), .word c.eip] ++
    err.toList.map .word

/-- An interrupt in an outer ring, with the error code of the exceptions that have one. -/
def interrupt (K : Config) (g : Gate) (err : Option ℕ) (c : Cpu) : Cpu :=
  { (onStack K c).pushItems K (gateItems c err) with
    seg := update ((onStack K c).pushItems K (gateItems c err)).seg .cs g.sel
    eip := g.handler
    eflags := g.flags c.eflags }

section

variable (K : Config) (g : Gate) (err : Option ℕ) (c : Cpu)

include K g err c

theorem interrupt_mem :
    (interrupt K g err c).mem = ((onStack K c).pushItems K (gateItems c err)).mem := by
  simp only [interrupt]

theorem interrupt_reg :
    (interrupt K g err c).reg = ((onStack K c).pushItems K (gateItems c err)).reg := by
  simp only [interrupt]

theorem interrupt_seg :
    (interrupt K g err c).seg =
      update ((onStack K c).pushItems K (gateItems c err)).seg .cs g.sel := by
  simp only [interrupt]

end

/-! ## What has been pushed -/

/-- The word at `a` holds what was pushed. -/
def Item.At (mem : Bytes) (a : ℕ) : Item → Prop
  | .word w => mem.get32 a = w % 4294967296
  | .sel w => mem.get16 a = w % 65536

theorem Item.At.congr {mem mem' : Bytes} {a : ℕ} {x : Item} (h : x.At mem a)
    (hm : ∀ i, a ≤ i → i < a + 4 → mem' i = mem i) : x.At mem' a := by
  cases x with
  | word w => exact (get32_congr hm).trans h
  | sel w => exact (get16_congr fun i h1 h2 => hm i h1 (by omega)).trans h

/-- The stack pointer is the only register that has changed, and memory has changed between it and
its old value only. -/
structure Pushed (c : Cpu) (items : List Item) (c' : Cpu) : Prop where
  reg : c'.reg = update c.reg .esp (c.reg .esp - 4 * items.length)
  seg : c'.seg = c.seg
  eip : c'.eip = c.eip
  eflags : c'.eflags = c.eflags
  held : ∀ i (hi : i < items.length), (items.get ⟨i, hi⟩).At c'.mem (c.reg .esp - 4 * (i + 1))
  mem : ∀ a, a < c.reg .esp - 4 * items.length ∨ c.reg .esp ≤ a → c'.mem a = c.mem a

section Pushed

variable {K : Config} {c : Cpu}

theorem down_esp (h : 4 ≤ c.reg .esp) (hlt : c.reg .esp < 2 ^ 32) :
    c.down = c.setReg .esp (c.reg .esp - 4) := by
  have heq : sub32 (c.reg .esp) 4 = c.reg .esp - 4 := by
    unfold sub32
    omega
  unfold Cpu.down
  rw [heq]

theorem pushItem_spec (x : Item) (h : 4 ≤ c.reg .esp) (hlt : c.reg .esp < 2 ^ 32) :
    Pushed c [x] (c.pushItem K x) := by
  have hesp : c.down.reg .esp = c.reg .esp - 4 := by
    rw [down_esp h hlt]
    exact update_self Reg.esp _ c.reg
  -- a push differs from the others in the bytes it writes only
  have key : ∀ m : Bytes, x.At m (c.reg .esp - 4) →
      (∀ a, a < c.reg .esp - 4 ∨ c.reg .esp ≤ a → m a = c.mem a) →
      Pushed c [x] { c.down with mem := m } := by
    intro m hx hm
    refine ⟨?_, rfl, rfl, rfl, fun i hi => ?_, hm⟩
    · rw [down_esp h hlt]
      rfl
    · obtain rfl : i = 0 := by
        have : i < 1 := hi
        omega
      exact hx
  cases x with
  | word w =>
    show Pushed c _ { c.down with mem := c.mem.put32 (c.down.reg .esp) w }
    rw [hesp]
    exact key _ (get32_put32 _ _ _) fun a ha => put32_of_not_mem _ _ (by omega)
  | sel w =>
    unfold Cpu.pushItem Cpu.pushSel
    split_ifs
    · show Pushed c _ { c.down with mem := c.mem.put32 (c.down.reg .esp) w }
      rw [hesp]
      refine key _ ?_ fun a ha => put32_of_not_mem _ _ (by omega)
      show Bytes.get16 (Bytes.put32 _ _ _) _ = _
      unfold Bytes.put32
      rw [get16_put16_of_disjoint _ _ (by omega), get16_put16]
    · rw [hesp]
      exact key _ (get16_put16 _ _ _) fun a ha => put16_of_not_mem _ _ (by omega)

/-- **Pushes.** Everything pushed is found on the stack, the last item on top. -/
theorem pushItems_spec : ∀ (items : List Item) (c : Cpu), 4 * items.length ≤ c.reg .esp →
    c.reg .esp < 2 ^ 32 → Pushed c items (c.pushItems K items) := by
  intro items
  induction items with
  | nil =>
    intro c _ _
    refine ⟨?_, rfl, rfl, rfl, fun i hi => absurd hi (by simp), fun a _ => rfl⟩
    exact (update_eq_self _ _).symm
  | cons x items ih =>
    intro c h hlt
    rw [length_cons] at h
    have h1 : Pushed c [x] (c.pushItem K x) := pushItem_spec x (by omega) hlt
    have hesp : (c.pushItem K x).reg .esp = c.reg .esp - 4 := by
      rw [h1.reg]
      exact update_self _ _ _
    have h2 := ih (c.pushItem K x) (by rw [hesp]; omega) (by rw [hesp]; omega)
    have hreg := h2.reg
    have hitems := h2.held
    have hmem := h2.mem
    rw [hesp] at hreg hitems hmem
    refine ⟨?_, h2.seg.trans h1.seg, h2.eip.trans h1.eip, h2.eflags.trans h1.eflags,
      fun i hi => ?_, fun a ha => ?_⟩
    · show ((c.pushItem K x).pushItems K items).reg = _
      rw [hreg, h1.reg, update_idem, length_cons]
      congr 1
      omega
    · cases i with
      | zero =>
        refine (h1.held 0 (by simp)).congr fun a ha1 ha2 => ?_
        exact hmem a (Or.inr (by omega))
      | succ i =>
        rw [length_cons] at hi
        have := hitems i (by omega)
        rw [show c.reg .esp - 4 - 4 * (i + 1) = c.reg .esp - 4 * (i + 1 + 1) by omega] at this
        exact this
    · rw [length_cons] at ha
      exact (hmem a (by omega)).trans (h1.mem a (by
        rw [length_singleton]
        omega))

theorem pushItem_congr {c d : Cpu} (hm : c.mem = d.mem) (he : c.reg .esp = d.reg .esp) (x : Item) :
    (c.pushItem K x).mem = (d.pushItem K x).mem ∧
      (c.pushItem K x).reg .esp = (d.pushItem K x).reg .esp := by
  have hdown : c.down.reg .esp = d.down.reg .esp := by
    unfold Cpu.down Cpu.setReg
    dsimp only
    rw [update_self, update_self, he]
  have hpush : ∀ w, (c.push w).mem = (d.push w).mem ∧ (c.push w).reg .esp = (d.push w).reg .esp := by
    intro w
    refine ⟨?_, hdown⟩
    show c.mem.put32 (c.down.reg .esp) w = d.mem.put32 (d.down.reg .esp) w
    rw [hm, hdown]
  cases x with
  | word w => exact hpush w
  | sel w =>
    unfold Cpu.pushItem Cpu.pushSel
    split_ifs
    · exact hpush w
    · refine ⟨?_, hdown⟩
      show c.mem.put16 (c.down.reg .esp) w = d.mem.put16 (d.down.reg .esp) w
      rw [hm, hdown]

theorem pushItems_congr : ∀ (items : List Item) {c d : Cpu}, c.mem = d.mem →
    c.reg .esp = d.reg .esp → (c.pushItems K items).mem = (d.pushItems K items).mem ∧
      (c.pushItems K items).reg .esp = (d.pushItems K items).reg .esp := by
  intro items
  induction items with
  | nil =>
    intro c d hm he
    exact ⟨hm, he⟩
  | cons x items ih =>
    intro c d hm he
    obtain ⟨hm', he'⟩ := pushItem_congr (K := K) hm he x
    exact ih hm' he'

theorem pushItems_word (c : Cpu) (w : ℕ) (l : List Item) :
    c.pushItems K (.word w :: l) = (c.push w).pushItems K l := rfl

theorem pushItems_append (c : Cpu) (l l' : List Item) :
    c.pushItems K (l ++ l') = (c.pushItems K l).pushItems K l' := foldl_append

@[simp] theorem push_seg (c : Cpu) (w : ℕ) : (c.push w).seg = c.seg := rfl

@[simp] theorem pushSel_seg (c : Cpu) (w : ℕ) : (c.pushSel K w).seg = c.seg := by
  unfold Cpu.pushSel
  split_ifs <;> rfl

theorem pushItems_seg (items : List Item) : ∀ c : Cpu, (c.pushItems K items).seg = c.seg := by
  induction items with
  | nil => exact fun _ => rfl
  | cons x items ih =>
    intro c
    refine (ih _).trans ?_
    cases x with
    | word w => exact push_seg c w
    | sel w => exact pushSel_seg c w

theorem push_reg (c : Cpu) (w : ℕ) {r : Reg} (hr : r ≠ .esp) : (c.push w).reg r = c.reg r :=
  update_of_ne hr _ _

end Pushed

/-! ## What has been popped -/

theorem add32_of_lt {a n : ℕ} (h : a + n < 2 ^ 32) : add32 a n = a + n := Nat.mod_eq_of_lt h

theorem up_esp {c : Cpu} {n : ℕ} (h : c.reg .esp + n < 2 ^ 32) :
    (c.up n).reg .esp = c.reg .esp + n :=
  (update_self Reg.esp _ c.reg).trans (add32_of_lt h)

/-- The destinations have the words of the stack, from the top on. -/
structure Popped (c : Cpu) (ds : List Dest) (c' : Cpu) : Prop where
  esp : c'.reg .esp = c.reg .esp + 4 * ds.length
  eip : c'.eip = c.eip
  eflags : c'.eflags = c.eflags
  mem : c'.mem = c.mem
  reg : ∀ i (hi : i < ds.length) r, ds.get ⟨i, hi⟩ = .reg r →
    c'.reg r = c.mem.get32 (c.reg .esp + 4 * i)
  seg : ∀ i (hi : i < ds.length) s, ds.get ⟨i, hi⟩ = .seg s →
    c'.seg s = c.mem.get16 (c.reg .esp + 4 * i)
  keepReg : ∀ r ≠ .esp, Dest.reg r ∉ ds → c'.reg r = c.reg r
  keepSeg : ∀ s, Dest.seg s ∉ ds → c'.seg s = c.seg s

theorem popDest_spec {c : Cpu} {d : Dest} (hlt : c.reg .esp + 4 < 2 ^ 32) (hd : d ≠ .reg .esp) :
    Popped c [d] (c.popDest d) := by
  have hzero : ∀ i (hi : i < [d].length), i = 0 ∧ [d].get ⟨i, hi⟩ = d := by
    intro i hi
    obtain rfl : i = 0 := by
      rw [length_singleton] at hi
      omega
    exact ⟨rfl, rfl⟩
  refine ⟨?_, ?_, ?_, ?_, fun i hi r hr => ?_, fun i hi s hs => ?_, fun r hr hmem => ?_,
    fun s hmem => ?_⟩
  · cases d with
    | reg r =>
      have hr : Reg.esp ≠ r := fun h => hd (by rw [h])
      exact (update_of_ne hr _ _).trans (up_esp hlt)
    | seg s => exact up_esp hlt
    | skip => exact up_esp hlt
  · cases d <;> rfl
  · cases d <;> rfl
  · cases d <;> rfl
  · obtain ⟨rfl, h0⟩ := hzero i hi
    rw [h0] at hr
    subst hr
    exact update_self _ _ _
  · obtain ⟨rfl, h0⟩ := hzero i hi
    rw [h0] at hs
    subst hs
    exact update_self _ _ _
  · cases d with
    | reg r' =>
      have hne : r ≠ r' := fun h => hmem (by rw [h]; exact mem_singleton_self _)
      exact (update_of_ne hne _ _).trans (update_of_ne hr _ _)
    | seg s => exact update_of_ne hr _ _
    | skip => exact update_of_ne hr _ _
  · cases d with
    | reg r => rfl
    | seg s' =>
      have hne : s ≠ s' := fun h => hmem (by rw [h]; exact mem_singleton_self _)
      exact update_of_ne hne _ _
    | skip => rfl

/-- **Pops.** Every destination gets its word, when none is named twice. -/
theorem popDests_spec : ∀ (ds : List Dest) (c : Cpu), c.reg .esp + 4 * ds.length < 2 ^ 32 →
    Dest.reg .esp ∉ ds → ds.Pairwise (fun d d' => d = d' → d = .skip) →
    Popped c ds (c.popDests ds) := by
  intro ds
  induction ds with
  | nil =>
    intro c _ _ _
    exact ⟨rfl, rfl, rfl, rfl, fun i hi => absurd hi (by simp), fun i hi => absurd hi (by simp),
      fun _ _ _ => rfl, fun _ _ => rfl⟩
  | cons d ds ih =>
    intro c hlt hesp hpair
    rw [length_cons] at hlt
    rw [mem_cons, not_or] at hesp
    obtain ⟨hhead, htail⟩ := pairwise_cons.mp hpair
    have h1 : Popped c [d] (c.popDest d) := popDest_spec (by omega) (Ne.symm hesp.1)
    have h1esp : (c.popDest d).reg .esp = c.reg .esp + 4 := h1.esp
    have h2 := ih (c.popDest d) (by rw [h1esp]; omega) hesp.2 htail
    -- a destination of the first pop is not overwritten by the others
    have hfirst : ∀ x, d = x → x ≠ .skip → x ∉ ds := fun x hx hskip hmem =>
      hskip (hx ▸ hhead x hmem hx)
    refine ⟨?_, h2.eip.trans h1.eip, h2.eflags.trans h1.eflags, h2.mem.trans h1.mem,
      fun i hi r hr => ?_, fun i hi s hs => ?_, fun r hr hmem => ?_, fun s hmem => ?_⟩
    · refine h2.esp.trans ?_
      rw [h1esp, length_cons]
      omega
    · cases i with
      | zero =>
        have hr' : d = .reg r := hr
        have hne : r ≠ .esp := fun h => hesp.1 (by rw [hr', h])
        exact (h2.keepReg r hne (hfirst _ hr' (by simp))).trans (h1.reg 0 (by simp) r hr)
      | succ i =>
        rw [length_cons] at hi
        refine (h2.reg i (by omega) r hr).trans ?_
        rw [h1.mem, h1esp, Nat.mul_add, Nat.add_assoc, Nat.add_comm 4]
    · cases i with
      | zero =>
        have hs' : d = .seg s := hs
        exact (h2.keepSeg s (hfirst _ hs' (by simp))).trans (h1.seg 0 (by simp) s hs)
      | succ i =>
        rw [length_cons] at hi
        refine (h2.seg i (by omega) s hs).trans ?_
        rw [h1.mem, h1esp, Nat.mul_add, Nat.add_assoc, Nat.add_comm 4]
    · rw [mem_cons, not_or] at hmem
      exact (h2.keepReg r hr hmem.2).trans (h1.keepReg r hr (by simpa using hmem.1))
    · rw [mem_cons, not_or] at hmem
      exact (h2.keepSeg s hmem.2).trans (h1.keepSeg s (by simpa using hmem.1))

theorem up_up (c : Cpu) (m n : ℕ) : (c.up m).up n = c.up (m + n) := by
  have h : add32 (add32 (c.reg .esp) m) n = add32 (c.reg .esp) (m + n) := by
    unfold add32
    rw [Nat.mod_add_mod, Nat.add_assoc]
  unfold Cpu.up Cpu.setReg
  dsimp only
  rw [update_self, update_idem, h]

/-- **`iret` to an outer ring.** -/
theorem iret_outer (K : Config) {c : Cpu} (hhi : c.reg .esp + 20 ≤ 2 ^ 32)
    (hring : c.ring < c.mem.get16 (c.reg .esp + 4) % 4) :
    iret K c =
      { reg := update c.reg .esp (c.mem.get32 (c.reg .esp + 12))
        seg := outerSegs K c.seg (c.mem.get16 (c.reg .esp + 4)) (c.mem.get16 (c.reg .esp + 16))
        eip := c.mem.get32 (c.reg .esp)
        eflags := c.mem.get32 (c.reg .esp + 8)
        mem := c.mem } := by
  have h4 : add32 (c.reg .esp) 4 = c.reg .esp + 4 := add32_of_lt (by omega)
  have h8 : add32 (c.reg .esp) 8 = c.reg .esp + 8 := add32_of_lt (by omega)
  have h12 : (c.up 12).reg .esp = c.reg .esp + 12 := up_esp (by omega)
  have h16 : add32 (c.reg .esp + 12) 4 = c.reg .esp + 16 := add32_of_lt (by omega)
  unfold iret
  dsimp only [Cpu.top]
  rw [h4, h8, if_pos hring, h12, h16]
  dsimp only [Cpu.up, Cpu.setReg]
  rw [update_idem]

end X86

end DvivonOS
