import DvivonOS.Lib.X86

/-!
# Switching kernel stacks

`switch_to_stack` of `kernel/scheduler/stack_switch.s`, called by any number of contexts: a context
is suspended in its call until another one, or the context itself, switches to its stack. The stack
pointer of context `i` is kept at `slot i` (the field `kernel_esp` of a process).

Between two calls the running context does what it likes with the registers and with memory, but
for the words that the suspended contexts need: the kept stack pointers and the return addresses on
top of their stacks.
-/

namespace DvivonOS

open Bytes Function X86

def switchToStack : List Instr :=
  [.load 4 .esp .eax, .store .esp .eax, .load 8 .esp .edx, .move .edx .esp, .ret]

/-- The registers that a function of the i386 calling convention leaves as they are. -/
def calleeSaved : List Reg := [.ebx, .esi, .edi, .ebp]

/-- The registers of a context when it calls, and where the call returns to. -/
structure SwitchCall where
  reg : Reg → ℕ
  ret : ℕ

/-- The running context, and the calls in which the others are suspended. A context that has never
run is not in a call. -/
structure Contexts (ι : Type) where
  cpu : Cpu
  current : ι
  called : ι → Option SwitchCall

/-- The call `switch_to_stack(&slot, new_esp)` with the return address `ret`. -/
def callSwitch (K : Config) (c : Cpu) (ret : ℕ) : Cpu := execAll K switchToStack (c.push ret)

/-- The context has its stack pointer and the callee-saved registers back. -/
def Restored (cl : SwitchCall) (c : Cpu) : Prop :=
  c.reg .esp = cl.reg .esp ∧ ∀ r ∈ calleeSaved, c.reg r = cl.reg r

/-! ## One call -/

def Apart (a b : ℕ) : Prop := a + 4 ≤ b ∨ b + 4 ≤ a

/-- The stack of the caller, as the compiler lays out the call: the two arguments, and room for the
return address, apart from the word that takes the stack pointer. -/
structure CallFrame (c : Cpu) (slot newEsp : ℕ) : Prop where
  lower : 4 ≤ c.reg .esp
  upper : c.reg .esp + 8 ≤ 2 ^ 32
  arg₁ : c.mem.get32 (c.reg .esp) = slot
  arg₂ : c.mem.get32 (c.reg .esp + 4) = newEsp
  ret : Apart slot (c.reg .esp - 4)
  args : Apart slot (c.reg .esp) ∧ Apart slot (c.reg .esp + 4)

/-- What the call does to memory. -/
def switchMem (c : Cpu) (slot ret : ℕ) : Bytes :=
  (c.mem.put32 (c.reg .esp - 4) ret).put32 slot (c.reg .esp - 4)

section Call

variable {c : Cpu} {slot newEsp : ℕ}

/-- **`switch_to_stack`.** The stack pointer is saved and the new one is popped from; no other
register than `eax` and `edx` changes. -/
theorem CallFrame.callSwitch (h : CallFrame c slot newEsp) (K : Config) (ret : ℕ) :
    (callSwitch K c ret).reg = update (update (update c.reg
        .eax slot) .edx newEsp) .esp (add32 newEsp 4) ∧
      (DvivonOS.callSwitch K c ret).mem = switchMem c slot ret ∧
      (DvivonOS.callSwitch K c ret).eip = (switchMem c slot ret).get32 newEsp := by
  have hlo := h.lower
  have hhi := h.upper
  have hret := h.ret
  have hargs := h.args
  unfold Apart at hret hargs
  have hdown : sub32 (c.reg .esp) 4 = c.reg .esp - 4 := by
    unfold sub32
    omega
  have hup₄ : add32 (c.reg .esp - 4) 4 = c.reg .esp := by
    unfold add32
    omega
  have hup₈ : add32 (c.reg .esp - 4) 8 = c.reg .esp + 4 := by
    unfold add32
    omega
  have h₁ : (c.mem.put32 (c.reg .esp - 4) ret).get32 (c.reg .esp) = slot := by
    rw [get32_put32_of_disjoint _ _ (by omega), h.arg₁]
  have h₂ : (switchMem c slot ret).get32 (c.reg .esp + 4) = newEsp := by
    unfold switchMem
    rw [get32_put32_of_disjoint _ _ (by omega), get32_put32_of_disjoint _ _ (by omega),
      h.arg₂]
  unfold switchMem at h₂
  simp only [DvivonOS.callSwitch, execAll, switchToStack, List.foldl, exec, Cpu.push, Cpu.down,
    Cpu.setReg, Cpu.up, Cpu.top, switchMem, update_self, update_of_ne, ne_eq,
    reduceCtorEq, not_false_eq_true, hdown, hup₄, hup₈, h₁, h₂, and_true]
  funext r
  cases r <;> simp

end Call

/-! ## Runs -/

section Runs

variable {ι : Type} [DecidableEq ι] (K : Config) (slot : ι → ℕ)

/-- The words that context `k` needs while it is suspended. -/
def Contexts.Needs (s : Contexts ι) (k : ι) (w : ℕ) : Prop :=
  w = slot k ∨ ∃ cl, s.called k = some cl ∧ w = cl.reg .esp - 4

/-- The running context works on until its processor is `c`, and calls `switch_to_stack` for the
context `j`, which may be the context itself. Its stack pointer goes to the word `p`: its slot, or a
throwaway word if it is not to run again. -/
structure Switch (s : Contexts ι) (c : Cpu) (p ret : ℕ) (j : ι) (s' : Contexts ι) : Prop where
  /-- The words of the suspended contexts are left alone, by the work and by the call. -/
  kept : ∀ k ≠ s.current, ∀ w, s.Needs slot k w → c.mem.get32 w = s.cpu.mem.get32 w
  apart : ∀ k ≠ s.current, ∀ w, s.Needs slot k w → Apart w (c.reg .esp - 4) ∧ Apart w p
  frame : CallFrame c p (c.mem.get32 (slot j))
  ret_lt : ret < 2 ^ 32
  next : s' = ⟨callSwitch K c ret, j, update (update s.called s.current
    (if p = slot s.current then some ⟨c.reg, ret⟩ else none)) j none⟩

/-- The states reached by calls of `switch_to_stack`. -/
inductive Switches (s₀ : Contexts ι) : Contexts ι → Prop
  | refl : Switches s₀ s₀
  | step {s s' : Contexts ι} {c : Cpu} {p ret : ℕ} {j : ι} :
      Switches s₀ s → Switch K slot s c p ret j s' → Switches s₀ s'

/-- The kept stack pointer of every suspended context is that of its call, and its return address is
on top of its stack. -/
def Suspended (s : Contexts ι) : Prop :=
  ∀ k ≠ s.current, ∀ cl, s.called k = some cl →
    4 ≤ cl.reg .esp ∧ cl.reg .esp < 2 ^ 32 ∧ s.cpu.mem.get32 (slot k) = cl.reg .esp - 4 ∧
      s.cpu.mem.get32 (cl.reg .esp - 4) = cl.ret

variable {K slot} {s₀ s s' : Contexts ι} {c : Cpu} {p ret : ℕ} {j : ι}

theorem get32_switchMem {w : ℕ} (h₁ : Apart w (c.reg .esp - 4)) (h₂ : Apart w p) :
    (switchMem c p ret).get32 w = c.mem.get32 w := by
  unfold Apart at h₁ h₂
  unfold switchMem
  rw [get32_put32_of_disjoint _ _ (by omega), get32_put32_of_disjoint _ _ (by omega)]

theorem Switch.suspended_step (h : Suspended slot s) (hs : Switch K slot s c p ret j s') :
    Suspended slot s' := by
  obtain ⟨-, hmem, -⟩ := hs.frame.callSwitch K ret
  have hlo := hs.frame.lower
  have hhi := hs.frame.upper
  have hret := hs.frame.ret
  intro k hk cl hcl
  rw [hs.next] at hk hcl ⊢
  dsimp only at hk hcl ⊢
  rw [hmem]
  rw [update_of_ne hk] at hcl
  by_cases hki : k = s.current
  · -- the caller, if it is to run again
    subst hki
    rw [update_self] at hcl
    split_ifs at hcl with hp
    cases hcl
    dsimp only
    unfold switchMem
    rw [hp]
    refine ⟨hlo, by omega, get32_put32_of_lt _ _ (by omega), ?_⟩
    unfold Apart at hret
    rw [get32_put32_of_disjoint _ _ (by omega), get32_put32_of_lt _ _ hs.ret_lt]
  · rw [update_of_ne hki] at hcl
    obtain ⟨h1, h2, h3, h4⟩ := h k hki cl hcl
    have hword : ∀ w, s.Needs slot k w →
        (switchMem c p ret).get32 w = s.cpu.mem.get32 w := fun w hw => by
      rw [get32_switchMem (hs.apart k hki w hw).1 (hs.apart k hki w hw).2, hs.kept k hki w hw]
    exact ⟨h1, h2, (hword _ (Or.inl rfl)).trans h3, (hword _ (Or.inr ⟨cl, hcl, rfl⟩)).trans h4⟩

theorem Switches.suspended (h0 : ∀ k, s₀.called k = none) (h : Switches K slot s₀ s) :
    Suspended slot s := by
  induction h with
  | refl =>
    intro k _ cl hcl
    rw [h0 k] at hcl
    cases hcl
  | step _ hs ih => exact hs.suspended_step ih

/-- The callee-saved registers are those of the caller. -/
theorem Switch.reg_eq (hs : Switch K slot s c p ret j s') {r : Reg} (hr : r ∈ calleeSaved) :
    s'.cpu.reg r = c.reg r := by
  rw [hs.next]
  dsimp only
  rw [(hs.frame.callSwitch K ret).1]
  fin_cases hr <;> rfl

theorem Switch.esp_eq (hs : Switch K slot s c p ret j s') :
    s'.cpu.reg .esp = add32 (c.mem.get32 (slot j)) 4 := by
  rw [hs.next]
  dsimp only
  rw [(hs.frame.callSwitch K ret).1, update_self]

/-- **What a resumed context finds.** In every run of any number of contexts, a context that is
switched to by another one is back behind its call, on its own stack; the callee-saved registers are
its own iff those of the caller happen to be the same. A context that switches to itself has its
stack pointer iff the one kept for it from an earlier call is the same. -/
theorem switch_restores_iff (h0 : ∀ k, s₀.called k = none) (hrun : Switches K slot s₀ s)
    (hs : Switch K slot s c p ret j s') :
    (∀ cl, j ≠ s.current → s.called j = some cl →
      s'.cpu.eip = cl.ret ∧ s'.cpu.reg .esp = cl.reg .esp ∧
        (Restored cl s'.cpu ↔ ∀ r ∈ calleeSaved, c.reg r = cl.reg r)) ∧
      (j = s.current →
        (Restored ⟨c.reg, ret⟩ s'.cpu ↔ c.mem.get32 (slot j) = c.reg .esp - 4)) := by
  have hlo := hs.frame.lower
  have hhi := hs.frame.upper
  constructor
  · intro cl hj hcl
    obtain ⟨h1, h2, h3, h4⟩ := hrun.suspended h0 j hj cl hcl
    have hslot : c.mem.get32 (slot j) = cl.reg .esp - 4 :=
      (hs.kept j hj _ (Or.inl rfl)).trans h3
    have htop : s.Needs slot j (cl.reg .esp - 4) := Or.inr ⟨cl, hcl, rfl⟩
    have hesp : s'.cpu.reg .esp = cl.reg .esp := by
      rw [hs.esp_eq, hslot]
      unfold add32
      omega
    refine ⟨?_, hesp, ?_⟩
    · rw [hs.next]
      dsimp only
      rw [(hs.frame.callSwitch K ret).2.2, hslot,
        get32_switchMem (hs.apart j hj _ htop).1 (hs.apart j hj _ htop).2, hs.kept j hj _ htop, h4]
    · constructor
      · intro h r hr
        rw [← hs.reg_eq hr, h.2 r hr]
      · intro h
        exact ⟨hesp, fun r hr => by rw [hs.reg_eq hr, h r hr]⟩
  · intro _
    have hlt := get32_lt c.mem (slot j)
    have hiff : s'.cpu.reg .esp = c.reg .esp ↔ c.mem.get32 (slot j) = c.reg .esp - 4 := by
      rw [hs.esp_eq]
      unfold add32
      omega
    constructor
    · intro h
      exact hiff.mp h.1
    · intro h
      exact ⟨hiff.mpr h, fun r hr => hs.reg_eq hr⟩

end Runs

/-! ## Two contexts -/

def plainConfig : Config := ⟨true, fun _ => none, 0x10, 0⟩

def twoSlots : Bool → ℕ
  | false => 0x1000
  | true => 0x2000

/-- A processor with `ebx`, about to call `switch_to_stack` with the arguments at `esp`. -/
def caller (ebx esp slot newEsp : ℕ) (mem : Bytes) : Cpu where
  reg := update (update (fun _ => 0) .ebx ebx) .esp esp
  seg := fun _ => 0x10
  eip := 0
  eflags := 0
  mem := (mem.put32 esp slot).put32 (esp + 4) newEsp

section Caller

variable {ebx esp slot newEsp w : ℕ} {mem : Bytes}

theorem caller_get32 (h₁ : Apart w esp) (h₂ : Apart w (esp + 4)) :
    (caller ebx esp slot newEsp mem).mem.get32 w = mem.get32 w := by
  unfold Apart at h₁ h₂
  show ((mem.put32 esp slot).put32 (esp + 4) newEsp).get32 w = _
  rw [get32_put32_of_disjoint _ _ (by omega), get32_put32_of_disjoint _ _ (by omega)]

theorem caller_frame (hlo : 4 ≤ esp) (hhi : esp + 8 ≤ 2 ^ 32) (hnew : newEsp < 2 ^ 32)
    (hslot : slot + 12 ≤ esp) : CallFrame (caller ebx esp slot newEsp mem) slot newEsp where
  lower := hlo
  upper := hhi
  arg₁ := by
    show ((mem.put32 esp slot).put32 (esp + 4) newEsp).get32 esp = _
    rw [get32_put32_of_disjoint _ _ (by omega), get32_put32_of_lt _ _ (by omega)]
  arg₂ := get32_put32_of_lt _ _ hnew
  ret := Or.inl (show slot + 4 ≤ esp - 4 by omega)
  args := ⟨Or.inl (show slot + 4 ≤ esp by omega), Or.inl (show slot + 4 ≤ esp + 4 by omega)⟩

end Caller

def firstCaller : Cpu := caller 1 0x8000 0x1000 0x9000 (Bytes.zero.put32 0x2000 0x9000)

def beforeSwitch : Contexts Bool := ⟨firstCaller, false, fun _ => none⟩

def afterSwitch : Contexts Bool :=
  ⟨callSwitch plainConfig firstCaller 0x500, true,
    update (update (fun _ => none) false (some ⟨firstCaller.reg, 0x500⟩)) true none⟩

/-- The context `true` calls back, with `ebx` as its own code has left it. -/
def secondCaller (ebx : ℕ) : Cpu := caller ebx 0xA000 0x2000 0x7FFC afterSwitch.cpu.mem

def backAgain (ebx : ℕ) : Contexts Bool :=
  ⟨callSwitch plainConfig (secondCaller ebx) 0x600, false,
    update (update afterSwitch.called true
      (some ⟨(secondCaller ebx).reg, 0x600⟩)) false none⟩

theorem firstCaller_slot : firstCaller.mem.get32 0x2000 = 0x9000 := by
  unfold firstCaller
  rw [caller_get32 (Or.inl (by norm_num)) (Or.inl (by norm_num))]
  exact get32_put32_of_lt _ _ (by norm_num)

theorem firstCaller_frame : CallFrame firstCaller 0x1000 0x9000 :=
  caller_frame (by norm_num) (by norm_num) (by norm_num) (by norm_num)

theorem firstCaller_switch :
    Switch plainConfig twoSlots beforeSwitch firstCaller 0x1000 0x500 true afterSwitch where
  kept _ _ _ _ := rfl
  apart k hk w hw := by
    obtain rfl : k = true := by
      cases k with
      | false => exact absurd rfl hk
      | true => rfl
    obtain rfl | ⟨cl, hcl, -⟩ := hw
    · exact ⟨Or.inl (show 0x2000 + 4 ≤ 0x8000 - 4 by norm_num),
        Or.inr (show 0x1000 + 4 ≤ 0x2000 by norm_num)⟩
    · cases hcl
  frame := by
    show CallFrame firstCaller 0x1000 (firstCaller.mem.get32 0x2000)
    rw [firstCaller_slot]
    exact firstCaller_frame
  ret_lt := by norm_num
  next := rfl

/-- The call of the context `false`, in which it is suspended. -/
theorem afterSwitch_suspended : Suspended twoSlots afterSwitch :=
  Switches.suspended (fun _ => rfl) (.step .refl firstCaller_switch)

theorem secondCaller_switch (ebx : ℕ) :
    Switch plainConfig twoSlots afterSwitch (secondCaller ebx) 0x2000 0x600 false
      (backAgain ebx) where
  kept k hk w hw := by
    obtain rfl : k = false := by
      cases k with
      | false => rfl
      | true => exact absurd rfl hk
    obtain rfl | ⟨cl, hcl, rfl⟩ := hw
    · exact caller_get32 (Or.inl (show 0x1000 + 4 ≤ 0xA000 by norm_num))
        (Or.inl (show 0x1000 + 4 ≤ 0xA000 + 4 by norm_num))
    · obtain rfl : ⟨firstCaller.reg, 0x500⟩ = cl := Option.some_inj.mp hcl
      exact caller_get32 (Or.inl (show 0x8000 - 4 + 4 ≤ 0xA000 by norm_num))
        (Or.inl (show 0x8000 - 4 + 4 ≤ 0xA000 + 4 by norm_num))
  apart k hk w hw := by
    obtain rfl : k = false := by
      cases k with
      | false => rfl
      | true => exact absurd rfl hk
    obtain rfl | ⟨cl, hcl, rfl⟩ := hw
    · exact ⟨Or.inl (show 0x1000 + 4 ≤ 0xA000 - 4 by norm_num),
        Or.inl (show 0x1000 + 4 ≤ 0x2000 by norm_num)⟩
    · obtain rfl : ⟨firstCaller.reg, 0x500⟩ = cl := Option.some_inj.mp hcl
      exact ⟨Or.inl (show 0x8000 - 4 + 4 ≤ 0xA000 - 4 by norm_num),
        Or.inr (show 0x2000 + 4 ≤ 0x8000 - 4 by norm_num)⟩
  frame := by
    have hslot : (secondCaller ebx).mem.get32 0x1000 = 0x7FFC :=
      (caller_get32 (Or.inl (by norm_num)) (Or.inl (by norm_num))).trans
        (afterSwitch_suspended false (by decide) ⟨firstCaller.reg, 0x500⟩ rfl).2.2.1
    show CallFrame (secondCaller ebx) 0x2000 ((secondCaller ebx).mem.get32 0x1000)
    rw [hslot]
    exact caller_frame (by norm_num) (by norm_num) (by norm_num) (by norm_num)
  ret_lt := by norm_num
  next := rfl

/-- The other context leaves `1` in `ebx` too. -/
theorem switch_restores_iff_same : Restored ⟨firstCaller.reg, 0x500⟩ (backAgain 1).cpu := by
  have hrun : Switches plainConfig twoSlots beforeSwitch afterSwitch :=
    .step .refl firstCaller_switch
  obtain ⟨hother, -⟩ := switch_restores_iff (fun _ => rfl) hrun (secondCaller_switch 1)
  obtain ⟨-, -, hiff⟩ := hother ⟨firstCaller.reg, 0x500⟩ (by decide) rfl
  refine hiff.mpr fun r hr => ?_
  fin_cases hr <;> rfl

/-- **The registers of another context.** The context `false` calls with `1` in `ebx` and comes back
with the `2` of the context `true`. -/
theorem ebx_of_other_context : ∃ s s' : Contexts Bool, ∃ c p ret,
    Switches plainConfig twoSlots beforeSwitch s ∧ Switch plainConfig twoSlots s c p ret false s' ∧
      s.current = true ∧ s.called false = some ⟨firstCaller.reg, 0x500⟩ ∧
      firstCaller.reg .ebx = 1 ∧ s'.cpu.reg .ebx = 2 ∧
      ¬ Restored ⟨firstCaller.reg, 0x500⟩ s'.cpu := by
  refine ⟨afterSwitch, backAgain 2, secondCaller 2, 0x2000, 0x600, .step .refl firstCaller_switch,
    secondCaller_switch 2, rfl, rfl, rfl, ?_, fun h => ?_⟩
  · exact (secondCaller_switch 2).reg_eq (by decide)
  · have hebx : (backAgain 2).cpu.reg .ebx = 2 := (secondCaller_switch 2).reg_eq (by decide)
    have := h.2 .ebx (by decide)
    rw [hebx] at this
    exact absurd this (by decide)

end DvivonOS
