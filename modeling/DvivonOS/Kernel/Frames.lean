import DvivonOS.Heap.Model
import DvivonOS.Kernel.Switch
import DvivonOS.Kernel.Elf

/-!
# Frames on the kernel stack

The way from user mode into the kernel and back: the stubs of `arch/i686/cpu/interrupts.s`, the
frame `interrupt_frame_t` of `idt.h` that they build together with the processor, `fork_ret` of
`kernel/scheduler/stack_switch.s`, which takes such a frame apart, and the frame that `process_init`
of `kernel/scheduler/scheduler.c` leaves on the stack of a new process.
-/

namespace DvivonOS

open Bytes Function List X86

/-! ## Selectors of `gdt.h` -/

def gdtKernelDataSel : ℕ := 0x10

def gdtUserCodeSel : ℕ := 0x1B

def gdtUserDataSel : ℕ := 0x23

/-- The privilege levels of the segments of `gdt_init`. -/
def gdtDpl (sel : ℕ) : Option ℕ :=
  match sel / 8 with
  | 1 => some 0
  | 2 => some 0
  | 3 => some 3
  | 4 => some 3
  | _ => none

/-- The processor with the descriptor table and the task state segment of `gdt.c`; `esp0` is what
`tss_set_stack` has stored. -/
def kernelConfig (zeroExtends : Bool) (esp0 : ℕ) : Config :=
  ⟨zeroExtends, gdtDpl, gdtKernelDataSel, esp0⟩

theorem dataSeg_gdtUserDataSel (zeroExtends : Bool) (esp0 : ℕ) :
    dataSeg (kernelConfig zeroExtends esp0) 3 gdtUserDataSel = gdtUserDataSel := by
  simp [dataSeg, kernelConfig, gdtDpl, gdtUserDataSel]

/-! ## `interrupt_frame_t` -/

structure InterruptFrame where
  gs : ℕ
  fs : ℕ
  es : ℕ
  ds : ℕ
  edi : ℕ
  esi : ℕ
  ebp : ℕ
  esp : ℕ
  ebx : ℕ
  edx : ℕ
  ecx : ℕ
  eax : ℕ
  intNo : ℕ
  errCode : ℕ
  eip : ℕ
  cs : ℕ
  eflags : ℕ
  useresp : ℕ
  ss : ℕ

def frameSize : ℕ := 76

/-- The frame that a pointer points to. -/
def frameAt (mem : Bytes) (a : ℕ) : InterruptFrame where
  gs := mem.get32 a
  fs := mem.get32 (a + 4)
  es := mem.get32 (a + 8)
  ds := mem.get32 (a + 12)
  edi := mem.get32 (a + 16)
  esi := mem.get32 (a + 20)
  ebp := mem.get32 (a + 24)
  esp := mem.get32 (a + 28)
  ebx := mem.get32 (a + 32)
  edx := mem.get32 (a + 36)
  ecx := mem.get32 (a + 40)
  eax := mem.get32 (a + 44)
  intNo := mem.get32 (a + 48)
  errCode := mem.get32 (a + 52)
  eip := mem.get32 (a + 56)
  cs := mem.get32 (a + 60)
  eflags := mem.get32 (a + 64)
  useresp := mem.get32 (a + 68)
  ss := mem.get32 (a + 72)

/-! ## The stubs -/

def pushSegs : List Instr := [.pushSeg .ds, .pushSeg .es, .pushSeg .fs, .pushSeg .gs]

def popSegs : List Instr := [.popSeg .gs, .popSeg .fs, .popSeg .es, .popSeg .ds]

/-- The exceptions for which the processor pushes an error code, and the stub is `ISR_ERR`. -/
def hasErrorCode (n : ℕ) : Bool := n ∈ [8, 10, 11, 12, 13, 14, 17]

/-- `ISR_NOERR`, `ISR_ERR` and `IRQ`, which push the number of the interrupt. -/
def isr (n : ℕ) : List Instr := if hasErrorCode n then [.pushImm n] else [.pushImm 0, .pushImm n]

/-- `isr_common_stub` and `irq_common_stub` up to the point where the frame is complete. -/
def commonStubEntry : List Instr := .pusha :: pushSegs

/-- `isr_common_stub` and `irq_common_stub` behind the call of `isr_common_handler`, when the
argument has been dropped. -/
def commonStubExit : List Instr := popSegs ++ [.popa, .addEsp 8, .iret]

def forkRet : List Instr :=
  [.popSeg .gs, .popSeg .fs, .popSeg .es, .popSeg .ds, .popa, .addEsp 8, .iret]

/-! ## Taking a frame apart -/

/-- The registers that a frame gives to the code it returns to. -/
def InterruptFrame.reg (f : InterruptFrame) : Reg → ℕ
  | .eax => f.eax
  | .ecx => f.ecx
  | .edx => f.edx
  | .ebx => f.ebx
  | .esp => f.useresp
  | .ebp => f.ebp
  | .esi => f.esi
  | .edi => f.edi

/-- The selectors of a frame, which are the lower halves of their words. -/
def InterruptFrame.seg (f : InterruptFrame) : Seg → ℕ
  | .cs => f.cs % 65536
  | .ss => f.ss % 65536
  | .ds => f.ds % 65536
  | .es => f.es % 65536
  | .fs => f.fs % 65536
  | .gs => f.gs % 65536

/-- The processor in user mode, as a frame says. -/
def userState (K : Config) (f : InterruptFrame) (mem : Bytes) : Cpu where
  reg := f.reg
  seg := fun s => if s = .cs ∨ s = .ss then f.seg s else dataSeg K (f.cs % 4) (f.seg s)
  eip := f.eip
  eflags := f.eflags
  mem := mem

theorem userState_seg (K : Config) (f : InterruptFrame) (mem : Bytes) (s : Seg) :
    (userState K f mem).seg s =
      if s = .cs ∨ s = .ss then f.seg s else dataSeg K (f.cs % 4) (f.seg s) := rfl

theorem get16_eq_get32_mod (mem : Bytes) (a : ℕ) : mem.get16 a = mem.get32 a % 65536 := by
  have := mem.get16_lt a
  unfold Bytes.get32
  omega

/-- The words of a frame up to `eip`, from the top of the stack on. -/
def frameDests : List Dest :=
  [.seg .gs, .seg .fs, .seg .es, .seg .ds, .reg .edi, .reg .esi, .reg .ebp, .skip, .reg .ebx,
    .reg .edx, .reg .ecx, .reg .eax, .skip, .skip]

theorem execAll_forkRet_eq (K : Config) (c : Cpu) :
    execAll K forkRet c = iret K (c.popDests frameDests) := by
  show iret K (Cpu.up _ 8) = iret K ((Cpu.up _ 4).up 4)
  rw [up_up]
  rfl

/-- **A frame is taken apart** by the end of the stubs. -/
theorem execAll_forkRet (K : Config) {c : Cpu} (hring : c.ring = 0)
    (hhi : c.reg .esp + frameSize ≤ 2 ^ 32) (hcs : 0 < (frameAt c.mem (c.reg .esp)).cs % 4) :
    execAll K forkRet c = userState K (frameAt c.mem (c.reg .esp)) c.mem := by
  unfold frameSize at hhi
  have hpop : Popped c frameDests (c.popDests frameDests) :=
    popDests_spec _ _ (by show c.reg .esp + 56 < 2 ^ 32; omega) (by decide) (by decide)
  have hesp : (c.popDests frameDests).reg .esp = c.reg .esp + 56 := hpop.esp
  have hcs' : c.mem.get16 (c.reg .esp + 60) % 4 = (frameAt c.mem (c.reg .esp)).cs % 4 := by
    rw [get16_eq_get32_mod]
    exact Nat.mod_mod_of_dvd _ (by norm_num)
  rw [execAll_forkRet_eq]
  generalize c.popDests frameDests = c' at hpop hesp ⊢
  rw [iret_outer K (by rw [hesp]; omega), hesp, hpop.mem]
  · refine Cpu.ext ?_ ?_ rfl rfl rfl
    · have hreg : ∀ i (hi : i < frameDests.length) r, r ≠ .esp → frameDests.get ⟨i, hi⟩ = .reg r →
          update c'.reg .esp (c.mem.get32 (c.reg .esp + 56 + 12)) r =
            c.mem.get32 (c.reg .esp + 4 * i) := by
        intro i hi r hr h
        rw [update_of_ne hr, hpop.reg i hi r h]
      funext r
      cases r with
      | eax => exact hreg 11 (by decide) _ (by decide) rfl
      | ecx => exact hreg 10 (by decide) _ (by decide) rfl
      | edx => exact hreg 9 (by decide) _ (by decide) rfl
      | ebx => exact hreg 8 (by decide) _ (by decide) rfl
      | esp => exact update_self Reg.esp _ c'.reg
      | ebp => exact hreg 6 (by decide) _ (by decide) rfl
      | esi => exact hreg 5 (by decide) _ (by decide) rfl
      | edi => exact hreg 4 (by decide) _ (by decide) rfl
    · have hdata : ∀ i (hi : i < frameDests.length) s, frameDests.get ⟨i, hi⟩ = .seg s →
          dataSeg K (c.mem.get16 (c.reg .esp + 60) % 4) (c'.seg s) =
            dataSeg K ((frameAt c.mem (c.reg .esp)).cs % 4)
              (c.mem.get32 (c.reg .esp + 4 * i) % 65536) := by
        intro i hi s hs
        rw [hcs', hpop.seg i hi s hs, get16_eq_get32_mod]
      funext s
      cases s with
      | cs => exact get16_eq_get32_mod _ _
      | ss => exact get16_eq_get32_mod _ _
      | ds => exact hdata 3 (by decide) _ rfl
      | es => exact hdata 2 (by decide) _ rfl
      | fs => exact hdata 1 (by decide) _ rfl
      | gs => exact hdata 0 (by decide) _ rfl
  · have hseg : c'.ring = 0 := by
      unfold Cpu.ring at hring ⊢
      rw [hpop.keepSeg .cs (by decide), hring]
    rw [hseg, hpop.mem, hesp]
    exact hcs' ▸ hcs

/-! ## Building a frame -/

/-- The interrupt `n` in user mode, up to the point where its frame is complete; `err` is the error
code of the exceptions that have one. -/
def enter (K : Config) (g : Gate) (n err : ℕ) (c : Cpu) : Cpu :=
  execAll K (isr n ++ commonStubEntry) (interrupt K g (if hasErrorCode n then some err else none) c)

/-- A processor in user mode: registers of 32 bits and selectors of 16 bits, of which the data
segments are such that the ring may use them. -/
structure UserMode (K : Config) (c : Cpu) : Prop where
  reg : ∀ r, c.reg r < 2 ^ 32
  seg : ∀ s, c.seg s < 2 ^ 16
  eip : c.eip < 2 ^ 32
  eflags : c.eflags < 2 ^ 32
  ring : c.ring = 3
  data : ∀ s, dataSeg K 3 (c.seg s) = c.seg s

/-- The frame holds the registers of `c` under the names of `interrupt_frame_t`. -/
structure Frames (f : InterruptFrame) (c : Cpu) (n err : ℕ) : Prop where
  reg : f.reg = c.reg
  seg : f.seg = c.seg
  eip : f.eip = c.eip
  eflags : f.eflags = c.eflags
  intNo : f.intNo = n
  errCode : f.errCode = err

/-- What is pushed for an interrupt, by the processor and by the stubs. -/
def frameItems (c : Cpu) (n err esp : ℕ) : List Item :=
  [.sel (c.seg .ss), .word (c.reg .esp), .word c.eflags, .sel (c.seg .cs), .word c.eip, .word err,
    .word n, .word (c.reg .eax), .word (c.reg .ecx), .word (c.reg .edx), .word (c.reg .ebx),
    .word esp, .word (c.reg .ebp), .word (c.reg .esi), .word (c.reg .edi), .sel (c.seg .ds),
    .sel (c.seg .es), .sel (c.seg .fs), .sel (c.seg .gs)]

/-- The stub of interrupt `n` pushes what the processor has not pushed of the frame. -/
theorem execAll_stub (K : Config) (n : ℕ) (c : Cpu) : ∃ esp,
    execAll K (isr n ++ commonStubEntry) c =
      c.pushItems K ((if hasErrorCode n then [] else [.word 0]) ++ .word n ::
        [.word (c.reg .eax), .word (c.reg .ecx), .word (c.reg .edx), .word (c.reg .ebx),
          .word esp, .word (c.reg .ebp), .word (c.reg .esi), .word (c.reg .edi),
          .sel (c.seg .ds), .sel (c.seg .es), .sel (c.seg .fs), .sel (c.seg .gs)]) := by
  have hcommon : ∀ d : Cpu, execAll K commonStubEntry d = d.pushItems K
      [.word (d.reg .eax), .word (d.reg .ecx), .word (d.reg .edx), .word (d.reg .ebx),
        .word (d.reg .esp), .word (d.reg .ebp), .word (d.reg .esi), .word (d.reg .edi),
        .sel (d.seg .ds), .sel (d.seg .es), .sel (d.seg .fs), .sel (d.seg .gs)] := by
    intro d
    simp only [execAll, commonStubEntry, pushSegs, List.foldl, exec, pusha, push_seg, pushSel_seg,
      Cpu.pushItems, Cpu.pushItem]
  unfold isr
  split_ifs
  · refine ⟨(c.push n).reg .esp, ?_⟩
    rw [cons_append, nil_append, nil_append, execAll_pushImm, hcommon,
      pushItems_word c n]
    simp only [push_seg, push_reg, ne_eq, reduceCtorEq, not_false_eq_true]
  · refine ⟨((c.push 0).push n).reg .esp, ?_⟩
    rw [cons_append, cons_append, nil_append, execAll_pushImm, execAll_pushImm,
      hcommon, cons_append, nil_append, pushItems_word c 0, pushItems_word (c.push 0) n]
    simp only [push_seg, push_reg, ne_eq, reduceCtorEq, not_false_eq_true]

section Enter

variable {K : Config} {g : Gate} {n err : ℕ} {c : Cpu}

section

variable {e : Option ℕ}
  (h : Pushed (onStack K c) (gateItems c e) ((onStack K c).pushItems K (gateItems c e)))

include h

theorem interrupt_reg_of_ne {r : Reg} (hr : r ≠ .esp) :
    (interrupt K g e c).reg r = c.reg r := by
  rw [interrupt_reg, h.reg, update_of_ne hr]
  exact update_of_ne hr _ _

theorem interrupt_seg_of_ne {s : Seg} (hs : s ≠ .cs) (hs' : s ≠ .ss) :
    (interrupt K g e c).seg s = c.seg s := by
  rw [interrupt_seg, update_of_ne hs, h.seg]
  exact update_of_ne hs' _ _

end

theorem enter_pushed (h0 : frameSize ≤ K.esp0) (hlt : K.esp0 < 2 ^ 32) : ∃ esp,
    (enter K g n err c).reg .esp = K.esp0 - frameSize ∧ (enter K g n err c).seg .cs = g.sel ∧
      ∀ i (hi : i < 19), ((frameItems c n (if hasErrorCode n then err else 0) esp).get ⟨i, hi⟩).At
        (enter K g n err c).mem (K.esp0 - 4 * (i + 1)) := by
  unfold frameSize at h0
  set e : Option ℕ := if hasErrorCode n then some err else none with he
  have hesp : (onStack K c).reg .esp = K.esp0 := update_self Reg.esp _ c.reg
  have hlen : (gateItems c e).length ≤ 6 := by
    cases e <;> simp [gateItems]
  have hp : Pushed (onStack K c) (gateItems c e) ((onStack K c).pushItems K (gateItems c e)) :=
    pushItems_spec _ _ (by rw [hesp]; omega) (by rw [hesp]; exact hlt)
  obtain ⟨esp, hstub⟩ := execAll_stub K n (interrupt K g e c)
  rw [interrupt_reg_of_ne hp (by decide), interrupt_reg_of_ne hp (by decide),
    interrupt_reg_of_ne hp (by decide), interrupt_reg_of_ne hp (by decide),
    interrupt_reg_of_ne hp (by decide), interrupt_reg_of_ne hp (by decide),
    interrupt_reg_of_ne hp (by decide), interrupt_seg_of_ne hp (by decide) (by decide),
    interrupt_seg_of_ne hp (by decide) (by decide), interrupt_seg_of_ne hp (by decide) (by decide),
    interrupt_seg_of_ne hp (by decide) (by decide)] at hstub
  generalize hl : (if hasErrorCode n then [] else [Item.word 0]) ++ _ = l at hstub
  have hall : gateItems c e ++ l = frameItems c n (if hasErrorCode n then err else 0) esp := by
    rw [← hl, he]
    split_ifs <;> rfl
  obtain ⟨hmem, hreg⟩ := pushItems_congr (K := K) l (c := interrupt K g e c)
    (d := (onStack K c).pushItems K (gateItems c e)) (interrupt_mem _ _ _ _)
    (by rw [interrupt_reg])
  rw [← pushItems_append, hall] at hmem hreg
  have hpall := pushItems_spec (K := K) (frameItems c n (if hasErrorCode n then err else 0) esp)
    (onStack K c) (by rw [hesp]; exact h0) (by rw [hesp]; exact hlt)
  unfold enter
  rw [← he, hstub]
  refine ⟨esp, ?_, ?_, fun i hi => ?_⟩
  · rw [hreg, hpall.reg, update_self, hesp]
    rfl
  · rw [pushItems_seg, interrupt_seg, update_self]
  · rw [hmem]
    have := hpall.held i hi
    rwa [hesp] at this

/-- **The frame of an interrupt** has the layout of `interrupt_frame_t`. -/
theorem enter_frames (hu : UserMode K c) (h0 : frameSize ≤ K.esp0) (hlt : K.esp0 < 2 ^ 32)
    (hn : n < 2 ^ 32) (herr : err < 2 ^ 32) :
    (enter K g n err c).reg .esp = K.esp0 - frameSize ∧
      (enter K g n err c).seg .cs = g.sel ∧
      Frames (frameAt (enter K g n err c).mem (K.esp0 - frameSize)) c n
        (if hasErrorCode n then err else 0) := by
  obtain ⟨esp, hesp, hcs, hitems⟩ := enter_pushed (K := K) (g := g) (n := n) (c := c) h0 hlt
  unfold frameSize at h0
  refine ⟨hesp, hcs, ?_⟩
  generalize (enter K g n err c).mem = mem at hitems ⊢
  have haddr : ∀ i, i < 19 → K.esp0 - 4 * (i + 1) = K.esp0 - frameSize + (72 - 4 * i) := by
    intro i hi
    unfold frameSize
    omega
  have hword : ∀ i (hi : i < 19) w, w < 2 ^ 32 →
      (frameItems c n (if hasErrorCode n then err else 0) esp).get ⟨i, hi⟩ = .word w →
      mem.get32 (K.esp0 - frameSize + (72 - 4 * i)) = w := by
    intro i hi w hw h
    have := hitems i hi
    rw [h, haddr i hi] at this
    exact this.trans (Nat.mod_eq_of_lt hw)
  have hsel : ∀ i (hi : i < 19) s,
      (frameItems c n (if hasErrorCode n then err else 0) esp).get ⟨i, hi⟩ = .sel (c.seg s) →
      mem.get32 (K.esp0 - frameSize + (72 - 4 * i)) % 65536 = c.seg s := by
    intro i hi s h
    have := hitems i hi
    rw [h, haddr i hi] at this
    rw [← get16_eq_get32_mod]
    exact this.trans (Nat.mod_eq_of_lt (hu.seg s))
  have herr' : (if hasErrorCode n then err else 0) < 2 ^ 32 := by
    split_ifs
    · exact herr
    · norm_num
  refine ⟨?_, ?_, hword 4 (by norm_num) _ hu.eip rfl, hword 2 (by norm_num) _ hu.eflags rfl,
    hword 6 (by norm_num) _ hn rfl, hword 5 (by norm_num) _ herr' rfl⟩
  · funext r
    cases r with
    | eax => exact hword 7 (by norm_num) _ (hu.reg _) rfl
    | ecx => exact hword 8 (by norm_num) _ (hu.reg _) rfl
    | edx => exact hword 9 (by norm_num) _ (hu.reg _) rfl
    | ebx => exact hword 10 (by norm_num) _ (hu.reg _) rfl
    | esp => exact hword 1 (by norm_num) _ (hu.reg _) rfl
    | ebp => exact hword 12 (by norm_num) _ (hu.reg _) rfl
    | esi => exact hword 13 (by norm_num) _ (hu.reg _) rfl
    | edi => exact hword 14 (by norm_num) _ (hu.reg _) rfl
  · funext s
    cases s with
    | cs => exact hsel 3 (by norm_num) _ rfl
    | ss => exact hsel 0 (by norm_num) _ rfl
    | ds => exact hsel 15 (by norm_num) _ rfl
    | es => exact hsel 16 (by norm_num) _ rfl
    | fs => exact hsel 17 (by norm_num) _ rfl
    | gs => exact hsel 18 (by norm_num) _ rfl

end Enter

/-! ## The frame of a new process -/

/-- What `process_init` writes below `kernel_stack_top`: the frame, and below it the address of
`fork_ret`. -/
def primeStack (mem : Bytes) (stackTop entry forkRetAddr : ℕ) : Bytes :=
  let frame := stackTop - frameSize
  let mem := mem.fill frame 0 frameSize
  let mem := mem.put32 (frame + 56) entry -- `frame->eip`
  let mem := mem.put32 (frame + 60) gdtUserCodeSel -- `frame->cs`
  let mem := mem.put32 (frame + 64) 0x202 -- `frame->eflags`
  let mem := mem.put32 (frame + 28) processStackTop -- `frame->esp`
  let mem := mem.put32 (frame + 72) gdtUserDataSel -- `frame->ss`
  let mem := mem.put32 frame gdtUserDataSel -- `frame->gs`
  let mem := mem.put32 (frame + 4) gdtUserDataSel -- `frame->fs`
  let mem := mem.put32 (frame + 8) gdtUserDataSel -- `frame->es`
  let mem := mem.put32 (frame + 12) gdtUserDataSel -- `frame->ds`
  mem.put32 (frame - 4) forkRetAddr

/-- The frame of a new process. The field `esp` is not the stack pointer of user mode. -/
def primedFrame (entry : ℕ) : InterruptFrame where
  gs := gdtUserDataSel
  fs := gdtUserDataSel
  es := gdtUserDataSel
  ds := gdtUserDataSel
  edi := 0
  esi := 0
  ebp := 0
  esp := processStackTop
  ebx := 0
  edx := 0
  ecx := 0
  eax := 0
  intNo := 0
  errCode := 0
  eip := entry
  cs := gdtUserCodeSel
  eflags := 0x202
  useresp := 0
  ss := gdtUserDataSel

section Prime

variable (mem : Bytes) {stackTop entry forkRetAddr : ℕ}

theorem frameAt_primeStack (forkRetAddr : ℕ) (h : frameSize + 4 ≤ stackTop) (he : entry < 2 ^ 32) :
    frameAt (primeStack mem stackTop entry forkRetAddr) (stackTop - frameSize) =
      primedFrame entry := by
  unfold frameSize at h
  have hlt : gdtUserDataSel < 4294967296 ∧ gdtUserCodeSel < 4294967296 ∧
      processStackTop < 4294967296 := by decide
  unfold frameAt primeStack primedFrame
  generalize hf : stackTop - frameSize = f
  have hf4 : 4 ≤ f := by
    unfold frameSize at hf
    omega
  have hz : ∀ k, k + 4 ≤ 76 → (mem.fill f 0 frameSize).get32 (f + k) = 0 := fun k hk =>
    get32_fill_zero _ (by omega) (by unfold frameSize; omega)
  simp (disch := first | omega | assumption) only [get32_put32_of_lt,
    get32_put32_of_disjoint, hz]

theorem primeStack_ret (stackTop entry : ℕ) (hr : forkRetAddr < 2 ^ 32) :
    (primeStack mem stackTop entry forkRetAddr).get32 (stackTop - (frameSize + 4)) =
      forkRetAddr := by
  have haddr : stackTop - (frameSize + 4) = stackTop - frameSize - 4 := by omega
  rw [haddr]
  exact get32_put32_of_lt _ _ hr

end Prime

theorem frameAt_congr {mem mem' : Bytes} {a : ℕ}
    (h : ∀ i, a ≤ i → i < a + frameSize → mem' i = mem i) : frameAt mem' a = frameAt mem a := by
  have hget : ∀ k, k + 4 ≤ 76 → mem'.get32 (a + k) = mem.get32 (a + k) := fun k hk =>
    get32_congr fun i h1 h2 => h i (by omega) (by unfold frameSize; omega)
  have hgs : mem'.get32 a = mem.get32 a := hget 0 (by norm_num)
  unfold frameAt
  simp (disch := norm_num) only [hget, hgs]

/-! ## Into user mode -/

/-- User mode as `process_init` means it to begin. -/
structure EntersUser (entry : ℕ) (u : Cpu) : Prop where
  eip : u.eip = entry
  cs : u.seg .cs = gdtUserCodeSel
  eflags : u.eflags = 0x202
  data : ∀ s ≠ .cs, u.seg s = gdtUserDataSel
  esp : u.reg .esp = processStackTop

/-- A process is switched to for the first time, and its frame is taken apart. -/
def firstEntry (K : Config) (c : Cpu) (ret : ℕ) : Cpu := execAll K forkRet (callSwitch K c ret)

/-- The caller of `switch_to_stack` for a process whose kernel stack has been primed: its own stack
and the word that takes its stack pointer are somewhere else. -/
structure SwitchesToNew (c : Cpu) (p stackTop entry forkRetAddr : ℕ) : Prop where
  frame : CallFrame c p (stackTop - (frameSize + 4))
  ring : c.ring = 0
  primed : ∃ mem, ∀ i, stackTop - (frameSize + 4) ≤ i → i < stackTop →
    c.mem i = primeStack mem stackTop entry forkRetAddr i
  slot : p + 4 ≤ stackTop - (frameSize + 4) ∨ stackTop ≤ p
  stack : c.reg .esp ≤ stackTop - (frameSize + 4) ∨ stackTop ≤ c.reg .esp - 4

section Entry

variable {K : Config} {c : Cpu} {p stackTop entry forkRetAddr : ℕ}

theorem callSwitch_seg (K : Config) (c : Cpu) (ret : ℕ) : (callSwitch K c ret).seg = c.seg := rfl

theorem SwitchesToNew.firstEntry (h : SwitchesToNew c p stackTop entry forkRetAddr)
    (K : Config) (ret : ℕ) (hlo : frameSize + 4 ≤ stackTop) (hhi : stackTop ≤ 2 ^ 32) (he : entry < 2 ^ 32)
    (hr : forkRetAddr < 2 ^ 32) :
    (callSwitch K c ret).eip = forkRetAddr ∧
      firstEntry K c ret = userState K (primedFrame entry) (switchMem c p ret) := by
  obtain ⟨mem, hmem⟩ := h.primed
  obtain ⟨hreg, hm, heip⟩ := h.frame.callSwitch K ret
  have hslot := h.slot
  have hstack := h.stack
  have hesp4 := h.frame.lower
  have hsize : frameSize = 76 := rfl
  -- the call leaves the primed stack alone
  have hkeep : ∀ i, stackTop - (frameSize + 4) ≤ i → i < stackTop →
      switchMem c p ret i = primeStack mem stackTop entry forkRetAddr i := by
    intro i h1 h2
    unfold switchMem
    rw [put32_of_not_mem _ _ (by omega), put32_of_not_mem _ _ (by omega), hmem i h1 h2]
  have hesp : (callSwitch K c ret).reg .esp = stackTop - frameSize := by
    rw [hreg, update_self, add32_of_lt (by omega)]
    omega
  have hframe : frameAt (switchMem c p ret) (stackTop - frameSize) = primedFrame entry := by
    rw [← frameAt_primeStack mem forkRetAddr hlo he]
    exact frameAt_congr fun i h1 h2 => hkeep i (by omega) (by omega)
  constructor
  · rw [heip, ← primeStack_ret mem stackTop entry hr]
    exact get32_congr fun i h1 h2 => hkeep i h1 (by omega)
  · unfold DvivonOS.firstEntry
    rw [execAll_forkRet K, hesp, hm, hframe]
    · unfold Cpu.ring
      rw [callSwitch_seg]
      exact h.ring
    · rw [hesp]
      omega
    · rw [hesp, hm, hframe]
      show 0 < gdtUserCodeSel % 4
      decide

/-- The frame of an interrupt, taken apart as it is, gives every register back. -/
theorem UserMode.restored {g : Gate} {n err : ℕ} (hu : UserMode K c) (h0 : frameSize ≤ K.esp0)
    (hlt : K.esp0 < 2 ^ 32) (hn : n < 2 ^ 32) (herr : err < 2 ^ 32) {d : Cpu} (hring : d.ring = 0)
    (hesp : d.reg .esp = K.esp0 - frameSize)
    (hmem : ∀ i, K.esp0 - frameSize ≤ i → i < K.esp0 → d.mem i = (enter K g n err c).mem i) :
    execAll K commonStubExit d = { c with mem := d.mem } := by
  obtain ⟨-, -, hf⟩ := enter_frames (g := g) hu h0 hlt hn herr
  have hframe : frameAt d.mem (d.reg .esp) =
      frameAt (enter K g n err c).mem (K.esp0 - frameSize) := by
    rw [hesp]
    exact frameAt_congr fun i h1 h2 => hmem i h1 (by omega)
  rw [← hframe] at hf
  have hcs : (frameAt d.mem (d.reg .esp)).cs % 4 = 3 := by
    have hring := hu.ring
    unfold Cpu.ring at hring
    rw [← hf.seg] at hring
    have : (frameAt d.mem (d.reg .esp)).cs % 65536 % 4 = 3 := hring
    omega
  show execAll K forkRet d = _
  rw [execAll_forkRet K hring (by rw [hesp]; omega) (by rw [hcs]; norm_num)]
  unfold userState
  rw [hcs, hf.reg, hf.seg, hf.eip, hf.eflags]
  refine Cpu.ext rfl ?_ rfl rfl rfl
  funext s
  dsimp only
  split_ifs
  · rfl
  · exact hu.data s

/-- Every interrupt of the user code `u` builds a frame with the layout of `interrupt_frame_t`, and
the end of the stub, run on the frame as it is, gives every register back. -/
def RoundTrip (K : Config) (u : Cpu) : Prop :=
  ∀ g n err, n < 2 ^ 32 → err < 2 ^ 32 →
    (enter K g n err u).reg .esp = K.esp0 - frameSize ∧
      Frames (frameAt (enter K g n err u).mem (K.esp0 - frameSize)) u n
        (if hasErrorCode n then err else 0) ∧
      ∀ d : Cpu, d.ring = 0 → d.reg .esp = K.esp0 - frameSize →
        (∀ i, K.esp0 - frameSize ≤ i → i < K.esp0 → d.mem i = (enter K g n err u).mem i) →
        execAll K commonStubExit d = { u with mem := d.mem }

theorem UserMode.roundTrip (hu : UserMode K c) (h0 : frameSize ≤ K.esp0) (hlt : K.esp0 < 2 ^ 32) :
    RoundTrip K c := by
  intro g n err hn herr
  obtain ⟨hesp, -, hf⟩ := enter_frames (g := g) hu h0 hlt hn herr
  exact ⟨hesp, hf, fun d hring hd hmem => hu.restored h0 hlt hn herr hring hd hmem⟩

/-- **A new process has no stack.** For every entry point and every kernel stack in the heap, the
process is entered with the registers that `process_init` means, but for the stack pointer, which is
`0`: it is in the field `esp` of the frame, which `popal` skips, and not in `useresp`. The frames of
interrupts are built and taken apart as they should be. -/
theorem first_entry_without_stack (zeroExtends : Bool) (esp0 ret : ℕ) {kstack : ℕ}
    (hend : kstack + 2 * pageSize ≤ ptsScratchWindow)
    (he : entry < 2 ^ 32) (hr : forkRetAddr < 2 ^ 32)
    (h : SwitchesToNew c p (kstack + 2 * pageSize) entry forkRetAddr) :
    (callSwitch (kernelConfig zeroExtends esp0) c ret).eip = forkRetAddr ∧
      (firstEntry (kernelConfig zeroExtends esp0) c ret).eip = entry ∧
      (firstEntry (kernelConfig zeroExtends esp0) c ret).seg .cs = gdtUserCodeSel ∧
      (firstEntry (kernelConfig zeroExtends esp0) c ret).eflags = 0x202 ∧
      (∀ s ≠ .cs, (firstEntry (kernelConfig zeroExtends esp0) c ret).seg s = gdtUserDataSel) ∧
      (firstEntry (kernelConfig zeroExtends esp0) c ret).reg .esp = 0 ∧
      ¬ EntersUser entry (firstEntry (kernelConfig zeroExtends esp0) c ret) ∧
      ∀ (z : Bool) (e : ℕ) (u : Cpu), frameSize ≤ e → e < 2 ^ 32 →
        UserMode (kernelConfig z e) u → RoundTrip (kernelConfig z e) u := by
  have hlo : frameSize + 4 ≤ kstack + 2 * pageSize := by
    unfold frameSize pageSize
    omega
  have hhi : kstack + 2 * pageSize ≤ 2 ^ 32 := hend.trans (by decide)
  obtain ⟨heip, hu⟩ := h.firstEntry (kernelConfig zeroExtends esp0) ret hlo hhi he hr
  rw [hu]
  refine ⟨heip, rfl, rfl, rfl, fun s hs => ?_, rfl, fun henter => ?_, ?_⟩
  · have hsel : (primedFrame entry).seg s = gdtUserDataSel := by
      cases s with
      | cs => exact absurd rfl hs
      | ss => rfl
      | ds => rfl
      | es => rfl
      | fs => rfl
      | gs => rfl
    have hring : (primedFrame entry).cs % 4 = 3 := by
      show gdtUserCodeSel % 4 = 3
      decide
    rw [userState_seg, hsel, hring]
    split_ifs
    · rfl
    · exact dataSeg_gdtUserDataSel _ _
  · have hesp : (0 : ℕ) = processStackTop := henter.esp
    exact absurd hesp (by decide)
  · exact fun z e u h0 hlt hmode => hmode.roundTrip h0 hlt

end Entry

/-! ### A process with the entry point `0x400000` -/

/-- The scheduler, about to switch to a process whose kernel stack is at `0xC2000000`. -/
def startCaller : Cpu :=
  caller 0 0x9000 0x1000 0xC2001FB0 (primeStack Bytes.zero 0xC2002000 0x400000 0xC0200000)

theorem startCaller_switches :
    SwitchesToNew startCaller 0x1000 (0xC2000000 + 2 * pageSize) 0x400000 0xC0200000 where
  frame := caller_frame (by norm_num) (by norm_num) (by norm_num) (by norm_num)
  ring := rfl
  primed := by
    refine ⟨Bytes.zero, fun i h1 h2 => ?_⟩
    have hi : 0xC2001FB0 ≤ i := h1
    show ((primeStack Bytes.zero 0xC2002000 0x400000 0xC0200000).put32 0x9000 0x1000).put32
      0x9004 0xC2001FB0 i = _
    rw [put32_of_not_mem _ _ (by omega), put32_of_not_mem _ _ (by omega)]
    rfl
  slot := Or.inl (by decide)
  stack := Or.inl (by decide)

theorem first_entry_without_stack_start :
    (firstEntry (kernelConfig true 0xC2002000) startCaller 0xC0200100).eip = 0x400000 ∧
      (firstEntry (kernelConfig true 0xC2002000) startCaller 0xC0200100).reg .esp = 0 := by
  obtain ⟨-, heip, -, -, -, hesp, -⟩ := first_entry_without_stack true 0xC2002000
    0xC0200100 (by decide) (by norm_num) (by norm_num) startCaller_switches
  exact ⟨heip, hesp⟩

/-- The process starts with the stack pointer `0` and not with `PROCESS_STACK_TOP`. -/
theorem process_starts_at_esp_zero :
    SwitchesToNew startCaller 0x1000 (0xC2000000 + 2 * pageSize) 0x400000 0xC0200000 ∧
      (firstEntry (kernelConfig true 0xC2002000) startCaller 0xC0200100).reg .esp = 0 ∧
      ¬ EntersUser 0x400000 (firstEntry (kernelConfig true 0xC2002000) startCaller 0xC0200100) := by
  obtain ⟨-, hu⟩ := startCaller_switches.firstEntry (kernelConfig true 0xC2002000) 0xC0200100
    (by decide) (by decide) (by norm_num) (by norm_num)
  rw [hu]
  refine ⟨startCaller_switches, rfl, fun h => ?_⟩
  have hesp : (0 : ℕ) = processStackTop := h.esp
  exact absurd hesp (by decide)

end DvivonOS
