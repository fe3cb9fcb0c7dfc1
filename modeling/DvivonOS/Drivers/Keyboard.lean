import DvivonOS.Lib.Ring

/-!
# The keyboard driver

`keyboardCallback` decodes one byte of scancode set 1, keeps the modifiers and pushes an event into
a ring of 256 slots; `keyboardRead` takes the oldest event. Both cursors are eight bits wide and
the producer never looks at the consumer's.

`run_right_iff`: over any interleaving of the two, every state delivers what it should (`Log.Right`)
exactly when no event is pushed while 255 are unread. The 256th unread event makes the ring look
empty.
-/

namespace DvivonOS

inductive Keycode
  | none | esc | f1 | f2 | f3 | f4 | f5 | f6 | f7 | f8 | f9 | f10 | f11 | f12
  | grave | n1 | n2 | n3 | n4 | n5 | n6 | n7 | n8 | n9 | n0 | minus | equal | bspc
  | tab | q | w | e | r | t | y | u | i | o | p | lbr | rbr | enter
  | lctrl | a | s | d | f | g | h | j | k | l | semi | apos | bslash
  | lshift | z | x | c | v | b | n | m | comma | dot | slash | rshift | kpStar
  | lalt | space | caps
  | home | up | pgup | left | right | endKey | down | pgdn | ins | del | rctrl | ralt
deriving DecidableEq, Repr

namespace Keyboard

def keyboardBufferSize : ℕ := 256

structure Mods where
  shift : Bool
  ctrl : Bool
  alt : Bool
  caps : Bool
deriving DecidableEq, Repr

structure KeyEvent where
  code : Keycode
  pressed : Bool
  ascii : ℕ
  mods : Mods
deriving DecidableEq, Repr

/-- The driver's variables: the modifiers, the pending `0xE0` prefix and the ring. -/
structure Driver where
  mods : Mods
  e0 : Bool
  buffer : Ring KeyEvent keyboardBufferSize

/-- The make codes of scancode set 1 that have no prefix; the rows from `0x45` on are empty. -/
def sc1ToKeycode : List Keycode :=
  [.none, .esc, .n1, .n2, .n3, .n4, .n5, .n6, .n7, .n8, .n9, .n0, .minus, .equal, .bspc, .tab,
   .q, .w, .e, .r, .t, .y, .u, .i, .o, .p, .lbr, .rbr, .enter, .lctrl, .a, .s,
   .d, .f, .g, .h, .j, .k, .l, .semi, .apos, .grave, .lshift, .bslash, .z, .x, .c, .v,
   .b, .n, .m, .comma, .dot, .slash, .rshift, .kpStar, .lalt, .space, .caps, .f1, .f2, .f3, .f4,
   .f5, .f6, .f7, .f8, .f9, .f10]

def e0Map (sc : ℕ) : Keycode :=
  match sc with
  | 0x1D => .rctrl
  | 0x38 => .ralt
  | 0x47 => .home
  | 0x48 => .up
  | 0x49 => .pgup
  | 0x4B => .left
  | 0x4D => .right
  | 0x4F => .endKey
  | 0x50 => .down
  | 0x51 => .pgdn
  | 0x52 => .ins
  | 0x53 => .del
  | _ => .none

/-! ## ASCII translation -/

def letterFromKeycode (kc : Keycode) (shift caps : Bool) : ℕ :=
  let pick (upper lower : Char) : ℕ := if xor shift caps then upper.toNat else lower.toNat
  match kc with
  | .a => pick 'A' 'a'
  | .b => pick 'B' 'b'
  | .c => pick 'C' 'c'
  | .d => pick 'D' 'd'
  | .e => pick 'E' 'e'
  | .f => pick 'F' 'f'
  | .g => pick 'G' 'g'
  | .h => pick 'H' 'h'
  | .i => pick 'I' 'i'
  | .j => pick 'J' 'j'
  | .k => pick 'K' 'k'
  | .l => pick 'L' 'l'
  | .m => pick 'M' 'm'
  | .n => pick 'N' 'n'
  | .o => pick 'O' 'o'
  | .p => pick 'P' 'p'
  | .q => pick 'Q' 'q'
  | .r => pick 'R' 'r'
  | .s => pick 'S' 's'
  | .t => pick 'T' 't'
  | .u => pick 'U' 'u'
  | .v => pick 'V' 'v'
  | .w => pick 'W' 'w'
  | .x => pick 'X' 'x'
  | .y => pick 'Y' 'y'
  | .z => pick 'Z' 'z'
  | _ => 0

def symbolFromKeycode (kc : Keycode) (shift : Bool) : ℕ :=
  let pick (shifted plain : ℕ) : ℕ := if shift then shifted else plain
  match kc with
  | .n1 => pick 33 49
  | .n2 => pick 64 50
  | .n3 => pick 35 51
  | .n4 => pick 36 52
  | .n5 => pick 37 53
  | .n6 => pick 94 54
  | .n7 => pick 38 55
  | .n8 => pick 42 56
  | .n9 => pick 40 57
  | .n0 => pick 41 48
  | .minus => pick 95 45
  | .equal => pick 43 61
  | .lbr => pick 123 91
  | .rbr => pick 125 93
  | .bslash => pick 124 92
  | .semi => pick 58 59
  | .apos => pick 34 39
  | .grave => pick 126 96
  | .comma => pick 60 44
  | .dot => pick 62 46
  | .slash => pick 63 47
  | .space => 32
  | _ => 0

def asciiFromKeycode (kc : Keycode) (shift caps : Bool) : ℕ :=
  if letterFromKeycode kc shift caps ≠ 0 then letterFromKeycode kc shift caps
  else if symbolFromKeycode kc shift ≠ 0 then symbolFromKeycode kc shift
  else
    match kc with
    | .enter => 10
    | .tab => 9
    | .bspc => 8
    | .esc => 27
    | _ => 0

/-! ## The callback -/

def decodeMake (e0 : Bool) (sc : UInt8) : Keycode :=
  if e0 then e0Map sc.toNat
  else if sc < 128 then sc1ToKeycode.getD sc.toNat .none
  else .none

def decodeBreak (e0 : Bool) (sc : UInt8) : Keycode := decodeMake e0 (sc &&& 0x7F)

def applyModifier (kc : Keycode) (pressed : Bool) (m : Mods) : Mods :=
  match kc with
  | .lshift | .rshift => { m with shift := pressed }
  | .lctrl | .rctrl => { m with ctrl := pressed }
  | .lalt | .ralt => { m with alt := pressed }
  | .caps => if pressed then { m with caps := !m.caps } else m
  | _ => m

def keyEvent (kc : Keycode) (pressed : Bool) (m : Mods) : KeyEvent :=
  ⟨kc, pressed, if pressed then asciiFromKeycode kc m.shift m.caps else 0, m⟩

/-- The keycode of a byte that is not the prefix. -/
def decode (e0 : Bool) (sc : UInt8) : Keycode :=
  if sc &&& 0x80 ≠ 0 then decodeBreak e0 sc else decodeMake e0 sc

/-- The event the callback pushes for the byte `sc`, if it pushes one. -/
def pushedEvent (sc : UInt8) (s : Driver) : Option KeyEvent :=
  if sc = 0xE0 ∨ decode s.e0 sc = .none then none
  else
    let pressed := sc &&& 0x80 = 0
    some (keyEvent (decode s.e0 sc) pressed (applyModifier (decode s.e0 sc) pressed s.mods))

def keyboardCallback (sc : UInt8) (s : Driver) : Driver :=
  if sc = 0xE0 then { s with e0 := true }
  else
    let breakCode := sc &&& 0x80 ≠ 0
    let kc := if breakCode then decodeBreak s.e0 sc else decodeMake s.e0 sc
    if kc ≠ .none then
      let mods := applyModifier kc (!breakCode) s.mods
      { mods, e0 := false, buffer := s.buffer.push (keyEvent kc (!breakCode) mods) }
    else { s with e0 := false }

def keyboardRead (s : Driver) : Option KeyEvent × Driver :=
  (s.buffer.pop.1, { s with buffer := s.buffer.pop.2 })

def Driver.init : Driver where
  mods := ⟨false, false, false, false⟩
  e0 := false
  buffer := ⟨fun _ => ⟨.none, false, 0, ⟨false, false, false, false⟩⟩, 0, 0⟩

variable {s : Driver} {sc : UInt8}

theorem keyboardCallback_e0 : keyboardCallback 0xE0 s = { s with e0 := true } := rfl

theorem keyboardCallback_none (hsc : sc ≠ 0xE0) (hkc : decode s.e0 sc = .none) :
    keyboardCallback sc s = { s with e0 := false } := by
  rw [keyboardCallback, if_neg hsc]
  exact if_neg (not_not_intro hkc)

theorem keyboardCallback_key (hsc : sc ≠ 0xE0) (hkc : decode s.e0 sc ≠ .none) :
    keyboardCallback sc s =
      { mods := applyModifier (decode s.e0 sc) (sc &&& 0x80 = 0) s.mods
        e0 := false
        buffer := s.buffer.push (keyEvent (decode s.e0 sc) (sc &&& 0x80 = 0)
          (applyModifier (decode s.e0 sc) (sc &&& 0x80 = 0) s.mods)) } := by
  rw [keyboardCallback, if_neg hsc]
  refine (if_pos hkc).trans ?_
  simp [decode]

theorem keyboardCallback_buffer : (keyboardCallback sc s).buffer =
    (pushedEvent sc s).elim s.buffer s.buffer.push := by
  unfold pushedEvent
  by_cases hsc : sc = 0xE0
  · subst hsc
    simp [keyboardCallback_e0]
  by_cases hkc : decode s.e0 sc = .none
  · simp [keyboardCallback_none hsc hkc, hkc]
  · simp [keyboardCallback_key hsc hkc, hsc, hkc]

/-! ## Interleavings -/

inductive Call
  | callback (sc : UInt8)
  | read

/-- The driver with all the events pushed and read so far. -/
structure History where
  driver : Driver
  pushed : List KeyEvent
  got : List KeyEvent

def History.log (H : History) : Log KeyEvent keyboardBufferSize :=
  ⟨H.driver.buffer, H.pushed, H.got⟩

def Call.exec (c : Call) (H : History) : History :=
  match c with
  | .callback sc =>
    { H with
      driver := keyboardCallback sc H.driver
      pushed := H.pushed ++ (pushedEvent sc H.driver).toList }
  | .read =>
    { H with driver := (keyboardRead H.driver).2, got := H.got ++ (keyboardRead H.driver).1.toList }

def states : List Call → History → List History
  | [], H => [H]
  | c :: cs, H => H :: states cs (c.exec H)

/-- The calls of a run, each with the state before it. -/
def steps : List Call → History → List (Call × History)
  | [], _ => []
  | c :: cs, H => (c, H) :: steps cs (c.exec H)

/-- The call pushes no event, or finds fewer than 255 unread. -/
def Room (c : Call) (H : History) : Prop :=
  ∀ sc, c = .callback sc → (pushedEvent sc H.driver).isSome →
    H.pushed.length - H.got.length < keyboardBufferSize - 1

variable {H : History} {xs : List KeyEvent}

theorem log_read : (Call.read.exec H).log = H.log.pop := rfl

theorem log_callback (sc : UInt8) : ((Call.callback sc).exec H).log =
    (pushedEvent sc H.driver).elim H.log H.log.push := by
  rw [History.log, Call.exec, keyboardCallback_buffer]
  cases pushedEvent sc H.driver with
  | none => simp [History.log]
  | some event => rfl

/-- **One step.** With room the log stays a queue, and without room the next state is wrong. -/
theorem step_queue (c : Call) (h : H.log.Queue xs) :
    (Room c H → ∃ ys, (c.exec H).log.Queue ys) ∧ (¬Room c H → ¬(c.exec H).log.Right) := by
  have hlen : H.pushed.length - H.got.length = xs.length := h.unread_length
  have hroom : xs.length < keyboardBufferSize := h.holds.room
  cases c with
  | read =>
    have hread : Room .read H := fun _ hc => by cases hc
    exact ⟨fun _ => ⟨xs.tail, log_read ▸ h.pop⟩, fun hn => absurd hread hn⟩
  | callback sc =>
    rw [log_callback]
    cases hpushed : pushedEvent sc H.driver with
    | none =>
      have hnone : Room (.callback sc) H := fun sc' hc hsome => by
        cases hc
        simp [hpushed] at hsome
      exact ⟨fun _ => ⟨xs, h⟩, fun hn => absurd hnone hn⟩
    | some event =>
      have hiff : Room (.callback sc) H ↔ xs.length < keyboardBufferSize - 1 := by
        constructor
        · intro hr
          rw [← hlen]
          exact hr sc rfl (by simp [hpushed])
        · intro hlt sc' _ _
          rwa [hlen]
      rw [hiff]
      exact ⟨fun hlt => ⟨xs ++ [event], h.push (by omega)⟩,
        fun hlt => h.not_right_push (by unfold keyboardBufferSize at *; omega)⟩

theorem run_right_of_queue (cs : List Call) (h : H.log.Queue xs) :
    (∀ K ∈ states cs H, K.log.Right) ↔ ∀ p ∈ steps cs H, Room p.1 p.2 := by
  induction cs generalizing H xs with
  | nil => simpa [states, steps] using h.right
  | cons c cs ih =>
    simp only [states, steps, List.forall_mem_cons]
    obtain ⟨hgood, hbad⟩ := step_queue c h
    by_cases hroom : Room c H
    · obtain ⟨ys, hys⟩ := hgood hroom
      rw [ih hys]
      simp [h.right, hroom]
    · have hwrong := hbad hroom
      have hfirst : c.exec H ∈ states cs (c.exec H) := by cases cs <;> simp [states]
      exact iff_of_false (fun hall => hwrong (hall.2 _ hfirst)) fun hall => hroom hall.1

def History.init : History := ⟨Driver.init, [], []⟩

theorem queue_init : History.init.log.Queue [] :=
  ⟨rfl, Ring.Holds.empty (by simp [keyboardBufferSize]) _⟩

/-- **The event queue.** In a run from boot, every state delivers its events in order, the newest
255 unread ones next, exactly when no event is pushed while 255 are unread. -/
theorem run_right_iff (cs : List Call) :
    (∀ K ∈ states cs .init, K.log.Right) ↔ ∀ p ∈ steps cs .init, Room p.1 p.2 :=
  run_right_of_queue cs queue_init

def run (cs : List Call) (H : History) : History := cs.foldl (fun K c => c.exec K) H

theorem run_mem_states (cs : List Call) : run cs H ∈ states cs H := by
  induction cs generalizing H with
  | nil => simp [run, states]
  | cons c cs ih => simpa [run, states] using Or.inr ih

theorem not_right_of_read_none (hread : (keyboardRead H.driver).1 = none)
    (hunread : H.got.length < H.pushed.length) : ¬H.log.Right :=
  Log.not_right_of_pop_none hread hunread

def presses : List Call := List.replicate 256 (.callback 0x1E)

theorem presses_look_empty :
    (run presses .init).pushed.length = 256 ∧ (run presses .init).got = [] ∧
      (keyboardRead (run presses .init).driver).1 = none ∧
      ¬∀ K ∈ states presses .init, K.log.Right := by
  have hpushed : (run presses .init).pushed.length = 256 := by decide +kernel
  have hgot : (run presses .init).got = [] := by decide +kernel
  have hread : (keyboardRead (run presses .init).driver).1 = none := by decide +kernel
  refine ⟨hpushed, hgot, hread, fun h => ?_⟩
  have hunread : (run presses .init).got.length < (run presses .init).pushed.length := by
    simp [hpushed, hgot]
  exact not_right_of_read_none hread hunread (h _ (run_mem_states presses))

end Keyboard

end DvivonOS
