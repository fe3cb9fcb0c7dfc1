import DvivonOS.Drivers.Keyboard

/-!
# Keys, hands and modifiers

A key is a make code of scancode set 1 with or without the `0xE0` prefix. Pressing and releasing
keys sends their bytes to `keyboardCallback`; `Hands` is what is really held at that moment, and
`EventRight` compares an event with it.

1. The decoder inverts the table of the keys (`keyNamed_keycode`), so an event carries the code of
   its key, and every modifier variable follows exactly its two keys (`applyModifier_shift` and so on).
2. A variable that is set to the last press or release of two keys agrees with "one of the two is
   held" after that step exactly when no key was released under its partner (`follows_iff_alone`).
3. `events_right_iff`: the events of a run are right exactly when no Shift, Ctrl or Alt key is
   released while the other one of its kind is held.
-/

namespace DvivonOS.Keyboard

open Function

/-- A key of scancode set 1. No key has the make code `0x60`: its break code would be the prefix. -/
structure Key where
  extended : Bool
  code : Fin 128
  proper : code ≠ 0x60
deriving DecidableEq

def Key.byte (k : Key) (pressed : Bool) : UInt8 := .ofNat (if pressed then k.code else k.code + 128)

/-- The bytes a key sends when it is pressed or released. -/
def Key.bytes (k : Key) (pressed : Bool) : List UInt8 :=
  if k.extended then [0xE0, k.byte pressed] else [k.byte pressed]

def plain (code : Fin 128) : Option (Bool × Fin 128) := some (false, code)

def extended (code : Fin 128) : Option (Bool × Fin 128) := some (true, code)

/-- The key that each keycode names in scancode set 1: whether it has the prefix, and its code. -/
def keyNamed : Keycode → Option (Bool × Fin 128)
  | .none => none
  | .esc => plain 0x01
  | .n1 => plain 0x02
  | .n2 => plain 0x03
  | .n3 => plain 0x04
  | .n4 => plain 0x05
  | .n5 => plain 0x06
  | .n6 => plain 0x07
  | .n7 => plain 0x08
  | .n8 => plain 0x09
  | .n9 => plain 0x0A
  | .n0 => plain 0x0B
  | .minus => plain 0x0C
  | .equal => plain 0x0D
  | .bspc => plain 0x0E
  | .tab => plain 0x0F
  | .q => plain 0x10
  | .w => plain 0x11
  | .e => plain 0x12
  | .r => plain 0x13
  | .t => plain 0x14
  | .y => plain 0x15
  | .u => plain 0x16
  | .i => plain 0x17
  | .o => plain 0x18
  | .p => plain 0x19
  | .lbr => plain 0x1A
  | .rbr => plain 0x1B
  | .enter => plain 0x1C
  | .lctrl => plain 0x1D
  | .a => plain 0x1E
  | .s => plain 0x1F
  | .d => plain 0x20
  | .f => plain 0x21
  | .g => plain 0x22
  | .h => plain 0x23
  | .j => plain 0x24
  | .k => plain 0x25
  | .l => plain 0x26
  | .semi => plain 0x27
  | .apos => plain 0x28
  | .grave => plain 0x29
  | .lshift => plain 0x2A
  | .bslash => plain 0x2B
  | .z => plain 0x2C
  | .x => plain 0x2D
  | .c => plain 0x2E
  | .v => plain 0x2F
  | .b => plain 0x30
  | .n => plain 0x31
  | .m => plain 0x32
  | .comma => plain 0x33
  | .dot => plain 0x34
  | .slash => plain 0x35
  | .rshift => plain 0x36
  | .kpStar => plain 0x37
  | .lalt => plain 0x38
  | .space => plain 0x39
  | .caps => plain 0x3A
  | .f1 => plain 0x3B
  | .f2 => plain 0x3C
  | .f3 => plain 0x3D
  | .f4 => plain 0x3E
  | .f5 => plain 0x3F
  | .f6 => plain 0x40
  | .f7 => plain 0x41
  | .f8 => plain 0x42
  | .f9 => plain 0x43
  | .f10 => plain 0x44
  | .f11 => plain 0x57
  | .f12 => plain 0x58
  | .home => extended 0x47
  | .up => extended 0x48
  | .pgup => extended 0x49
  | .left => extended 0x4B
  | .right => extended 0x4D
  | .endKey => extended 0x4F
  | .down => extended 0x50
  | .pgdn => extended 0x51
  | .ins => extended 0x52
  | .del => extended 0x53
  | .rctrl => extended 0x1D
  | .ralt => extended 0x38

def lshift : Key := ⟨false, 0x2A, by decide⟩
def rshift : Key := ⟨false, 0x36, by decide⟩
def lctrl : Key := ⟨false, 0x1D, by decide⟩
def rctrl : Key := ⟨true, 0x1D, by decide⟩
def lalt : Key := ⟨false, 0x38, by decide⟩
def ralt : Key := ⟨true, 0x38, by decide⟩
def capsLock : Key := ⟨false, 0x3A, by decide⟩

/-! ## What the hands do -/

structure Stroke where
  key : Key
  pressed : Bool

/-- The keys held down, and how often Caps Lock was pressed. -/
structure Hands where
  held : Key → Bool
  capsPresses : ℕ

def Hands.oneOf (h : Hands) (l r : Key) : Bool := h.held l || h.held r

def Stroke.move (a : Stroke) (h : Hands) : Hands where
  held := update h.held a.key a.pressed
  capsPresses := h.capsPresses + if a.key = capsLock ∧ a.pressed then 1 else 0

/-- The modifiers are what the hands hold. -/
structure ModsRight (m : Mods) (h : Hands) : Prop where
  shift : m.shift = h.oneOf lshift rshift
  ctrl : m.ctrl = h.oneOf lctrl rctrl
  alt : m.alt = h.oneOf lalt ralt
  caps : m.caps = decide (h.capsPresses % 2 = 1)

/-- The event is that of the stroke, and its modifiers are what the hands hold. -/
structure EventRight (a : Stroke) (h : Hands) (event : KeyEvent) : Prop where
  code : keyNamed event.code = some (a.key.extended, a.key.code)
  pressed : event.pressed = a.pressed
  mods : ModsRight event.mods h

/-- The driver after the bytes, and the events they push. -/
def feed : List UInt8 → Driver → Driver × List KeyEvent
  | [], s => (s, [])
  | sc :: bytes, s =>
    let r := feed bytes (keyboardCallback sc s)
    (r.1, (pushedEvent sc s).toList ++ r.2)

structure Entry where
  stroke : Stroke
  hands : Hands
  events : List KeyEvent

def entries : List Stroke → Driver → Hands → List Entry
  | [], _, _ => []
  | a :: as, s, h =>
    let r := feed (a.key.bytes a.pressed) s
    ⟨a, h, r.2⟩ :: entries as r.1 (a.move h)

def Entry.Right (e : Entry) : Prop :=
  ∀ event ∈ e.events, EventRight e.stroke (e.stroke.move e.hands) event

/-- Neither of the two keys is released while the other is held. -/
def Alone (l r : Key) (a : Stroke) (h : Hands) : Prop :=
  a.pressed = false → (a.key = l → h.held r = false) ∧ (a.key = r → h.held l = false)

/-- The stroke releases no modifier key under its partner. -/
structure Apart (a : Stroke) (h : Hands) : Prop where
  shift : Alone lshift rshift a h
  ctrl : Alone lctrl rctrl a h
  alt : Alone lalt ralt a h

/-! ## The decoder -/

/-- The keycode the driver has for a key, or none. -/
def Key.keycode (k : Key) : Keycode :=
  if k.extended then e0Map k.code else sc1ToKeycode.getD k.code .none

theorem keyNamed_table : ∀ e : Bool, ∀ c : Fin 128, (h : c ≠ 0x60) →
    (Key.mk e c h).keycode ≠ .none → keyNamed (Key.mk e c h).keycode = some (e, c) := by
  decide +kernel

theorem keyNamed_keycode {k : Key} (h : k.keycode ≠ .none) :
    keyNamed k.keycode = some (k.extended, k.code) :=
  keyNamed_table k.extended k.code k.proper h

theorem keycode_eq_iff (k k' : Key) (h : k'.keycode ≠ .none) : k.keycode = k'.keycode ↔ k = k' := by
  refine ⟨fun he => ?_, fun he => he ▸ rfl⟩
  have hpair := (keyNamed_keycode (he ▸ h)).symm.trans (he ▸ keyNamed_keycode h)
  cases k
  cases k'
  simpa using hpair

theorem byte_table : ∀ e : Bool, ∀ c : Fin 128, (h : c ≠ 0x60) → ∀ pressed : Bool,
    (Key.mk e c h).byte pressed ≠ 0xE0 ∧
      decide ((Key.mk e c h).byte pressed &&& 0x80 = 0) = pressed ∧
      decode e ((Key.mk e c h).byte pressed) = (Key.mk e c h).keycode := by
  decide +kernel

/-- The code of a key is not the prefix, has the top bit when the key is released, and is decoded to
the key's keycode. -/
theorem byte_decoded (k : Key) (pressed : Bool) :
    k.byte pressed ≠ 0xE0 ∧ decide (k.byte pressed &&& 0x80 = 0) = pressed ∧
      decode k.extended (k.byte pressed) = k.keycode :=
  byte_table k.extended k.code k.proper pressed

def Driver.strike (s : Driver) (kc : Keycode) (pressed : Bool) : Driver where
  mods := applyModifier kc pressed s.mods
  e0 := false
  buffer := s.buffer.push (keyEvent kc pressed (applyModifier kc pressed s.mods))

variable {s : Driver} {h : Hands} {a : Stroke}

theorem feed_e0 (bytes : List UInt8) :
    feed (0xE0 :: bytes) s = feed bytes { s with e0 := true } := by
  simp [feed, keyboardCallback_e0, pushedEvent]

theorem feed_byte (k : Key) (pressed : Bool) (hs : s.e0 = k.extended) :
    feed [k.byte pressed] s =
      if k.keycode = .none then ({ s with e0 := false }, [])
      else (s.strike k.keycode pressed,
        [keyEvent k.keycode pressed (applyModifier k.keycode pressed s.mods)]) := by
  obtain ⟨hne, hpressed, hdecode⟩ := byte_decoded k pressed
  rw [← hs] at hdecode
  by_cases hkc : k.keycode = .none
  · have hnone := hdecode.trans hkc
    simp [feed, keyboardCallback_none hne hnone, pushedEvent, hnone, hkc]
  · have hsome : decode s.e0 (k.byte pressed) ≠ .none := fun hn => hkc (hdecode.symm.trans hn)
    rw [if_neg hkc]
    simp [feed, keyboardCallback_key hne hsome, pushedEvent, hne, hkc, hpressed, hdecode,
      Driver.strike]

/-- **A stroke.** A key without a keycode changes nothing; any other one moves the modifiers and
pushes one event. -/
theorem feed_stroke (a : Stroke) (hs : s.e0 = false) :
    feed (a.key.bytes a.pressed) s =
      if a.key.keycode = .none then (s, [])
      else (s.strike a.key.keycode a.pressed,
        [keyEvent a.key.keycode a.pressed (applyModifier a.key.keycode a.pressed s.mods)]) := by
  have hsame : ({ s with e0 := false } : Driver) = s := by rw [← hs]
  unfold Key.bytes
  cases hext : a.key.extended with
  | false =>
    have hlast := feed_byte a.key a.pressed (hs.trans hext.symm)
    rwa [hsame] at hlast
  | true =>
    have hlast := feed_byte (s := { s with e0 := true }) a.key a.pressed hext.symm
    rw [if_pos rfl, feed_e0, hlast]
    dsimp only
    rw [hsame]
    rfl

/-! ## The modifiers -/

section

variable (kc : Keycode) (pressed : Bool) (m : Mods)

include kc pressed m

theorem applyModifier_shift :
    (applyModifier kc pressed m).shift =
      if kc = .lshift ∨ kc = .rshift then pressed else m.shift := by
  cases kc <;> first | rfl | (cases pressed <;> rfl)

theorem applyModifier_ctrl :
    (applyModifier kc pressed m).ctrl = if kc = .lctrl ∨ kc = .rctrl then pressed else m.ctrl := by
  cases kc <;> first | rfl | (cases pressed <;> rfl)

theorem applyModifier_alt :
    (applyModifier kc pressed m).alt = if kc = .lalt ∨ kc = .ralt then pressed else m.alt := by
  cases kc <;> first | rfl | (cases pressed <;> rfl)

theorem applyModifier_caps :
    (applyModifier kc pressed m).caps =
      if kc = .caps ∧ pressed then !m.caps else m.caps := by
  cases kc <;> cases pressed <;> rfl

end

/-- A variable that agrees with two keys and follows the last of their strokes still agrees exactly
when no key is released under its partner. -/
theorem follows_iff_alone {l r : Key} (hlr : l ≠ r) (hl : l.keycode ≠ .none)
    (hr : r.keycode ≠ .none) {v : Bool} (hv : v = h.oneOf l r) :
    (if a.key.keycode = l.keycode ∨ a.key.keycode = r.keycode then a.pressed else v) =
        (a.move h).oneOf l r ↔ Alone l r a h := by
  simp only [keycode_eq_iff _ _ hl, keycode_eq_iff _ _ hr, hv]
  unfold Alone Hands.oneOf Stroke.move
  by_cases hkl : a.key = l
  · simp only [hkl, update_self, update_of_ne hlr.symm, true_or, if_true]
    cases a.pressed <;> simp [hlr]
  · by_cases hkr : a.key = r
    · simp only [hkr, update_self, update_of_ne hlr, or_true, if_true]
      cases a.pressed <;> simp [hlr.symm]
    · simp [hkl, hkr, update_of_ne (Ne.symm hkl), update_of_ne (Ne.symm hkr)]

theorem capsPresses_move {v : Bool} (hv : v = decide (h.capsPresses % 2 = 1)) :
    (if a.key.keycode = capsLock.keycode ∧ a.pressed then !v else v) =
      decide ((a.move h).capsPresses % 2 = 1) := by
  simp only [keycode_eq_iff a.key capsLock (by decide)]
  unfold Stroke.move
  subst hv
  by_cases hcaps : a.key = capsLock ∧ a.pressed
  · simp only [hcaps, and_self, if_true]
    rw [← decide_not, decide_eq_decide]
    omega
  · simp only [hcaps, if_false, Nat.add_zero]

/-- After a stroke the modifiers are right exactly when it released no key under its partner. -/
theorem mods_right_iff {m : Mods} (hm : ModsRight m h) :
    ModsRight (applyModifier a.key.keycode a.pressed m) (a.move h) ↔ Apart a h := by
  have hshift : (applyModifier a.key.keycode a.pressed m).shift = (a.move h).oneOf lshift rshift ↔
      Alone lshift rshift a h := by
    rw [applyModifier_shift]
    exact follows_iff_alone (by decide) (by decide) (by decide) hm.shift
  have hctrl : (applyModifier a.key.keycode a.pressed m).ctrl = (a.move h).oneOf lctrl rctrl ↔
      Alone lctrl rctrl a h := by
    rw [applyModifier_ctrl]
    exact follows_iff_alone (by decide) (by decide) (by decide) hm.ctrl
  have halt : (applyModifier a.key.keycode a.pressed m).alt = (a.move h).oneOf lalt ralt ↔
      Alone lalt ralt a h := by
    rw [applyModifier_alt]
    exact follows_iff_alone (by decide) (by decide) (by decide) hm.alt
  have hcaps : (applyModifier a.key.keycode a.pressed m).caps =
      decide ((a.move h).capsPresses % 2 = 1) := by
    rw [applyModifier_caps]
    exact capsPresses_move hm.caps
  exact ⟨fun hr => ⟨hshift.mp hr.shift, hctrl.mp hr.ctrl, halt.mp hr.alt⟩,
    fun ha => ⟨hshift.mpr ha.shift, hctrl.mpr ha.ctrl, halt.mpr ha.alt, hcaps⟩⟩

theorem apart_of_none (hkc : a.key.keycode = .none) : Apart a h := by
  have hne {k : Key} (hk : k.keycode ≠ .none) : a.key ≠ k := fun he => hk (he ▸ hkc)
  have halone {l r : Key} (hl : l.keycode ≠ .none) (hr : r.keycode ≠ .none) : Alone l r a h :=
    fun _ => ⟨fun he => absurd he (hne hl), fun he => absurd he (hne hr)⟩
  exact ⟨halone (by decide) (by decide), halone (by decide) (by decide),
    halone (by decide) (by decide)⟩

/-! ## Runs -/

/-- The driver waits for a key, and its modifiers are what the hands hold. -/
structure Agrees (s : Driver) (h : Hands) : Prop where
  e0 : s.e0 = false
  mods : ModsRight s.mods h

/-- **One stroke.** Its events are right exactly when it releases no modifier key under its
partner, and then the driver agrees with the hands again. -/
theorem stroke_right_iff (a : Stroke) (hs : Agrees s h) :
    (Entry.Right ⟨a, h, (feed (a.key.bytes a.pressed) s).2⟩ ↔ Apart a h) ∧
      (Apart a h → Agrees (feed (a.key.bytes a.pressed) s).1 (a.move h)) := by
  have hmods := mods_right_iff (a := a) hs.mods
  rw [feed_stroke a hs.e0]
  by_cases hkc : a.key.keycode = .none
  · have hapart : Apart a h := apart_of_none hkc
    rw [if_pos hkc]
    refine ⟨iff_of_true (by simp [Entry.Right]) hapart, fun _ => ⟨hs.e0, ?_⟩⟩
    have hright := hmods.mpr hapart
    rwa [hkc] at hright
  · rw [if_neg hkc]
    refine ⟨?_, fun hapart => ⟨rfl, hmods.mpr hapart⟩⟩
    simp only [Entry.Right, List.forall_mem_singleton]
    exact ⟨fun hr => hmods.mp hr.mods, fun ha => ⟨keyNamed_keycode hkc, rfl, hmods.mpr ha⟩⟩

/-- The strokes of a run, each with the hands before it. -/
def handsBefore : List Stroke → Hands → List (Stroke × Hands)
  | [], _ => []
  | a :: as, h => (a, h) :: handsBefore as (a.move h)

theorem entries_right_iff (as : List Stroke) (hs : Agrees s h) :
    (∀ e ∈ entries as s h, e.Right) ↔ ∀ p ∈ handsBefore as h, Apart p.1 p.2 := by
  induction as generalizing s h with
  | nil => simp [entries, handsBefore]
  | cons a as ih =>
    obtain ⟨hright, hagrees⟩ := stroke_right_iff a hs
    simp only [entries, handsBefore, List.forall_mem_cons]
    rw [hright]
    exact and_congr_right fun hapart => ih (hagrees hapart)

def Hands.free : Hands := ⟨fun _ => false, 0⟩

theorem agrees_init : Agrees .init .free := ⟨rfl, rfl, rfl, rfl, rfl⟩

/-- **The modifiers of the events.** From boot with nothing held, every event of a run names its key
and shows the modifiers held at that moment exactly when no Shift, Ctrl or Alt key is released
while the other one of its kind is held. -/
theorem events_right_iff (as : List Stroke) :
    (∀ e ∈ entries as .init .free, e.Right) ↔ ∀ p ∈ handsBefore as .free, Apart p.1 p.2 :=
  entries_right_iff as agrees_init

/-- Both Shift keys pressed, the left one released, then the A key: its event has no Shift. -/
theorem released_under_partner :
    ((entries [⟨lshift, true⟩, ⟨rshift, true⟩, ⟨lshift, false⟩, ⟨⟨false, 0x1E, by decide⟩, true⟩]
        .init .free).map fun e => e.events.map fun event => (event.mods.shift, event.ascii)) =
      [[(true, 0)], [(true, 0)], [(false, 0)], [(false, 97)]] ∧
    ¬∀ e ∈ entries [⟨lshift, true⟩, ⟨rshift, true⟩, ⟨lshift, false⟩] .init .free, e.Right := by
  refine ⟨by decide +kernel, fun h => ?_⟩
  rw [entries_right_iff _ agrees_init] at h
  have hapart := h (⟨lshift, false⟩, Stroke.move ⟨rshift, true⟩ (Stroke.move ⟨lshift, true⟩ .free))
    (by simp [handsBefore])
  have hfree := (hapart.shift rfl).1 rfl
  exact absurd hfree (by decide)

end DvivonOS.Keyboard
