import DvivonOS.Drivers.Keyboard
import DvivonOS.Drivers.Vga

/-!
# The line editor of the shell

`shell_readline` keeps the line in a buffer and echoes it. Before the right edge of the screen the
two agree; at the beginning of a row a backspace would no longer take back what has been echoed.
-/

namespace DvivonOS.Shell

open Function Keyboard List Vga

structure Editor where
  buf : ℕ → Char
  pos : ℕ
  screen : Screen

/-- A round of `shell_readline` that does not end the line. -/
def readlineKey (max : ℕ) (ev : KeyEvent) (s : Editor) : Editor :=
  if !ev.pressed then s
  else if ev.code = .bspc then
    if 0 < s.pos then { s with pos := s.pos - 1, screen := vgaPutchar backspace s.screen } else s
  else if ' '.toNat ≤ ev.ascii ∧ ev.ascii ≤ '~'.toNat ∧ s.pos + 1 < max then
    let c := Char.ofNat ev.ascii
    ⟨update s.buf s.pos c, s.pos + 1, vgaPutchar c s.screen⟩
  else s

/-- The loop of `shell_readline`, with the events that `keyboard_read` will return. -/
def readlineLoop (max : ℕ) : List KeyEvent → Editor → Option (Editor × List KeyEvent)
  | [], _ => none
  | ev :: evs, s =>
    if ev.pressed ∧ ev.code = .enter then
      some ({ s with
        buf := update s.buf s.pos (Char.ofNat 0)
        screen := vgaPutchar newline s.screen }, evs)
    else readlineLoop max evs (readlineKey max ev s)

def shellReadline (max : ℕ) (evs : List KeyEvent) (buf : ℕ → Char) (screen : Screen) :
    Option (Editor × List KeyEvent) := readlineLoop max evs ⟨buf, 0, screen⟩

/-- What an event makes of the line. -/
def edit (max : ℕ) (l : List Char) (ev : KeyEvent) : List Char :=
  if !ev.pressed then l
  else if ev.code = .bspc then l.dropLast
  else if ' '.toNat ≤ ev.ascii ∧ ev.ascii ≤ '~'.toNat ∧ l.length + 1 < max then
    l ++ [Char.ofNat ev.ascii]
  else l

/-- The buffer holds the line, and the screen shows it behind `t` if it has been `short`. -/
structure Editing (max : ℕ) (t : Vga.Text) (buf : ℕ → Char) (short : Prop) (l : List Char)
    (s : Editor) : Prop where
  pos : s.pos = l.length
  lt : l.length < max
  line : ∀ i < l.length, s.buf i = l.getD i ' '
  beyond : ∀ i, max ≤ i → s.buf i = buf i
  screen : short → Vga.Inv ⟨t.above, t.line ++ l⟩ s.screen

variable {max : ℕ} {t : Vga.Text} {buf : ℕ → Char} {short : Prop} {l : List Char} {s : Editor}
  {ev : KeyEvent}

theorem putchar_printable {n : ℕ} (hlow : ' '.toNat ≤ n) (hhigh : n ≤ '~'.toNat)
    (ht : t.line.length + 1 < vgaWidth) :
    t.putchar (Char.ofNat n) = ⟨t.above, t.line ++ [Char.ofNat n]⟩ := by
  have hcontrol : ∀ n < 127, 32 ≤ n → Char.ofNat n ≠ newline ∧ Char.ofNat n ≠ backspace := by decide
  obtain ⟨hn, hb⟩ := hcontrol n (Nat.lt_succ_of_le hhigh) hlow
  rw [Vga.Text.putchar, if_neg hn, if_neg hb, if_neg (by omega)]

theorem Editing.key (h : Editing max t buf short l s)
    (hshort : short → t.line.length + (edit max l ev).length < vgaWidth) :
    Editing max t buf short (edit max l ev) (readlineKey max ev s) := by
  have hlt := h.lt
  unfold edit readlineKey at *
  rw [h.pos]
  split_ifs at hshort ⊢ with hp hb hpos hprint
  · exact h
  · obtain rfl | ⟨l', c, rfl⟩ := l.eq_nil_or_concat
    · simp at hpos
    simp only [concat_eq_append, dropLast_concat, length_append] at *
    refine ⟨by simp, by omega, fun i hi => ?_, h.beyond, fun hs => ?_⟩
    · rw [h.line i (by simp; omega), getD_append _ _ _ _ hi]
    · have hscreen := (h.screen hs).step backspace
      rwa [Vga.Text.putchar, if_neg (by decide), if_pos rfl, ← append_assoc,
        dropLast_concat] at hscreen
  · rw [length_pos_iff, not_not] at hpos
    subst hpos
    exact h
  · refine ⟨by simp, by simpa using hprint.2.2, fun i hi => ?_, fun i hi => ?_, fun hs => ?_⟩
    · by_cases hi' : i = l.length
      · simp [hi']
      · rw [length_append, length_singleton] at hi
        rw [getD_append _ _ _ _ (by omega)]
        exact (update_of_ne hi' ..).trans (h.line i (by omega))
    · exact (update_of_ne (by omega) ..).trans (h.beyond i hi)
    · replace hshort := hshort hs
      have hscreen := (h.screen hs).step (Char.ofNat ev.ascii)
      rwa [putchar_printable hprint.1 hprint.2.1 (by simp at *; omega),
        append_assoc] at hscreen
  · exact h

theorem Editing.run (h : Editing max t buf short l s) {evs : List KeyEvent}
    (hevs : ∀ ev ∈ evs, ¬ (ev.pressed ∧ ev.code = .enter))
    (hshort : short → ∀ p, p <+: evs → t.line.length + (p.foldl (edit max) l).length < vgaWidth)
    (rest : List KeyEvent) :
    ∃ s', readlineLoop max (evs ++ rest) s = readlineLoop max rest s' ∧
      Editing max t buf short (evs.foldl (edit max) l) s' := by
  induction evs generalizing l s with
  | nil => exact ⟨s, rfl, h⟩
  | cons ev evs ih =>
    obtain ⟨hev, hevs⟩ := forall_mem_cons.mp hevs
    obtain ⟨s', hrun, h'⟩ := ih (h.key fun hs => hshort hs [ev] ⟨evs, rfl⟩) hevs fun hs p hp =>
      hshort hs (ev :: p) (cons_prefix_cons.mpr ⟨rfl, hp⟩)
    refine ⟨s', ?_, h'⟩
    rw [cons_append, readlineLoop, if_neg hev, hrun]

/-- **The echo.** The events up to a pressed Enter leave in the buffer what they make of an empty
line, with a NUL behind it and nothing stored from `max` on; and the line is on the screen, behind
the prompt, if it has never reached the right edge. -/
theorem readline_echoes {screen : Screen} (h : Vga.Inv t screen) (hmax : 0 < max)
    (evs : List KeyEvent) (hevs : ∀ ev ∈ evs, ¬ (ev.pressed ∧ ev.code = .enter))
    (hev : ev.pressed ∧ ev.code = .enter) (rest : List KeyEvent) :
    ∃ s', shellReadline max (evs ++ ev :: rest) buf screen = some (s', rest) ∧
      s'.pos = (evs.foldl (edit max) []).length ∧ s'.pos < max ∧
      (∀ i < s'.pos, s'.buf i = (evs.foldl (edit max) []).getD i ' ') ∧
      s'.buf s'.pos = Char.ofNat 0 ∧ (∀ i, max ≤ i → s'.buf i = buf i) ∧
      ((∀ p, p <+: evs → t.line.length + (p.foldl (edit max) []).length < vgaWidth) →
        Vga.Shows ⟨(t.line ++ evs.foldl (edit max) []) :: t.above, []⟩ s'.screen) := by
  obtain ⟨s', hrun, h'⟩ := Editing.run (t := t) (l := []) (s := ⟨buf, 0, screen⟩)
    ⟨rfl, hmax, by simp, fun _ _ => rfl, fun _ => by simpa using h⟩ hevs id (ev :: rest)
  have hlt := h'.lt
  rw [readlineLoop, if_pos hev] at hrun
  refine ⟨_, hrun, h'.pos, h'.pos.trans_lt hlt, fun i hi => ?_, update_self ..,
    fun i hi => ?_, fun hs => ((h'.screen hs).step newline).shows⟩
  · exact (update_of_ne hi.ne ..).trans (h'.line i (hi.trans_eq h'.pos))
  · exact (update_of_ne (by rw [h'.pos]; omega) ..).trans (h'.beyond i hi)

def sampleScreen : Screen := ⟨0, 0, 7, .scrollDownOnce, fun _ => ⟨' ', 7⟩, 0, []⟩

theorem readline_echoes_corrected :
    let key (code : Keycode) (ascii : ℕ) : KeyEvent :=
      ⟨code, true, ascii, ⟨false, false, false, false⟩⟩
    ∃ s', shellReadline 256 ([key .k 107, key .bspc 8, key .l 108] ++ [key .enter 10])
        (fun _ => ' ') (vgaClear sampleScreen) = some (s', []) ∧
      Vga.Shows ⟨[['l']], []⟩ s'.screen := by
  intro key
  obtain ⟨s', hrun, -, -, -, -, -, hshows⟩ := @readline_echoes 256 ⟨[], []⟩
    (fun _ => ' ') (key .enter 10) (vgaClear sampleScreen) (inv_clear rfl) (by simp)
    [key .k 107, key .bspc 8, key .l 108] (by simp [key]) ⟨rfl, rfl⟩ []
  refine ⟨s', hrun, hshows fun p hp => ?_⟩
  have hmem := (mem_inits p _).mpr hp
  fin_cases hmem <;> decide

end DvivonOS.Shell
