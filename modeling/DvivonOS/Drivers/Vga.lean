import Mathlib.Data.List.GetD
import Mathlib.Tactic

/-!
# The screen

`vga_putchar` writes the cells of the VGA text buffer, and `_scroll_down_once`, the handler that
`terminal_initialize` sets, moves all lines up when the cursor has left the last row. What they
implement is a `Text`, a stack of lines of which one is being written: the screen shows the last 25.
-/

namespace DvivonOS.Vga

open Function List

def vgaWidth : ℕ := 80

def vgaHeight : ℕ := 25

def newline : Char := Char.ofNat 10

def backspace : Char := Char.ofNat 8

inductive EofHandler
  | vgaClear
  | scrollDownOnce

/-- An entry of the text buffer: the character in the low byte, its colour in the high one. -/
structure Cell where
  uc : Char
  color : ℕ

structure Screen where
  row : ℕ
  column : ℕ
  color : ℕ
  eofHandler : EofHandler
  buffer : ℕ → Cell
  cursor : ℕ
  /-- The indices of `vga_buffer` that have been written. -/
  writes : List ℕ

def store (i : ℕ) (c : Cell) (s : Screen) : Screen :=
  { s with buffer := update s.buffer i c, writes := i :: s.writes }

def vgaPutcharAt (c : Char) (color x y : ℕ) (s : Screen) : Screen := store (y * vgaWidth + x) ⟨c, color⟩ s

def vgaMoveCursor (row col : ℕ) (s : Screen) : Screen :=
  { s with cursor := (row * vgaWidth + col) % 2 ^ 16 }

def forTo (n : ℕ) (body : ℕ → Screen → Screen) (s : Screen) : Screen :=
  (List.range n).foldl (fun s k => body k s) s

/-- `VGA_COLOR_LIGHT_GREY` on `VGA_COLOR_BLACK`. -/
def clearColor : ℕ := 7

def vgaClear (s : Screen) : Screen :=
  let s := forTo vgaHeight (fun y => forTo vgaWidth fun x =>
    store (y * vgaWidth + x) ⟨' ', clearColor⟩) s
  vgaMoveCursor 0 0 { s with row := 0, column := 0 }

def vgaSetRow (row : ℕ) (s : Screen) : Screen :=
  let s := { s with row := if vgaHeight ≤ row then vgaHeight - 1 else row }
  vgaMoveCursor s.row s.column s

def vgaSetCol (col : ℕ) (s : Screen) : Screen :=
  let s := { s with column := if vgaWidth ≤ col then vgaWidth - 1 else col }
  vgaMoveCursor s.row s.column s

/-- The first loops of `_scroll_down_once`; the source counts the lines from 1. -/
def moveLines : Screen → Screen :=
  forTo (vgaHeight - 1) fun y => forTo vgaWidth fun x s =>
    store (y * vgaWidth + x) (s.buffer ((y + 1) * vgaWidth + x)) s

def clearLastLine (s : Screen) : Screen :=
  forTo vgaWidth (fun x => vgaPutcharAt ' ' s.color x (vgaHeight - 1)) s

def moveToLastLine (s : Screen) : Screen :=
  let s := vgaSetCol 0 s
  let s := vgaSetRow ((s.row + 2 ^ 32 - 1) % 2 ^ 32) s
  vgaMoveCursor s.row s.column s

def scrolled (s : Screen) : Screen := clearLastLine (moveLines s)

def scrollDownOnce (s : Screen) : Screen := moveToLastLine (scrolled s)

/-- The part of `vga_putchar` before the test for the end of the screen. -/
def place (c : Char) (s : Screen) : Screen :=
  if c = newline then { s with row := s.row + 1, column := 0 }
  else if c = backspace then
    if 0 < s.column then
      let s := { s with column := s.column - 1 }
      vgaPutcharAt ' ' s.color s.column s.row s
    else s
  else
    let s := vgaPutcharAt c s.color s.column s.row s
    let s := { s with column := s.column + 1 }
    if s.column = vgaWidth then { s with column := 0, row := s.row + 1 } else s

def vgaEof (s : Screen) : Screen :=
  match s.eofHandler with
  | .vgaClear => vgaClear s
  | .scrollDownOnce => scrollDownOnce s

def vgaPutchar (c : Char) (s : Screen) : Screen :=
  let s := place c s
  let s := if s.row = vgaHeight then vgaEof s else s
  vgaMoveCursor s.row s.column s

/-! ## The text -/

/-- The lines before the current one, the last of them first, and the current line. -/
structure Text where
  above : List (List Char)
  line : List Char

def Text.putchar (t : Text) (c : Char) : Text :=
  if c = newline then ⟨t.line :: t.above, []⟩
  else if c = backspace then ⟨t.above, t.line.dropLast⟩
  else if t.line.length + 1 = vgaWidth then ⟨(t.line ++ [c]) :: t.above, []⟩
  else ⟨t.above, t.line ++ [c]⟩

def layout (cs : List Char) : Text := cs.foldl Text.putchar ⟨[], []⟩

def Text.lines (t : Text) : List (List Char) := t.line :: t.above

def Text.lastLines (t : Text) : List (List Char) := (t.lines.take vgaHeight).reverse

/-- The screen shows the last lines of the text, with blanks behind them, and the cursor is at the end
of the last one. -/
structure Shows (t : Text) (s : Screen) : Prop where
  chars : ∀ y < vgaHeight, ∀ x < vgaWidth,
    (s.buffer (y * vgaWidth + x)).uc = (t.lastLines.getD y []).getD x ' '
  row : s.row = t.lastLines.length - 1
  column : s.column = t.line.length
  cursor : s.cursor = s.row * vgaWidth + s.column

/-! ## Loops -/

section Loops

variable {s : Screen} {n m b : ℕ} {f : ℕ → Screen → Screen}

theorem forTo_succ : forTo (n + 1) f s = f n (forTo n f s) := by
  simp [forTo, range_succ]

theorem forTo_add : forTo (n + m) f s = forTo m (fun k => f (n + k)) (forTo n f s) := by
  induction m with
  | zero => rfl
  | succ m ih => rw [← Nat.add_assoc, forTo_succ, ih, forTo_succ]

/-- A loop over the lines and one over the columns are one loop over the cells. -/
theorem forTo_lines : forTo n (fun y => forTo m fun x => f (y * m + x)) s = forTo (n * m) f s := by
  induction n with
  | zero => simp [forTo]
  | succ n ih => rw [forTo_succ, ih, Nat.succ_mul, forTo_add]

/-- What a loop does that writes the `n` cells from `b` on: only the cells and the list of writes
change. -/
structure Filled (b n : ℕ) (v : ℕ → Cell) (s s' : Screen) : Prop where
  eq : s' = { s with buffer := s'.buffer, writes := s'.writes }
  buffer : s'.buffer = fun i => if b ≤ i ∧ i < b + n then v i else s.buffer i
  writes : ∀ i ∈ s'.writes, i ∈ s.writes ∨ i < b + n

/-- The cell of a round is known if those that come later have not been written. -/
theorem filled_forTo {v : ℕ → Cell} {g : ℕ → Screen → Cell}
    (hg : ∀ k < n, ∀ s', (∀ i, b + k ≤ i → s'.buffer i = s.buffer i) → g k s' = v (b + k)) :
    Filled b n v s (forTo n (fun k s => store (b + k) (g k s) s) s) := by
  induction n with
  | zero => exact ⟨rfl, by ext1 i; rw [if_neg (by omega)]; rfl, fun i hi => .inl hi⟩
  | succ n ih =>
    obtain ⟨heq, hbuffer, hwrites⟩ := ih fun k hk => hg k (by omega)
    rw [forTo_succ]
    generalize forTo n (fun k s => store (b + k) (g k s) s) s = s₁ at heq hbuffer hwrites ⊢
    have hcell : g n s₁ = v (b + n) := by
      refine hg n (by omega) s₁ fun i hi => ?_
      rw [hbuffer]
      exact if_neg (by omega)
    rw [hcell]
    refine ⟨by rw [heq]; rfl, ?_, fun i hi => ?_⟩
    · ext1 i
      show update s₁.buffer (b + n) (v (b + n)) i = _
      by_cases hi : i = b + n
      · rw [hi, update_self, if_pos (by omega)]
      · rw [update_of_ne hi, hbuffer]
        exact if_congr (by omega) rfl rfl
    · obtain rfl | hi := mem_cons.mp hi
      · exact .inr (by omega)
      · exact (hwrites i hi).imp_right (by omega)

theorem Filled.cell {v : ℕ → Cell} {s s' : Screen} (h : Filled b n v s s') (i : ℕ) :
    s'.buffer i = if b ≤ i ∧ i < b + n then v i else s.buffer i := by rw [h.buffer]

end Loops

theorem filled_moveLines (s : Screen) :
    Filled 0 (24 * 80) (fun i => s.buffer (i + 80)) s (moveLines s) := by
  have hflat : moveLines s =
      forTo (24 * 80) (fun k s => store (0 + k) (s.buffer (k + 80)) s) s := by
    rw [← forTo_lines]
    unfold moveLines vgaHeight vgaWidth
    simp only [Nat.succ_mul, Nat.zero_add, Nat.add_right_comm]
  rw [hflat]
  exact filled_forTo fun k _ s' h => by rw [h (k + 80) (by omega), Nat.zero_add]

/-! ## One call -/

section Call

variable {t : Text} {s : Screen} {c : Char} {ls : List (List Char)} {row x y : ℕ}

/-- The character of a cell, where row `row` holds the first of the lines. -/
def charAt (ls : List (List Char)) (row y x : ℕ) : Char :=
  if y ≤ row then (ls.getD (row - y) []).getD x ' ' else ' '

/-- The cells hold the lines, the first of them in the row of the cursor. -/
def Drawn (ls : List (List Char)) (s : Screen) : Prop :=
  ∀ y < 25, ∀ x < 80, (s.buffer (y * 80 + x)).uc = charAt ls s.row y x

structure Inv (t : Text) (s : Screen) : Prop where
  handler : s.eofHandler = .scrollDownOnce
  row : s.row = min t.above.length 24
  column : s.column = t.line.length
  short : t.line.length < 80
  drawn : Drawn t.lines s
  cursor : s.cursor = s.row * 80 + s.column

theorem charAt_newline : charAt ([] :: ls) (row + 1) y x = charAt ls row y x := by
  unfold charAt
  obtain h | rfl | h := Nat.lt_trichotomy y (row + 1)
  · rw [if_pos (by omega), if_pos (by omega), Nat.succ_sub (by omega), getD_cons_succ]
  · simp
  · rw [if_neg (by omega), if_neg (by omega)]

theorem Drawn.store {l l' : List Char} {k color : ℕ} (h : Drawn (l :: ls) s) (hk : k < 80)
    (hl : ∀ x, l'.getD x ' ' = if x = k then c else l.getD x ' ') :
    Drawn (l' :: ls) (store (s.row * 80 + k) ⟨c, color⟩ s) := by
  intro y hy x hx
  show (update s.buffer (s.row * 80 + k) ⟨c, color⟩ (y * 80 + x)).uc = charAt _ s.row y x
  by_cases hcell : y = s.row ∧ x = k
  · rw [hcell.1, hcell.2, update_self, charAt, if_pos le_rfl, Nat.sub_self,
      getD_cons_zero, hl, if_pos rfl]
  · rw [update_of_ne (by omega), h y hy x hx]
    unfold charAt
    by_cases hrow : y = s.row
    · rw [if_pos hrow.le, if_pos hrow.le, hrow, Nat.sub_self, getD_cons_zero,
        getD_cons_zero, hl, if_neg fun hx' => hcell ⟨hrow, hx'⟩]
    · by_cases hy' : y ≤ s.row
      · obtain ⟨n, hn⟩ := Nat.exists_eq_add_of_lt (Nat.lt_of_le_of_ne hy' hrow)
        have hsub : s.row - y = n + 1 := by omega
        rw [hsub, getD_cons_succ, getD_cons_succ]
      · rw [if_neg hy', if_neg hy']

theorem getD_append_char (l : List Char) (c : Char) (x : ℕ) :
    (l ++ [c]).getD x ' ' = if x = l.length then c else l.getD x ' ' := by
  grind

theorem getD_dropLast_char {l : List Char} (hl : 0 < l.length) (x : ℕ) :
    l.dropLast.getD x ' ' = if x = l.length - 1 then ' ' else l.getD x ' ' := by
  grind

/-- A state before the test for the end of the screen. -/
structure Placed (t : Text) (s : Screen) : Prop where
  handler : s.eofHandler = .scrollDownOnce
  row : s.row = min t.above.length 24 ∨ s.row = 25 ∧ 25 ≤ t.above.length ∧ t.line = []
  column : s.column = t.line.length
  short : t.line.length < 80
  drawn : Drawn t.lines s

theorem Inv.nextRow {l : List Char} (h : Inv t s) {s' : Screen} (hh : s'.eofHandler = s.eofHandler)
    (hrow : s'.row = s.row) (hd : Drawn (l :: t.above) s') :
    Placed ⟨l :: t.above, []⟩ { s' with row := s'.row + 1, column := 0 } := by
  have hr := h.row
  refine ⟨hh.trans h.handler, ?_, rfl, by simp, fun y hy x hx => ?_⟩
  · dsimp only [length_cons]
    by_cases hlast : t.above.length < 24
    · exact .inl (by omega)
    · exact .inr ⟨by omega, by omega, rfl⟩
  · exact (hd y hy x hx).trans charAt_newline.symm

theorem Inv.erase (h : Inv t s) (hpos : 0 < s.column) :
    Drawn (t.line.dropLast :: t.above)
      (vgaPutcharAt ' ' s.color (s.column - 1) s.row { s with column := s.column - 1 }) := by
  have hcol := h.column
  have hshort := h.short
  have hl := getD_dropLast_char (l := t.line) (by omega)
  rw [← hcol] at hl
  exact Drawn.store (s := { s with column := s.column - 1 }) h.drawn (by omega) hl

theorem Inv.write (h : Inv t s) (c : Char) :
    Drawn ((t.line ++ [c]) :: t.above) (vgaPutcharAt c s.color s.column s.row s) := by
  have hl := getD_append_char t.line c
  rw [← h.column] at hl
  exact h.drawn.store (h.column.trans_lt h.short) hl

theorem Inv.placed (h : Inv t s) (c : Char) : Placed (t.putchar c) (place c s) := by
  have hcol := h.column
  have hshort := h.short
  unfold place Text.putchar
  by_cases hn : c = newline
  · rw [if_pos hn, if_pos hn]
    exact h.nextRow rfl rfl h.drawn
  rw [if_neg hn, if_neg hn]
  by_cases hb : c = backspace
  · rw [if_pos hb, if_pos hb]
    by_cases hpos : 0 < s.column
    · rw [if_pos hpos]
      refine ⟨h.handler, .inl h.row, ?_, ?_, h.erase hpos⟩
      · show s.column - 1 = t.line.dropLast.length
        rw [length_dropLast, hcol]
      · rw [length_dropLast]
        omega
    · have hnil : t.line = [] := length_eq_zero_iff.mp (by omega)
      have hd := h.drawn
      unfold Text.lines at hd
      rw [if_neg hpos, hnil]
      rw [hnil] at hcol hd
      exact ⟨h.handler, .inl h.row, hcol, by simp, hd⟩
  rw [if_neg hb, if_neg hb]
  have hwidth : vgaWidth = 80 := rfl
  dsimp only
  by_cases hwrap : t.line.length + 1 = vgaWidth
  · have hwrap' : (vgaPutcharAt c s.color s.column s.row s).column + 1 = vgaWidth := by
      rw [← hwrap, ← hcol]
      rfl
    rw [if_pos hwrap, if_pos hwrap']
    exact h.nextRow rfl rfl (h.write c)
  · have hwrap' : ¬(vgaPutcharAt c s.color s.column s.row s).column + 1 = vgaWidth := by
      rwa [← hcol] at hwrap
    rw [if_neg hwrap, if_neg hwrap']
    refine ⟨h.handler, .inl h.row, ?_, ?_, h.write c⟩
    · show s.column + 1 = (t.line ++ [c]).length
      simp [hcol]
    · simp only [length_append, length_singleton]
      omega

theorem filled_clearLastLine (s : Screen) :
    Filled (24 * 80) 80 (fun _ => ⟨' ', s.color⟩) s (clearLastLine s) := by
  have hflat : clearLastLine s = forTo 80 (fun x => store (24 * 80 + x) ⟨' ', s.color⟩) s := by
    unfold clearLastLine vgaPutcharAt vgaHeight vgaWidth
    rw [Nat.add_sub_cancel 24 1]
  rw [hflat]
  exact filled_forTo (g := fun _ _ => ⟨' ', s.color⟩) fun _ _ _ _ => rfl

theorem scrolled_eq (s : Screen) :
    scrolled s = { s with buffer := (scrolled s).buffer, writes := (scrolled s).writes } := by
  rw [scrolled, (filled_clearLastLine _).eq, (filled_moveLines s).eq]

theorem moveToLastLine_eq (hrow : s.row = 25) :
    moveToLastLine s = { s with row := 24, column := 0, cursor := 24 * 80 } := by
  simp [moveToLastLine, vgaMoveCursor, vgaSetRow, vgaSetCol, hrow, vgaHeight, vgaWidth]

theorem scrolled_cell (s : Screen) {i : ℕ} (hi : i < 25 * 80) :
    (scrolled s).buffer i =
      if i < 24 * 80 then s.buffer (i + 80) else ⟨' ', (moveLines s).color⟩ := by
  rw [scrolled, (filled_clearLastLine _).cell, (filled_moveLines s).cell]
  by_cases h : i < 24 * 80
  · rw [if_neg (by omega), if_pos (by omega), if_pos h]
  · rw [if_pos (by omega), if_neg h]

theorem Placed.scroll (h : Placed t s) (hrow : s.row = 25) :
    Placed t (scrollDownOnce s) ∧ (scrollDownOnce s).row = 24 := by
  obtain hr | ⟨-, habove, hnil⟩ := h.row
  · omega
  have hkeeps : (scrolled s).eofHandler = s.eofHandler ∧ (scrolled s).row = s.row := by
    rw [scrolled_eq]
    exact ⟨rfl, rfl⟩
  have hcell := fun i => scrolled_cell s (i := i)
  unfold scrollDownOnce
  rw [moveToLastLine_eq (hkeeps.2.trans hrow)]
  generalize scrolled s = s₁ at hkeeps hcell ⊢
  refine ⟨⟨hkeeps.1.trans h.handler, .inl ?_, ?_, h.short, fun y hy x hx => ?_⟩, rfl⟩
  · show 24 = min t.above.length 24
    omega
  · show 0 = t.line.length
    rw [hnil, length_nil]
  show (s₁.buffer (y * 80 + x)).uc = charAt t.lines 24 y x
  rw [hcell _ (by omega)]
  by_cases hlast : y < 24
  · have hindex : y * 80 + x + 80 = (y + 1) * 80 + x := by omega
    rw [if_pos (by omega), hindex, h.drawn (y + 1) (by omega) x hx, hrow]
    unfold charAt
    rw [if_pos (by omega), if_pos (by omega), Nat.add_sub_add_right 24 1 y]
  · obtain rfl : y = 24 := by omega
    rw [if_neg (by omega)]
    unfold charAt Text.lines
    rw [hnil]
    rfl

theorem Placed.inv (h : Placed t s) (hrow : s.row ≠ 25) :
    Inv t (vgaMoveCursor s.row s.column s) := by
  obtain hr | ⟨hr, -⟩ := h.row
  · have hcolumn := h.column
    have hshort := h.short
    refine ⟨h.handler, hr, h.column, h.short, h.drawn, ?_⟩
    show (s.row * 80 + s.column) % 2 ^ 16 = s.row * 80 + s.column
    omega
  · exact absurd hr hrow

theorem Inv.step (h : Inv t s) (c : Char) : Inv (t.putchar c) (vgaPutchar c s) := by
  have hp := h.placed c
  unfold vgaPutchar
  generalize place c s = s₁ at hp ⊢
  dsimp only
  by_cases hrow : s₁.row = vgaHeight
  · rw [if_pos hrow]
    unfold vgaEof
    rw [hp.handler]
    obtain ⟨hs, hlast⟩ := hp.scroll hrow
    exact hs.inv (by omega)
  · rw [if_neg hrow]
    exact hp.inv hrow

/-- Nothing is written outside the text buffer. -/
def Inside (s s' : Screen) : Prop := ∀ i ∈ s'.writes, i ∈ s.writes ∨ i < 80 * 25

theorem Inside.trans {s₁ s₂ : Screen} (h : Inside s s₁) (h' : Inside s₁ s₂) : Inside s s₂ :=
  fun i hi => (h' i hi).elim (h i) .inr

theorem inside_scroll (hrow : s.row = 25) : Inside s (scrollDownOnce s) := by
  have hrow' : (scrolled s).row = 25 := by
    rw [scrolled_eq]
    exact hrow
  unfold scrollDownOnce Inside
  rw [moveToLastLine_eq hrow']
  intro i hi
  obtain hi | hi := (filled_clearLastLine (moveLines s)).writes i hi
  · exact ((filled_moveLines s).writes i hi).imp_right (by omega)
  · exact .inr (by omega)

theorem Inv.inside_place (h : Inv t s) (c : Char) : Inside s (place c s) := by
  have hrow := h.row
  have hcolumn := h.column
  have hshort := h.short
  have hwrite : ∀ x < 80, ∀ i, i = s.row * 80 + x ∨ i ∈ s.writes → i ∈ s.writes ∨ i < 80 * 25 := by
    rintro x hx i (rfl | hi)
    · exact .inr (by omega)
    · exact .inl hi
  unfold place
  split_ifs
  · exact fun i hi => .inl hi
  · exact fun i hi => hwrite (s.column - 1) (by omega) i (mem_cons.mp hi)
  · exact fun i hi => .inl hi
  · dsimp only
    split_ifs
    · exact fun i hi => hwrite s.column (by omega) i (mem_cons.mp hi)
    · exact fun i hi => hwrite s.column (by omega) i (mem_cons.mp hi)

theorem Inside.moveCursor {s' : Screen} (h : Inside s s') (row col : ℕ) :
    Inside s (vgaMoveCursor row col s') := h

theorem Inv.inside (h : Inv t s) (c : Char) : Inside s (vgaPutchar c s) := by
  have hp := h.placed c
  have hi := h.inside_place c
  unfold vgaPutchar
  generalize place c s = s₁ at hp hi ⊢
  dsimp only
  by_cases hrow : s₁.row = vgaHeight
  · rw [if_pos hrow]
    unfold vgaEof
    rw [hp.handler]
    exact (hi.trans (inside_scroll hrow)).moveCursor _ _
  · rw [if_neg hrow]
    exact hi

end Call

/-! ## Every sequence of calls -/

section Runs

variable {t : Text} {s : Screen}

theorem filled_vgaClear (s : Screen) :
    Filled 0 (25 * 80) (fun _ => ⟨' ', clearColor⟩) s
      (forTo vgaHeight (fun y => forTo vgaWidth fun x =>
        store (y * vgaWidth + x) ⟨' ', clearColor⟩) s) := by
  have hflat : forTo vgaHeight (fun y => forTo vgaWidth fun x =>
      store (y * vgaWidth + x) ⟨' ', clearColor⟩) s =
      forTo (25 * 80) (fun k => store (0 + k) ⟨' ', clearColor⟩) s := by
    simp only [Nat.zero_add]
    exact forTo_lines (f := fun k => store k ⟨' ', clearColor⟩)
  rw [hflat]
  exact filled_forTo (g := fun _ _ => ⟨' ', clearColor⟩) fun _ _ _ _ => rfl

theorem inv_clear (hs : s.eofHandler = .scrollDownOnce) : Inv ⟨[], []⟩ (vgaClear s) := by
  have hfilled := filled_vgaClear s
  unfold vgaClear
  generalize forTo vgaHeight _ s = s₁ at hfilled ⊢
  have hhandler : s₁.eofHandler = s.eofHandler := by rw [hfilled.eq]
  refine ⟨hhandler.trans hs, rfl, rfl, by simp, fun y hy x hx => ?_, rfl⟩
  show (s₁.buffer (y * 80 + x)).uc = charAt [[]] 0 y x
  rw [hfilled.cell, if_pos (by omega)]
  unfold charAt
  split_ifs with h0
  · rw [Nat.le_zero.mp h0]
    rfl
  · rfl

theorem inside_clear (s : Screen) : Inside s (vgaClear s) := by
  have hwrites := (filled_vgaClear s).writes
  exact fun i hi => (hwrites i hi).imp_right (by omega)

def putchars (cs : List Char) (s : Screen) : Screen := cs.foldl (fun s c => vgaPutchar c s) s

theorem Inv.run (h : Inv t s) (cs : List Char) :
    Inv (cs.foldl Text.putchar t) (putchars cs s) ∧ Inside s (putchars cs s) := by
  induction cs generalizing t s with
  | nil => exact ⟨h, fun i hi => .inl hi⟩
  | cons c cs ih =>
    obtain ⟨hinv, hinside⟩ := ih (h.step c)
    exact ⟨hinv, (h.inside c).trans hinside⟩

theorem lastLines_length (t : Text) : t.lastLines.length = min t.above.length 24 + 1 := by
  unfold Text.lastLines Text.lines vgaHeight
  simp only [length_reverse, length_take, length_cons]
  omega

theorem lastLines_getD (t : Text) (y : ℕ) : t.lastLines.getD y [] =
    if y ≤ min t.above.length 24 then t.lines.getD (min t.above.length 24 - y) [] else [] := by
  have hlength := lastLines_length t
  by_cases hy : y ≤ min t.above.length 24
  · have hlt : y < t.lastLines.length := by omega
    rw [if_pos hy, getD_eq_getElem _ _ hlt]
    unfold Text.lastLines at hlength hlt ⊢
    have hlines : t.lines.length = t.above.length + 1 := rfl
    rw [length_reverse] at hlength hlt
    rw [getElem_reverse, getElem_take, getD_eq_getElem _ _ (by omega)]
    congr 1
    omega
  · rw [if_neg hy, getD_eq_default _ _ (by omega)]

theorem Inv.shows (h : Inv t s) : Shows t s := by
  have hrow := h.row
  refine ⟨fun y hy x hx => ?_, ?_, h.column, h.cursor⟩
  · show (s.buffer (y * 80 + x)).uc = _
    rw [h.drawn y hy x hx, lastLines_getD, charAt, hrow]
    split_ifs <;> rfl
  · rw [lastLines_length, Nat.add_sub_cancel, hrow]

/-- From a cleared screen on, with the handler of the terminal, the screen shows the last lines of the
text. -/
theorem screen_shows_last_lines (s : Screen) (cs : List Char) :
    let s₀ := { s with eofHandler := .scrollDownOnce }
    let s' := putchars cs (vgaClear s₀)
    (∀ i ∈ s'.writes, i ∈ s.writes ∨ i < 80 * 25) ∧ s'.row < 25 ∧ s'.column < 80 ∧
      Shows (layout cs) s' := by
  intro s₀ s'
  obtain ⟨hinv, hinside⟩ := (inv_clear (s := s₀) rfl).run cs
  have hrow := hinv.row
  refine ⟨(inside_clear s₀).trans hinside, ?_, ?_, hinv.shows⟩
  · exact hinv.row.trans_lt (by omega)
  · exact hinv.column.trans_lt hinv.short

end Runs

end DvivonOS.Vga
