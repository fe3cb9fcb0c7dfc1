import Mathlib.Data.Nat.Digits.Lemmas
import Mathlib.Tactic

/-!
# `printf`

`printf` goes through its format and hands what it prints to the functions of the active interface.
The specification cuts a format into pieces, each with its code, its argument and its expansion. The
two agree except on a `%` at the end of the format, whose NUL is taken for a code, and on `%d` of the
least integer, whose negation is itself.
-/

namespace DvivonOS.Stdio

open List

def nul : Char := Char.ofNat 0

/-- A variable argument: a word, or a pointer to a string. -/
inductive Arg
  | word (w : BitVec 32)
  | str (s : List Char)

/-- What `printf` works on: which functions of `active_interface` are set, the characters that they
have been given, and `vga_color`. -/
structure Console where
  putc : Bool
  puts : Bool
  out : List Char
  color : ℕ

structure Frame where
  args : List Arg
  count : ℕ
  console : Console

abbrev PrintM := StateT Frame Option

def putc (c : Char) : PrintM Unit := modify fun f =>
  if f.console.putc then { f with console := { f.console with out := f.console.out ++ [c] } } else f

def puts (s : List Char) : PrintM Unit := modify fun f =>
  if f.console.puts then { f with console := { f.console with out := f.console.out ++ s } } else f

def addCount (n : ℕ) : PrintM Unit := modify fun f => { f with count := f.count + n }

def setColor (color : ℕ) : PrintM Unit := modify fun f =>
  { f with console := { f.console with color := color } }

def vaArgWord : PrintM (BitVec 32) := fun f =>
  match f.args with
  | .word w :: args => some (w, { f with args := args })
  | _ => none

def vaArgStr : PrintM (List Char) := fun f =>
  match f.args with
  | .str s :: args => some (s, { f with args := args })
  | _ => none

def emit (c : Char) : PrintM Unit := do
  putc c
  addCount 1

def emitAll : List Char → PrintM Unit
  | [] => return
  | c :: cs => do
    emit c
    emitAll cs

/-- A loop that takes digits off a number: they come out the last one first. -/
def digitLoop (b : ℕ) (digit : ℕ → Char) : ℕ → ℕ → List Char
  | 0, _ => []
  | n + 1, val => digit (val % b) :: if 0 < val / b then digitLoop b digit n (val / b) else []

/-- The loop of `%d`, which divides integers. -/
def decimalLoop : ℕ → ℤ → List Char
  | 0, _ => []
  | n + 1, val =>
    Char.ofNat (val.tmod 10 + 48).toNat ::
      if 0 < val.tdiv 10 then decimalLoop n (val.tdiv 10) else []

def hexDigit (digit : ℕ) : Char := Char.ofNat (if digit < 10 then digit + 48 else digit - 10 + 97)

def hexLoop : ℕ → ℕ → List Char := digitLoop 16 hexDigit

def bufferSize : ℕ := 20

def printDecimal (val : BitVec 32) : PrintM Unit := do
  if val.toInt < 0 then
    emit '-'
    emitAll (decimalLoop bufferSize (-val).toInt).reverse
  else emitAll (decimalLoop bufferSize val.toInt).reverse

/-- The branches for the character behind a `%`. -/
def printCode (c : Char) : PrintM Unit := do
  if c = 'c' then emit (Char.ofNat ((← vaArgWord).toNat % 256))
  else if c = 's' then
    let s ← vaArgStr
    puts s
    addCount s.length
  else if c = 'd' then printDecimal (← vaArgWord)
  else if c = 'x' then emitAll (hexLoop bufferSize (← vaArgWord).toNat).reverse
  else if c = 'o' then setColor ((← vaArgWord).toNat % 256)
  else if c = '%' then emit '%'
  else
    putc '%'
    putc c
    addCount 2

/-- The loop over the format. A read behind its memory has no result. -/
def printfLoop : List Char → PrintM Unit
  | [] => failure
  | c :: p =>
    if c = nul then return
    else if c = '%' then
      match p with
      | [] => failure
      | d :: p => do
        printCode d
        printfLoop p
    else do
      emit c
      printfLoop p

/-- `printf`, with the bytes of the format. The counter has 32 bits. -/
def printf (format : List Char) (args : List Arg) (s : Console) : Option (ℤ × Console) := do
  let (_, f) ← (printfLoop format).run ⟨args, 0, s⟩
  return (Int.bmod f.count (2 ^ 32), { f.console with color := s.color })

/-! ## What is to be printed -/

def numeral (b n : ℕ) : List Char :=
  ((if n = 0 then [0] else b.digits n).map Nat.digitChar).reverse

def decimal (v : ℤ) : List Char :=
  if v < 0 then '-' :: numeral 10 v.natAbs else numeral 10 v.natAbs

inductive Piece
  | plain (c : Char)
  | chr (w : BitVec 32)
  | str (s : List Char)
  | dec (w : BitVec 32)
  | hex (w : BitVec 32)
  | color (w : BitVec 32)
  | percent
  | other (c : Char)
  /-- A `%` at the end. -/
  | lone
  deriving DecidableEq

def Piece.code : Piece → List Char
  | plain c => [c]
  | chr _ => ['%', 'c']
  | str _ => ['%', 's']
  | dec _ => ['%', 'd']
  | hex _ => ['%', 'x']
  | color _ => ['%', 'o']
  | percent => ['%', '%']
  | other c => ['%', c]
  | lone => ['%']

def Piece.args : Piece → List Arg
  | chr w => [.word w]
  | str s => [.str s]
  | dec w => [.word w]
  | hex w => [.word w]
  | color w => [.word w]
  | _ => []

def Piece.expansion : Piece → List Char
  | plain c => [c]
  | chr w => [Char.ofNat (w.toNat % 256)]
  | str s => s
  | dec w => decimal w.toInt
  | hex w => numeral 16 w.toNat
  | color _ => []
  | percent => ['%']
  | other c => ['%', c]
  | lone => ['%']

/-- A piece that can stand before others. -/
def Piece.Ok : Piece → Prop
  | plain c => c ≠ nul ∧ c ≠ '%'
  | other c => c ≠ nul ∧ c ∉ ['c', 's', 'd', 'x', 'o', '%']
  | lone => False
  | _ => True

/-- The format consists of the pieces, and the arguments match them. -/
inductive Formats : List Char → List Arg → List Piece → Prop
  | nil : Formats [] [] []
  | lone : Formats ['%'] [] [.lone]
  | cons {fmt : List Char} {args : List Arg} {ps : List Piece} (p : Piece) (hp : p.Ok)
    (h : Formats fmt args ps) : Formats (p.code ++ fmt) (p.args ++ args) (p :: ps)

/-- Every format consists of such pieces. -/
theorem exists_formats (fmt : List Char) (h : nul ∉ fmt) : ∃ args ps, Formats fmt args ps := by
  induction fmt using List.twoStepInduction with
  | nil => exact ⟨_, _, .nil⟩
  | singleton c =>
    by_cases hc : c = '%'
    · rw [hc]
      exact ⟨_, _, .lone⟩
    · exact ⟨_, _, .cons (.plain c) ⟨fun h' => h (by simp [h']), hc⟩ .nil⟩
  | cons_cons c d fmt ih ih' =>
    have hd : d ≠ nul := fun h' => h (by simp [h'])
    by_cases hc : c = '%'
    · obtain ⟨args, ps, hf⟩ := ih fun h' => h (by simp [h'])
      have hpiece : ∃ p : Piece, p.Ok ∧ p.code = ['%', d] := by
        by_cases hother : d ∈ ['c', 's', 'd', 'x', 'o', '%']
        · simp only [mem_cons, not_mem_nil, or_false] at hother
          obtain rfl | rfl | rfl | rfl | rfl | rfl := hother
          · exact ⟨.chr 0, trivial, rfl⟩
          · exact ⟨.str [], trivial, rfl⟩
          · exact ⟨.dec 0, trivial, rfl⟩
          · exact ⟨.hex 0, trivial, rfl⟩
          · exact ⟨.color 0, trivial, rfl⟩
          · exact ⟨.percent, trivial, rfl⟩
        · exact ⟨.other d, ⟨hd, hother⟩, rfl⟩
      obtain ⟨p, hok, hcode⟩ := hpiece
      have hfmt := hf.cons p hok
      rw [hcode, ← hc] at hfmt
      exact ⟨_, _, hfmt⟩
    · obtain ⟨args, ps, hf⟩ := ih' d fun h' => h (mem_cons_of_mem _ h')
      exact ⟨_, _, hf.cons (.plain c) ⟨fun h' => h (by simp [h']), hc⟩⟩

/-- The call prints the expansions of the pieces, returns their number of characters, reads nothing
behind the format and leaves the colour. -/
def Right (fmt : List Char) (args : List Arg) (ps : List Piece) (s : Console) : Prop :=
  ∃ s', printf (fmt ++ [nul]) args s = some (((ps.flatMap Piece.expansion).length : ℤ), s') ∧
    s'.out = s.out ++ ps.flatMap Piece.expansion ∧ s'.color = s.color

/-- The function of the interface that prints the piece is set. -/
def Console.hears (s : Console) : Piece → Bool
  | .str _ => s.puts
  | _ => s.putc

/-- What the interface is given for the piece arrives, and it is not the least number. -/
def Console.Prints (s : Console) (p : Piece) : Prop :=
  (s.hears p = true ∨ p.expansion = []) ∧ p ≠ .dec (BitVec.intMin 32)

/-! ## Numbers -/

section Numbers

variable {b n val : ℕ} {digit : ℕ → Char}

/-- The loop takes off all digits, and one if the number is zero. -/
theorem digitLoop_eq (hb : 1 < b) (h : val < b ^ (n + 1)) :
    digitLoop b digit (n + 1) val = (if val = 0 then [0] else b.digits val).map digit := by
  induction n generalizing val with
  | zero =>
    rw [Nat.zero_add, pow_one] at h
    unfold digitLoop
    rw [Nat.div_eq_of_lt h, Nat.mod_eq_of_lt h, if_neg (Nat.lt_irrefl 0)]
    by_cases h0 : val = 0
    · simp [h0]
    · rw [if_neg h0, Nat.digits_of_lt b val h0 h]
      rfl
  | succ n ih =>
    have hdiv : val / b < b ^ (n + 1) := Nat.div_lt_of_lt_mul (by rwa [← pow_succ'])
    unfold digitLoop
    by_cases h0 : val = 0
    · simp [h0]
    rw [if_neg h0, Nat.digits_def' hb (by omega), map_cons]
    by_cases hnext : 0 < val / b
    · rw [if_pos hnext, ih hdiv, if_neg (by omega)]
    · rw [if_neg hnext, Nat.eq_zero_of_not_pos hnext, Nat.digits_zero, map_nil]

theorem decimalLoop_natCast (n val : ℕ) :
    decimalLoop n val = digitLoop 10 (fun d => Char.ofNat (d + 48)) n val := by
  induction n generalizing val with
  | zero => rfl
  | succ n ih =>
    unfold decimalLoop digitLoop
    have hmod : ((val : ℤ).tmod 10 + 48).toNat = val % 10 + 48 := by
      rw [Int.tmod_eq_emod_of_nonneg (Int.natCast_nonneg val)]
      omega
    have hdiv : (val : ℤ).tdiv 10 = ((val / 10 : ℕ) : ℤ) := by
      rw [Int.tdiv_eq_ediv_of_nonneg (Int.natCast_nonneg val)]
      omega
    rw [hmod, hdiv, ih]
    simp only [Nat.cast_pos]

theorem hexDigit_eq {d : ℕ} (h : d < 16) : hexDigit d = Nat.digitChar d := by
  interval_cases d <;> rfl

theorem decimalDigit_eq {d : ℕ} (h : d < 10) : Char.ofNat (d + 48) = Nat.digitChar d := by
  interval_cases d <;> rfl

theorem digitLoop_numeral (hb : 1 < b) (h : val < b ^ (n + 1))
    (hdigit : ∀ d < b, digit d = Nat.digitChar d) :
    (digitLoop b digit (n + 1) val).reverse = numeral b val := by
  rw [digitLoop_eq hb h, numeral]
  congr 1
  refine map_congr_left fun d hd => hdigit d ?_
  split at hd
  · simp at hd
    omega
  · exact Nat.digits_lt_base hb hd

theorem hexLoop_numeral (w : BitVec 32) :
    (hexLoop bufferSize w.toNat).reverse = numeral 16 w.toNat :=
  digitLoop_numeral (by norm_num) (w.isLt.trans (by norm_num)) fun _ => hexDigit_eq

theorem decimalLoop_numeral (hval : val < 10 ^ 20) :
    (decimalLoop bufferSize val).reverse = numeral 10 val := by
  rw [decimalLoop_natCast]
  exact digitLoop_numeral (by norm_num) hval fun _ => decimalDigit_eq

def decimalChars (w : BitVec 32) : List Char :=
  if w.toInt < 0 then '-' :: (decimalLoop bufferSize (-w).toInt).reverse
  else (decimalLoop bufferSize w.toInt).reverse

theorem decimalChars_eq {w : BitVec 32} (h : w ≠ BitVec.intMin 32) :
    decimalChars w = decimal w.toInt := by
  have hle := BitVec.two_mul_toInt_lt (x := w)
  have hge := BitVec.le_two_mul_toInt (x := w)
  unfold decimalChars decimal
  by_cases hneg : w.toInt < 0
  · have habs : (-w).toInt = (w.toInt.natAbs : ℤ) := by
      rw [BitVec.toInt_neg_of_ne_intMin h]
      omega
    rw [if_pos hneg, if_pos hneg, habs, decimalLoop_numeral (by omega)]
  · have habs : w.toInt = (w.toInt.natAbs : ℤ) := by omega
    rw [if_neg hneg, if_neg hneg]
    nth_rewrite 1 [habs]
    exact decimalLoop_numeral (by omega)

theorem decimalChars_intMin : decimalChars (BitVec.intMin 32) = ['-', '('] := by decide

end Numbers

/-! ## One piece -/

section Pieces

variable {f : Frame} {s : Console} {p : Piece} {ps : List Piece} {args : List Arg} {n : ℕ}

def Console.hear (s : Console) (cs : List Char) : Console :=
  { s with out := s.out ++ if s.putc then cs else [] }

def Piece.printed : Piece → List Char
  | dec w => decimalChars w
  | p => p.expansion

def Piece.colorFrom (color : ℕ) : Piece → ℕ
  | .color w => w.toNat % 256
  | _ => color

def Console.heard (s : Console) (p : Piece) : List Char := if s.hears p then p.printed else []

def Console.print (s : Console) (p : Piece) : Console :=
  { s with out := s.out ++ s.heard p, color := p.colorFrom s.color }

theorem hear_append (cs ds : List Char) : (s.hear cs).hear ds = s.hear (cs ++ ds) := by
  unfold Console.hear
  split_ifs <;> simp

theorem run_putc (c : Char) : (putc c).run ⟨args, n, s⟩ = some ((), ⟨args, n, s.hear [c]⟩) := by
  have hframe : (if s.putc then (⟨args, n, { s with out := s.out ++ [c] }⟩ : Frame)
      else ⟨args, n, s⟩) = ⟨args, n, s.hear [c]⟩ := by
    unfold Console.hear
    split_ifs
    · rfl
    · rw [append_nil]
  exact congrArg (fun f => some ((), f)) hframe

theorem run_puts (t : List Char) :
    (puts t).run ⟨args, n, s⟩ = some ((), ⟨args, n, s.print (.str t)⟩) := by
  have hframe : (if s.puts then (⟨args, n, { s with out := s.out ++ t }⟩ : Frame)
      else ⟨args, n, s⟩) = ⟨args, n, s.print (.str t)⟩ := by
    unfold Console.print Console.heard Console.hears
    dsimp only
    split_ifs
    · rfl
    · rw [append_nil]
      rfl
  exact congrArg (fun f => some ((), f)) hframe

theorem run_addCount (k : ℕ) : (addCount k).run ⟨args, n, s⟩ = some ((), ⟨args, n + k, s⟩) := rfl

theorem run_emit (c : Char) : (emit c).run ⟨args, n, s⟩ = some ((), ⟨args, n + 1, s.hear [c]⟩) := by
  simp [emit, run_putc, run_addCount]

theorem run_emitAll (cs : List Char) :
    (emitAll cs).run ⟨args, n, s⟩ = some ((), ⟨args, n + cs.length, s.hear cs⟩) := by
  induction cs generalizing n s with
  | nil => simp [emitAll, Console.hear]
  | cons c cs ih => simp [emitAll, run_emit, ih, hear_append, Nat.add_assoc, Nat.add_comm 1]

theorem run_printDecimal (w : BitVec 32) :
    (printDecimal w).run ⟨args, n, s⟩ =
      some ((), ⟨args, n + (decimalChars w).length, s.hear (decimalChars w)⟩) := by
  unfold printDecimal decimalChars
  split_ifs
  · simp [run_emit, run_emitAll, hear_append, Nat.add_assoc, Nat.add_comm 1]
  · exact run_emitAll _

theorem run_printCode {c : Char} (hp : p.Ok) (hcode : p.code = ['%', c]) :
    (printCode c).run ⟨p.args ++ args, n, s⟩ =
      some ((), ⟨args, n + p.printed.length, s.print p⟩) := by
  cases p with
  | plain c => cases hcode
  | lone => cases hcode
  | chr w =>
    obtain rfl : 'c' = c := by simpa [Piece.code] using hcode
    exact run_emit _
  | str t =>
    obtain rfl : 's' = c := by simpa [Piece.code] using hcode
    show (do puts t; addCount t.length : PrintM Unit).run ⟨args, n, s⟩ = _
    simp only [StateT.run_bind, run_puts, run_addCount, Option.bind_eq_bind, Option.bind_some]
    rfl
  | dec w =>
    obtain rfl : 'd' = c := by simpa [Piece.code] using hcode
    exact run_printDecimal w
  | hex w =>
    obtain rfl : 'x' = c := by simpa [Piece.code] using hcode
    show (emitAll (hexLoop bufferSize w.toNat).reverse).run ⟨args, n, s⟩ = _
    rw [run_emitAll, hexLoop_numeral]
    rfl
  | color w =>
    obtain rfl : 'o' = c := by simpa [Piece.code] using hcode
    show some ((), (⟨args, n, { s with color := w.toNat % 256 }⟩ : Frame)) = _
    simp [Console.print, Console.heard, Piece.printed, Piece.expansion, Piece.colorFrom]
  | percent =>
    obtain rfl : '%' = c := by simpa [Piece.code] using hcode
    exact run_emit _
  | other d =>
    obtain rfl : d = c := by simpa [Piece.code] using hcode
    have hother := hp.2
    simp only [mem_cons, not_mem_nil, or_false, not_or] at hother
    obtain ⟨hc, hs, hd, hx, ho, hpercent⟩ := hother
    unfold printCode
    rw [if_neg hc, if_neg hs, if_neg hd, if_neg hx, if_neg ho, if_neg hpercent]
    show (do putc '%'; putc d; addCount 2 : PrintM Unit).run ⟨args, n, s⟩ = _
    simp only [StateT.run_bind, run_putc, run_addCount, hear_append, Option.bind_eq_bind,
      Option.bind_some]
    rfl

theorem run_cons {fmt : List Char} (hp : p.Ok) :
    (printfLoop (p.code ++ fmt)).run ⟨p.args ++ args, n, s⟩ =
      (printfLoop fmt).run ⟨args, n + p.printed.length, s.print p⟩ := by
  by_cases hplain : ∃ c, p = .plain c
  · obtain ⟨c, rfl⟩ := hplain
    have hloop : printfLoop (c :: fmt) = (do emit c; printfLoop fmt : PrintM Unit) := by
      rw [printfLoop.eq_def]
      exact (if_neg hp.1).trans (if_neg hp.2)
    show (printfLoop (c :: fmt)).run ⟨args, n, s⟩ = _
    rw [hloop]
    simp only [StateT.run_bind, run_emit, Option.bind_eq_bind, Option.bind_some]
    rfl
  · obtain ⟨c, hcode⟩ : ∃ c, p.code = ['%', c] := by
      cases p with
      | plain c => exact absurd ⟨c, rfl⟩ hplain
      | lone => exact hp.elim
      | _ => exact ⟨_, rfl⟩
    rw [hcode]
    show (do printCode c; printfLoop fmt : PrintM Unit).run _ = _
    simp [run_printCode hp hcode]

theorem run_formats {fmt : List Char} (h : Formats fmt args ps) :
    (printfLoop (fmt ++ [nul])).run ⟨args, n, s⟩ =
      if Piece.lone ∈ ps then none
      else some ((), ⟨[], n + (ps.flatMap Piece.printed).length, ps.foldl Console.print s⟩) := by
  induction h generalizing n s with
  | nil => rfl
  | lone => rfl
  | cons p hp h ih =>
    have hlone : Piece.lone ≠ p := fun h' => by rw [← h'] at hp; exact hp
    rw [append_assoc, run_cons hp, ih]
    simp only [mem_cons, hlone, false_or, flatMap_cons, length_append,
      foldl_cons, Nat.add_assoc]

end Pieces

/-! ## Every format -/

section Formats

variable {s : Console} {p : Piece} {ps : List Piece} {args : List Arg} {fmt : List Char}

theorem foldl_print (ps : List Piece) :
    (ps.foldl Console.print s).out = s.out ++ ps.flatMap s.heard := by
  induction ps generalizing s with
  | nil => simp
  | cons p ps ih =>
    have hsame : (s.print p).heard = s.heard := rfl
    rw [foldl_cons, ih, hsame, flatMap_cons, ← append_assoc]
    rfl

theorem printed_eq (h : p ≠ .dec (BitVec.intMin 32)) : p.printed = p.expansion := by
  cases p with
  | dec w => exact decimalChars_eq fun hw => h (by rw [hw])
  | _ => rfl

/-- The least integer is printed as two characters. -/
theorem printed_length_lt :
    (Piece.dec (BitVec.intMin 32)).printed.length < (Piece.dec (BitVec.intMin 32)).expansion.length := by
  have hint : (BitVec.intMin 32).toInt = -2147483648 := by decide
  show (decimalChars _).length < (decimal _).length
  rw [decimalChars_intMin, hint]
  simp [decimal, numeral]

theorem printed_length_le (p : Piece) : p.printed.length ≤ p.expansion.length := by
  by_cases h : p = .dec (BitVec.intMin 32)
  · rw [h]
    exact printed_length_lt.le
  · rw [printed_eq h]

theorem heard_length_le (p : Piece) : (s.heard p).length ≤ p.expansion.length := by
  unfold Console.heard
  split_ifs
  · exact printed_length_le p
  · exact Nat.zero_le _

theorem heard_eq (h : s.Prints p) : s.heard p = p.expansion := by
  unfold Console.heard
  rw [printed_eq h.2]
  obtain hset | hnil := h.1
  · rw [if_pos hset]
  · rw [hnil, ite_self]

theorem prints_of_length (h : (s.heard p).length = p.expansion.length) : s.Prints p := by
  unfold Console.heard at h
  by_cases hset : s.hears p = true
  · rw [if_pos hset] at h
    exact ⟨.inl hset, fun hp => by rw [hp] at h; exact printed_length_lt.ne h⟩
  · rw [if_neg hset] at h
    have hnil : p.expansion = [] := length_eq_zero_iff.mp h.symm
    refine ⟨.inr hnil, fun hp => ?_⟩
    have hlt := printed_length_lt
    rw [← hp, hnil] at hlt
    exact Nat.not_lt_zero _ hlt

theorem flatMap_heard_length_le (ps : List Piece) :
    (ps.flatMap s.heard).length ≤ (ps.flatMap Piece.expansion).length := by
  induction ps with
  | nil => exact le_rfl
  | cons p ps ih =>
    simp only [flatMap_cons, length_append]
    exact Nat.add_le_add (heard_length_le p) ih

/-- Nothing makes up for a piece of which something is missing. -/
theorem prints_of_flatMap_length
    (h : (ps.flatMap s.heard).length = (ps.flatMap Piece.expansion).length) :
    ∀ p ∈ ps, s.Prints p := by
  induction ps with
  | nil => simp
  | cons p ps ih =>
    simp only [flatMap_cons, length_append] at h
    have hle := heard_length_le (s := s) p
    have hrest := flatMap_heard_length_le (s := s) ps
    exact forall_mem_cons.mpr ⟨prints_of_length (by omega), ih (by omega)⟩

theorem printf_eq (h : Formats fmt args ps) (hlone : Piece.lone ∉ ps) (s : Console) :
    printf (fmt ++ [nul]) args s =
      some (Int.bmod (ps.flatMap Piece.printed).length (2 ^ 32),
        { ps.foldl Console.print s with color := s.color }) := by
  unfold printf
  rw [run_formats h, if_neg hlone, Nat.zero_add]
  rfl

theorem bmod_length_iff (n : ℕ) : Int.bmod n (2 ^ 32) = n ↔ n < 2 ^ 31 := by
  refine ⟨fun h => ?_, fun h => Int.bmod_eq_of_le (by omega) (by omega)⟩
  have hlt := Int.bmod_lt (x := n) (m := 2 ^ 32) (by norm_num)
  omega

/-- `printf` is right exactly if the format does not end in a `%`, what it prints arrives, no `%d` has
the least integer, and the counter does not overflow. -/
theorem printf_right_iff (h : Formats fmt args ps) (s : Console) :
    Right fmt args ps s ↔ Piece.lone ∉ ps ∧ (∀ p ∈ ps, s.Prints p) ∧
      (ps.flatMap Piece.expansion).length < 2 ^ 31 := by
  by_cases hlone : Piece.lone ∈ ps
  · refine iff_of_false ?_ fun h' => h'.1 hlone
    rintro ⟨s', hrun, -⟩
    unfold printf at hrun
    rw [run_formats h, if_pos hlone] at hrun
    cases hrun
  unfold Right
  rw [printf_eq h hlone]
  have hprinted : (∀ p ∈ ps, s.Prints p) →
      ps.flatMap Piece.printed = ps.flatMap Piece.expansion ∧
        ps.flatMap s.heard = ps.flatMap Piece.expansion := fun hall =>
    ⟨flatMap_congr fun p hp => printed_eq (hall p hp).2,
      flatMap_congr fun p hp => heard_eq (hall p hp)⟩
  constructor
  · rintro ⟨s', hrun, hout, -⟩
    obtain ⟨hcount, rfl⟩ := Prod.mk.inj (Option.some.inj hrun)
    have hheard := append_cancel_left ((foldl_print ps).symm.trans hout)
    have hall := prints_of_flatMap_length (congrArg List.length hheard)
    rw [(hprinted hall).1] at hcount
    exact ⟨hlone, hall, (bmod_length_iff _).mp hcount⟩
  · rintro ⟨-, hall, hlt⟩
    obtain ⟨heq, hheard⟩ := hprinted hall
    refine ⟨{ ps.foldl Console.print s with color := s.color }, ?_, ?_, rfl⟩
    · rw [heq, (bmod_length_iff _).mpr hlt]
    · show (ps.foldl Console.print s).out = _
      rw [foldl_print, hheard]

end Formats

theorem printf_right_sample :
    Formats ['a', '%', 'd', '%', '%'] [.word 7] [.plain 'a', .dec 7, .percent] ∧
      Right ['a', '%', 'd', '%', '%'] [.word 7] [.plain 'a', .dec 7, .percent]
        ⟨true, true, [], 7⟩ := by
  have hf : Formats ['a', '%', 'd', '%', '%'] [.word 7] [.plain 'a', .dec 7, .percent] :=
    .cons (.plain 'a') (by unfold Piece.Ok nul; decide) <|
      .cons (.dec 7) trivial <| .cons .percent trivial .nil
  refine ⟨hf, (printf_right_iff hf _).mpr ⟨by decide, fun p hp => ?_, ?_⟩⟩
  · simp only [mem_cons, not_mem_nil, or_false] at hp
    obtain rfl | rfl | rfl := hp <;> exact ⟨.inl rfl, by decide⟩
  · simp [Piece.expansion, decimal, numeral]

/-- The format `"%"`: its NUL is printed too, and the next character is read. -/
theorem lone_percent_reads_on :
    Formats ['%'] [] [.lone] ∧ ¬Right ['%'] [] [.lone] ⟨true, true, [], 7⟩ ∧
      (printf ['%', nul, 'a', nul] [] ⟨true, true, [], 7⟩).map (fun r => (r.1, r.2.out)) =
        some (3, ['%', nul, 'a']) := by
  refine ⟨.lone, ?_, by decide⟩
  rintro ⟨s', hrun, -⟩
  cases hrun

/-! ## The digits -/

/-- Digits of base `b` without leading zeros that denote `n`. -/
def IsNumeral (b n : ℕ) (cs : List Char) : Prop :=
  ∃ ds : List ℕ, cs = (ds.map Nat.digitChar).reverse ∧ ds ≠ [] ∧ (∀ d ∈ ds, d < b) ∧
    Nat.ofDigits b ds = n ∧ (1 < ds.length → ds.getLast? ≠ some 0)

/-- A sign, if there has to be one, and decimal digits that denote `v`. -/
def IsDecimal (v : ℤ) (cs : List Char) : Prop :=
  ∃ ds, cs = (if v < 0 then ['-'] else []) ++ ds ∧ IsNumeral 10 v.natAbs ds

/-- What a call prints, with an interface that is set. -/
def Emits (fmt : List Char) (args : List Arg) (cs : List Char) : Prop :=
  ∀ s : Console, s.putc = true →
    ∃ n s', printf (fmt ++ [nul]) args s = some (n, s') ∧ s'.out = s.out ++ cs

theorem isNumeral_numeral {b n : ℕ} (hb : 1 < b) : IsNumeral b n (numeral b n) := by
  refine ⟨_, rfl, ?_⟩
  by_cases h0 : n = 0
  · rw [if_pos h0, h0]
    simpa using by omega
  · rw [if_neg h0]
    refine ⟨Nat.digits_ne_nil_iff_ne_zero.mpr h0, fun d hd => Nat.digits_lt_base hb hd,
      Nat.ofDigits_digits b n, fun _ => ?_⟩
    rw [List.getLast?_eq_getLast_of_ne_nil (Nat.digits_ne_nil_iff_ne_zero.mpr h0)]
    exact fun h => Nat.getLast_digit_ne_zero b h0 (Option.some.inj h)

theorem isDecimal_decimal (v : ℤ) : IsDecimal v (decimal v) := by
  refine ⟨numeral 10 v.natAbs, ?_, isNumeral_numeral (by norm_num)⟩
  unfold decimal
  split_ifs <;> rfl

theorem emits_piece (p : Piece) (hp : p.Ok) (hset : ∀ s : Console, s.hears p = s.putc) :
    Emits p.code p.args p.printed := by
  intro s hs
  have hf := Formats.cons p hp .nil
  rw [append_nil, append_nil] at hf
  have hlone : Piece.lone ∉ [p] := by
    rw [mem_singleton]
    rintro rfl
    exact hp
  refine ⟨_, _, printf_eq hf hlone s, ?_⟩
  show (s.print p).out = _
  unfold Console.print Console.heard
  rw [hset, if_pos hs]

theorem Emits.unique {fmt cs ds : List Char} {args : List Arg} (h : Emits fmt args cs)
    (h' : Emits fmt args ds) : cs = ds := by
  obtain ⟨n, s, hrun, hout⟩ := h ⟨true, true, [], 0⟩ rfl
  obtain ⟨n', s', hrun', hout'⟩ := h' ⟨true, true, [], 0⟩ rfl
  obtain ⟨-, rfl⟩ := Prod.mk.inj (Option.some.inj (hrun.symm.trans hrun'))
  exact hout.symm.trans hout'

theorem not_isDecimal_intMin :
    ¬IsDecimal (BitVec.intMin 32).toInt (Piece.dec (BitVec.intMin 32)).printed := by
  rintro ⟨cs, hcs, ds, rfl, -, hlt, -⟩
  rw [Piece.printed, decimalChars_intMin, if_pos (by decide)] at hcs
  have hrev : ['('] = (ds.map Nat.digitChar).reverse := (List.cons.inj hcs).2
  have hmem : '(' ∈ ds.map Nat.digitChar := by
    rw [← mem_reverse, ← hrev]
    exact mem_singleton_self _
  obtain ⟨d, hd, hchar⟩ := mem_map.mp hmem
  have hd' := hlt d hd
  interval_cases d <;> exact absurd hchar (by decide)

/-- `%d` and `%x` print numerals of their arguments, except for the least integer. -/
theorem numbers_denote_iff (v u : BitVec 32) :
    ((∃ cs, Emits ['%', 'd'] [.word v] cs ∧ IsDecimal v.toInt cs) ∧
      ∃ cs, Emits ['%', 'x'] [.word u] cs ∧ IsNumeral 16 u.toNat cs) ↔ v ≠ BitVec.intMin 32 := by
  have hd := emits_piece (.dec v) trivial fun _ => rfl
  have hx := emits_piece (.hex u) trivial fun _ => rfl
  refine ⟨fun h hv => ?_, fun hv => ⟨⟨_, hd, ?_⟩, _, hx, isNumeral_numeral (by norm_num)⟩⟩
  · obtain ⟨⟨cs, hemits, hdec⟩, -⟩ := h
    have hcs := hemits.unique hd
    rw [hcs, hv] at hdec
    exact not_isDecimal_intMin hdec
  · show IsDecimal v.toInt (decimalChars v)
    rw [decimalChars_eq hv]
    exact isDecimal_decimal _

/-- `-2147483648` is printed as `-(`. -/
theorem least_integer_printed :
    Emits ['%', 'd'] [.word (BitVec.intMin 32)] ['-', '('] ∧
      ¬IsDecimal (BitVec.intMin 32).toInt ['-', '('] := by
  have hemits := emits_piece (.dec (BitVec.intMin 32)) trivial fun _ => rfl
  have hnot := not_isDecimal_intMin
  rw [Piece.printed, decimalChars_intMin] at hemits hnot
  exact ⟨hemits, hnot⟩

end DvivonOS.Stdio
