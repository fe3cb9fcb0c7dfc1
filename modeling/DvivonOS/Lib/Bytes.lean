import Mathlib.Tactic
import Mathlib.Data.Nat.Bitwise

/-!
# Words and byte buffers

Machine words are natural numbers reduced modulo `2 ^ 32` where the code wraps. A buffer is a
function from offsets to bytes. `get16`, `get32` read little-endian fields, `put16`, `put32` write
them, `copy` and `fill` are `memcpy` and `memset` into a buffer, and `drop` is pointer arithmetic
on the source of a copy. `bit`, `setBit`, `clearBit` read and change the buffer as a bitmap.

Every reader depends on the bytes of its own field only (`get16_congr`, `get32_congr`), and every
writer leaves the bytes outside its field alone (`put16_of_ne`, `put32_of_not_mem`,
`copy_of_not_mem`); the read-over-write lemmas follow from the two.
-/

namespace DvivonOS

/-! ## Words -/

/-- `a + b` on `uint32_t`. -/
def add32 (a b : ℕ) : ℕ := (a + b) % 2 ^ 32

/-- `a - b` on `uint32_t`. -/
def sub32 (a b : ℕ) : ℕ := (a + 2 ^ 32 - b) % 2 ^ 32

/-- `(int)a` of a `uint32_t`. -/
def toInt32 (a : ℕ) : ℤ := if a < 2 ^ 31 then a else (a : ℤ) - 2 ^ 32

/-- `(uint32_t)x` of an `int`. -/
def ofInt32 (x : ℤ) : ℕ := (x % 2 ^ 32).toNat

theorem and_mask {k n w : ℕ} (hw : w < 2 ^ (k + n)) :
    w &&& (2 ^ k * (2 ^ n - 1)) = 2 ^ k * (w / 2 ^ k) := by
  apply Nat.eq_of_testBit_eq
  intro i
  rw [Nat.testBit_and, Nat.testBit_two_pow_mul, Nat.testBit_two_pow_mul,
    Nat.testBit_two_pow_sub_one, Nat.testBit_div_two_pow]
  by_cases hi : k ≤ i
  · rw [Nat.sub_add_cancel hi]
    by_cases hin : i - k < n
    · simp [hi, hin]
    · have hlt : w < 2 ^ i := lt_of_lt_of_le hw (Nat.pow_le_pow_right (by norm_num) (by omega))
      simp [Nat.testBit_lt_two_pow hlt]
  · simp [hi]

/-! ## Buffers -/

/-- A byte buffer, addressed by offset. -/
abbrev Bytes : Type := ℕ → UInt8

namespace Bytes

/-- The little-endian 16-bit field at offset `o`. -/
def get16 (b : Bytes) (o : ℕ) : ℕ := (b o).toNat + 256 * (b (o + 1)).toNat

/-- The little-endian 32-bit field at offset `o`. -/
def get32 (b : Bytes) (o : ℕ) : ℕ := get16 b o + 65536 * get16 b (o + 2)

def put8 (b : Bytes) (o : ℕ) (v : UInt8) : Bytes := fun i => if i = o then v else b i

def put16 (b : Bytes) (o v : ℕ) : Bytes := fun i =>
  if i = o then UInt8.ofNat v else if i = o + 1 then UInt8.ofNat (v / 256) else b i

def put32 (b : Bytes) (o v : ℕ) : Bytes := put16 (put16 b o v) (o + 2) (v / 65536)

/-- Copy the first `n` bytes of `src` to offset `off`. -/
def copy (dst : Bytes) (off : ℕ) (src : Bytes) (n : ℕ) : Bytes := fun i =>
  if off ≤ i ∧ i < off + n then src (i - off) else dst i

/-- Set `n` bytes from offset `off` on to `v`. -/
def fill (dst : Bytes) (off : ℕ) (v : UInt8) (n : ℕ) : Bytes := fun i =>
  if off ≤ i ∧ i < off + n then v else dst i

def drop (b : Bytes) (off : ℕ) : Bytes := fun i => b (off + i)

def zero : Bytes := fun _ => 0

def ofList (l : List UInt8) : Bytes := fun i => l.getD i 0

def ofWords (w : ℕ → ℕ) : Bytes := fun i => UInt8.ofNat (w (i / 4) / 256 ^ (i % 4))

/-- The `n` bytes from offset `off` on. -/
def slice (b : Bytes) (off n : ℕ) : List UInt8 := (List.range n).map fun i => b (off + i)

/-- The bit `i` of a bitmap. -/
def bit (b : Bytes) (i : ℕ) : Bool := (b (i / 8)).toNat.testBit (i % 8)

/-- `b[i / 8] |= 1 << (i % 8)`. -/
def setBit (b : Bytes) (i : ℕ) : Bytes :=
  put8 b (i / 8) (UInt8.ofNat ((b (i / 8)).toNat ||| 1 <<< (i % 8)))

/-- `b[i / 8] &= ~(1 << (i % 8))`. -/
def clearBit (b : Bytes) (i : ℕ) : Bytes :=
  put8 b (i / 8) (UInt8.ofNat ((b (i / 8)).toNat &&& (255 ^^^ 1 <<< (i % 8))))

/-! ## Ranges of the readers -/

theorem get32_ofWords (w : ℕ → ℕ) (k : ℕ) : get32 (ofWords w) (4 * k) = w k % 2 ^ 32 := by
  have h₀ : 4 * k / 4 = k ∧ 4 * k % 4 = 0 := by omega
  have h₁ : (4 * k + 1) / 4 = k ∧ (4 * k + 1) % 4 = 1 := by omega
  have h₂ : (4 * k + 2) / 4 = k ∧ (4 * k + 2) % 4 = 2 := by omega
  have h₃ : (4 * k + 2 + 1) / 4 = k ∧ (4 * k + 2 + 1) % 4 = 3 := by omega
  simp only [get32, get16, ofWords, h₀, h₁, h₂, h₃, UInt8.toNat_ofNat']
  omega

theorem get16_lt (b : Bytes) (o : ℕ) : get16 b o < 65536 := by
  unfold get16
  have h0 := (b o).toNat_lt
  have h1 := (b (o + 1)).toNat_lt
  omega

theorem get32_lt (b : Bytes) (o : ℕ) : get32 b o < 4294967296 := by
  unfold get32
  have h0 := get16_lt b o
  have h1 := get16_lt b (o + 2)
  omega

theorem get16_congr {b b' : Bytes} {o : ℕ} (h : ∀ i, o ≤ i → i < o + 2 → b i = b' i) :
    get16 b o = get16 b' o := by
  unfold get16
  rw [h o (by omega) (by omega), h (o + 1) (by omega) (by omega)]

theorem get32_congr {b b' : Bytes} {o : ℕ} (h : ∀ i, o ≤ i → i < o + 4 → b i = b' i) :
    get32 b o = get32 b' o := by
  unfold get32
  rw [get16_congr fun i h1 h2 => h i h1 (by omega),
    get16_congr fun i h1 h2 => h i (by omega) (by omega)]

theorem put32_eq_put8 (b : Bytes) (o v : ℕ) :
    put32 b o v = (((b.put8 o (UInt8.ofNat v)).put8 (o + 1) (UInt8.ofNat (v / 256))).put8 (o + 2)
      (UInt8.ofNat (v / 65536))).put8 (o + 3) (UInt8.ofNat (v / 65536 / 256)) := by
  funext i
  unfold put32 put16 put8
  split_ifs <;> first | rfl | omega

/-! ## Writers outside their field -/

theorem put8_of_ne (b : Bytes) {o i : ℕ} (v : UInt8) (h : i ≠ o) : put8 b o v i = b i := by
  unfold put8; rw [if_neg h]

theorem put16_of_not_mem (b : Bytes) {o i : ℕ} (v : ℕ) (h : i < o ∨ o + 2 ≤ i) :
    put16 b o v i = b i := by
  unfold put16; rw [if_neg (by omega), if_neg (by omega)]

theorem put32_of_not_mem (b : Bytes) {o i : ℕ} (v : ℕ) (h : i < o ∨ o + 4 ≤ i) :
    put32 b o v i = b i := by
  unfold put32
  rw [put16_of_not_mem _ _ (by omega), put16_of_not_mem _ _ (by omega)]

theorem copy_of_not_mem (dst src : Bytes) {off n i : ℕ} (h : i < off ∨ off + n ≤ i) :
    copy dst off src n i = dst i := by
  unfold copy; rw [if_neg (by omega)]

theorem copy_of_mem (dst src : Bytes) {off n i : ℕ} (h : off ≤ i) (h' : i < off + n) :
    copy dst off src n i = src (i - off) := by
  unfold copy; rw [if_pos ⟨h, h'⟩]

theorem fill_of_not_mem (dst : Bytes) {off n i : ℕ} (v : UInt8) (h : i < off ∨ off + n ≤ i) :
    fill dst off v n i = dst i := by
  unfold fill; rw [if_neg (by omega)]

theorem fill_of_mem (dst : Bytes) {off n i : ℕ} (v : UInt8) (h : off ≤ i) (h' : i < off + n) :
    fill dst off v n i = v := by
  unfold fill; rw [if_pos ⟨h, h'⟩]

/-! ## Copying piece by piece -/

@[simp] theorem drop_zero (b : Bytes) : drop b 0 = b := by
  funext i
  simp [drop]

theorem drop_drop (b : Bytes) (m n : ℕ) : drop (drop b m) n = drop b (m + n) := by
  funext i
  simp [drop, Nat.add_assoc]

theorem copy_zero (dst src : Bytes) (off : ℕ) : copy dst off src 0 = dst :=
  funext fun _ => copy_of_not_mem dst src (by omega)

theorem copy_copy (dst src : Bytes) (off m n : ℕ) :
    copy (copy dst off src m) (off + m) (drop src m) n = copy dst off src (m + n) := by
  funext i
  by_cases hfirst : off ≤ i ∧ i < off + m
  · rw [copy_of_not_mem _ _ (by omega), copy_of_mem _ _ hfirst.1 hfirst.2,
      copy_of_mem _ _ hfirst.1 (by omega)]
  · by_cases hrest : off + m ≤ i ∧ i < off + m + n
    · rw [copy_of_mem _ _ hrest.1 hrest.2, copy_of_mem _ _ (by omega) (by omega), drop]
      congr 1
      omega
    · rw [copy_of_not_mem _ _ (by omega), copy_of_not_mem _ _ (by omega),
        copy_of_not_mem _ _ (by omega)]

theorem put16_get16_eq_copy (dst src : Bytes) (off o : ℕ) :
    put16 dst off (get16 src o) = copy dst off (drop src o) 2 := by
  funext i
  by_cases hi : off ≤ i ∧ i < off + 2
  · rw [copy_of_mem _ _ hi.1 hi.2, drop]
    have h0 := (src o).toNat_lt
    have h1 := (src (o + 1)).toNat_lt
    unfold put16 get16
    refine UInt8.toNat.inj ?_
    split_ifs with h h'
    · rw [UInt8.toNat_ofNat', h, Nat.sub_self, Nat.add_zero o]
      omega
    · rw [UInt8.toNat_ofNat', h', Nat.add_sub_cancel_left]
      omega
    · omega
  · rw [copy_of_not_mem _ _ (by omega), put16_of_not_mem _ _ (by omega)]

/-! ## The same bytes at two addresses -/

theorem get32_shift {b b' : Bytes} {o o' : ℕ} (h : ∀ i < 4, b (o + i) = b' (o' + i)) :
    get32 b o = get32 b' o' := by
  have h0 := h 0 (by norm_num)
  have h1 := h 1 (by norm_num)
  have h2 := h 2 (by norm_num)
  have h3 := h 3 (by norm_num)
  simp only [Nat.add_zero] at h0
  simp only [get32, get16, Nat.add_assoc, h0, h1, h2, h3]

theorem put32_shift {b b' : Bytes} {f v i o x : ℕ} (h : b (f + i) = b' (v + i)) :
    put32 b (f + o) x (f + i) = put32 b' (v + o) x (v + i) := by
  unfold put32 put16
  rw [h]
  refine if_congr (by omega) rfl (if_congr (by omega) rfl (if_congr (by omega) rfl ?_))
  exact if_congr (by omega) rfl rfl

/-! ## Reading what was written -/

section

variable (b : Bytes)

include b

theorem get16_put16 (o v : ℕ) : get16 (put16 b o v) o = v % 65536 := by
  unfold get16 put16
  rw [if_pos rfl, if_neg (by omega), if_pos rfl, UInt8.toNat_ofNat', UInt8.toNat_ofNat']
  omega

theorem get32_put32 (o v : ℕ) : get32 (put32 b o v) o = v % 4294967296 := by
  have h0 : get16 (put32 b o v) o = v % 65536 := by
    rw [← get16_put16 b o v]
    exact get16_congr fun i _ hi => put16_of_not_mem _ _ (Or.inl (by omega))
  have h2 : get16 (put32 b o v) (o + 2) = v / 65536 % 65536 := get16_put16 _ _ _
  unfold get32
  rw [h0, h2]
  omega

theorem get32_put32_of_lt (o : ℕ) {v : ℕ} (h : v < 4294967296) :
    get32 (put32 b o v) o = v := by
  rw [get32_put32, Nat.mod_eq_of_lt h]

theorem get16_put16_of_lt (o : ℕ) {v : ℕ} (h : v < 65536) :
    get16 (put16 b o v) o = v := by
  rw [get16_put16, Nat.mod_eq_of_lt h]

theorem put16_get16 (o : ℕ) : put16 b o (get16 b o) = b := by
  funext i
  unfold put16 get16
  have h0 := (b o).toNat_lt
  split_ifs with h h'
  · rw [h]
    refine UInt8.toNat.inj ?_
    rw [UInt8.toNat_ofNat']
    omega
  · rw [h']
    refine UInt8.toNat.inj ?_
    rw [UInt8.toNat_ofNat']
    have h1 := (b (o + 1)).toNat_lt
    omega
  · rfl

theorem put32_get32 (o : ℕ) : put32 b o (get32 b o) = b := by
  have h0 := get16_lt b o
  have hlow : put16 b o (get32 b o) = b := by
    conv_rhs => rw [← put16_get16 b o]
    funext i
    unfold put16 get32
    split_ifs
    · refine UInt8.toNat.inj ?_
      rw [UInt8.toNat_ofNat', UInt8.toNat_ofNat']
      omega
    · refine UInt8.toNat.inj ?_
      rw [UInt8.toNat_ofNat', UInt8.toNat_ofNat']
      omega
    · rfl
  have hhigh : get32 b o / 65536 = get16 b (o + 2) := by
    unfold get32
    omega
  unfold put32
  rw [hlow, hhigh, put16_get16]

theorem get32_put32_of_disjoint {o o' : ℕ} (v : ℕ) (h : o + 4 ≤ o' ∨ o' + 4 ≤ o) :
    get32 (put32 b o v) o' = get32 b o' :=
  get32_congr fun _ _ _ => put32_of_not_mem _ _ (by omega)

theorem get32_put16_of_disjoint {o o' : ℕ} (v : ℕ) (h : o + 2 ≤ o' ∨ o' + 4 ≤ o) :
    get32 (put16 b o v) o' = get32 b o' :=
  get32_congr fun _ _ _ => put16_of_not_mem _ _ (by omega)

theorem get16_put16_of_disjoint {o o' : ℕ} (v : ℕ) (h : o + 2 ≤ o' ∨ o' + 2 ≤ o) :
    get16 (put16 b o v) o' = get16 b o' :=
  get16_congr fun _ _ _ => put16_of_not_mem _ _ (by omega)

theorem get16_put32_of_disjoint {o o' : ℕ} (v : ℕ) (h : o + 4 ≤ o' ∨ o' + 2 ≤ o) :
    get16 (put32 b o v) o' = get16 b o' :=
  get16_congr fun _ _ _ => put32_of_not_mem _ _ (by omega)

end

theorem get32_fill_zero (dst : Bytes) {off n o : ℕ} (h : off ≤ o) (h' : o + 4 ≤ off + n) :
    get32 (fill dst off 0 n) o = 0 := by
  unfold get32 get16
  rw [fill_of_mem _ _ h (by omega), fill_of_mem _ _ (by omega) (by omega),
    fill_of_mem _ _ (by omega) (by omega), fill_of_mem _ _ (by omega) (by omega)]
  rfl

theorem put32_zero_of_mem (b : Bytes) {o i : ℕ} (h : o ≤ i) (h' : i < o + 4) :
    put32 b o 0 i = 0 := by
  unfold put32 put16
  split_ifs
  · rfl
  · rfl
  · rfl
  · rfl
  · omega

theorem put32_zero {x : Bytes} {o : ℕ} (h : x.get32 o = 0) : x.put32 o 0 = x := by
  have h16 : ∀ {x : Bytes} {o : ℕ}, x.get16 o = 0 → x.put16 o 0 = x := by
    intro x o h
    unfold get16 at h
    funext i
    unfold put16
    split_ifs with h1 h2
    · rw [h1]; exact (UInt8.toNat_inj.mp (by rw [show (x o).toNat = 0 by omega]; rfl)).symm
    · rw [h2]; exact (UInt8.toNat_inj.mp (by rw [show (x (o + 1)).toNat = 0 by omega]; rfl)).symm
    · rfl
  unfold get32 at h
  unfold put32
  rw [Nat.zero_div, h16 (x := x) (o := o) (by omega), h16 (by omega)]

/-! ## Bits -/

theorem bit_put8 (b : Bytes) {i j : ℕ} {x : ℕ} (hx : x < 256) :
    bit (put8 b (i / 8) (UInt8.ofNat x)) j =
      if j / 8 = i / 8 then x.testBit (j % 8) else bit b j := by
  unfold bit put8
  split_ifs with h
  · rw [UInt8.toNat_ofNat', Nat.mod_eq_of_lt hx]
  · rfl

theorem one_shiftLeft_lt (i : ℕ) : 1 <<< (i % 8) < 256 := by
  rw [Nat.shiftLeft_eq, one_mul]
  calc 2 ^ (i % 8) ≤ 2 ^ 7 := Nat.pow_le_pow_right (by norm_num) (by omega)
    _ < 256 := by norm_num

theorem bit_setBit (b : Bytes) (i j : ℕ) :
    bit (setBit b i) j = if j = i then true else bit b j := by
  unfold setBit
  rw [bit_put8 b (Nat.or_lt_two_pow (n := 8) (UInt8.toNat_lt _) (one_shiftLeft_lt i))]
  by_cases hj : j / 8 = i / 8
  · rw [if_pos hj, Nat.testBit_or, Nat.one_shiftLeft, Nat.testBit_two_pow]
    unfold bit
    rw [hj]
    by_cases h : j = i
    · rw [if_pos h, h]; simp
    · rw [if_neg h]
      have : ¬ i % 8 = j % 8 := by omega
      simp [this]
  · rw [if_neg hj, if_neg (by rintro rfl; exact hj rfl)]

theorem bit_clearBit (b : Bytes) (i j : ℕ) :
    bit (clearBit b i) j = if j = i then false else bit b j := by
  unfold clearBit
  rw [bit_put8 b (lt_of_le_of_lt Nat.and_le_left (UInt8.toNat_lt _))]
  by_cases hj : j / 8 = i / 8
  · have h255 : (255 : ℕ).testBit (j % 8) = true := by
      rw [show (255 : ℕ) = 2 ^ 8 - 1 by norm_num, Nat.testBit_two_pow_sub_one]
      simp only [decide_eq_true_eq]
      omega
    rw [if_pos hj, Nat.testBit_and, Nat.testBit_xor, Nat.one_shiftLeft, Nat.testBit_two_pow, h255]
    unfold bit
    rw [hj]
    by_cases h : j = i
    · rw [if_pos h, h]; simp
    · rw [if_neg h]
      have : ¬ i % 8 = j % 8 := by omega
      simp [this]
  · rw [if_neg hj, if_neg (by rintro rfl; exact hj rfl)]

/-! ## Slices -/

@[simp] theorem length_slice (b : Bytes) (off n : ℕ) : (slice b off n).length = n := by
  unfold slice; simp

theorem slice_congr {b b' : Bytes} {off n : ℕ} (h : ∀ i, off ≤ i → i < off + n → b i = b' i) :
    slice b off n = slice b' off n := by
  unfold slice
  refine List.map_congr_left fun i hi => ?_
  have := List.mem_range.mp hi
  exact h _ (by omega) (by omega)

theorem slice_copy_ofList (dst : Bytes) (off : ℕ) (l : List UInt8) :
    slice (copy dst off (ofList l) l.length) off l.length = l := by
  unfold slice
  refine List.ext_getElem (by simp) fun i h1 h2 => ?_
  rw [List.getElem_map, List.getElem_range, copy_of_mem _ _ (by omega) (by omega)]
  unfold ofList
  rw [Nat.add_sub_cancel_left, List.getD_eq_getElem _ _ h2]

theorem get32_zero (o : ℕ) : get32 zero o = 0 := rfl

end Bytes

end DvivonOS
