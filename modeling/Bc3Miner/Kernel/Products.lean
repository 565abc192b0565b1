import Bc3Miner.Foundations.Columns
import Bc3Miner.Kernel.Words

/-!
# Modular products

The products modulo `2 ^ 256 - C` of `src/kernels/bc3hash.cl`, as its C code computes them: the
operands in eight words of 32 bits, their product in sixteen, and the high half folded into the low
one. An array the source updates in place is here the part of it that is still to be read.

Nothing is assumed of the operands beyond their number of words. `sqr8_value` and `mul8_value` say
that the products are exact, and `reduce8Secp_toNat` that the reduction of sixteen words is the
canonical residue for secp256k1's prime.
-/

set_option autoImplicit false
set_option relaxedAutoImplicit false

namespace Bc3Miner.Kernel

open Foundations Foundations.Columns

/-! ### Words of 32 bits -/

def split256 (a : U256) : List UInt32 :=
  (List.range 4).flatMap fun i ↦ [(a.limb i).toUInt32, (a.limb i >>> 32).toUInt32]

def join256 (x : List UInt32) : U256 :=
  let limb (i : ℕ) := (x.getD (2 * i) 0).toUInt64 ||| (x.getD (2 * i + 1) 0).toUInt64 <<< 32
  mk256 (limb 0) (limb 1) (limb 2) (limb 3)

/-! ### Products of 256 bits -/

/-- The rows of a product: `window` is the part of the sixteen words that the next row adds to. -/
def mulRows (b : List UInt32) : List UInt32 → List UInt32 → List UInt32
  | [], window => window
  | word :: a, window =>
    match row word b window with
    | low :: window => low :: mulRows b a window
    | [] => []

def mul8 (a b : List UInt32) : List UInt32 := mulRows b a (List.replicate 8 0)

/-- The cross products of a square, each word times those above it. -/
def crossRows : List UInt32 → List UInt32 → List UInt32
  | word :: other :: rest, window =>
    match row word (other :: rest) window with
    | low :: next :: window => low :: next :: crossRows (other :: rest) window
    | _ => []
  | _, window => window

/-- Every word shifted up by a bit, with the top bit of the word below it. -/
def doubleWords : List UInt32 → UInt32 → List UInt32
  | [], _ => []
  | x :: t, top => ((x <<< 1) ||| top) :: doubleWords t (x >>> 31)

/-- The two halves of the square of each word. -/
def squareHalves (a : List UInt32) : List UInt64 :=
  a.flatMap fun word ↦
    let square : UInt64 := word.toUInt64 * word.toUInt64
    [square &&& 0xffffffff, square >>> 32]

/-- The sixteen words once the cross products are in: none reaches the lowest and the highest. -/
def crossWords (a : List UInt32) : List UInt32 := 0 :: crossRows a (List.replicate 7 0) ++ [0]

def sqr8 (a : List UInt32) : List UInt32 :=
  let t := doubleWords (crossWords a) 0
  (carryPass (List.zipWith (fun word half ↦ word.toUInt64 + half) t (squareHalves a)) 0).1

/-! ### Reduction -/

/-- The columns of `hi * 977 + (hi << 32)` added to the low half, without the top word of `hi` that
the shift drops. -/
def secpColumns : List UInt32 → List UInt32 → UInt32 → List UInt64
  | high :: hi, low :: lo, below =>
    (high.toUInt64 * 977 + low.toUInt64 + below.toUInt64) :: secpColumns hi lo high
  | _, _, _ => []

/-- `t` modulo `2 ^ 256 - (2 ^ 32 + 977)`. -/
def reduce8Secp (t : List UInt32) : U256 :=
  let (r, c) := carryPass (secpColumns (t.drop 8) (t.take 8) 0) 0
  let c := c + (t.getD 15 0).toUInt64
  let v0 := c * 977
  let (r, s) := carryPass
    (addColumns r [v0 &&& 0xffffffff, (v0 >>> 32) + (c &&& 0xffffffff), c >>> 32]) 0
  let r := if s ≠ 0 then (carryPass (addColumns r [977, 1]) 0).1 else r
  let (y, s) := carryPass (addColumns r [977, 1]) 0
  if s ≠ 0 then join256 y else join256 r

/-! ### Words of 64 and of 32 bits -/

/-- Four 64-bit words, least significant first, as a number. -/
theorem toNat_mk256 (a b c d : UInt64) :
    (mk256 a b c d).toNat =
      a.toNat + 2 ^ 64 * b.toNat + 2 ^ 128 * c.toNat + 2 ^ 192 * d.toNat := by
  show Limbs.value [a, b, c, d] = _
  rw [Limbs.value_cons, Limbs.value_cons, Limbs.value_cons, Limbs.value_cons, Limbs.value_nil]
  ring

theorem eq_mk256 (a : U256) : a = mk256 (a.limb 0) (a.limb 1) (a.limb 2) (a.limb 3) :=
  Limbs.ext_limb fun i hi ↦ by interval_cases i <;> rfl

/-- The two halves of a 64-bit word stand for it. -/
theorem split_word (word : UInt64) :
    word.toUInt32.toNat + 2 ^ 32 * (word >>> 32).toUInt32.toNat = word.toNat := by
  have hlt := word.toNat_lt
  rw [UInt64.toNat_toUInt32, UInt64.toNat_toUInt32, UInt64.toNat_shiftRight,
    Nat.shiftRight_eq_div_pow]
  show word.toNat % 2 ^ 32 + 2 ^ 32 * (word.toNat / 2 ^ 32 % 2 ^ 32) = word.toNat
  omega

/-- Two 32-bit words joined are the number they stand for. -/
theorem join_words (low high : UInt32) :
    (low.toUInt64 ||| high.toUInt64 <<< 32).toNat = low.toNat + 2 ^ 32 * high.toNat := by
  have hlow := low.toNat_lt
  have hhigh := high.toNat_lt
  rw [UInt64.toNat_or, UInt64.toNat_shiftLeft, UInt32.toNat_toUInt64, UInt32.toNat_toUInt64,
    Nat.shiftLeft_eq]
  show low.toNat ||| high.toNat * 2 ^ 32 % 2 ^ 64 = _
  rw [Nat.mod_eq_of_lt (by omega), Nat.or_comm, Nat.mul_comm, ← Nat.two_pow_add_eq_or_of_lt hlow,
    Nat.add_comm]

theorem length_split256 (a : U256) : (split256 a).length = 8 := rfl

/-- Eight 32-bit words of a 256-bit number stand for it. -/
theorem split256_value (a : U256) : value (split256 a) = a.toNat := by
  have hsplit : split256 a = [(a.limb 0).toUInt32, (a.limb 0 >>> 32).toUInt32,
      (a.limb 1).toUInt32, (a.limb 1 >>> 32).toUInt32, (a.limb 2).toUInt32,
      (a.limb 2 >>> 32).toUInt32, (a.limb 3).toUInt32, (a.limb 3 >>> 32).toUInt32] := rfl
  have h0 := split_word (a.limb 0)
  have h1 := split_word (a.limb 1)
  have h2 := split_word (a.limb 2)
  have h3 := split_word (a.limb 3)
  conv_rhs => rw [eq_mk256 a]
  rw [hsplit, toNat_mk256]
  simp only [value_cons, value_nil]
  linear_combination h0 + 2 ^ 64 * h1 + 2 ^ 128 * h2 + 2 ^ 192 * h3

/-- Eight 32-bit words joined to 256 bits are the same number. -/
theorem join256_toNat {x : List UInt32} (hlength : x.length = 8) :
    (join256 x).toNat = value x := by
  match x, hlength with
  | [x0, x1, x2, x3, x4, x5, x6, x7], _ =>
    show (mk256 (x0.toUInt64 ||| x1.toUInt64 <<< 32) (x2.toUInt64 ||| x3.toUInt64 <<< 32)
      (x4.toUInt64 ||| x5.toUInt64 <<< 32) (x6.toUInt64 ||| x7.toUInt64 <<< 32)).toNat = _
    rw [toNat_mk256, join_words, join_words, join_words, join_words]
    simp only [value_cons, value_nil]
    ring

/-! ### Values of products -/

/-- The rows of a product add it to what the window held. -/
theorem mulRows_value (b : List UInt32) {a window : List UInt32}
    (hlength : window.length = b.length) :
    value (mulRows b a window) = value a * value b + value window := by
  induction a generalizing window with
  | nil => simp [mulRows]
  | cons word a ih =>
    have hrow := row_value word hlength.symm
    have hwords : (row word b window).length = b.length + 1 := by
      rw [length_row, hlength, Nat.min_self]
    rcases hsplit : row word b window with _ | ⟨low, next⟩
    · rw [hsplit] at hwords
      exact absurd hwords (by simp)
    · rw [hsplit] at hrow hwords
      have hrest : value (mulRows b a next) = value a * value b + value next :=
        ih (by simpa using hwords)
      rw [value_cons] at hrow
      rw [mulRows, hsplit, value_cons, value_cons, hrest]
      linear_combination hrow

/-- The rows of a product have as many words as both numbers. -/
theorem length_mulRows {b : List UInt32} (a : List UInt32) {window : List UInt32}
    (hlength : window.length = b.length) :
    (mulRows b a window).length = a.length + b.length := by
  induction a generalizing window with
  | nil => simpa [mulRows] using hlength
  | cons word a ih =>
    have hwords : (row word b window).length = b.length + 1 := by
      rw [length_row, hlength, Nat.min_self]
    rcases hsplit : row word b window with _ | ⟨low, next⟩
    · rw [hsplit] at hwords
      exact absurd hwords (by simp)
    · rw [hsplit] at hwords
      have hrest : (mulRows b a next).length = a.length + b.length := ih (by simpa using hwords)
      rw [mulRows, hsplit, List.length_cons, hrest, List.length_cons]
      omega

/-- `mul8` is the exact product, in sixteen words. -/
theorem mul8_value {a b : List UInt32} (hb : b.length = 8) :
    value (mul8 a b) = value a * value b := by
  rw [mul8, mulRows_value b (by simp [hb]), value_replicate_zero, Nat.add_zero]

theorem length_mul8 {a b : List UInt32} (ha : a.length = 8) (hb : b.length = 8) :
    (mul8 a b).length = 16 := by
  rw [mul8, length_mulRows a (by simp [hb]), ha, hb]

/-! ### Values of squares -/

/-- The sum of the products of each word with the words above it. -/
def crossValue : List UInt32 → ℕ
  | [] => 0
  | word :: rest => word.toNat * value rest + 2 ^ 64 * crossValue rest

/-- The sum of the squares of the words. -/
def squaresValue : List UInt32 → ℕ
  | [] => 0
  | word :: rest => word.toNat * word.toNat + 2 ^ 64 * squaresValue rest

/-- A square is the squares of the words at their places and twice the cross products. -/
theorem value_sq (a : List UInt32) :
    value a * value a = squaresValue a + 2 * (2 ^ 32 * crossValue a) := by
  induction a with
  | nil => rfl
  | cons word a ih =>
    rw [value_cons, squaresValue, crossValue]
    linear_combination 2 ^ 64 * ih

/-- The rows of the cross products: their value added to the window, in twice as many words as the
number has. -/
theorem crossRows_value (word : UInt32) {a window : List UInt32}
    (hlength : window.length = a.length) :
    value (crossRows (word :: a) window) = crossValue (word :: a) + value window ∧
      (crossRows (word :: a) window).length = 2 * a.length := by
  induction a generalizing word window with
  | nil =>
    rw [List.length_eq_zero_iff.mp hlength]
    exact ⟨by simp [crossRows, crossValue], rfl⟩
  | cons other rest ih =>
    have hrow := row_value word hlength.symm
    have hwords : (row word (other :: rest) window).length = rest.length + 2 := by
      rw [length_row, hlength, Nat.min_self, List.length_cons]
    rcases hsplit : row word (other :: rest) window with _ | ⟨low, _ | ⟨next, last⟩⟩
    · rw [hsplit] at hwords
      exact absurd hwords (by simp)
    · rw [hsplit] at hwords
      exact absurd hwords (by simp)
    · rw [hsplit] at hrow hwords
      have hlast : last.length = rest.length := by simpa using hwords
      rcases ih other hlast with ⟨hvalue, hcount⟩
      rw [value_cons, value_cons] at hrow
      rw [crossRows, hsplit]
      refine ⟨?_, ?_⟩
      · have hcross : crossValue (word :: other :: rest) =
            word.toNat * value (other :: rest) + 2 ^ 64 * crossValue (other :: rest) := rfl
        rw [hcross, value_cons, value_cons, hvalue]
        linear_combination hrow
      · simp only [List.length_cons, hcount]
        omega

/-- A shift by a bit doubles, up to the bit it drops at the top. -/
theorem doubleWords_value (t : List UInt32) (top : UInt32) (htop : top.toNat < 2) :
    ∃ dropped : ℕ, value (doubleWords t top) + 2 ^ (32 * t.length) * dropped =
      2 * value t + top.toNat := by
  induction t generalizing top with
  | nil => exact ⟨top.toNat, by simp [doubleWords]⟩
  | cons x t ih =>
    have hx := x.toNat_lt
    have hshift : (x >>> 31).toNat = x.toNat / 2 ^ 31 := by
      rw [UInt32.toNat_shiftRight, Nat.shiftRight_eq_div_pow]
      rfl
    have hnext : (x >>> 31).toNat < 2 := by omega
    have hword : ((x <<< 1) ||| top).toNat = 2 * x.toNat % 2 ^ 32 + top.toNat := by
      have heven : 2 * x.toNat % 2 ^ 32 = 2 ^ 1 * (x.toNat % 2 ^ 31) := by omega
      rw [UInt32.toNat_or, UInt32.toNat_shiftLeft, Nat.shiftLeft_eq]
      show x.toNat * 2 ^ 1 % 2 ^ 32 ||| top.toNat = _
      rw [Nat.mul_comm, heven, ← Nat.two_pow_add_eq_or_of_lt htop]
    rcases ih _ hnext with ⟨dropped, hrest⟩
    refine ⟨dropped, ?_⟩
    rw [doubleWords, value_cons, value_cons, hword, List.length_cons, Nat.mul_succ, pow_add]
    rw [hshift] at hrest
    have hsplit : 2 * x.toNat % 2 ^ 32 + 2 ^ 32 * (x.toNat / 2 ^ 31) = 2 * x.toNat := by omega
    linear_combination hsplit + 2 ^ 32 * hrest

/-- The columns of the squares, two words for each, added to twice as many words: no column
overflows, each leaves room for a carry, and their value is what was there plus the squares at their
places. -/
theorem squareHalves_value {a t : List UInt32} (hlength : t.length = 2 * a.length) :
    columnValue (List.zipWith (fun word half ↦ word.toUInt64 + half) t (squareHalves a)) =
        value t + squaresValue a ∧
      ∀ column ∈ List.zipWith (fun word half ↦ word.toUInt64 + half) t (squareHalves a),
        column.toNat ≤ 2 ^ 64 - 2 ^ 32 := by
  induction a generalizing t with
  | nil =>
    rw [List.length_eq_zero_iff.mp hlength]
    exact ⟨rfl, by simp⟩
  | cons word a ih =>
    match t, hlength with
    | low :: next :: t, hlength =>
      have ht : t.length = 2 * a.length := by simpa [Nat.mul_succ] using hlength
      rcases ih ht with ⟨hvalue, hle⟩
      have hword := word.toNat_lt
      have hsquare : word.toNat * word.toNat ≤ (2 ^ 32 - 1) * (2 ^ 32 - 1) :=
        Nat.mul_le_mul (by omega) (by omega)
      have hproduct : (word.toUInt64 * word.toUInt64).toNat = word.toNat * word.toNat := by
        rw [UInt64.toNat_mul, UInt32.toNat_toUInt64, Nat.mod_eq_of_lt (by omega)]
      have hhalf : (word.toUInt64 * word.toUInt64 &&& 0xffffffff).toNat =
          word.toNat * word.toNat % 2 ^ 32 := by
        rw [UInt64.toNat_and, hproduct]
        exact Nat.and_two_pow_sub_one_eq_mod _ 32
      have hupper : ((word.toUInt64 * word.toUInt64) >>> 32).toNat =
          word.toNat * word.toNat / 2 ^ 32 := by
        rw [UInt64.toNat_shiftRight, hproduct, Nat.shiftRight_eq_div_pow]
        rfl
      have hlow := low.toNat_lt
      have hnext := next.toNat_lt
      have hfirst : (low.toUInt64 + (word.toUInt64 * word.toUInt64 &&& 0xffffffff)).toNat =
          low.toNat + word.toNat * word.toNat % 2 ^ 32 := by
        rw [UInt64.toNat_add, hhalf, UInt32.toNat_toUInt64, Nat.mod_eq_of_lt (by omega)]
      have hsecond : (next.toUInt64 + (word.toUInt64 * word.toUInt64) >>> 32).toNat =
          next.toNat + word.toNat * word.toNat / 2 ^ 32 := by
        rw [UInt64.toNat_add, hupper, UInt32.toNat_toUInt64, Nat.mod_eq_of_lt (by omega)]
      have hcolumns : List.zipWith (fun word half ↦ word.toUInt64 + half) (low :: next :: t)
          (squareHalves (word :: a)) =
            (low.toUInt64 + (word.toUInt64 * word.toUInt64 &&& 0xffffffff)) ::
              (next.toUInt64 + (word.toUInt64 * word.toUInt64) >>> 32) ::
              List.zipWith (fun word half ↦ word.toUInt64 + half) t (squareHalves a) := rfl
      rw [hcolumns]
      refine ⟨?_, fun column hmem ↦ ?_⟩
      · have hsplit := Nat.mod_add_div (word.toNat * word.toNat) (2 ^ 32)
        rw [columnValue_cons, columnValue_cons, value_cons, value_cons, squaresValue, hfirst,
          hsecond, hvalue]
        linear_combination hsplit
      · rcases List.mem_cons.mp hmem with rfl | hmem
        · rw [hfirst]
          omega
        · rcases List.mem_cons.mp hmem with rfl | hmem
          · rw [hsecond]
            omega
          · exact hle column hmem

theorem length_doubleWords (t : List UInt32) (top : UInt32) :
    (doubleWords t top).length = t.length := by
  induction t generalizing top with
  | nil => rfl
  | cons x t ih => rw [doubleWords, List.length_cons, ih, List.length_cons]

/-- The squares of the words take two words each. -/
theorem length_squareHalves (a : List UInt32) : (squareHalves a).length = 2 * a.length := by
  induction a with
  | nil => rfl
  | cons word a ih =>
    show (squareHalves a).length + 2 = 2 * (a.length + 1)
    omega

/-- The cross products of eight words, in sixteen. -/
theorem crossWords_value {a : List UInt32} (ha : a.length = 8) :
    value (crossWords a) = 2 ^ 32 * crossValue a ∧ (crossWords a).length = 16 := by
  match a, ha with
  | word :: rest, ha =>
    have hrest : rest.length = 7 := by simpa using ha
    have hwindow : (List.replicate 7 (0 : UInt32)).length = rest.length := by
      rw [List.length_replicate, hrest]
    rcases crossRows_value word hwindow with ⟨hvalue, hcount⟩
    rw [value_replicate_zero, Nat.add_zero] at hvalue
    have hzero : value [0] = 0 := rfl
    constructor
    · rw [crossWords, value_append, value_cons, hvalue, hzero, Nat.mul_zero, Nat.add_zero]
      exact Nat.zero_add _
    · rw [crossWords, List.length_append, List.length_cons, hcount, hrest]
      rfl

theorem length_sqr8 {a : List UInt32} (ha : a.length = 8) : (sqr8 a).length = 16 := by
  rw [sqr8, length_carryPass, List.length_zipWith, length_doubleWords, (crossWords_value ha).2,
    length_squareHalves, ha]
  rfl

/-- `sqr8` is the exact square. Nothing is shifted out at the top, since twice the cross products
are at most the square, and nothing is carried out of the last column. -/
theorem sqr8_value {a : List UInt32} (ha : a.length = 8) : value (sqr8 a) = value a * value a := by
  have hsmall := value_lt a
  rw [ha] at hsmall
  have hbound : value a * value a < 2 ^ (32 * 16) := by
    calc value a * value a < 2 ^ (32 * 8) * 2 ^ (32 * 8) := Nat.mul_lt_mul'' hsmall hsmall
      _ = 2 ^ (32 * 16) := by rw [← pow_add]
  rw [value_sq a] at hbound ⊢
  rcases crossWords_value ha with ⟨hcross, hlength⟩
  rcases doubleWords_value (crossWords a) 0 (by decide) with ⟨dropped, hdouble⟩
  have hzero : (0 : UInt32).toNat = 0 := rfl
  rw [hlength, hcross, hzero, Nat.add_zero] at hdouble
  have hdoubled := (no_carry hdouble
    (Nat.lt_of_le_of_lt (Nat.le_add_left _ (squaresValue a)) hbound)).2
  have hcount : (doubleWords (crossWords a) 0).length = 2 * a.length := by
    rw [length_doubleWords, hlength, ha]
  rcases squareHalves_value hcount with ⟨hcolumns, hle⟩
  have hpass := (carryPass_sum 0 hle (by decide)).1
  have hzero' : (0 : UInt64).toNat = 0 := rfl
  rw [List.length_zipWith, hcount, length_squareHalves, Nat.min_self, ha,
    show 2 * 8 = 16 from rfl, hcolumns, hdoubled, hzero', Nat.add_zero] at hpass
  rw [Nat.add_comm] at hbound ⊢
  exact (no_carry hpass hbound).2

/-! ### The residue modulo secp256k1's prime -/

/-- secp256k1's `p`. -/
def secpP : ℕ := 2 ^ 256 - 2 ^ 32 - 977

/-- The columns of the secp reduction leave room for a carry, and stand for the low half plus the
complement times the high half. -/
theorem secpColumns_value {hi lo : List UInt32} (below : UInt32) (hlength : hi.length = lo.length) :
    (∀ column ∈ secpColumns hi lo below, column.toNat ≤ 2 ^ 64 - 2 ^ 32) ∧
      (secpColumns hi lo below).length = hi.length ∧
      columnValue (secpColumns hi lo below) +
          2 ^ (32 * hi.length) * (hi.getLastD below).toNat =
        977 * value hi + value lo + below.toNat + 2 ^ 32 * value hi := by
  induction hi generalizing lo below with
  | nil =>
    rw [List.length_eq_zero_iff.mp hlength.symm]
    simp [secpColumns]
  | cons high hi ih =>
    match lo, hlength with
    | low :: lo, hlength =>
      have hcount : hi.length = lo.length := by simpa using hlength
      rcases ih high hcount with ⟨hle, hlast, hvalue⟩
      have hhigh := high.toNat_lt
      have hlow := low.toNat_lt
      have hbelow := below.toNat_lt
      have hcolumn : (high.toUInt64 * 977 + low.toUInt64 + below.toUInt64).toNat =
          977 * high.toNat + low.toNat + below.toNat := by
        rw [UInt64.toNat_add, UInt64.toNat_add, UInt64.toNat_mul, UInt32.toNat_toUInt64,
          UInt32.toNat_toUInt64, UInt32.toNat_toUInt64]
        show ((high.toNat * 977 % 2 ^ 64 + low.toNat) % 2 ^ 64 + below.toNat) % 2 ^ 64 = _
        omega
      refine ⟨fun column hmem ↦ ?_, ?_, ?_⟩
      · rcases List.mem_cons.mp hmem with rfl | hmem
        · rw [hcolumn]
          omega
        · exact hle column hmem
      · rw [secpColumns, List.length_cons, hlast, List.length_cons]
      · rw [secpColumns, columnValue_cons, hcolumn, List.length_cons, Nat.mul_succ, pow_add,
          value_cons, value_cons]
        have htop : (high :: hi).getLastD below = hi.getLastD high := by
          cases hi <;> rfl
        rw [htop]
        linear_combination 2 ^ 32 * hvalue

/-- What the first fold of the secp reduction leaves of sixteen words: eight words and a carry of
less than `2 ^ 33`, which stand for the low half plus the complement of the prime times the high
half. -/
theorem secpFold_value {t : List UInt32} (hlength : t.length = 16) :
    ∃ (r : List UInt32) (c : UInt64), carryPass (secpColumns (t.drop 8) (t.take 8) 0) 0 = (r, c) ∧
      r.length = 8 ∧ (c + (t.getD 15 0).toUInt64).toNat < 2 ^ 33 ∧
      value r + 2 ^ 256 * (c + (t.getD 15 0).toUInt64).toNat =
        value (t.take 8) + (2 ^ 32 + 977) * value (t.drop 8) := by
  have hhi : (t.drop 8).length = 8 := by rw [List.length_drop, hlength]
  have hlo : (t.take 8).length = 8 := by rw [List.length_take, hlength]; rfl
  have htop : ((t.drop 8).getLastD 0) = t.getD 15 0 := by
    rw [List.getLastD_eq_getLast?, List.getLast?_drop, if_neg (by omega),
      List.getLast?_eq_getElem?, hlength, List.getD_eq_getElem?_getD]
  rcases secpColumns_value 0 (hhi.trans hlo.symm) with ⟨hle, hcount, hvalue⟩
  rcases carryPass_sum 0 hle (by decide) with ⟨hsum, hcarry⟩
  have hword := (t.getD 15 0).toNat_lt
  have hzero : (0 : UInt64).toNat = 0 := rfl
  have hzero' : (0 : UInt32).toNat = 0 := rfl
  rw [hcount, hhi, hzero, Nat.add_zero] at hsum
  rw [hhi, htop, hzero', Nat.add_zero] at hvalue
  have hc : ((carryPass (secpColumns (t.drop 8) (t.take 8) 0) 0).2 + (t.getD 15 0).toUInt64).toNat =
      (carryPass (secpColumns (t.drop 8) (t.take 8) 0) 0).2.toNat + (t.getD 15 0).toNat := by
    rw [UInt64.toNat_add, UInt32.toNat_toUInt64, Nat.mod_eq_of_lt (by omega)]
  refine ⟨_, _, rfl, by rw [length_carryPass, hcount, hhi], by rw [hc]; omega, ?_⟩
  rw [hc]
  linear_combination hsum + hvalue

/-- A word below `2 ^ 34`, times 977 and split, with the word itself split one place higher. -/
theorem secpCarry_value {c : UInt64} (hc : c.toNat < 2 ^ 33) :
    columnValue [c * 977 &&& 0xffffffff, (c * 977) >>> 32 + (c &&& 0xffffffff), c >>> 32] =
        (2 ^ 32 + 977) * c.toNat ∧
      ∀ column ∈ [c * 977 &&& 0xffffffff, (c * 977) >>> 32 + (c &&& 0xffffffff), c >>> 32],
        column.toNat < 2 ^ 63 := by
  have hproduct : (c * 977).toNat = 977 * c.toNat := by
    rw [UInt64.toNat_mul]
    show c.toNat * 977 % 2 ^ 64 = _
    omega
  have hmask (x : UInt64) : (x &&& 0xffffffff).toNat = x.toNat % 2 ^ 32 := by
    rw [UInt64.toNat_and]
    exact Nat.and_two_pow_sub_one_eq_mod _ 32
  have hshift (x : UInt64) : (x >>> 32).toNat = x.toNat / 2 ^ 32 := by
    rw [UInt64.toNat_shiftRight, Nat.shiftRight_eq_div_pow]
    rfl
  have hmiddle : ((c * 977) >>> 32 + (c &&& 0xffffffff)).toNat =
      977 * c.toNat / 2 ^ 32 + c.toNat % 2 ^ 32 := by
    rw [UInt64.toNat_add, hshift, hmask, hproduct, Nat.mod_eq_of_lt (by omega)]
  refine ⟨?_, fun column hmem ↦ ?_⟩
  · simp only [columnValue_cons, columnValue_nil]
    rw [hmask, hmiddle, hshift, hproduct]
    omega
  · simp only [List.mem_cons, List.not_mem_nil, or_false] at hmem
    rcases hmem with rfl | rfl | rfl
    · rw [hmask]
      omega
    · rw [hmiddle]
      omega
    · rw [hshift]
      omega

theorem value_lt_of_eight {r : List UInt32} (hr : r.length = 8) : value r < 2 ^ 256 := by
  have hlt := value_lt r
  rwa [hr] at hlt

/-- The end of a reduction: a carry out of the eight words is folded in once more, and the result
is taken less `p` where that is possible. -/
def lastFold (complement : List UInt64) (r : List UInt32) (s : UInt64) : U256 :=
  let r := if s ≠ 0 then (carryPass (addColumns r complement) 0).1 else r
  let (y, s) := carryPass (addColumns r complement) 0
  if s ≠ 0 then join256 y else join256 r

section LastFold

variable {complement : List UInt64} (hshort : complement.length ≤ 8)
  (hsmall : ∀ column ∈ complement, column.toNat < 2 ^ 63) {p : ℕ}
  (hp : p + columnValue complement = 2 ^ 256) (hhalf : columnValue complement ≤ p)

include hshort hsmall

/-- `2 ^ 256 - p` added to eight words. -/
theorem plusComplement_value {r : List UInt32} (hr : r.length = 8) :
    value (carryPass (addColumns r complement) 0).1 +
        2 ^ 256 * (carryPass (addColumns r complement) 0).2.toNat =
          value r + columnValue complement ∧
      (carryPass (addColumns r complement) 0).1.length = 8 := by
  have hsum := carryPass_addColumns (hr.symm ▸ hshort) hsmall
  rwa [hr] at hsum

include hp hhalf

/-- The last comparison: `r` is at least `p` exactly when `r + (2 ^ 256 - p)` carries. -/
theorem canonical_toNat {r : List UInt32} (hr : r.length = 8) :
    (if (carryPass (addColumns r complement) 0).2 ≠ 0
      then join256 (carryPass (addColumns r complement) 0).1 else join256 r).toNat =
        value r % p := by
  have hlt := value_lt_of_eight hr
  rcases plusComplement_value hshort hsmall hr with ⟨hsum, hlength⟩
  have hylt := value_lt_of_eight hlength
  by_cases hcarry : (carryPass (addColumns r complement) 0).2 = 0
  · have hzero : (0 : UInt64).toNat = 0 := rfl
    rw [hcarry, hzero] at hsum
    rw [if_neg (not_not_intro hcarry), join256_toNat hr, Nat.mod_eq_of_lt (by omega)]
  · have hpos : 0 < (carryPass (addColumns r complement) 0).2.toNat :=
      Nat.pos_of_ne_zero fun hzero ↦ hcarry (UInt64.toNat_inj.mp hzero)
    have hy : value (carryPass (addColumns r complement) 0).1 + p = value r := by omega
    have hyp : value (carryPass (addColumns r complement) 0).1 < p := by omega
    rw [if_pos hcarry, join256_toNat hlength, ← hy, Nat.add_mod_right, Nat.mod_eq_of_lt hyp]

/-- A carry of at most one, over words that adding the complement does not make carry again. -/
theorem lastFold_toNat {r : List UInt32} (hr : r.length = 8) {s : UInt64}
    (htotal : value r + 2 ^ 256 * s.toNat < 2 ^ 256 + p) :
    (lastFold complement r s).toNat = (value r + 2 ^ 256 * s.toNat) % p := by
  by_cases hs : s = 0
  · have hzero : (0 : UInt64).toNat = 0 := rfl
    unfold lastFold
    rw [if_neg (not_not_intro hs), hs, hzero, Nat.mul_zero, Nat.add_zero]
    exact canonical_toNat hshort hsmall hp hhalf hr
  · have hpos : 0 < s.toNat := Nat.pos_of_ne_zero fun hzero ↦ hs (UInt64.toNat_inj.mp hzero)
    have hone : s.toNat = 1 := by omega
    rcases plusComplement_value hshort hsmall hr with ⟨hplus, hlength⟩
    have hnone : (carryPass (addColumns r complement) 0).2.toNat = 0 := by omega
    have hfolded : value r + 2 ^ 256 * s.toNat =
        value (carryPass (addColumns r complement) 0).1 + p := by
      rw [hnone] at hplus
      omega
    unfold lastFold
    rw [if_pos hs, hfolded, Nat.add_mod_right]
    exact canonical_toNat hshort hsmall hp hhalf hlength

end LastFold

/-- `2 ^ 256 - p` for secp256k1's `p`. -/
theorem secpComplement :
    columnValue [977, 1] = 2 ^ 32 + 977 ∧ ∀ column ∈ [(977 : UInt64), 1], column.toNat < 2 ^ 63 :=
  ⟨by decide, by simp⟩

theorem split_value {t : List UInt32} (hlength : t.length = 16) :
    value t = value (t.take 8) + 2 ^ 256 * value (t.drop 8) := by
  have happend := value_append (t.take 8) (t.drop 8)
  rwa [List.take_append_drop, List.length_take, hlength] at happend

/-- Reduction gives the canonical residue. -/
theorem reduce8Secp_toNat {t : List UInt32} (hlength : t.length = 16) :
    (reduce8Secp t).toNat = value t % secpP := by
  rcases secpFold_value hlength with ⟨r, c, hfold, hr, hc, hvalue⟩
  have hrlt := value_lt_of_eight hr
  rcases secpCarry_value hc with ⟨hcarry, hcolumns⟩
  rcases secpComplement with ⟨hcomplement, hsmall⟩
  have hsplit := split_value hlength
  have heq : reduce8Secp t =
      let c := c + (t.getD 15 0).toUInt64
      let folded := carryPass (addColumns r [c * 977 &&& 0xffffffff,
        (c * 977) >>> 32 + (c &&& 0xffffffff), c >>> 32]) 0
      lastFold [977, 1] folded.1 folded.2 := by
    unfold reduce8Secp
    rw [hfold]
    rfl
  rw [heq]
  simp only
  generalize c + (t.getD 15 0).toUInt64 = c' at *
  have hshort : [c' * 977 &&& 0xffffffff, (c' * 977) >>> 32 + (c' &&& 0xffffffff),
      c' >>> 32].length ≤ r.length := by simp [hr]
  rcases carryPass_addColumns hshort hcolumns with ⟨hsum, hlength'⟩
  rw [hr, hcarry] at hsum
  rw [hr] at hlength'
  have hp : secpP + columnValue [977, 1] = 2 ^ 256 := by
    rw [hcomplement]
    rfl
  have hhalf : columnValue [977, 1] ≤ secpP := by
    rw [hcomplement]
    decide
  rw [lastFold_toNat (by decide) hsmall hp hhalf hlength' (by unfold secpP; omega), hsum]
  have htotal : value t = value r + (2 ^ 32 + 977) * c'.toNat +
      secpP * (c'.toNat + value (t.drop 8)) := by
    unfold secpP
    omega
  rw [htotal, Nat.add_mul_mod_self_left]

/-! ### Canonical numbers -/

/-- `x`, less `2 ^ 256 - C` where that is possible: the sum with `C` carries exactly then. -/
def norm256 (x : U256) (C : UInt64) : U256 :=
  let (y, c) := x.addWord C
  if c ≠ 0 then y else x

/-- The last subtraction gives the residue, since 256 bits are below twice the prime. -/
theorem norm256_toNat (x : U256) {C : UInt64} {p : ℕ} (hp : p + C.toNat = 2 ^ 256) :
    (norm256 x C).toNat = x.toNat % p := by
  have hsum := Limbs.addWord_sum x C
  have hx := x.toNat_lt
  have hC := C.toNat_lt
  have hy := (x.addWord C).1.toNat_lt
  show (if (x.addWord C).2 ≠ 0 then (x.addWord C).1 else x).toNat = x.toNat % p
  by_cases hcarry : (x.addWord C).2 = 0
  · have hzero : (0 : UInt64).toNat = 0 := rfl
    rw [if_neg (not_not_intro hcarry), Nat.mod_eq_of_lt]
    rw [hcarry, hzero] at hsum
    omega
  · have hpos : 0 < (x.addWord C).2.toNat :=
      Nat.pos_of_ne_zero fun hzero ↦ hcarry (UInt64.toNat_inj.mp hzero)
    rw [if_pos hcarry, Nat.mod_eq_sub_mod (by omega), Nat.mod_eq_of_lt (by omega)]
    omega

end Bc3Miner.Kernel
