import Bc3Miner.Consensus.Target

/-!
# Byte orders

The numbers that byte strings stand for in either order, over parts of a string.

A byte string cut in two stands for the sum of its parts at their places (`littleEndian_split`,
`bigEndian_split`), turning it around exchanges the two orders (`bigEndian_reverse`), and
`leBytesOf` writes a number in a given width, which is read back where the number fits
(`littleEndian_leBytesOf_of_lt`).
-/

set_option autoImplicit false
set_option relaxedAutoImplicit false

namespace Bc3Miner.Consensus

/-- Bytes in a row, most significant first: the high ones stand above the low ones. -/
theorem bigEndian_append (high low : List UInt8) :
    bigEndian (high ++ low) = bigEndian high * 256 ^ low.length + bigEndian low := by
  induction high with
  | nil => rw [List.nil_append]; simp [bigEndian]
  | cons byte high ih =>
    rw [List.cons_append, bigEndian_cons, bigEndian_cons, ih, List.length_append, pow_add]
    ring

theorem littleEndian_cons (byte : UInt8) (bytes : List UInt8) :
    littleEndian (byte :: bytes) = byte.toNat + 256 * littleEndian bytes := rfl

/-- Bytes in a row, least significant first: the high ones stand above the low ones. -/
theorem littleEndian_append (low high : List UInt8) :
    littleEndian (low ++ high) = littleEndian low + 256 ^ low.length * littleEndian high := by
  induction low with
  | nil => simp [littleEndian]
  | cons byte low ih =>
    rw [List.cons_append, littleEndian_cons, littleEndian_cons, ih, List.length_cons, pow_succ]
    ring

/-- A number of `n` bytes is below `256 ^ n`. -/
theorem littleEndian_lt (bytes : List UInt8) : littleEndian bytes < 256 ^ bytes.length := by
  induction bytes with
  | nil => exact Nat.one_pos
  | cons byte bytes ih =>
    have hbyte : byte.toNat < 256 := byte.toNat_lt
    rw [littleEndian_cons, List.length_cons, pow_succ]
    omega

/-- The one order is the other on the bytes reversed. -/
theorem bigEndian_reverse (bytes : List UInt8) : bigEndian bytes.reverse = littleEndian bytes := by
  induction bytes with
  | nil => rfl
  | cons byte bytes ih =>
    have hbyte : bigEndian [byte] = byte.toNat := by
      show 0 * 256 + byte.toNat = byte.toNat
      rw [Nat.zero_mul, Nat.zero_add]
    rw [List.reverse_cons, bigEndian_append, ih, hbyte, littleEndian_cons, List.length_singleton,
      pow_one, Nat.mul_comm, Nat.add_comm]

/-- The first bytes of a string, and the rest. -/
theorem littleEndian_split {bytes : List UInt8} {count : ℕ} (hcount : count ≤ bytes.length) :
    littleEndian bytes =
      littleEndian (bytes.take count) + 256 ^ count * littleEndian (bytes.drop count) := by
  have hsplit := littleEndian_append (bytes.take count) (bytes.drop count)
  rwa [List.take_append_drop, List.length_take, Nat.min_eq_left hcount] at hsplit

theorem bigEndian_split (bytes : List UInt8) (count : ℕ) :
    bigEndian bytes = bigEndian (bytes.take count) * 256 ^ (bytes.length - count) +
      bigEndian (bytes.drop count) := by
  have hsplit := bigEndian_append (bytes.take count) (bytes.drop count)
  rwa [List.take_append_drop, List.length_drop] at hsplit

/-! ### Writing numbers -/

/-- The low bytes of a number, so many of them, least significant first. -/
def leBytesOf : ℕ → ℕ → List UInt8
  | 0, _ => []
  | width + 1, number => UInt8.ofNat number :: leBytesOf width (number / 256)

@[simp] theorem length_leBytesOf (width number : ℕ) : (leBytesOf width number).length = width := by
  induction width generalizing number with
  | zero => rfl
  | succ width ih => rw [leBytesOf, List.length_cons, ih]

/-- A number written in a width is read back as far as it fits the width. -/
theorem littleEndian_leBytesOf (width number : ℕ) :
    littleEndian (leBytesOf width number) = number % 256 ^ width := by
  induction width generalizing number with
  | zero => rw [pow_zero, Nat.mod_one]; rfl
  | succ width ih =>
    have hbyte : (UInt8.ofNat number).toNat = number % 256 := UInt8.toNat_ofNat'
    rw [leBytesOf, littleEndian_cons, ih, hbyte, pow_succ', Nat.mod_mul]

/-- A number that fits the width is read back. -/
theorem littleEndian_leBytesOf_of_lt {width number : ℕ} (hfits : number < 256 ^ width) :
    littleEndian (leBytesOf width number) = number := by
  rw [littleEndian_leBytesOf, Nat.mod_eq_of_lt hfits]

end Bc3Miner.Consensus
