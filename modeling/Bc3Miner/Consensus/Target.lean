import Bc3Miner.Consensus.ProofOfWork
import Bc3Miner.Foundations.Binary64
import Mathlib.Tactic.Ring

/-!
# Targets and difficulties

The conversions of `src/consensus.rs` between nBits, stratum difficulties and 256-bit targets, and
the comparison of a hash with a target. A target is 32 bytes, most significant first; a hash is a
number with its least significant byte first.

The comparison is one of bytes from the top (`bytesAtMost`), and `bytesAtMost_iff` says that it is
the comparison of the numbers. A looser target accepts what a tighter one accepts
(`hashMeetsTarget_mono`), which is what the order of the two tests of a worker rests on. The shift
and the division that make a share target are here as the source has them, byte by byte; what they
compute is in `ShareTargets`.
-/

set_option autoImplicit false
set_option relaxedAutoImplicit false

namespace Bc3Miner.Consensus

open Foundations

/-- A 256-bit target, most significant byte first. -/
abbrev Target := Bytes32

/-! ### nBits -/

/-- One mantissa byte put at its place in a target: outside the 32 bytes it has to be zero. An
exponent above 32 leaves no place for the first byte, which is where
`32usize.checked_sub(exponent)?` gives up. -/
def placeByte (exponent : ℕ) (target : Target) (index : ℕ) (byte : UInt8) : Option Target :=
  if exponent ≤ 32 then
    let position := 32 - exponent + index
    if hposition : position < 32 then some (target.set position byte hposition)
    else if byte ≠ 0 then none
    else some target
  else none

/-- The target of compact nBits; none for invalid or negative ones. -/
def compactToTarget (bits : UInt32) : Option Target :=
  let exponent := (bits >>> 24).toNat
  let mantissa := bits &&& 0x007fffff
  if bits &&& 0x00800000 ≠ 0 ∨ 34 < exponent then none
  else do
    let target ← placeByte exponent (Vector.replicate 32 0) 0 (mantissa >>> 16).toUInt8
    let target ← placeByte exponent target 1 (mantissa >>> 8).toUInt8
    placeByte exponent target 2 mantissa.toUInt8

/-- nBits of difficulty one. -/
def diff1Bits : UInt32 := 0x1d00ffff

/-- The target of difficulty one. -/
def diff1 : Target := (compactToTarget diff1Bits).getD (Vector.replicate 32 0)

/-! ### The comparison -/

/-- Pairs of bytes compared from the most significant on: true unless the first pair that differs
has the larger byte on the left. -/
def bytesAtMost : List (UInt8 × UInt8) → Bool
  | [] => true
  | (h, t) :: rest => if h < t then true else if t < h then false else bytesAtMost rest

/-- Does the hash meet the target? -/
def hashMeetsTarget (hash : Bytes32) (target : Target) : Bool :=
  bytesAtMost (hash.toList.reverse.zip target.toList)

/-- The number that bytes stand for, most significant first. -/
def bigEndian (bytes : List UInt8) : ℕ :=
  bytes.foldl (fun number byte ↦ number * 256 + byte.toNat) 0

/-- The first byte is the most significant one. -/
theorem bigEndian_cons (byte : UInt8) (bytes : List UInt8) :
    bigEndian (byte :: bytes) = byte.toNat * 256 ^ bytes.length + bigEndian bytes := by
  have hshift (bytes : List UInt8) (start : ℕ) :
      bytes.foldl (fun number byte ↦ number * 256 + byte.toNat) start =
        start * 256 ^ bytes.length + bigEndian bytes := by
    induction bytes generalizing start with
    | nil => simp [bigEndian]
    | cons byte bytes ih =>
      rw [bigEndian, List.foldl_cons, List.foldl_cons, ih, ih (0 * 256 + byte.toNat),
        List.length_cons, pow_succ]
      ring
  rw [bigEndian, List.foldl_cons, hshift]
  ring

/-- A number of `n` bytes is below `256 ^ n`. -/
theorem bigEndian_lt (bytes : List UInt8) : bigEndian bytes < 256 ^ bytes.length := by
  induction bytes with
  | nil => simp [bigEndian]
  | cons byte bytes ih =>
    have hbyte : byte.toNat * 256 ^ bytes.length ≤ 255 * 256 ^ bytes.length :=
      Nat.mul_le_mul_right _ (by have := byte.toNat_lt; omega)
    rw [bigEndian_cons, List.length_cons, pow_succ]
    omega

/-- The last bytes of a number are the number modulo a power of 256. -/
theorem bigEndian_drop (bytes : List UInt8) (count : ℕ) :
    bigEndian (bytes.drop count) = bigEndian bytes % 256 ^ (bytes.length - count) := by
  induction bytes generalizing count with
  | nil => simp [bigEndian]
  | cons byte bytes ih =>
    cases count with
    | zero => exact (Nat.mod_eq_of_lt (bigEndian_lt _)).symm
    | succ count =>
      rw [List.drop_succ_cons, ih, bigEndian_cons, List.length_cons, Nat.add_sub_add_right]
      have hpow : 256 ^ bytes.length =
          256 ^ (bytes.length - (bytes.length - count)) * 256 ^ (bytes.length - count) := by
        rw [← pow_add]
        congr 1
        omega
      rw [hpow, ← Nat.mul_assoc, Nat.mul_comm, Nat.mul_add_mod]

/-- The comparison byte by byte is the comparison of the numbers. -/
theorem bytesAtMost_iff {first second : List UInt8} (hlength : first.length = second.length) :
    bytesAtMost (first.zip second) = true ↔ bigEndian first ≤ bigEndian second := by
  induction first generalizing second with
  | nil =>
    obtain rfl := List.length_eq_zero_iff.mp hlength.symm
    simp [bytesAtMost]
  | cons byte first ih =>
    cases second with
    | nil => simp at hlength
    | cons byte' second =>
      have hrest : first.length = second.length := by simpa using hlength
      have hfirst := bigEndian_lt first
      have hsecond := bigEndian_lt second
      rw [List.zip_cons_cons, bytesAtMost, bigEndian_cons, bigEndian_cons, hrest]
      rw [hrest] at hfirst
      rcases lt_trichotomy byte.toNat byte'.toNat with hlt | heq | hgt
      · have hbelow := Nat.mul_le_mul_right (256 ^ second.length) (Nat.succ_le_of_lt hlt)
        rw [Nat.succ_mul] at hbelow
        rw [if_pos (UInt8.lt_iff_toNat_lt.mpr hlt)]
        simp only [true_iff]
        omega
      · rw [if_neg (fun h ↦ absurd (UInt8.lt_iff_toNat_lt.mp h) (by omega)),
          if_neg (fun h ↦ absurd (UInt8.lt_iff_toNat_lt.mp h) (by omega)), ih hrest, heq]
        exact (Nat.add_le_add_iff_left).symm
      · have habove := Nat.mul_le_mul_right (256 ^ second.length) (Nat.succ_le_of_lt hgt)
        rw [Nat.succ_mul] at habove
        rw [if_neg (fun h ↦ absurd (UInt8.lt_iff_toNat_lt.mp h) (by omega)),
          if_pos (UInt8.lt_iff_toNat_lt.mpr hgt)]
        simp only [Bool.false_eq_true, false_iff]
        omega

/-- A hash that meets a target meets every larger one. -/
theorem hashMeetsTarget_mono {hash : Bytes32} {target larger : Target}
    (hle : bigEndian target.toList ≤ bigEndian larger.toList)
    (hmeets : hashMeetsTarget hash target = true) : hashMeetsTarget hash larger = true := by
  unfold hashMeetsTarget at hmeets ⊢
  rw [bytesAtMost_iff (by simp)] at hmeets ⊢
  exact hmeets.trans hle

/-! ### Difficulties -/

/-- `x << n` for a 256-bit number, most significant byte first; bits past the top are lost. -/
def shl (x : Bytes32) (n : ℕ) : Bytes32 :=
  let bytes := n / 8
  let bits : UInt8 := UInt8.ofNat (n % 8)
  let byte (i : ℕ) : UInt8 := x[i]?.getD 0
  Vector.ofFn fun i : Fin 32 ↦
    if bits = 0 then byte (i + bytes)
    else (byte (i + bytes) <<< bits) ||| (byte (i + bytes + 1) >>> (8 - bits))

/-- Long division of a big-endian number by `divisor`, a byte at a time, from a remainder. -/
def longDivision (divisor : ℕ) : ℕ → List UInt8 → List UInt8
  | _, [] => []
  | remainder, byte :: rest =>
    let shifted := remainder * 256 % 2 ^ 128 + byte.toNat
    UInt8.ofNat (shifted / divisor) :: longDivision divisor (shifted % divisor) rest

theorem length_longDivision (divisor remainder : ℕ) (bytes : List UInt8) :
    (longDivision divisor remainder bytes).length = bytes.length := by
  induction bytes generalizing remainder with
  | nil => rfl
  | cons byte rest ih => simp [longDivision, ih]

/-- The bits a difficulty is scaled by before it is rounded down. -/
def scaleBits : ℕ := 31

/-- What the scaled difficulty-one target is divided by: `floor (difficulty * 2 ^ 31)`, at least 1
and below `2 ^ 120`. -/
def difficultyDivisor (difficulty : Binary64) : ℕ :=
  min (((difficulty.mul (.ofNat (2 ^ scaleBits))).max (.ofNat 1)).truncate (2 ^ 128 - 1))
    (2 ^ 120 - 1)

/-- The target of a stratum difficulty. -/
def targetForDifficulty (difficulty : Binary64) : Target :=
  let dividend := shl diff1 scaleBits
  ⟨(longDivision (difficultyDivisor difficulty) 0 dividend.toList).toArray, by
    simp [length_longDivision]⟩

/-- The double of a number given by its bytes, most significant first. -/
def bytesToDouble (bytes : List UInt8) : Binary64 :=
  bytes.foldl (fun number byte ↦ (number.mul (.ofNat 256)).add (.ofNat byte.toNat)) (.ofNat 0)

/-- The difficulty a hash reached. -/
def difficultyOfHash (hash : Bytes32) : Binary64 :=
  let number := bytesToDouble hash.toList.reverse
  if number = .finite 0 then .infinity false else (bytesToDouble diff1.toList).div number

/-- The network difficulty of nBits. -/
def difficultyOfBits (bits : UInt32) : Binary64 :=
  match compactToTarget bits with
  | none => .ofNat 0
  | some target =>
    let number := bytesToDouble target.toList
    if number = .finite 0 then .ofNat 0 else (bytesToDouble diff1.toList).div number

example : targetForDifficulty (.ofNat 1) = diff1 := by decide +kernel

end Bc3Miner.Consensus
