import Bc3Miner.Foundations.LocalArray
import Bc3Miner.Reference.Constants

/-!
# The mix of the reference implementation

`mix512` of `bc3hash/vendor/bc3/mix.cpp`. Its modular primitives are given: an exponentiation by a
fixed exponent, the power of a fixed base, a product and an inverse are functions to canonical
residues, and so is a scalar multiplication of one of the four curve points.

`digest` is the mix without arrays: the message words are three sequences, each word from earlier
ones, and the stages are folds over the rounds. `mix512_eq` says that the function of the source
computes it, and never reads a place its arrays do not have.

A place that was not written is no number (`Foundations.LocalArray`), so `mix512_eq` includes that
every word is there when it is used.
-/

set_option autoImplicit false
set_option relaxedAutoImplicit false

namespace Bc3Miner.Reference

open Foundations

/-! ### What the mix is made of -/

/-- The modular primitives: pairs of powers with the fixed exponents, powers of the fixed bases,
products modulo `2 ^ 64 - 59` and `2 ^ 256 - 189`, the multiples of the curve points `H`, `J`, `K`
and `L`, and the inverse modulo `2 ^ 256 - 36113`. -/
structure Primitives where
  exp64 : UInt64 → UInt64 → UInt64 × UInt64
  exp128 : UInt 2 → UInt 2 → UInt 2 × UInt 2
  exp256 : UInt 4 → UInt 4 → UInt 4 × UInt 4
  pow64 : UInt64 → UInt64
  pow128 : UInt 2 → UInt 2
  pow256 : UInt 4 → UInt 4 → UInt 4 × UInt 4
  mul64 : UInt64 → UInt64 → UInt64
  mul256 : UInt 4 → UInt 4 → UInt 4
  curve : Fin 4 → UInt 4 → UInt 4 × UInt 4
  inverse256 : UInt 4 → UInt 4

namespace Primitives

variable (p : Primitives)

/-- The 64-bit primitives, as functions of numbers of one limb. -/
def exp64Pair (a b : UInt 1) : UInt 1 × UInt 1 :=
  ((UInt.ofWord (p.exp64 (a.limb 0) (b.limb 0)).1), UInt.ofWord (p.exp64 (a.limb 0) (b.limb 0)).2)

def power64 (a : UInt 1) : UInt 1 := UInt.ofWord (p.pow64 (a.limb 0))

def product64 (a b : UInt 1) : UInt 1 := UInt.ofWord (p.mul64 (a.limb 0) (b.limb 0))

end Primitives

/-- The eight lanes of the first stage. -/
structure Lanes8 (α : Type) where
  c1 : α
  c2 : α
  c3 : α
  c4 : α
  c5 : α
  c6 : α
  c7 : α
  c8 : α

/-- The four lanes of the second stage. -/
structure Lanes4 (α : Type) where
  f1 : α
  f2 : α
  f3 : α
  f4 : α

/-! ### Rounds -/

/-- A round of the first stage. Lanes are updated in place, in this order. -/
def round1 (p : Primitives) (folded : UInt64) (constant message : UInt 1) :
    Lanes8 (UInt 1) → Lanes8 (UInt 1)
  | ⟨c1, c2, c3, c4, c5, c6, c7, c8⟩ =>
    let powers := p.exp64Pair (c1 ^^^ sig0 c2) (c3 ^^^ sig1 c4)
    let d1 := powers.1 + ror 7 c6 + rol 13 c5
    let d2 := powers.2 + ch c5 c6 c7 + maj c1 c4 c8
    let d3 := c8 + bigSig0 c7 + constant
    let d4 := c5 + bigSig1 c1 + d1 + message + p.power64 d3
    let c8 := c7 + UInt.ofWord folded
    let c7 := c6 + d1 + sig0 (p.product64 d1 d3)
    let c6 := c5 + sig1 (d2 ^^^ d3)
    let c5 := c4
    let c4 := c3 + d4
    let c3 := c2
    let c2 := c1 ^^^ d3
    let c1 := gamma d1 d2 + (d3 ^^^ d4) + beta (p.product64 d2 d4)
    ⟨c1, c2, c3, c4, c5, c6, c7, c8⟩

/-- The lanes of the second stage, of two of the first each. -/
def toLanes4 (c : Lanes8 (UInt 1)) : Lanes4 (UInt 2) :=
  ⟨⟨#v[c.c5.limb 0, c.c1.limb 0]⟩, ⟨#v[c.c6.limb 0, c.c2.limb 0]⟩, ⟨#v[c.c7.limb 0, c.c3.limb 0]⟩,
    ⟨#v[c.c8.limb 0, c.c4.limb 0]⟩⟩

/-- A round of the second stage. -/
def round2 (p : Primitives) (constant message : UInt 2) : Lanes4 (UInt 2) → Lanes4 (UInt 2)
  | ⟨f1, f2, f3, f4⟩ =>
    let powers := p.exp128 (f1 ^^^ beta f3) (f2 ^^^ beta f4)
    let a := powers.1 + sig0 (f2 ^^^ f4) + ch f2 f3 f4
    let b := powers.2 + sig1 (f1 ^^^ f3) + maj f1 f2 f3
    let c := rol 29 (~~~f1) + ror 7 (~~~f2) + f3 + ~~~f4 + message + p.pow128 f3
    let d := rol 29 (~~~f3) + ror 7 f4 + f2 + ~~~f1 + constant
    let f4 := f3 + a
    let f3 := f2
    let f2 := f1 + c + beta d
    let f1 := b + bigSig0 (a ^^^ c ^^^ d)
    ⟨f1, f2, f3, f4⟩

/-- The halves of the third stage, of two lanes of the second each. -/
def toHalves (f : Lanes4 (UInt 2)) : UInt 4 × UInt 4 :=
  (⟨#v[f.f3.limb 0, f.f3.limb 1, f.f1.limb 0, f.f1.limb 1]⟩,
    ⟨#v[f.f4.limb 0, f.f4.limb 1, f.f2.limb 0, f.f2.limb 1]⟩)

/-- A round of the third stage. -/
def round3 (p : Primitives) (constant message : UInt 4) : UInt 4 × UInt 4 → UInt 4 × UInt 4
  | (h1, h2) =>
    let powers := p.exp256 (rol 11 h1 ^^^ h2) (h1 ^^^ beta (~~~h2))
    let j1 := powers.1 + beta (h1 ^^^ h2)
    let j2 := powers.2 + gamma h1 h2
    let powers := p.exp256 j1 j2
    let j3 := gamma j1 j2 + powers.1 + constant
    let j4 := gamma j3 (beta h2) + powers.2 + message + ch j1 j2 j3
    let (j5, j6) := p.curve 0 h1
    let (j7, j8) := p.curve 1 h2
    let (j9, j10) := p.curve 2 j1
    let (j11, j12) := p.curve 3 j3
    let h2 := h1 + gamma j1 j3 + maj j2 j3 j4 + j5 + j8 + ch j1 j6 j7 + beta j10 + j11
    let h1 := beta j2 + gamma j3 j4 + bigSig1 (p.mul256 j1 j2) + maj j7 j6 j5 + bigSig0 j9 + j12
    (h1, h2)

/-- A round of the fourth stage. -/
def round4 (p : Primitives) : UInt 4 × UInt 4 → UInt 4 → UInt 4 × UInt 4
  | (u1, u2), fc =>
    let powers := p.pow256 u1 u2
    let k1 := powers.1 + beta u2
    let k2 := powers.2 + gamma u1 u2 + ch k1 u2 u1
    let k3 := p.inverse256 k2 + beta u1 + beta (u2 ^^^ k1 ^^^ fc)
    let u2 := (k1 ^^^ u1) + maj k1 k2 u2 + beta k3
    let u1 := beta k1 + k2
    (u1, u2)

/-! ### The message words -/

/-- Byte `i` of the input. -/
def byteAt (input : Vector UInt8 64) (i : ℕ) : UInt8 := input.toList.getD i 0

/-- The words of 64 bits, from eight words of input on. -/
def fill64 (input : Vector UInt8 64) : Option (LocalArray (UInt 1) 32) := do
  let m ← LocalArray.fill 0 (fun _ i ↦ some (UInt.load fun j ↦ byteAt input (8 * i + j))) 8 0
    (LocalArray.initialised (UInt.ofWord 0))
  LocalArray.fill 0 (fun m i ↦ do
    return gamma (← m.read (i - 8)) (← m.read (i - 4)) +
      gamma (← m.read (i - 7)) (← m.read (i - 3)) +
      gamma (← m.read (i - 6)) (← m.read (i - 2)) +
      gamma (← m.read (i - 5)) (← m.read (i - 1))) 24 8 m

/-- The words of 128 bits, from the last eight of 64 bits on. -/
def fill128 (m64 : LocalArray (UInt 1) 32) : Option (LocalArray (UInt 2) 48) := do
  let m ← LocalArray.fill 0 (fun _ i ↦ do return UInt.ofUInt (← m64.read i)) 8 24
    (LocalArray.initialised (UInt.ofWord 0))
  LocalArray.fill 0 (fun m i ↦ do
    return beta (← m.read (i - 8)) + beta (← m.read (i - 7)) + beta (← m.read (i - 4)) +
      beta (← m.read (i - 3))) 16 32 m

/-- The words of 256 bits, from the last seven of 128 bits on. -/
def fill256 (m128 : LocalArray (UInt 2) 48) : Option (LocalArray (UInt 4) 64) := do
  let m ← LocalArray.fill 0 (fun _ i ↦ do return UInt.ofUInt (← m128.read i)) 7 41
    (LocalArray.initialised (UInt.ofWord 0))
  LocalArray.fill 0 (fun m i ↦ do
    return beta (← m.read (i - 7)) + beta (← m.read (i - 6)) + beta (← m.read (i - 2)) +
      beta (← m.read (i - 1))) 16 48 m

/-! ### The mix -/

/-- The lanes the first stage starts from. -/
def start (m64 : LocalArray (UInt 1) 32) : Option (Lanes8 (UInt 1)) := do
  return ⟨(← m64.read 0) ^^^ (← base[0]?), (← m64.read 1) ^^^ (← base[1]?),
    (← m64.read 2) ^^^ (← base[2]?), (← m64.read 3) ^^^ (← base[3]?),
    (← m64.read 4) ^^^ (← base[4]?), (← m64.read 5) ^^^ (← base[5]?),
    (← m64.read 6) ^^^ (← base[6]?), (← m64.read 7) ^^^ (← base[7]?)⟩

/-- The 32 rounds of the first stage. -/
def rounds1 (p : Primitives) (folded : UInt64) (m64 : LocalArray (UInt 1) 32)
    (c : Lanes8 (UInt 1)) : Option (Lanes8 (UInt 1)) :=
  (List.range 32).foldlM (fun c i ↦ do
    return round1 p folded (← round64[i]?) (← m64.read i) c) c

/-- The 16 rounds of the second stage. -/
def rounds2 (p : Primitives) (m128 : LocalArray (UInt 2) 48) (f : Lanes4 (UInt 2)) :
    Option (Lanes4 (UInt 2)) :=
  (List.range 16).foldlM (fun f i ↦ do
    return round2 p (← round128[i]?) (← m128.read (32 + i)) f) f

/-- The 16 rounds of the third stage. -/
def rounds3 (p : Primitives) (m256 : LocalArray (UInt 4) 64) (h : UInt 4 × UInt 4) :
    Option (UInt 4 × UInt 4) :=
  (List.range 16).foldlM (fun h i ↦ do
    return round3 p (← round256[i]?) (← m256.read (48 + i)) h) h

def mix512 (p : Primitives) (input : Vector UInt8 64) (folded : UInt64) : Option (List UInt8) := do
  let m64 ← fill64 input
  let c ← start m64
  let m128 ← fill128 m64
  let m256 ← fill256 m128
  let c ← rounds1 p folded m64 c
  let f ← rounds2 p m128 (toLanes4 c)
  let h ← rounds3 p m256 (toHalves f)
  let u := final.foldl (round4 p) (h.1, h.2 + UInt.ofWord folded)
  return (u.1 + beta u.2).store

/-! ### The mix without arrays -/

/-- Word `i` of 64 bits. -/
def word64 (input : Vector UInt8 64) (i : ℕ) : UInt 1 :=
  if i < 8 then UInt.load fun j ↦ byteAt input (8 * i + j)
  else
    gamma (word64 input (i - 8)) (word64 input (i - 4)) +
      gamma (word64 input (i - 7)) (word64 input (i - 3)) +
      gamma (word64 input (i - 6)) (word64 input (i - 2)) +
      gamma (word64 input (i - 5)) (word64 input (i - 1))
termination_by i

/-- Word `i` of 128 bits, for `i` from 24 on. -/
def word128 (input : Vector UInt8 64) (i : ℕ) : UInt 2 :=
  if i < 32 then UInt.ofUInt (word64 input i)
  else
    beta (word128 input (i - 8)) + beta (word128 input (i - 7)) + beta (word128 input (i - 4)) +
      beta (word128 input (i - 3))
termination_by i

/-- Word `i` of 256 bits, for `i` from 41 on. -/
def word256 (input : Vector UInt8 64) (i : ℕ) : UInt 4 :=
  if i < 48 then UInt.ofUInt (word128 input i)
  else
    beta (word256 input (i - 7)) + beta (word256 input (i - 6)) + beta (word256 input (i - 2)) +
      beta (word256 input (i - 1))
termination_by i

theorem word64_of_lt (input : Vector UInt8 64) {i : ℕ} (hi : i < 8) :
    word64 input i = UInt.load fun j ↦ byteAt input (8 * i + j) := by
  rw [word64, if_pos hi]

/-- From the ninth word on a word of the schedule is the sum of four mixed pairs before it. -/
theorem word64_of_ge (input : Vector UInt8 64) {i : ℕ} (hi : 8 ≤ i) :
    word64 input i = gamma (word64 input (i - 8)) (word64 input (i - 4)) +
      gamma (word64 input (i - 7)) (word64 input (i - 3)) +
      gamma (word64 input (i - 6)) (word64 input (i - 2)) +
      gamma (word64 input (i - 5)) (word64 input (i - 1)) := by
  rw [word64, if_neg (Nat.not_lt.mpr hi)]

theorem word128_of_lt (input : Vector UInt8 64) {i : ℕ} (hi : i < 32) :
    word128 input i = UInt.ofUInt (word64 input i) := by
  rw [word128, if_pos hi]

theorem word128_of_ge (input : Vector UInt8 64) {i : ℕ} (hi : 32 ≤ i) :
    word128 input i = beta (word128 input (i - 8)) + beta (word128 input (i - 7)) +
      beta (word128 input (i - 4)) + beta (word128 input (i - 3)) := by
  rw [word128, if_neg (Nat.not_lt.mpr hi)]

theorem word256_of_lt (input : Vector UInt8 64) {i : ℕ} (hi : i < 48) :
    word256 input i = UInt.ofUInt (word128 input i) := by
  rw [word256, if_pos hi]

theorem word256_of_ge (input : Vector UInt8 64) {i : ℕ} (hi : 48 ≤ i) :
    word256 input i = beta (word256 input (i - 7)) + beta (word256 input (i - 6)) +
      beta (word256 input (i - 2)) + beta (word256 input (i - 1)) := by
  rw [word256, if_neg (Nat.not_lt.mpr hi)]

/-- Entry `i` of a table of constants, zero past its end. -/
def entry {L : ℕ} (table : List (UInt L)) (i : ℕ) : UInt L := table.getD i (UInt.ofWord 0)

theorem getElem?_eq_entry {L : ℕ} {table : List (UInt L)} {i : ℕ} (hi : i < table.length) :
    table[i]? = some (entry table i) := by
  unfold entry
  rw [List.getD_eq_getElem?_getD, List.getElem?_eq_getElem hi, Option.getD_some]

def lanes (input : Vector UInt8 64) : Lanes8 (UInt 1) :=
  ⟨word64 input 0 ^^^ entry base 0, word64 input 1 ^^^ entry base 1,
    word64 input 2 ^^^ entry base 2, word64 input 3 ^^^ entry base 3,
    word64 input 4 ^^^ entry base 4, word64 input 5 ^^^ entry base 5,
    word64 input 6 ^^^ entry base 6, word64 input 7 ^^^ entry base 7⟩

def stage1 (p : Primitives) (input : Vector UInt8 64) (folded : UInt64) : Lanes8 (UInt 1) :=
  (List.range 32).foldl (fun c i ↦ round1 p folded (entry round64 i) (word64 input i) c)
    (lanes input)

def stage2 (p : Primitives) (input : Vector UInt8 64) (folded : UInt64) : Lanes4 (UInt 2) :=
  (List.range 16).foldl (fun f i ↦ round2 p (entry round128 i) (word128 input (32 + i)) f)
    (toLanes4 (stage1 p input folded))

def stage3 (p : Primitives) (input : Vector UInt8 64) (folded : UInt64) : UInt 4 × UInt 4 :=
  (List.range 16).foldl (fun h i ↦ round3 p (entry round256 i) (word256 input (48 + i)) h)
    (toHalves (stage2 p input folded))

def stage4 (p : Primitives) (input : Vector UInt8 64) (folded : UInt64) : UInt 4 × UInt 4 :=
  final.foldl (round4 p)
    ((stage3 p input folded).1, (stage3 p input folded).2 + UInt.ofWord folded)

/-- The mix of an input. -/
def digest (p : Primitives) (input : Vector UInt8 64) (folded : UInt64) : List UInt8 :=
  ((stage4 p input folded).1 + beta (stage4 p input folded).2).store

/-! ### The arrays hold the message words -/

variable (input : Vector UInt8 64)

/-- The 64-bit schedule stays inside its array and holds its words. -/
theorem fill64_holds :
    ∃ m, fill64 input = some m ∧ m.Holds 0 (word64 input) 0 32 := by
  refine LocalArray.fill_fill_holds le_rfl rfl rfl le_rfl (fun m i _ hlt ↦ ?_)
    fun m i hheld hge hlt ↦ ?_
  · rw [word64_of_lt input hlt]
  · have hread (j : ℕ) (hj : j < i) : m.read j = some (word64 input j) :=
      hheld.read_eq j (Nat.zero_le j) hj
    rw [word64_of_ge input hge]
    simp [hread (i - 8) (by omega), hread (i - 7) (by omega), hread (i - 6) (by omega),
      hread (i - 5) (by omega), hread (i - 4) (by omega), hread (i - 3) (by omega),
      hread (i - 2) (by omega), hread (i - 1) (by omega)]

/-- The 128-bit schedule stays inside its array and holds its words. -/
theorem fill128_holds {m64 : LocalArray (UInt 1) 32} (hm64 : m64.Holds 0 (word64 input) 0 32) :
    ∃ m, fill128 m64 = some m ∧ m.Holds 0 (word128 input) 24 48 := by
  refine LocalArray.fill_fill_holds (Nat.zero_le 24) rfl rfl le_rfl (fun m i hge hlt ↦ ?_)
    fun m i hheld hge hlt ↦ ?_
  · rw [word128_of_lt input hlt]
    have hread : m64.read i = some (word64 input i) := hm64.read_eq i (Nat.zero_le i) hlt
    simp [hread]
  · have hread (j : ℕ) (hlow : 24 ≤ j) (hj : j < i) : m.read j = some (word128 input j) :=
      hheld.read_eq j hlow hj
    rw [word128_of_ge input hge]
    simp [hread (i - 8) (by omega) (by omega), hread (i - 7) (by omega) (by omega),
      hread (i - 4) (by omega) (by omega), hread (i - 3) (by omega) (by omega)]

/-- The 256-bit schedule stays inside its array and holds its words. -/
theorem fill256_holds {m128 : LocalArray (UInt 2) 48} (hm128 : m128.Holds 0 (word128 input) 24 48) :
    ∃ m, fill256 m128 = some m ∧ m.Holds 0 (word256 input) 41 64 := by
  refine LocalArray.fill_fill_holds (Nat.zero_le 41) rfl rfl le_rfl (fun m i hge hlt ↦ ?_)
    fun m i hheld hge hlt ↦ ?_
  · rw [word256_of_lt input hlt]
    have hread : m128.read i = some (word128 input i) := hm128.read_eq i (by omega) hlt
    simp [hread]
  · have hread (j : ℕ) (hlow : 41 ≤ j) (hj : j < i) : m.read j = some (word256 input j) :=
      hheld.read_eq j hlow hj
    rw [word256_of_ge input hge]
    simp [hread (i - 7) (by omega) (by omega), hread (i - 6) (by omega) (by omega),
      hread (i - 2) (by omega) (by omega), hread (i - 1) (by omega) (by omega)]

/-- The lanes start as the first words of the schedule. -/
theorem start_eq {m64 : LocalArray (UInt 1) 32} (hm64 : m64.Holds 0 (word64 input) 0 32) :
    start m64 = some (lanes input) := by
  have hread (j : ℕ) (hj : j < 8) : m64.read j = some (word64 input j) :=
    hm64.read_eq j (Nat.zero_le j) (by omega)
  unfold start lanes
  simp only [hread 0 (by omega), hread 1 (by omega), hread 2 (by omega), hread 3 (by omega),
    hread 4 (by omega), hread 5 (by omega), hread 6 (by omega), hread 7 (by omega)]
  rfl

variable (p : Primitives) (folded : UInt64)

/-- The rounds of the first stage read their messages inside the array. -/
theorem rounds1_eq {m64 : LocalArray (UInt 1) 32} (hm64 : m64.Holds 0 (word64 input) 0 32) :
    rounds1 p folded m64 (lanes input) = some (stage1 p input folded) := by
  refine foldlM_eq_some (fun i hmem c ↦ ?_) (lanes input)
  have hi : i < 32 := List.mem_range.mp hmem
  have hconstant : round64[i]? = some (entry round64 i) := getElem?_eq_entry hi
  have hread : m64.read i = some (word64 input i) := hm64.read_eq i (Nat.zero_le i) hi
  rw [hconstant, hread]
  rfl

/-- The rounds of the second stage read their messages inside the array. -/
theorem rounds2_eq {m128 : LocalArray (UInt 2) 48} (hm128 : m128.Holds 0 (word128 input) 24 48) :
    rounds2 p m128 (toLanes4 (stage1 p input folded)) = some (stage2 p input folded) := by
  refine foldlM_eq_some (fun i hmem f ↦ ?_) (toLanes4 (stage1 p input folded))
  have hi : i < 16 := List.mem_range.mp hmem
  have hconstant : round128[i]? = some (entry round128 i) := getElem?_eq_entry hi
  have hread : m128.read (32 + i) = some (word128 input (32 + i)) :=
    hm128.read_eq (32 + i) (by omega) (by omega)
  rw [hconstant, hread]
  rfl

/-- The rounds of the third stage read their messages inside the array. -/
theorem rounds3_eq {m256 : LocalArray (UInt 4) 64} (hm256 : m256.Holds 0 (word256 input) 41 64) :
    rounds3 p m256 (toHalves (stage2 p input folded)) = some (stage3 p input folded) := by
  refine foldlM_eq_some (fun i hmem h ↦ ?_) (toHalves (stage2 p input folded))
  have hi : i < 16 := List.mem_range.mp hmem
  have hconstant : round256[i]? = some (entry round256 i) := getElem?_eq_entry hi
  have hread : m256.read (48 + i) = some (word256 input (48 + i)) :=
    hm256.read_eq (48 + i) (by omega) (by omega)
  rw [hconstant, hread]
  rfl

/-- The function of the source computes the mix. -/
theorem mix512_eq : mix512 p input folded = some (digest p input folded) := by
  rcases fill64_holds input with ⟨m64, hfill64, hm64⟩
  rcases fill128_holds input hm64 with ⟨m128, hfill128, hm128⟩
  rcases fill256_holds input hm128 with ⟨m256, hfill256, hm256⟩
  unfold mix512
  simp only [hfill64, start_eq input hm64, hfill128, hfill256, rounds1_eq input p folded hm64,
    rounds2_eq input p folded hm128, rounds3_eq input p folded hm256, Option.bind_eq_bind,
    Option.bind_some]
  rfl

end Bc3Miner.Reference
