import Bc3Miner.Foundations.EuclidRows
import Bc3Miner.Reference.FieldScaling

/-!
# A batch of divisions

`euclid_batch` of `bc3hash/vendor/bc3/mix.cpp`: up to 32 divisions of Euclid's algorithm on 256-bit
numbers, with the quotients from their top 62 bits. What the omitted bits can make of a remainder is
an interval, and a quotient is taken where both ends of the interval have it.

`batchStep_spec` says that such a quotient is the exact one and that nothing overflows on the way to
it, and `euclidBatch_spec` that a batch gives two consecutive remainders, at least two divisions on,
with the inverses' numerators to match.

Signed words are checked: a sum, product or difference that does not fit 64 bits has no value, so a
batch that returns has not overflowed. That a quotient is taken at all is not promised; the caller
goes another way where none is.
-/

set_option autoImplicit false
set_option relaxedAutoImplicit false

namespace Bc3Miner.Reference

open Foundations
open Bc3Miner.Kernel (f256P f256P_prime)

/-! ### The batch -/

/-- `u`, `v`, `x` and `y` of `inverse256`: modulo the prime, `u = a * x` and `v = a * y`. -/
structure EuclidState where
  u : UInt 4
  v : UInt 4
  x : UInt 4
  y : UInt 4

/-- `__builtin_clzll`, of a word that is not zero. -/
def countLeadingZeros (word : UInt64) : ℕ := 63 - word.toNat.log2

/-- `high`, the highest limb that one of the numbers has. -/
def highLimb (u v : UInt 4) : ℕ → ℕ
  | 0 => 0
  | high + 1 => if u.limb (high + 1) ||| v.limb (high + 1) = 0 then highLimb u v high else high + 1

/-- `top_u` or `top_v`. -/
def topWord (number : UInt 4) (high bits : ℕ) : UInt64 :=
  let shift := if 62 < bits then bits - 62 else 0
  if 62 ≤ bits then number.limb high >>> shift.toUInt64
  else (number.limb high <<< (62 - bits).toUInt64) |||
    (number.limb (high - 1) >>> (bits + 2).toUInt64)

/-- A pass of the loop, `none` inside where it breaks. `SignedWide` has 128 bits. -/
def batchStep (topU topV : UInt64) (rows : EuclidRows) : Option (Option EuclidRows) := do
  let nx ← checked 128 (rows.a * topU.toNat + rows.b * topV.toNat)
  let ny ← checked 128 (rows.c * topU.toNat + rows.d * topV.toNat)
  let lx ← checked 128 (nx + min rows.a 0 + min rows.b 0)
  let hx ← checked 128 (nx + max rows.a 0 + max rows.b 0)
  let ly ← checked 128 (ny + min rows.c 0 + min rows.d 0)
  let hy ← checked 128 (ny + max rows.c 0 + max rows.d 0)
  if lx < 0 ∨ ly ≤ 0 then return none
  let q := UInt64.ofInt lx / UInt64.ofInt hy
  if q ≠ UInt64.ofInt hx / UInt64.ofInt ly ∨ 2147483647 < q then return none
  let nextC ← checked 128 (rows.a - q.toNat * rows.c)
  let nextD ← checked 128 (rows.b - q.toNat * rows.d)
  if nextC < -2147483647 ∨ 2147483647 < nextC ∨ nextD < -2147483647 ∨ 2147483647 < nextD then
    return none
  return some ⟨rows.c, rows.d, nextC, nextD⟩

/-- The loop, with the passes it has left. -/
def batchSteps (topU topV : UInt64) : ℕ → EuclidRows → ℕ → Option (EuclidRows × ℕ)
  | 0, rows, steps => some (rows, steps)
  | left + 1, rows, steps =>
    (batchStep topU topV rows).bind fun outcome ↦
      match outcome with
      | none => some (rows, steps)
      | some next => batchSteps topU topV left next (steps + 1)

/-- `euclid_batch`, `none` inside where it gives up. -/
def euclidBatch (s : EuclidState) : Option (Option EuclidState) := do
  let high := highLimb s.u s.v 3
  if high = 0 then return none
  let bits := 64 - countLeadingZeros (s.u.limb high ||| s.v.limb high)
  let batch ← batchSteps (topWord s.u high bits) (topWord s.v high bits) 32 EuclidRows.start 0
  if batch.2 < 2 then return none
  let rows := batch.1
  return some {
    u := linearPositive s.u s.v rows.a rows.b
    v := linearPositive s.u s.v rows.c rows.d
    x := addMod (scaleMod s.x rows.a) (scaleMod s.y rows.b)
    y := addMod (scaleMod s.x rows.c) (scaleMod s.y rows.d) }

/-! ### The top words -/

/-- The highest limb in use of two numbers, looked for from a limb that neither reaches beyond: it
is not above that one, both numbers are below the limb after it, and one of them has a bit in it
unless it is the lowest. -/
theorem highLimb_spec (u v : UInt 4) (high : ℕ)
    (hu : u.toNat < 2 ^ (64 * (high + 1))) (hv : v.toNat < 2 ^ (64 * (high + 1))) :
    highLimb u v high ≤ high ∧ u.toNat < 2 ^ (64 * (highLimb u v high + 1)) ∧
      v.toNat < 2 ^ (64 * (highLimb u v high + 1)) ∧
      (highLimb u v high ≠ 0 →
        u.limb (highLimb u v high) ||| v.limb (highLimb u v high) ≠ 0) := by
  induction high with
  | zero => exact ⟨le_rfl, hu, hv, fun hne ↦ absurd rfl hne⟩
  | succ high ih =>
    rw [highLimb]
    by_cases hnone : u.limb (high + 1) ||| v.limb (high + 1) = 0
    · rw [if_pos hnone]
      have hzero := UInt64.or_eq_zero_iff.mp hnone
      have hbelow : ∀ {w : UInt 4}, w.toNat < 2 ^ (64 * (high + 1 + 1)) → w.limb (high + 1) = 0 →
          w.toNat < 2 ^ (64 * (high + 1)) := by
        intro w hw hlimb
        have hdigit := Limbs.toNat_limb_div w (high + 1)
        have hpow : 2 ^ (64 * (high + 1 + 1)) = 2 ^ (64 * (high + 1)) * 2 ^ 64 := by
          rw [← pow_add]
          rfl
        have hquotient : w.toNat / 2 ^ (64 * (high + 1)) < 2 ^ 64 := by
          rw [Nat.div_lt_iff_lt_mul (Nat.two_pow_pos _), Nat.mul_comm, ← hpow]
          exact hw
        rw [Nat.mod_eq_of_lt hquotient, hlimb] at hdigit
        exact (Nat.div_eq_zero_iff_lt (Nat.two_pow_pos _)).mp hdigit.symm
      obtain ⟨hle, hu', hv', hfound⟩ := ih (hbelow hu hzero.1) (hbelow hv hzero.2)
      exact ⟨hle.trans (Nat.le_succ high), hu', hv', hfound⟩
    · rw [if_neg hnone]
      exact ⟨le_rfl, hu, hv, fun _ ↦ hnone⟩

/-- The bits that a word has. -/
theorem bits_spec {word : UInt64} (hne : word ≠ 0) :
    0 < 64 - countLeadingZeros word ∧ 64 - countLeadingZeros word ≤ 64 ∧
      word.toNat < 2 ^ (64 - countLeadingZeros word) := by
  have hpos : word.toNat ≠ 0 := fun hzero ↦ hne (UInt64.toNat_inj.mp hzero)
  have hlog : word.toNat.log2 < 64 := (Nat.log2_lt hpos).mpr word.toNat_lt
  have hbits : 64 - countLeadingZeros word = word.toNat.log2 + 1 := by
    rw [countLeadingZeros]
    omega
  rw [hbits]
  exact ⟨Nat.succ_pos _, hlog, Nat.lt_log2_self⟩

/-- The top word of a number, of which at most `bits` bits reach into limb `high`, is its quotient
by the power of two that leaves 62 bits below the highest bit there may be, and it is below
`2 ^ 62`. -/
theorem topWord_toNat {number : UInt 4} {high bits : ℕ} (hhigh : 0 < high) (hhigh' : high < 4)
    (hbits : 0 < bits) (hbits' : bits ≤ 64) (hnumber : number.toNat < 2 ^ (64 * high + bits)) :
    (topWord number high bits).toNat = number.toNat / 2 ^ (64 * high + bits - 62) ∧
      (topWord number high bits).toNat < 2 ^ 62 := by
  have hlt : number.toNat / 2 ^ (64 * high + bits - 62) < 2 ^ 62 := by
    rw [Nat.div_lt_iff_lt_mul (Nat.two_pow_pos _), ← pow_add]
    refine hnumber.trans_le (Nat.pow_le_pow_right Nat.two_pos ?_)
    omega
  suffices hvalue : (topWord number high bits).toNat = number.toNat / 2 ^ (64 * high + bits - 62) by
    exact ⟨hvalue, by rwa [hvalue]⟩
  unfold topWord
  dsimp only
  by_cases hmany : 62 ≤ bits
  · have hshift : (if 62 < bits then bits - 62 else 0) = bits - 62 := by
      split_ifs
      · rfl
      · omega
    have hplace : 64 * high + (bits - 62) = 64 * high + bits - 62 := by omega
    rw [if_pos hmany, hshift, Limbs.toNat_limb_shiftRight number high (by omega), hplace]
    refine Nat.mod_eq_of_lt (hlt.trans_le (Nat.pow_le_pow_right Nat.two_pos ?_))
    omega
  · have hindex : (64 * high + bits - 62) >>> 6 = high - 1 := by
      rw [Nat.shiftRight_eq_div_pow]
      omega
    have hshift : (64 * high + bits - 62) &&& 63 = bits + 2 := by
      rw [Nat.and_two_pow_sub_one_eq_mod (64 * high + bits - 62) 6]
      omega
    have hrest : 64 - (bits + 2) = 62 - bits := by omega
    have hnext : high - 1 + 1 = high := by omega
    have hwindow := Limbs.window_toNat number (by omega : 64 * high + bits - 62 < 64 * 4)
    rw [Limbs.window, hindex, hshift] at hwindow
    rw [if_pos ⟨by omega, by omega⟩, hnext, hrest, UInt64.or_comm] at hwindow
    rw [if_neg hmany, hwindow]
    exact Nat.mod_eq_of_lt (hlt.trans (by norm_num))

/-- The top words of two numbers, aligned at the highest bit that one of them has, have a common
unit. Each number lies between its top word and the next one, both times that unit. -/
theorem topWords_spec {u v : UInt 4} {high : ℕ} (hhigh : high ≠ 0) (hhigh' : high < 4)
    (hu : u.toNat < 2 ^ (64 * (high + 1))) (hv : v.toNat < 2 ^ (64 * (high + 1)))
    (hfound : u.limb high ||| v.limb high ≠ 0) :
    ∃ unit, 0 < unit ∧ ∀ number ∈ [u, v],
      (topWord number high (64 - countLeadingZeros (u.limb high ||| v.limb high))).toNat =
        number.toNat / unit ∧
      (topWord number high (64 - countLeadingZeros (u.limb high ||| v.limb high))).toNat <
        2 ^ 62 := by
  obtain ⟨hbits, hbits', hword⟩ := bits_spec hfound
  generalize 64 - countLeadingZeros (u.limb high ||| v.limb high) = bits at hbits hbits' hword
  refine ⟨_, Nat.two_pow_pos _, fun number hmem ↦
    topWord_toNat (Nat.pos_of_ne_zero hhigh) hhigh' hbits hbits' ?_⟩
  have hlimb : (number.limb high).toNat < 2 ^ bits ∧ number.toNat < 2 ^ (64 * (high + 1)) := by
    rw [UInt64.toNat_or] at hword
    rcases List.mem_pair.mp hmem with rfl | rfl
    · exact ⟨Nat.left_le_or.trans_lt hword, hu⟩
    · exact ⟨Nat.right_le_or.trans_lt hword, hv⟩
  have hdigit := Limbs.toNat_limb_div number high
  have hquotient : number.toNat / 2 ^ (64 * high) < 2 ^ 64 := by
    rw [Nat.div_lt_iff_lt_mul (Nat.two_pow_pos _), ← pow_add, Nat.add_comm]
    exact hlimb.2
  rw [Nat.mod_eq_of_lt hquotient] at hdigit
  rw [pow_add, Nat.mul_comm, ← Nat.div_lt_iff_lt_mul (Nat.two_pow_pos _), ← hdigit]
  exact hlimb.1

/-! ### A division -/

/-- The entries have 32 bits. -/
structure Fits (rows : EuclidRows) : Prop where
  a : |rows.a| ≤ 2147483647
  b : |rows.b| ≤ 2147483647
  c : |rows.c| ≤ 2147483647
  d : |rows.d| ≤ 2147483647

/-- The top words are the numbers' up to the unit. -/
structure Estimates (unit u v : ℕ) (topU topV : UInt64) : Prop where
  pos : 0 < unit
  valueU : topU.toNat = u / unit
  valueV : topV.toNat = v / unit
  smallU : topU.toNat < 2 ^ 62
  smallV : topV.toNat < 2 ^ 62

/-- What the loop makes of a row: the interval is around the row's number, and there is no overflow
on the way to it, as the remainders have no more bits than the numbers. -/
theorem row_interval {unit u v : ℕ} {topU topV : UInt64} (hestimates : Estimates unit u v topU topV)
    {a b : ℤ} (ha : |a| ≤ 2147483647) (hb : |b| ≤ 2147483647) {x : ℕ}
    (hvalue : a * u + b * v = x) (hx : x ≤ max u v) :
    ∃ n low high : ℤ, checked 128 (a * topU.toNat + b * topV.toNat) = some n ∧
      checked 128 (n + min a 0 + min b 0) = some low ∧
      checked 128 (n + max a 0 + max b 0) = some high ∧
      low * unit ≤ x ∧ (x : ℤ) ≤ high * unit ∧ low ≤ high ∧ high < 2 ^ 63 := by
  obtain ⟨hpos, hU, hV, hsmallU, hsmallV⟩ := hestimates
  have htopU : (topU.toNat : ℤ) < 2 ^ 62 := by exact_mod_cast hsmallU
  have htopV : (topV.toNat : ℤ) < 2 ^ 62 := by exact_mod_cast hsmallV
  have hlowU : topU.toNat * unit ≤ u := hU ▸ Nat.div_mul_le_self u unit
  have hlowV : topV.toNat * unit ≤ v := hV ▸ Nat.div_mul_le_self v unit
  have hhighU : u ≤ topU.toNat * unit + unit := by
    have hlt := Nat.lt_div_mul_add hpos (a := u)
    rw [← hU] at hlt
    exact hlt.le
  have hhighV : v ≤ topV.toNat * unit + unit := by
    have hlt := Nat.lt_div_mul_add hpos (a := v)
    rw [← hV] at hlt
    exact hlt.le
  obtain ⟨hlow, hhigh⟩ := EuclidRows.combination_bounds hlowU hhighU hlowV hhighV a b
  rw [hvalue] at hlow hhigh
  have hentry : ∀ {entry top : ℤ}, |entry| ≤ 2147483647 → 0 ≤ top → top < 2 ^ 62 →
      |entry * top| < 2 ^ 93 := by
    intro entry top hentry htop htop'
    rw [abs_mul, abs_of_nonneg htop]
    calc |entry| * top ≤ 2147483647 * top := mul_le_mul_of_nonneg_right hentry htop
      _ < 2 ^ 93 := by omega
  have hleft := abs_lt.mp (hentry ha (Int.natCast_nonneg topU.toNat) htopU)
  have hright := abs_lt.mp (hentry hb (Int.natCast_nonneg topV.toNat) htopV)
  have ha' := abs_le.mp ha
  have hb' := abs_le.mp hb
  generalize hn : a * topU.toNat + b * topV.toNat = n at hlow hhigh
  refine ⟨n, n + min a 0 + min b 0, n + max a 0 + max b 0, ?_, ?_, ?_, hlow, hhigh, by omega, ?_⟩
  · exact checked_of_abs_lt (abs_lt.mpr ⟨by omega, by omega⟩)
  · exact checked_of_abs_lt (abs_lt.mpr ⟨by omega, by omega⟩)
  · exact checked_of_abs_lt (abs_lt.mpr ⟨by omega, by omega⟩)
  · have hbound : (x : ℤ) ≤ 2 ^ 62 * unit := by
      have hmax : x ≤ 2 ^ 62 * unit := by
        have hunitU : (topU.toNat + 1) * unit ≤ 2 ^ 62 * unit := Nat.mul_le_mul_right _ hsmallU
        have hunitV : (topV.toNat + 1) * unit ≤ 2 ^ 62 * unit := Nat.mul_le_mul_right _ hsmallV
        rw [Nat.succ_mul] at hunitU hunitV
        omega
      exact_mod_cast hmax
    have hlowLe : n + min a 0 + min b 0 ≤ 2 ^ 62 :=
      le_of_mul_le_mul_right (hlow.trans hbound) (by exact_mod_cast hpos)
    omega

theorem toNat_ofInt {x : ℤ} (hpos : 0 ≤ x) (hx : x < 2 ^ 63) :
    (UInt64.ofInt x).toNat = x.toNat := by
  rw [UInt64.ofInt, UInt64.toNat_ofNat']
  omega

/-- A pass of the loop over estimates of two numbers, with rows that fit their words. It has an
outcome, so nothing overflows; and if it does not break, the divisor is not zero, the quotient is
the exact one, and the next rows fit again. -/
theorem batchStep_spec {unit u v : ℕ} {topU topV : UInt64}
    (hestimates : Estimates unit u v topU topV) {rows : EuclidRows} (hfits : Fits rows)
    {count x y : ℕ} (hafter : rows.After u v count x y) :
    ∃ outcome, batchStep topU topV rows = some outcome ∧
      ∀ next, outcome = some next → 0 < y ∧ next = rows.next (x / y : ℕ) ∧ Fits next := by
  obtain ⟨nx, lx, hx, hnx, hlx, hhx, hlowX, hhighX, hleX, hltX⟩ :=
    row_interval hestimates hfits.a hfits.b hafter.first hafter.bounds.1
  obtain ⟨ny, ly, hy, hny, hly, hhy, hlowY, hhighY, hleY, hltY⟩ :=
    row_interval hestimates hfits.c hfits.d hafter.second hafter.bounds.2
  have hpos := hestimates.pos
  unfold batchStep
  simp only [hnx, hny, hlx, hhx, hly, hhy, Option.bind_eq_bind, Option.bind_some]
  by_cases hsign : lx < 0 ∨ ly ≤ 0
  · rw [if_pos hsign]
    exact ⟨none, rfl, fun next hnext ↦ absurd hnext (by simp)⟩
  rw [if_neg hsign]
  rw [not_or, Int.not_lt, Int.not_le] at hsign
  by_cases hsame : UInt64.ofInt lx / UInt64.ofInt hy ≠ UInt64.ofInt hx / UInt64.ofInt ly ∨
      2147483647 < UInt64.ofInt lx / UInt64.ofInt hy
  · rw [if_pos hsame]
    exact ⟨none, rfl, fun next hnext ↦ absurd hnext (by simp)⟩
  rw [if_neg hsame]
  have hquotient : (UInt64.ofInt lx / UInt64.ofInt hy).toNat = lx.toNat / hy.toNat := by
    rw [UInt64.toNat_div, toNat_ofInt hsign.1 (by omega), toNat_ofInt (by omega) hltY]
  have hquotient' : (UInt64.ofInt hx / UInt64.ofInt ly).toNat = hx.toNat / ly.toNat := by
    rw [UInt64.toNat_div, toNat_ofInt (by omega) hltX, toNat_ofInt (by omega) (by omega)]
  rw [not_or, not_not, ← UInt64.toNat_inj, UInt64.lt_iff_toNat_lt, Nat.not_lt, hquotient,
    hquotient'] at hsame
  generalize UInt64.ofInt lx / UInt64.ofInt hy = q at hquotient
  obtain ⟨hagree, hsmall⟩ := hsame
  have hlowX' : lx.toNat * unit ≤ x := by
    zify
    rwa [Int.toNat_of_nonneg hsign.1]
  have hhighX' : x ≤ hx.toNat * unit := by
    zify
    rwa [Int.toNat_of_nonneg (by omega)]
  have hlowY' : ly.toNat * unit ≤ y := by
    zify
    rwa [Int.toNat_of_nonneg (by omega)]
  have hhighY' : y ≤ hy.toNat * unit := by
    zify
    rwa [Int.toNat_of_nonneg (by omega)]
  have hexact := EuclidRows.quotient_of_bounds hpos hlowX' hhighX' hlowY' hhighY' (by omega) hagree
  have hpositive : 0 < y := (Nat.mul_pos (by omega : 0 < ly.toNat) hpos).trans_le hlowY'
  rw [← hexact] at hquotient hsmall
  have hmask : (2147483647 : UInt64).toNat = 2147483647 := rfl
  rw [hmask] at hsmall
  have hnext : ∀ {entry entry' : ℤ}, |entry| ≤ 2147483647 → |entry'| ≤ 2147483647 →
      checked 128 (entry - q.toNat * entry') = some (entry - q.toNat * entry') := by
    intro entry entry' hentry hentry'
    have hproduct : |(q.toNat : ℤ) * entry'| ≤ 2147483647 * 2147483647 := by
      rw [abs_mul, Nat.abs_cast]
      exact mul_le_mul (by omega) hentry' (abs_nonneg _) (by norm_num)
    refine checked_of_abs_lt ?_
    have hfirst := abs_le.mp hentry
    have hsecond := abs_le.mp hproduct
    exact abs_lt.mpr ⟨by omega, by omega⟩
  rw [hnext hfits.a hfits.c, Option.bind_some, hnext hfits.b hfits.d, Option.bind_some, hquotient]
  split_ifs with hrange
  · exact ⟨none, rfl, fun next hnext ↦ absurd hnext (by simp)⟩
  · refine ⟨_, rfl, fun next hnext ↦ ?_⟩
    obtain rfl := Option.some.inj hnext
    have hentryC : |rows.a - (x / y : ℕ) * rows.c| ≤ 2147483647 := abs_le.mpr ⟨by omega, by omega⟩
    have hentryD : |rows.b - (x / y : ℕ) * rows.d| ≤ 2147483647 := abs_le.mpr ⟨by omega, by omega⟩
    exact ⟨hpositive, rfl, hfits.c, hfits.d, hentryC, hentryD⟩

/-- A run of the loop. -/
theorem batchSteps_spec {unit u v : ℕ} {topU topV : UInt64}
    (hestimates : Estimates unit u v topU topV) (left : ℕ) {rows : EuclidRows} (hfits : Fits rows)
    {count x y : ℕ} (hafter : rows.After u v count x y) :
    ∃ rows' steps x' y', batchSteps topU topV left rows count = some (rows', steps) ∧
      Fits rows' ∧ rows'.After u v steps x' y' := by
  induction left generalizing rows count x y with
  | zero => exact ⟨rows, count, x, y, rfl, hfits, hafter⟩
  | succ left ih =>
    obtain ⟨outcome, hstep, hnext⟩ := batchStep_spec hestimates hfits hafter
    rw [batchSteps, hstep, Option.bind_some]
    rcases outcome with _ | next
    · exact ⟨rows, count, x, y, rfl, hfits, hafter⟩
    · obtain ⟨hy, rfl, hfits'⟩ := hnext next rfl
      exact ih hfits' (hafter.next hy)

/-! ### A batch -/

/-- What `inverse256` keeps: the numbers are coprime, and `x` and `y` are what they are divided by
`a`. -/
structure EuclidState.Inverts (s : EuclidState) (a : ZMod f256P) : Prop where
  x : Stands f256P s.x (s.u.toNat / a)
  y : Stands f256P s.y (s.v.toNat / a)
  coprime : s.u.toNat.Coprime s.v.toNat

/-- The combination of the two for a row. -/
theorem EuclidState.Inverts.row {s : EuclidState} {a : ZMod f256P} (hs : s.Inverts a) {b c : ℤ}
    (hb : b.natAbs < 2 ^ 63) (hc : c.natAbs < 2 ^ 63) {n : ℕ}
    (hn : b * s.u.toNat + c * s.v.toNat = n) :
    Stands f256P (addMod (scaleMod s.x b) (scaleMod s.y c)) (n / a) := by
  have hsum := addMod_stands (scaleMod_stands hs.x hb) (scaleMod_stands hs.y hc)
  have hcast := congrArg (Int.cast : ℤ → ZMod f256P) hn
  push_cast at hcast
  rwa [← hcast, add_div, mul_div_assoc, mul_div_assoc]

/-- A batch does not overflow; one that does not give up keeps the invariant and at least halves the
product of the numbers. -/
theorem euclidBatch_spec {s : EuclidState} {a : ZMod f256P} (hs : s.Inverts a) :
    ∃ outcome, euclidBatch s = some outcome ∧ ∀ next, outcome = some next →
      next.Inverts a ∧ 2 * (next.u.toNat * next.v.toNat) ≤ s.u.toNat * s.v.toNat := by
  have hu : s.u.toNat < 2 ^ 256 := s.u.toNat_lt
  have hv : s.v.toNat < 2 ^ 256 := s.v.toNat_lt
  unfold euclidBatch
  obtain ⟨hle, huHigh, hvHigh, hfound⟩ := highLimb_spec s.u s.v 3 s.u.toNat_lt s.v.toNat_lt
  dsimp only
  generalize highLimb s.u s.v 3 = high at hle huHigh hvHigh hfound
  by_cases hzero : high = 0
  · rw [if_pos hzero]
    exact ⟨none, rfl, fun next hnext ↦ absurd hnext (by simp)⟩
  rw [if_neg hzero]
  obtain ⟨unit, hunit, htops⟩ := topWords_spec hzero (by omega) huHigh hvHigh (hfound hzero)
  generalize 64 - countLeadingZeros (s.u.limb high ||| s.v.limb high) = bits at htops
  obtain ⟨htopU, hsmallU⟩ := htops s.u (by simp)
  obtain ⟨htopV, hsmallV⟩ := htops s.v (by simp)
  have hestimates : Estimates unit s.u.toNat s.v.toNat (topWord s.u high bits)
    (topWord s.v high bits) := ⟨hunit, htopU, htopV, hsmallU, hsmallV⟩
  have hstart : Fits EuclidRows.start := ⟨by decide, by decide, by decide, by decide⟩
  obtain ⟨rows, steps, x, y, hsteps, hfits, hafter⟩ := batchSteps_spec hestimates 32 hstart
    (EuclidRows.start_after s.u.toNat s.v.toNat)
  rw [hsteps, Option.bind_eq_bind, Option.bind_some]
  by_cases hfew : steps < 2
  · rw [if_pos hfew]
    exact ⟨none, rfl, fun next hnext ↦ absurd hnext (by simp)⟩
  rw [if_neg hfew]
  refine ⟨_, rfl, fun next hnext ↦ ?_⟩
  obtain rfl := Option.some.inj hnext
  have hentry : ∀ {entry : ℤ}, |entry| ≤ 2147483647 → entry.natAbs < 2 ^ 62 := by
    intro entry hbound
    have hrange := abs_le.mp hbound
    omega
  have hfirst : (linearPositive s.u s.v rows.a rows.b).toNat = x :=
    linearPositive_toNat (hentry hfits.a) (hentry hfits.b) hafter.first
      (hafter.bounds.1.trans_lt (max_lt hu hv))
  have hsecond : (linearPositive s.u s.v rows.c rows.d).toNat = y :=
    linearPositive_toNat (hentry hfits.c) (hentry hfits.d) hafter.second
      (hafter.bounds.2.trans_lt (max_lt hu hv))
  have hwide : ∀ {entry : ℤ}, |entry| ≤ 2147483647 → entry.natAbs < 2 ^ 63 := fun hbound ↦
    (hentry hbound).trans (by norm_num)
  refine ⟨⟨?_, ?_, ?_⟩, ?_⟩
  · rw [hfirst]
    exact hs.row (hwide hfits.a) (hwide hfits.b) hafter.first
  · rw [hsecond]
    exact hs.row (hwide hfits.c) (hwide hfits.d) hafter.second
  · rw [hfirst, hsecond, Nat.Coprime, hafter.gcd]
    exact hs.coprime
  · rw [hfirst, hsecond]
    exact hafter.half (by omega)

end Bc3Miner.Reference
