import Bc3Miner.Reference.EuclidBatch

/-!
# The inverse modulo `2 ^ 256 - 36113`

`inverse256` of `bc3hash/vendor/bc3/mix.cpp`: batches of Euclid's divisions, a pass of the binary
algorithm where there is none, and Euclid's algorithm on words once the numbers have 62 bits. The
loops have a limit here, and nothing comes out where the limit is reached, a signed number overflows
or a word is shifted by more bits than it has. `inverse256_inverts` is that 1025 passes are enough
for every number, that none of this happens in them, that what comes out is the canonical inverse,
and that the kernel's divsteps come to the same.

The count of passes is a bound on the size of the numbers, which a batch or a pass of the binary
algorithm shrinks; 1025 is what it comes to at 256 bits, and nothing depends on it being least.
-/

set_option autoImplicit false
set_option relaxedAutoImplicit false

namespace Bc3Miner.Reference

open Foundations
open Bc3Miner.Kernel (cF256 f256Modulus_isOf f256P f256P_prime invF256 modinv256With_isInverse
  norm256 norm256_toNat)
open Bc3Miner.Reference.Mod

/-! ### The loops -/

/-- The loop on words, with the coefficients of the two remainders. -/
def smallEuclid : ℕ → UInt64 → UInt64 → EuclidRows → Option (ℤ × ℤ)
  | 0, _, _, _ => none
  | passes + 1, smallU, smallV, rows =>
    if smallV = 0 then some (rows.a, rows.b)
    else do
      let q := smallU / smallV
      let nextA ← (checked 128 (rows.a - q.toNat * rows.c)).bind (checked 64)
      let nextB ← (checked 128 (rows.b - q.toNat * rows.d)).bind (checked 64)
      smallEuclid passes smallV (smallU % smallV) ⟨rows.c, rows.d, nextA, nextB⟩

/-- The zeros below the lowest bit that is set, of so many bits. -/
def trailingZeros : ℕ → ℕ → ℕ
  | 0, _ => 0
  | bits + 1, number => if number % 2 = 0 then trailingZeros bits (number / 2) + 1 else 0

/-- `__builtin_ctzll`. -/
def countTrailingZeros (word : UInt64) : ℕ := trailingZeros 64 word.toNat

/-- The loop that makes `u` odd and divides `x` alike. -/
def makeOdd : ℕ → UInt 4 → UInt 4 → Option (UInt 4 × UInt 4)
  | 0, _, _ => none
  | passes + 1, u, x =>
    if u.limb 0 &&& 1 = 0 then
      let n := if u.limb 0 ≠ 0 then countTrailingZeros (u.limb 0) else 64
      (shiftRight u n).bind fun u ↦ (dividePower2Mod x n).bind fun x ↦ makeOdd passes u x
    else some (u, x)

def makeBothOdd (passes : ℕ) (s : EuclidState) : Option EuclidState := do
  let left ← makeOdd passes s.u s.x
  let right ← makeOdd passes s.v s.y
  some ⟨left.1, right.1, left.2, right.2⟩

/-- The smaller number taken off the greater one. -/
def EuclidState.subtract (s : EuclidState) : EuclidState :=
  if s.u.ge s.v then { s with u := s.u - s.v, x := subtractMod s.x s.y }
  else { s with v := s.v - s.u, y := subtractMod s.y s.x }

/-- Whether both numbers have at most 62 bits. -/
def EuclidState.isSmall (s : EuclidState) : Bool :=
  s.u.limb 1 ||| s.u.limb 2 ||| s.u.limb 3 ||| s.v.limb 1 ||| s.v.limb 2 ||| s.v.limb 3 == 0 &&
    (s.u.limb 0 ||| s.v.limb 0) >>> 62 == 0

/-- `u == one ? x : y`, once one of the numbers is one. -/
def EuclidState.inverse (s : EuclidState) : UInt 4 := if s.u = UInt.ofWord 1 then s.x else s.y

/-- The loop of `inverse256`, with the limit of the loops in it and the passes it has left. -/
def inverseLoop (limit : ℕ) : ℕ → EuclidState → Option (UInt 4)
  | 0, _ => none
  | passes + 1, s =>
    if s.u = UInt.ofWord 1 ∨ s.v = UInt.ofWord 1 then some s.inverse
    else if s.isSmall then
      (smallEuclid limit (s.u.limb 0) (s.v.limb 0) EuclidRows.start).map fun coefficients ↦
        addMod (scaleMod s.x coefficients.1) (scaleMod s.y coefficients.2)
    else
      (euclidBatch s).bind fun batch ↦
        match batch with
        | some next => inverseLoop limit passes next
        | none =>
          (makeBothOdd limit s).bind fun odd ↦
            if odd.u = UInt.ofWord 1 ∨ odd.v = UInt.ofWord 1 then some odd.inverse
            else inverseLoop limit passes odd.subtract

/-- `inverse256`. -/
def inverse256 (limit : ℕ) (a : UInt 4) : Option (UInt 4) :=
  let a := normalize 36113 a
  if a.zero then some (UInt.ofWord 0)
  else inverseLoop limit limit ⟨a, modulus 36113, UInt.ofWord 1, UInt.ofWord 0⟩

/-! ### Numbers of 62 bits -/

/-- The numbers of the loop fit, and it ends with a combination that is the greatest common divisor.
From the second division on the product of the remainders halves, so the divisions the loop is given
are enough. -/
theorem smallEuclid_spec {u v : ℕ} (hu : u < 2 ^ 62) (hv : v < 2 ^ 62)
    {passes bits : ℕ} {smallU smallV : UInt64} {rows : EuclidRows} {count : ℕ}
    (hafter : rows.After u v count smallU.toNat smallV.toNat)
    (ha : rows.a.natAbs < 2 ^ 62) (hb : rows.b.natAbs < 2 ^ 62) (hc : rows.c.natAbs < 2 ^ 62)
    (hd : rows.d.natAbs < 2 ^ 62) (hproduct : smallU.toNat * smallV.toNat < 2 ^ bits)
    (hpasses : bits + 1 + (if count = 0 then 1 else 0) ≤ passes) :
    ∃ coefficients, smallEuclid passes smallU smallV rows = some coefficients ∧
      coefficients.1.natAbs < 2 ^ 62 ∧ coefficients.2.natAbs < 2 ^ 62 ∧
      coefficients.1 * u + coefficients.2 * v = u.gcd v := by
  induction passes generalizing bits smallU smallV rows count with
  | zero => omega
  | succ passes ih =>
    rw [smallEuclid]
    by_cases hzero : smallV = 0
    · rw [if_pos hzero]
      have hnone : smallV.toNat = 0 := by rw [hzero]; rfl
      have hgcd := hafter.gcd
      rw [hnone, Nat.gcd_zero_right] at hgcd
      refine ⟨_, rfl, ha, hb, ?_⟩
      rw [hafter.first, hgcd]
    · have hvpos : 0 < smallV.toNat := Nat.pos_of_ne_zero fun h ↦ hzero (UInt64.toNat_inj.mp h)
      have hnext := hafter.next hvpos
      rw [← UInt64.toNat_div, ← UInt64.toNat_mod] at hnext
      have hentry : ∀ {entry rest whole : ℕ}, entry * smallV.toNat + rest = whole →
          whole < 2 ^ 62 → entry < 2 ^ 62 := by
        intro entry rest whole hsum hwhole
        have hscaled : entry * 1 ≤ entry * smallV.toNat := Nat.mul_le_mul_left _ hvpos
        omega
      have hcNext := hentry hnext.left hv
      have hdNext := hentry hnext.right hu
      have hfits : ∀ {entry : ℤ}, entry.natAbs < 2 ^ 62 →
          (checked 128 entry).bind (checked 64) = some entry := by
        intro entry hsmall
        have habs : |entry| < 2 ^ 62 := by
          rw [Int.abs_eq_natAbs]
          exact_mod_cast hsmall
        rw [checked_of_abs_lt (habs.trans (by norm_num)), Option.bind_some,
          checked_of_abs_lt (habs.trans (by norm_num))]
      have hfitsC := hfits hcNext
      have hfitsD := hfits hdNext
      dsimp only [EuclidRows.next] at hfitsC hfitsD
      rw [if_neg hzero]
      dsimp only
      rw [hfitsC, hfitsD]
      have hlater : count + 1 ≠ 0 := Nat.succ_ne_zero count
      by_cases hfirst : count = 0
      · have hless : smallV.toNat * (smallU % smallV).toNat < 2 ^ bits := by
          rw [UInt64.toNat_mod]
          calc smallV.toNat * (smallU.toNat % smallV.toNat)
              ≤ smallV.toNat * smallU.toNat := Nat.mul_le_mul_left _ (Nat.mod_le _ _)
            _ = smallU.toNat * smallV.toNat := Nat.mul_comm _ _
            _ < 2 ^ bits := hproduct
        refine ih hnext hc hd hcNext hdNext hless ?_
        rw [if_pos hfirst] at hpasses
        rw [if_neg hlater]
        omega
      · have hordered := hafter.ordered (Nat.pos_of_ne_zero hfirst)
        have hhalf := EuclidRows.two_mul_mod_lt hvpos hordered.le
        obtain ⟨fewer, rfl⟩ : ∃ fewer, bits = fewer + 1 := by
          rcases bits with _ | fewer
          · have hone : 1 * 1 ≤ smallU.toNat * smallV.toNat :=
              Nat.mul_le_mul (by omega) hvpos
            omega
          · exact ⟨fewer, rfl⟩
        have hless : smallV.toNat * (smallU % smallV).toNat < 2 ^ fewer := by
          rw [UInt64.toNat_mod]
          have hdouble : 2 * (smallV.toNat * (smallU.toNat % smallV.toNat)) < 2 * 2 ^ fewer := by
            calc 2 * (smallV.toNat * (smallU.toNat % smallV.toNat))
                = 2 * (smallU.toNat % smallV.toNat) * smallV.toNat := by ring
              _ ≤ smallU.toNat * smallV.toNat := Nat.mul_le_mul_right _ hhalf.le
              _ < 2 ^ (fewer + 1) := hproduct
              _ = 2 * 2 ^ fewer := Nat.pow_succ'
          omega
        refine ih hnext hc hd hcNext hdNext hless ?_
        rw [if_neg hfirst] at hpasses
        rw [if_neg hlater]
        omega

/-! ### Odd numbers -/

/-- The count of trailing zeros is at most the number of bits, and that power of two divides the
number. -/
theorem trailingZeros_spec (bits number : ℕ) :
    trailingZeros bits number ≤ bits ∧ 2 ^ trailingZeros bits number ∣ number := by
  induction bits generalizing number with
  | zero => exact ⟨le_rfl, one_dvd number⟩
  | succ bits ih =>
    rw [trailingZeros]
    split_ifs with heven
    · obtain ⟨hle, factor, hfactor⟩ := ih (number / 2)
      refine ⟨Nat.succ_le_succ hle, factor, ?_⟩
      rw [pow_succ', Nat.mul_assoc, ← hfactor]
      omega
    · exact ⟨Nat.zero_le _, one_dvd number⟩

theorem and_one_eq_zero (word : UInt64) : word &&& 1 = 0 ↔ word.toNat % 2 = 0 := by
  have hone : (1 : UInt64).toNat = 1 := rfl
  rw [← UInt64.toNat_inj, UInt64.toNat_and, hone, Nat.and_one_is_mod]
  rfl

theorem limb_zero_mod (u : UInt 4) : (u.limb 0).toNat % 2 = u.toNat % 2 := by
  rw [Limbs.toNat_limb_div, Nat.mul_zero, pow_zero, Nat.div_one]
  exact Nat.mod_mod_of_dvd _ (by norm_num)

/-- How far an even number is shifted. -/
theorem shift_spec {u : UInt 4} (heven : u.toNat % 2 = 0) {n : ℕ}
    (hn : n = if u.limb 0 ≠ 0 then countTrailingZeros (u.limb 0) else 64) :
    0 < n ∧ n ≤ 64 ∧ 2 ^ n ∣ u.toNat := by
  have hlow := Limbs.toNat_limb_div u 0
  rw [Nat.mul_zero, pow_zero, Nat.div_one] at hlow
  have hword : ∀ {bits : ℕ}, bits ≤ 64 → 2 ^ bits ∣ (u.limb 0).toNat → 2 ^ bits ∣ u.toNat := by
    intro bits hbits hdvd
    rw [hlow] at hdvd
    exact (Nat.dvd_mod_iff (pow_dvd_pow 2 hbits)).mp hdvd
  by_cases hzero : u.limb 0 = 0
  · rw [if_neg (not_not_intro hzero)] at hn
    subst hn
    refine ⟨by norm_num, le_rfl, hword le_rfl ?_⟩
    rw [hzero]
    exact dvd_zero _
  · rw [if_pos hzero, countTrailingZeros] at hn
    obtain ⟨hle, hdvd⟩ := trailingZeros_spec 64 (u.limb 0).toNat
    rw [← hn] at hle hdvd
    refine ⟨?_, hle, hword hle hdvd⟩
    rw [hn, trailingZeros, if_pos (by rw [limb_zero_mod, heven])]
    exact Nat.succ_pos _

/-- Let a number be positive, with fewer bits than there are passes, and another stand for it
divided by the number to invert. Taking all factors of two out of the first, and dividing the second
by the same powers, returns: what is left is odd and positive, divides the number, and the second
still stands for it. -/
theorem makeOdd_spec {passes bits : ℕ} (hpasses : bits < passes) {u x : UInt 4} {a : ZMod f256P}
    (hpos : 0 < u.toNat) (hu : u.toNat < 2 ^ bits) (hx : Stands f256P x (u.toNat / a)) :
    ∃ left, makeOdd passes u x = some left ∧ Stands f256P left.2 (left.1.toNat / a) ∧
      left.1.toNat % 2 = 1 ∧ left.1.toNat ∣ u.toNat ∧ 0 < left.1.toNat := by
  induction passes generalizing bits u x with
  | zero => omega
  | succ passes ih =>
    have heven := and_one_eq_zero (u.limb 0)
    rw [limb_zero_mod] at heven
    rw [makeOdd]
    by_cases hodd : u.limb 0 &&& 1 = 0
    · rw [if_pos hodd]
      dsimp only
      generalize hn : (if u.limb 0 ≠ 0 then countTrailingZeros (u.limb 0) else 64) = n
      obtain ⟨hnpos, hn64, hdvd⟩ := shift_spec (heven.mp hodd) hn.symm
      obtain ⟨shifted, hshifted, hvalue⟩ := shiftRight_spec u hnpos hn64
      obtain ⟨divided, hdivided, hdividedStands⟩ := dividePower2Mod_stands hx hnpos hn64
      rw [hshifted, Option.bind_some, hdivided, Option.bind_some]
      have hexact : shifted.toNat * 2 ^ n = u.toNat := by
        rw [hvalue, Nat.div_mul_cancel hdvd]
      have hquotient : (u.toNat / a) / 2 ^ n = shifted.toNat / a := by
        rw [div_right_comm, ← hexact, Nat.cast_mul, Nat.cast_pow, Nat.cast_ofNat,
          mul_div_cancel_right₀ _ (pow_ne_zero n two_ne_zero_f256P)]
      rw [hquotient] at hdividedStands
      have hnext : 0 < shifted.toNat := by
        by_contra hnone
        rw [Nat.eq_zero_of_not_pos hnone, Nat.zero_mul] at hexact
        omega
      have htwo : 2 ^ 1 ≤ 2 ^ n := Nat.pow_le_pow_right Nat.two_pos hnpos
      have hhalf : shifted.toNat * 2 ≤ u.toNat := by
        rw [← hexact]
        exact Nat.mul_le_mul_left _ htwo
      obtain ⟨fewer, rfl⟩ : ∃ fewer, bits = fewer + 1 := by
        rcases bits with _ | fewer
        · rw [pow_zero] at hu
          omega
        · exact ⟨fewer, rfl⟩
      rw [pow_succ] at hu
      obtain ⟨left, hleft, hstands, hleftOdd, hleftDvd, hleftPos⟩ :=
        ih (by omega : fewer < passes) hnext (by omega) hdividedStands
      exact ⟨left, hleft, hstands, hleftOdd, hleftDvd.trans ⟨2 ^ n, hexact.symm⟩, hleftPos⟩
    · rw [if_neg hodd]
      have hmod : u.toNat % 2 = 1 := by
        have hnot := mt heven.mpr hodd
        omega
      exact ⟨(u, x), rfl, hx, hmod, dvd_rfl, hpos⟩

/-! ### The loop -/

theorem eq_one_iff (x : UInt 4) : x = UInt.ofWord 1 ↔ x.toNat = 1 := by
  have hone : (UInt.ofWord 1 : UInt 4).toNat = 1 := toNat_ofWord small256 1
  exact ⟨fun hx ↦ by rw [hx, hone], fun hx ↦ Limbs.toNat_injective (hx.trans hone.symm)⟩

/-- Once one of the numbers is one, the other of `x` and `y` is the inverse. -/
theorem EuclidState.Inverts.inverse {s : EuclidState} {a : ZMod f256P}
    (hx : Stands f256P s.x (s.u.toNat / a)) (hy : Stands f256P s.y (s.v.toNat / a))
    (hone : s.u = UInt.ofWord 1 ∨ s.v = UInt.ofWord 1) : Stands f256P s.inverse a⁻¹ := by
  unfold EuclidState.inverse
  split_ifs with hu
  · rwa [(eq_one_iff s.u).mp hu, Nat.cast_one, one_div] at hx
  · have hv := (eq_one_iff s.v).mp (hone.resolve_left hu)
    rwa [hv, Nat.cast_one, one_div] at hy

/-- One if both numbers are odd, when a pass need not halve their product. -/
def EuclidState.bothOdd (s : EuclidState) : ℕ := s.u.toNat % 2 * (s.v.toNat % 2)

/-- Numbers of 62 bits are their lowest limbs. -/
theorem EuclidState.isSmall_spec {s : EuclidState} (hsmall : s.isSmall = true) :
    ((s.u.limb 0).toNat = s.u.toNat ∧ (s.v.limb 0).toNat = s.v.toNat) ∧
      s.u.toNat < 2 ^ 62 ∧ s.v.toNat < 2 ^ 62 := by
  unfold EuclidState.isSmall at hsmall
  simp only [Bool.and_eq_true, beq_iff_eq, UInt64.or_eq_zero_iff] at hsmall
  obtain ⟨⟨⟨⟨⟨⟨hu1, hu2⟩, hu3⟩, hv1⟩, hv2⟩, hv3⟩, hwords⟩ := hsmall
  have hzero : (0 : UInt64).toNat = 0 := rfl
  have hu := toNat_four s.u
  have hv := toNat_four s.v
  rw [hu1, hu2, hu3, hzero] at hu
  rw [hv1, hv2, hv3, hzero] at hv
  have hshift := congrArg UInt64.toNat hwords
  rw [UInt64.toNat_shiftRight, UInt64.toNat_or, hzero] at hshift
  have hcount : (62 : UInt64).toNat % 64 = 62 := rfl
  rw [hcount, Nat.shiftRight_eq_div_pow, Nat.div_eq_zero_iff_lt (Nat.two_pow_pos 62)] at hshift
  have hleft := (Nat.left_le_or (m := (s.v.limb 0).toNat)).trans_lt hshift
  have hright := (Nat.right_le_or (n := (s.u.limb 0).toNat)).trans_lt hshift
  refine ⟨⟨?_, ?_⟩, ?_, ?_⟩ <;> omega

/-- Once both numbers have at most 62 bits, the plain algorithm on words ends with a limit of 126
passes or more, and the combination of the two cofactors by its coefficients is canonical and the
inverse, or zero if there is none. -/
theorem EuclidState.Inverts.small {s : EuclidState} {a : ZMod f256P} (hs : s.Inverts a)
    (hsmall : s.isSmall = true) {limit : ℕ} (hlimit : 126 ≤ limit) :
    ∃ r, ((smallEuclid limit (s.u.limb 0) (s.v.limb 0) EuclidRows.start).map fun coefficients ↦
        addMod (scaleMod s.x coefficients.1) (scaleMod s.y coefficients.2)) = some r ∧
      Stands f256P r a⁻¹ := by
  obtain ⟨⟨hu, hv⟩, hult, hvlt⟩ := EuclidState.isSmall_spec hsmall
  have hafter := EuclidRows.start_after (s.u.limb 0).toNat (s.v.limb 0).toNat
  rw [← hu] at hult
  rw [← hv] at hvlt
  have hproduct : (s.u.limb 0).toNat * (s.v.limb 0).toNat < 2 ^ 124 := by
    calc (s.u.limb 0).toNat * (s.v.limb 0).toNat < 2 ^ 62 * 2 ^ 62 :=
          Nat.mul_lt_mul'' hult hvlt
      _ = 2 ^ 124 := by norm_num
  obtain ⟨coefficients, hrun, hc, hd, hgcd⟩ := smallEuclid_spec hult hvlt hafter (by decide)
    (by decide) (by decide) (by decide) hproduct (by rw [if_pos rfl]; omega : _ ≤ limit)
  refine ⟨_, by rw [hrun, Option.map_some], ?_⟩
  rw [hu, hv, hs.coprime.gcd_eq_one] at hgcd
  have hrow := hs.row (hc.trans (by norm_num)) (hd.trans (by norm_num)) hgcd
  rwa [Nat.cast_one, one_div] at hrow

/-- Dividing both numbers by two until they are odd comes to an end within the limit, keeps what the
state inverts, and only takes factors of two away. -/
theorem EuclidState.Inverts.makeBothOdd {s : EuclidState} {a : ZMod f256P} (hs : s.Inverts a)
    (hu : 0 < s.u.toNat) (hv : 0 < s.v.toNat) {limit : ℕ} (hlimit : 257 ≤ limit) :
    ∃ odd, Reference.makeBothOdd limit s = some odd ∧ odd.Inverts a ∧ odd.u.toNat % 2 = 1 ∧
      odd.v.toNat % 2 = 1 ∧ odd.u.toNat ∣ s.u.toNat ∧ odd.v.toNat ∣ s.v.toNat := by
  obtain ⟨left, hleft, hx, hleftOdd, hleftDvd, hleftPos⟩ :=
    makeOdd_spec (by omega : 64 * 4 < limit) hu s.u.toNat_lt hs.x
  obtain ⟨right, hright, hy, hrightOdd, hrightDvd, hrightPos⟩ :=
    makeOdd_spec (by omega : 64 * 4 < limit) hv s.v.toNat_lt hs.y
  refine ⟨⟨left.1, right.1, left.2, right.2⟩, ?_, ⟨hx, hy, ?_⟩, hleftOdd, hrightOdd, hleftDvd,
    hrightDvd⟩
  · rw [Reference.makeBothOdd, hleft, hright]
    rfl
  · exact (hs.coprime.coprime_dvd_left hleftDvd).coprime_dvd_right hrightDvd

/-- A difference keeps the invariant, makes an odd number even and the product no greater. -/
theorem EuclidState.Inverts.subtract {s : EuclidState} {a : ZMod f256P} (hs : s.Inverts a)
    (hu : s.u.toNat % 2 = 1) (hv : s.v.toNat % 2 = 1) :
    s.subtract.Inverts a ∧ s.subtract.bothOdd = 0 ∧
      s.subtract.u.toNat * s.subtract.v.toNat ≤ s.u.toNat * s.v.toNat := by
  unfold EuclidState.subtract EuclidState.bothOdd
  by_cases hge : s.u.ge s.v = true
  · have hle := (Limbs.ge_iff s.u s.v).mp hge
    have hvalue := toNat_sub_of_le hle
    rw [if_pos hge]
    refine ⟨⟨?_, hs.y, ?_⟩, ?_, ?_⟩
    · have hdifference := subtractMod_stands hs.x hs.y
      rwa [← sub_div, ← Nat.cast_sub hle, ← hvalue] at hdifference
    · dsimp only
      rw [hvalue]
      exact (Nat.coprime_sub_self_left hle).mpr hs.coprime
    · dsimp only
      have heven : (s.u - s.v).toNat % 2 = 0 := by omega
      rw [heven, Nat.zero_mul]
    · exact Nat.mul_le_mul_right _ (by dsimp only; omega)
  · have hlt := mt (Limbs.ge_iff s.u s.v).mpr hge
    have hle : s.u.toNat ≤ s.v.toNat := by omega
    have hvalue := toNat_sub_of_le hle
    rw [if_neg hge]
    refine ⟨⟨hs.x, ?_, ?_⟩, ?_, ?_⟩
    · have hdifference := subtractMod_stands hs.y hs.x
      rwa [← sub_div, ← Nat.cast_sub hle, ← hvalue] at hdifference
    · dsimp only
      rw [hvalue]
      exact (Nat.coprime_sub_self_right hle).mpr hs.coprime
    · dsimp only
      have heven : (s.v - s.u).toNat % 2 = 0 := by omega
      rw [heven, Nat.mul_zero]
    · exact Nat.mul_le_mul_left _ (by dsimp only; omega)

/-- Where a number was even, making both odd halves the product. -/
theorem product_of_odd {u v u' v' bits : ℕ} (hu : u' ∣ u) (hv : v' ∣ v) (hupos : 0 < u)
    (hvpos : 0 < v) (hu' : u' % 2 = 1) (hv' : v' % 2 = 1) (hproduct : u * v < 2 ^ (bits + 1))
    (heven : u % 2 * (v % 2) = 0) : u' * v' < 2 ^ bits := by
  have hhalf : ∀ {n n' : ℕ}, n' ∣ n → 0 < n → n' % 2 = 1 → n % 2 = 0 → 2 * n' ≤ n := by
    rintro n n' ⟨factor, rfl⟩ hpos hodd heven
    rcases factor with _ | _ | factor
    · omega
    · omega
    · have hscaled : n' * 2 ≤ n' * (factor + 1 + 1) := Nat.mul_le_mul_left _ (by omega)
      omega
  have hule := Nat.le_of_dvd hupos hu
  have hvle := Nat.le_of_dvd hvpos hv
  have hdouble : 2 * (u' * v') ≤ u * v := by
    rcases Nat.mul_eq_zero.mp heven with hzero | hzero
    · calc 2 * (u' * v') = 2 * u' * v' := (Nat.mul_assoc _ _ _).symm
        _ ≤ u * v := Nat.mul_le_mul (hhalf hu hupos hu' hzero) hvle
    · calc 2 * (u' * v') = u' * (2 * v') := Nat.mul_left_comm _ _ _
        _ ≤ u * v := Nat.mul_le_mul hule (hhalf hv hvpos hv' hzero)
  rw [pow_succ'] at hproduct
  omega

/-- Of two passes, one halves the product: a batch does, and a pass of the binary algorithm does
unless both numbers are odd, which the pass before did not leave. -/
theorem inverseLoop_spec {limit : ℕ} (hlimit : 257 ≤ limit) {passes bits : ℕ} {s : EuclidState}
    {a : ZMod f256P} (hs : s.Inverts a) (hproduct : s.u.toNat * s.v.toNat < 2 ^ bits)
    (hbits : 1 ≤ bits) (hpasses : 2 * bits + s.bothOdd ≤ passes) :
    ∃ r, inverseLoop limit passes s = some r ∧ Stands f256P r a⁻¹ := by
  induction passes generalizing bits s with
  | zero => omega
  | succ passes ih =>
    rw [inverseLoop]
    by_cases hone : s.u = UInt.ofWord 1 ∨ s.v = UInt.ofWord 1
    · rw [if_pos hone]
      exact ⟨_, rfl, EuclidState.Inverts.inverse hs.x hs.y hone⟩
    rw [if_neg hone]
    by_cases hsmall : s.isSmall = true
    · rw [if_pos hsmall]
      exact hs.small hsmall (by omega)
    rw [if_neg hsmall]
    rw [not_or, eq_one_iff, eq_one_iff] at hone
    have hupos := EuclidRows.pos_of_coprime hs.coprime hone.2
    have hvpos := EuclidRows.pos_of_coprime hs.coprime.symm hone.1
    have hfour : 2 * 2 ≤ s.u.toNat * s.v.toNat := Nat.mul_le_mul (by omega) (by omega)
    obtain ⟨fewer, rfl⟩ : ∃ fewer, bits = fewer + 1 := ⟨bits - 1, by omega⟩
    have hfewer : 1 ≤ fewer := by
      rcases fewer with _ | fewer
      · rw [Nat.zero_add, pow_one] at hproduct
        omega
      · omega
    have hbothOdd : ∀ t : EuclidState, t.bothOdd ≤ 1 := fun t ↦
      Nat.mul_le_mul (by omega : t.u.toNat % 2 ≤ 1) (by omega : t.v.toNat % 2 ≤ 1)
    obtain ⟨outcome, hbatch, hnext⟩ := euclidBatch_spec hs
    rw [hbatch, Option.bind_some]
    rcases outcome with _ | next
    · obtain ⟨odd, hmake, hodd, hu', hv', hudvd, hvdvd⟩ := hs.makeBothOdd hupos hvpos hlimit
      dsimp only
      rw [hmake, Option.bind_some]
      by_cases hend : odd.u = UInt.ofWord 1 ∨ odd.v = UInt.ofWord 1
      · rw [if_pos hend]
        exact ⟨_, rfl, EuclidState.Inverts.inverse hodd.x hodd.y hend⟩
      rw [if_neg hend]
      obtain ⟨hinverts, heven, hle⟩ := hodd.subtract hu' hv'
      by_cases hzero : s.bothOdd = 0
      · have hhalf := product_of_odd hudvd hvdvd hupos hvpos hu' hv' hproduct hzero
        exact ih hinverts (hle.trans_lt hhalf) hfewer (by omega)
      · have hsame : odd.u.toNat * odd.v.toNat ≤ s.u.toNat * s.v.toNat :=
          Nat.mul_le_mul (Nat.le_of_dvd hupos hudvd) (Nat.le_of_dvd hvpos hvdvd)
        exact ih hinverts (hle.trans_lt (hsame.trans_lt hproduct)) hbits (by omega)
    · obtain ⟨hinverts, hhalf⟩ := hnext next rfl
      have hnextOdd := hbothOdd next
      rw [pow_succ'] at hproduct
      exact ih hinverts (by omega) hfewer (by omega)

/-! ### The inverse -/

/-- 1025 passes are enough for every number. -/
theorem inverse256_stands {limit : ℕ} (hlimit : 1025 ≤ limit) (a : UInt 4) :
    ∃ r, inverse256 limit a = some r ∧ Stands f256P r (a.toNat : ZMod f256P)⁻¹ := by
  have hnormal := stands_normalize small256 a
  rw [toNat_modulus256] at hnormal
  have hzeroWord : (UInt.ofWord 0 : UInt 4).toNat = 0 := toNat_ofWord small256 0
  have honeWord : (UInt.ofWord 1 : UInt 4).toNat = 1 := toNat_ofWord small256 1
  rw [← hnormal.residue]
  have hcanonical := hnormal.canonical
  unfold inverse256
  dsimp only
  generalize (normalize 36113 a : UInt 4) = n at hcanonical
  by_cases hzero : n.zero = true
  · rw [if_pos hzero]
    refine ⟨_, rfl, by rw [hzeroWord]; exact f256P_prime.pos, ?_⟩
    rw [hzeroWord, (zero_iff n).mp hzero, Nat.cast_zero, inv_zero]
  · rw [if_neg hzero]
    have hpos : 0 < n.toNat := Nat.pos_of_ne_zero (mt (zero_iff n).mpr hzero)
    have hne : (n.toNat : ZMod f256P) ≠ 0 := by
      rw [Ne, ZMod.natCast_eq_zero_iff]
      exact fun hdvd ↦ absurd (Nat.le_of_dvd hpos hdvd) (by omega)
    have hcoprime : n.toNat.Coprime f256P := by
      refine (f256P_prime.coprime_iff_not_dvd.mpr fun hdvd ↦ ?_).symm
      exact absurd (Nat.le_of_dvd hpos hdvd) (by omega)
    have hproduct : n.toNat * (modulus 36113 : UInt 4).toNat < 2 ^ 512 := by
      rw [toNat_modulus256]
      have hlt := f256P_lt
      calc n.toNat * f256P < 2 ^ 256 * 2 ^ 256 := Nat.mul_lt_mul'' (hcanonical.trans hlt) hlt
        _ = 2 ^ 512 := by rw [← pow_add]
    refine inverseLoop_spec (by omega) ⟨?_, ?_, ?_⟩ hproduct (by norm_num) ?_
    · refine ⟨by rw [honeWord]; exact f256P_prime.one_lt, ?_⟩
      rw [honeWord, Nat.cast_one]
      exact (div_self hne).symm
    · refine ⟨by rw [hzeroWord]; exact f256P_prime.pos, ?_⟩
      dsimp only
      rw [hzeroWord, toNat_modulus256, ZMod.natCast_self, Nat.cast_zero, zero_div]
    · dsimp only
      rwa [toNat_modulus256]
    · have hodd : n.toNat % 2 * ((modulus 36113 : UInt 4).toNat % 2) ≤ 1 * 1 :=
        Nat.mul_le_mul (by omega) (by omega)
      exact (Nat.add_le_add_left hodd _).trans hlimit

/-- The divsteps of the kernel give it too. -/
theorem invF256_stands (a : UInt 4) :
    ∃ r, invF256 a = some r ∧ Stands f256P r (a.toNat : ZMod f256P)⁻¹ := by
  have hnorm : (norm256 a cF256).toNat = a.toNat % f256P := norm256_toNat a (by decide +kernel)
  have hlt : (norm256 a cF256).toNat < f256P := by
    rw [hnorm]
    exact Nat.mod_lt _ f256P_prime.pos
  obtain ⟨r, hrun, hcanonical, hzero, hinverse⟩ :=
    modinv256With_isInverse f256Modulus_isOf f256P_prime true hlt.ne
  refine ⟨r, hrun, hcanonical, ?_⟩
  rw [← ZMod.natCast_mod a.toNat f256P, ← hnorm]
  by_cases hnone : (norm256 a cF256).toNat = 0
  · rw [hzero hnone, hnone, Nat.cast_zero, inv_zero]
  · have hproduct := (ZMod.natCast_eq_natCast_iff _ _ _).mpr (hinverse hnone)
    rw [Nat.cast_mul, Nat.cast_one] at hproduct
    exact eq_inv_of_mul_eq_one_right hproduct

/-- The inverse of the reference, for every number of 256 bits, below the modulus or not. With a
limit of 1025 passes or more it returns: no pass is missing, no signed number overflows, and no word
is shifted and no number divided by a power of two outside 1 to 64 bits. What it returns is
canonical and the inverse, or zero for the multiples of the modulus, and the kernel's inversion
returns the same. -/
theorem inverse256_inverts {limit : ℕ} (hlimit : 1025 ≤ limit) (a : UInt 4) :
    ∃ r, inverse256 limit a = some r ∧ r.toNat < 2 ^ 256 - 36113 ∧
      (a.toNat % (2 ^ 256 - 36113) = 0 → r.toNat = 0) ∧
      (a.toNat % (2 ^ 256 - 36113) ≠ 0 → a.toNat * r.toNat ≡ 1 [MOD 2 ^ 256 - 36113]) ∧
      invF256 a = some r := by
  obtain ⟨r, hrun, hstands⟩ := inverse256_stands hlimit a
  obtain ⟨r', hkernel, hstands'⟩ := invF256_stands a
  obtain rfl := hstands.unique hstands'
  change ∃ r, inverse256 limit a = some r ∧ r.toNat < f256P ∧ (a.toNat % f256P = 0 → r.toNat = 0) ∧
    (a.toNat % f256P ≠ 0 → a.toNat * r.toNat ≡ 1 [MOD f256P]) ∧ invF256 a = some r
  have hcanonical := hstands.canonical
  have hresidue := hstands.residue
  refine ⟨r, hrun, hcanonical, fun hzero ↦ ?_, fun hne ↦ ?_, hkernel⟩
  · rw [(ZMod.natCast_eq_zero_iff _ _).mpr (Nat.dvd_of_mod_eq_zero hzero), inv_zero,
      ZMod.natCast_eq_zero_iff] at hresidue
    exact Nat.eq_zero_of_dvd_of_lt hresidue hcanonical
  · have hunit : (a.toNat : ZMod f256P) ≠ 0 := by
      rw [Ne, ZMod.natCast_eq_zero_iff]
      exact fun hdvd ↦ hne (Nat.mod_eq_zero_of_dvd hdvd)
    rw [← ZMod.natCast_eq_natCast_iff, Nat.cast_mul, hresidue, Nat.cast_one]
    exact mul_inv_cancel₀ hunit

/-- Three. -/
theorem inverse256_inverts_three :
    ∃ r, inverse256 1025 (UInt.ofWord 3) = some r ∧ r.toNat < 2 ^ 256 - 36113 ∧
      ((UInt.ofWord 3 : UInt 4).toNat % (2 ^ 256 - 36113) = 0 → r.toNat = 0) ∧
      ((UInt.ofWord 3 : UInt 4).toNat % (2 ^ 256 - 36113) ≠ 0 →
        (UInt.ofWord 3 : UInt 4).toNat * r.toNat ≡ 1 [MOD 2 ^ 256 - 36113]) ∧
      invF256 (UInt.ofWord 3) = some r :=
  inverse256_inverts le_rfl (UInt.ofWord 3)

end Bc3Miner.Reference
