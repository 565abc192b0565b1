import Bc3Miner.Foundations.DivstepBound
import Bc3Miner.Kernel.SignedRows
import Mathlib.RingTheory.Coprime.Lemmas

/-!
# Runs of the inversion

The batches of `modinv256` follow the divsteps on the modulus and the number: the numbers `f` and
`g` are the run's, `d` and `e` times the number are `f` and `g` modulo the modulus, and all four
stay in range (`Inversion.After`). 600 divsteps bring `g` to zero, so that `f` is 1 or -1 and `d`
the inverse up to that sign. A batch after `g` is zero moves neither `f` nor the residue of `d`.

`modinv256With_spec` is the result: for a modulus in signed limbs with its inverse (`IsOf`) and a
number below it that has nothing in common with it, an inverse comes out, with or without the early
exit.
-/

set_option autoImplicit false
set_option relaxedAutoImplicit false

namespace Bc3Miner.Kernel

open Foundations SignedLimbs

/-! ### A batch -/

/-- The divsteps of so many batches. -/
def divstepRun (m x : ℤ) (count : ℕ) : Divstep.State := Divstep.step^[30 * count] ⟨-1, m, x⟩

theorem divstepRun_succ (m x : ℤ) (count : ℕ) :
    divstepRun m x (count + 1) = Divstep.step^[30] (divstepRun m x count) := by
  unfold divstepRun
  rw [← Function.iterate_add_apply, Nat.mul_succ, Nat.add_comm]

/-- The variables after so many batches. -/
structure Inversion.After (m x : ℤ) (count : ℕ) (s : Inversion) : Prop where
  zeta : s.zeta.toInt = (divstepRun m x count).zeta
  f : s.f.Holds (divstepRun m x count).f
  g : s.g.Holds (divstepRun m x count).g
  d : s.d.Holds (value 30 s.d)
  e : s.e.Holds (value 30 s.e)
  d_range : -2 * m < value 30 s.d ∧ value 30 s.d < m
  e_range : -2 * m < value 30 s.e ∧ value 30 s.e < m
  d_mul : value 30 s.d * x ≡ (divstepRun m x count).f [ZMOD m]
  e_mul : value 30 s.e * x ≡ (divstepRun m x count).g [ZMOD m]
  d_zero : x = 0 → value 30 s.d ≡ 0 [ZMOD m]

/-- A modulus that has its limbs and inverse is odd. -/
theorem SignedModulus.IsOf.odd {modulus : SignedModulus} {m : ℤ} (hmodulus : modulus.IsOf m) :
    m % 2 = 1 := by
  have hinverse : modulus.inv30.toNat * m % 2 = 1 := hmodulus.inverse.of_dvd (by norm_num)
  rw [Int.mul_emod] at hinverse
  rcases Int.emod_two_eq_zero_or_one m with heven | hodd
  · rw [heven, mul_zero] at hinverse
    exact absurd hinverse (by norm_num)
  · exact hodd

/-- What holds modulo an odd number with both sides times `2 ^ 30` holds as it is. -/
theorem modEq_of_scaled {m x y : ℤ} (hm : m % 2 = 1) (hscaled : 2 ^ 30 * x ≡ 2 ^ 30 * y [ZMOD m]) :
    x ≡ y [ZMOD m] := by
  have hcoprime : IsCoprime m (2 ^ 30) := by
    refine IsCoprime.pow_right ?_
    refine ⟨1, -(m / 2), ?_⟩
    have hsplit := Int.emod_add_mul_ediv m 2
    linarith
  refine Int.modEq_iff_dvd.mpr (hcoprime.dvd_of_dvd_mul_left ?_)
  have hdvd := Int.modEq_iff_dvd.mp hscaled
  rwa [← mul_sub] at hdvd

/-- The word of the lowest limb has the lowest bits of the number. -/
theorem S30.Holds.word {r : S30} {n : ℤ} (hr : r.Holds n) :
    ((UInt32.ofInt (r.getD 0 0)).toNat : ℤ) ≡ n [ZMOD 2 ^ 30] := by
  obtain ⟨-, -, -, hvalue⟩ := hr.split
  have hword : ((UInt32.ofInt (r.getD 0 0)).toNat : ℤ) ≡ r.getD 0 0 [ZMOD 2 ^ 30] := by
    rw [toNat_ofInt]
    exact (Int.mod_modEq _ _).of_dvd (by norm_num)
  refine hword.trans (Int.modEq_iff_dvd.mpr ⟨SignedLimbs.value 30 r.tail, ?_⟩)
  rw [← hvalue]
  ring

section

variable {modulus : SignedModulus} {m x : ℤ}

/-- A run of divsteps from the modulus and a number up to `2 ^ 256`. -/
theorem divstepRun_within (hmodulus : modulus.IsOf m) (hpos : 0 ≤ x)
    (hx : x ≤ 2 ^ 256) (count : ℕ) :
    (divstepRun m x count).f % 2 = 1 ∧ Divstep.Within (2 ^ 256) (divstepRun m x count) ∧
      |(divstepRun m x count).zeta| ≤ 1 + 30 * count := by
  have hodd : (⟨-1, m, x⟩ : Divstep.State).f % 2 = 1 := hmodulus.odd
  have hlow := hmodulus.low
  have hhigh := hmodulus.high
  have hstart : Divstep.Within (2 ^ 256) ⟨-1, m, x⟩ := by
    constructor <;> dsimp only <;> omega
  refine ⟨Divstep.odd_iterate hodd _, hstart.iterate hodd _, ?_⟩
  have hzeta := Divstep.abs_zeta_iterate ⟨-1, m, x⟩ (30 * count)
  unfold divstepRun
  push_cast at hzeta
  rwa [abs_neg, abs_one] at hzeta

/-- The matrix of a batch. -/
theorem Inversion.After.matrix (hmodulus : modulus.IsOf m) (hpos : 0 ≤ x) (hx : x ≤ 2 ^ 256)
    {count : ℕ} (hcount : count ≤ 20) {s : Inversion} (hs : s.After m x count) :
    s.divsteps.zeta.toInt = (divstepRun m x (count + 1)).zeta ∧
      s.divsteps.entries = Divstep.transition (divstepRun m x count) 30 := by
  obtain ⟨hodd, -, hzeta⟩ := divstepRun_within hmodulus hpos hx count
  rw [divstepRun_succ]
  exact divsteps30_eq hodd (by omega) hs.zeta hs.f.word hs.g.word

/-- A batch has an outcome, and it is 30 divsteps further. -/
theorem Inversion.After.batch (hmodulus : modulus.IsOf m) (hpos : 0 ≤ x) (hx : x ≤ 2 ^ 256)
    {count : ℕ} (hcount : count ≤ 20) {s : Inversion} (hs : s.After m x count) :
    ∃ next, s.batch modulus = some next ∧ next.After m x (count + 1) := by
  obtain ⟨hodd, -, -⟩ := divstepRun_within hmodulus hpos hx count
  obtain ⟨-, hwithin, -⟩ := divstepRun_within hmodulus hpos hx (count + 1)
  obtain ⟨hzeta, hmatrix⟩ := hs.matrix hmodulus hpos hx hcount
  obtain ⟨hrow, hrow'⟩ := Divstep.transition_rowsLe (divstepRun m x count) 30
  obtain ⟨hf, hg⟩ := Divstep.transition_holds hodd 30
  have hzero : x = 0 → (Divstep.transition (divstepRun m x count) 30).v = 0 := by
    intro hx
    have hg : (divstepRun m x count).g = 0 := by
      rw [divstepRun, Divstep.iterate_of_zero hx]
    rw [Divstep.transition_of_zero hg]
  rw [← divstepRun_succ] at hf hg
  rw [← hmatrix] at hrow hrow' hf hg hzero
  obtain ⟨hfgt, hfle, hggt, hgle⟩ := hwithin
  obtain ⟨d, D, hd, hholdsD, hrangeD, hD⟩ :=
    deRow_holds hmodulus hrow hs.d hs.e hs.d_range hs.e_range
  obtain ⟨e, E, he, hholdsE, hrangeE, hE⟩ :=
    deRow_holds hmodulus hrow' hs.d hs.e hs.d_range hs.e_range
  obtain ⟨f, hfRow, hholdsF⟩ :=
    fgRow_holds hrow hs.f hs.g hf.symm (by rw [abs_lt]; constructor <;> omega)
  obtain ⟨g, hgRow, hholdsG⟩ :=
    fgRow_holds hrow' hs.f hs.g hg.symm (by rw [abs_lt]; constructor <;> omega)
  have hmul : ∀ {a b n F : ℤ}, 2 ^ 30 * n ≡ a * value 30 s.d + b * value 30 s.e [ZMOD m] →
      2 ^ 30 * F = a * (divstepRun m x count).f + b * (divstepRun m x count).g →
        n * x ≡ F [ZMOD m] := by
    intro a b n F hn hF
    refine modEq_of_scaled hmodulus.odd ?_
    have hproducts := (hs.d_mul.mul_left a).add (hs.e_mul.mul_left b)
    have hscaled := hn.mul_right x
    rw [hF]
    refine Int.ModEq.trans ?_ (hscaled.trans (Int.ModEq.trans ?_ hproducts))
    · rw [mul_assoc]
    · rw [add_mul, mul_assoc, mul_assoc]
  refine ⟨⟨s.divsteps.zeta, d, e, f, g⟩, ?_, ?_⟩
  · unfold Divsteps30.entries at hd he hfRow hgRow
    unfold Inversion.batch updateDe30 updateFg30
    simp only [Option.bind_eq_bind]
    rw [hd, Option.bind_some, he, Option.bind_some, Option.bind_some, hfRow,
      Option.bind_some, hgRow,
      Option.bind_some, Option.bind_some]
  · refine ⟨hzeta, hholdsF, hholdsG, by rwa [hholdsD.value], by rwa [hholdsE.value],
      by rwa [hholdsD.value], by rwa [hholdsE.value], ?_, ?_, ?_⟩
    · rw [hholdsD.value]
      exact hmul hD hf
    · rw [hholdsE.value]
      exact hmul hE hg
    · intro hx
      rw [hholdsD.value]
      refine modEq_of_scaled hmodulus.odd (hD.trans ?_)
      have hproduct := (hs.d_zero hx).mul_left s.divsteps.entries.u
      rw [mul_zero] at hproduct
      rwa [hzero hx, zero_mul, add_zero, mul_zero]

/-- The variables to start with. -/
theorem Inversion.start_after (hmodulus : modulus.IsOf m) (x : U256) :
    (Inversion.start modulus x).After m x.toNat 0 := by
  have hx := x.toNat_lt
  have hlow := hmodulus.low
  have hd : S30.Holds (List.replicate 9 0) 0 := ⟨rfl, by decide, rfl, by decide⟩
  have he : S30.Holds (1 :: List.replicate 8 0) 1 := ⟨rfl, by decide, rfl, by decide⟩
  have hone : value 30 (1 :: List.replicate 8 (0 : ℤ)) = 1 := rfl
  have hnone : value 30 (List.replicate 9 (0 : ℤ)) = 0 := rfl
  refine ⟨rfl, ?_, ?_, ?_, ?_, ?_, ?_, ?_, ?_, ?_⟩
  · refine ⟨rfl, ?_, hmodulus.value, ?_⟩
    · intro limb hmem
      have hM0 := hmodulus.M0
      have hM1 := hmodulus.M1
      rw [Inversion.start] at hmem
      simp only [mlimbs_eq, List.mem_cons, List.not_mem_nil, or_false] at hmem
      rcases hmem with rfl | rfl | rfl | rfl | rfl | rfl | rfl | rfl | rfl
      · exact hM0.trans (by norm_num)
      · exact hM1.trans (by norm_num)
      all_goals norm_num
    · show (65536 : ℤ) < 0 ↔ m < 0
      constructor <;> intro hneg <;> omega
  · have hdigits : (Inversion.start modulus x).g =
        (List.range 9).map fun i ↦ ((x.toNat / 2 ^ (30 * i) % 2 ^ 30 : ℕ) : ℤ) := toS30_eq x
    have hvalue : value 30 (Inversion.start modulus x).g = x.toNat := by
      rw [hdigits, value_digits, Nat.mod_eq_of_lt
        (hx.trans (Nat.pow_lt_pow_right (by norm_num) (by norm_num)))]
    refine ⟨by rw [hdigits]; rfl, ?_, hvalue, ?_⟩
    · intro limb hmem
      rw [hdigits] at hmem
      obtain ⟨i, -, rfl⟩ := List.mem_map.mp hmem
      rw [abs_of_nonneg (Int.natCast_nonneg _)]
      exact_mod_cast (Nat.mod_lt _ (by norm_num)).le
    · have htop : 0 ≤ (Inversion.start modulus x).g.top := by
        rw [hdigits]
        exact Int.natCast_nonneg _
      exact ⟨fun hneg ↦ absurd hneg (not_lt.mpr htop),
        fun hneg ↦ absurd hneg (not_lt.mpr (Int.natCast_nonneg _))⟩
  · exact hd
  · exact he
  · show -2 * m < value 30 (List.replicate 9 (0 : ℤ)) ∧ value 30 (List.replicate 9 (0 : ℤ)) < m
    rw [hnone]
    constructor <;> linarith
  · show -2 * m < value 30 (1 :: List.replicate 8 (0 : ℤ)) ∧
      value 30 (1 :: List.replicate 8 (0 : ℤ)) < m
    rw [hone]
    constructor <;> linarith
  · show value 30 (List.replicate 9 (0 : ℤ)) * x.toNat ≡ m [ZMOD m]
    rw [hnone, zero_mul]
    exact (Int.modEq_zero_iff_dvd.mpr dvd_rfl).symm
  · show value 30 (1 :: List.replicate 8 (0 : ℤ)) * x.toNat ≡ x.toNat [ZMOD m]
    rw [hone, one_mul]
  · intro _
    show value 30 (List.replicate 9 (0 : ℤ)) ≡ 0 [ZMOD m]
    rw [hnone]

/-! ### Runs -/

/-- Limbs that are all zero hold zero. -/
theorem S30.Holds.eq_zero {r : S30} {n : ℤ} (hr : r.Holds n) (hzero : r.all (· == 0) = true) :
    n = 0 := by
  have hlimbs : ∀ limb ∈ r, limb = 0 := by simpa using hzero
  have hreplicate : r = List.replicate 9 0 :=
    List.eq_replicate_iff.mpr ⟨hr.length, hlimbs⟩
  rw [← hr.value, hreplicate]
  rfl

/-- Batches from a batch on have an outcome: that of all of them, or, where the loop may be left, of
some of them with `g` zero. -/
theorem Inversion.After.batches (hmodulus : modulus.IsOf m) (hpos : 0 ≤ x) (hx : x ≤ 2 ^ 256)
    (leaves : Bool) {count i : ℕ} (hcount : i + count ≤ 20) {s : Inversion} (hs : s.After m x i) :
    ∃ last done, s.batches modulus leaves count i = some last ∧ last.After m x done ∧
      (done = i + count ∨ leaves = true ∧ (divstepRun m x done).g = 0) := by
  induction count generalizing i s with
  | zero => exact ⟨s, i, rfl, hs, Or.inl rfl⟩
  | succ count ih =>
    obtain ⟨next, hnext, hafter⟩ := hs.batch hmodulus hpos hx (by omega)
    rw [Inversion.batches, hnext, Option.bind_eq_bind, Option.bind_some]
    split_ifs with hleave
    · exact ⟨next, i + 1, rfl, hafter, Or.inr ⟨hleave.1, hafter.g.eq_zero hleave.2.2⟩⟩
    · obtain ⟨last, done, hlast, hholds, hdone⟩ := ih (by omega) hafter
      refine ⟨last, done, hlast, hholds, hdone.imp_left fun heq ↦ ?_⟩
      omega

/-- All 20 batches, or those up to a `g` of zero: in the end `g` is zero. -/
theorem Inversion.start_batches (hmodulus : modulus.IsOf m) (leaves : Bool) (x : U256) :
    ∃ last done, (Inversion.start modulus x).batches modulus leaves 20 0 = some last ∧
      last.After m x.toNat done ∧ (divstepRun m x.toNat done).g = 0 := by
  have hx : (x.toNat : ℤ) ≤ 2 ^ 256 := by exact_mod_cast x.toNat_lt.le
  obtain ⟨last, done, hlast, hafter, hdone⟩ : ∃ last done,
      (Inversion.start modulus x).batches modulus leaves 20 0 = some last ∧
        last.After m x.toNat done ∧
          (done = 0 + 20 ∨ leaves = true ∧ (divstepRun m x.toNat done).g = 0) :=
    (Inversion.start_after hmodulus x).batches hmodulus (Int.natCast_nonneg _) hx leaves le_rfl
  refine ⟨last, done, hlast, hafter, ?_⟩
  rcases hdone with rfl | hzero
  · exact Divstep.iterate_600_eq_zero hmodulus.odd (by linarith [hmodulus.low]) hmodulus.high.le
      (Int.natCast_nonneg _) hx
  · exact hzero.2

/-! ### The inverse -/

/-- With or without the `break`, a number that has an inverse goes to it, and zero to zero. -/
theorem modinv256With_spec (hmodulus : modulus.IsOf m) (leaves : Bool) (x : U256) :
    ∃ y, modinv256With leaves modulus x = some y ∧ (y.toNat : ℤ) < m ∧
      (IsCoprime m x.toNat → (x.toNat * y.toNat : ℤ) ≡ 1 [ZMOD m]) ∧
      (x.toNat = 0 → y.toNat = 0) := by
  obtain ⟨last, done, hlast, hafter, hzero⟩ := Inversion.start_batches hmodulus leaves x
  obtain ⟨r, hr, hvalue⟩ :=
    normalize30_spec hmodulus hafter.d hafter.d_range.1 hafter.d_range.2 last.f.top
  have hm : 0 < m := by linarith [hmodulus.low]
  have hy : modinv256With leaves modulus x = some (fromS30 r) := by
    unfold modinv256With
    simp only [Option.bind_eq_bind]
    rw [hlast, Option.bind_some, hr, Option.bind_some]
  have hresidue : ((fromS30 r).toNat : ℤ) ≡
      if last.f.top < 0 then -value 30 last.d else value 30 last.d [ZMOD m] := by
    rw [hvalue]
    exact Int.mod_modEq _ _
  refine ⟨_, hy, by rw [hvalue]; exact Int.emod_lt_of_pos _ hm, ?_, ?_⟩
  · intro hcoprime
    have hunit : (divstepRun m x.toNat done).f * (divstepRun m x.toNat done).f = 1 := by
      have hrest : IsCoprime (divstepRun m x.toNat done).f (divstepRun m x.toNat done).g :=
        Divstep.isCoprime_iterate hmodulus.odd hcoprime _
      rw [hzero, isCoprime_zero_right, Int.isUnit_iff] at hrest
      rcases hrest with hone | hone <;> rw [hone] <;> rfl
    have hsign : (if last.f.top < 0 then -value 30 last.d else value 30 last.d) =
        (divstepRun m x.toNat done).f * value 30 last.d := by
      have hcases : (divstepRun m x.toNat done).f = 1 ∨ (divstepRun m x.toNat done).f = -1 :=
        mul_self_eq_one_iff.mp hunit
      simp only [hafter.f.sign]
      rcases hcases with hone | hone
      · rw [hone, if_neg (by norm_num), one_mul]
      · rw [hone, if_pos (by norm_num), neg_one_mul]
    have hproduct := hafter.d_mul.mul_left (divstepRun m x.toNat done).f
    rw [hsign] at hresidue
    have hscaled := hresidue.mul_left x.toNat
    rw [hunit] at hproduct
    refine hscaled.trans (Int.ModEq.trans ?_ hproduct)
    rw [mul_comm, mul_assoc]
  · intro hx
    have hnone := hafter.d_zero (by exact_mod_cast hx)
    have hboth : ((fromS30 r).toNat : ℤ) ≡ 0 [ZMOD m] := by
      refine hresidue.trans ?_
      split_ifs
      · exact hnone.neg
      · exact hnone
    have hlt : ((fromS30 r).toNat : ℤ) < m := by
      rw [hvalue]
      exact Int.emod_lt_of_pos _ hm
    rw [Int.ModEq, Int.emod_eq_of_lt (Int.natCast_nonneg _) hlt, Int.zero_emod] at hboth
    exact_mod_cast hboth

end

end Bc3Miner.Kernel
