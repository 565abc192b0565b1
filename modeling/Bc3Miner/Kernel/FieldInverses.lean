import Bc3Miner.Kernel.ModInverseRuns
import Bc3Miner.Kernel.SecpPrimes
import Mathlib.FieldTheory.Finite.Basic

/-!
# Inverses in the two fields

`inv_secp` and `inv_f256` of `src/kernels/bc3hash.cl`: `modinv256` at secp256k1's prime and at
`2 ^ 256 - 36113`, whose certificates are here. Both give the power that Fermat's theorem has for
the inverse, with one exception: secp256k1's prime itself, which `inv_secp` takes as it is, goes to
1. In all runs the numbers stay in range, and where the loop ends makes no difference.

`inversions_are_inverses` is the result on values and `inversion_sound` the one on the run. That 20
batches are enough comes from `DivstepBound`; no bound is assumed.
-/

set_option autoImplicit false
set_option relaxedAutoImplicit false

namespace Bc3Miner.Kernel

open Foundations

/-! ### The second prime -/

/-- `2 ^ 256 - C_F256`. -/
def f256P : ℕ := 2 ^ 256 - 36113

def cF256 : UInt64 := 36113

def f256Certificates : List Pratt.Certificate := [
  ⟨2, 1, []⟩,
  ⟨5, 2, [2, 2]⟩,
  ⟨3, 2, [2]⟩,
  ⟨19, 2, [2, 3, 3]⟩,
  ⟨37, 2, [2, 2, 3, 3]⟩,
  ⟨13, 2, [2, 2, 3]⟩,
  ⟨31, 3, [2, 3, 5]⟩,
  ⟨7, 3, [2, 3]⟩,
  ⟨29, 2, [2, 2, 7]⟩,
  ⟨71, 7, [2, 5, 7]⟩,
  ⟨73, 5, [2, 2, 2, 3, 3]⟩,
  ⟨157, 5, [2, 2, 3, 13]⟩,
  ⟨94392797, 2, [2, 2, 29, 71, 73, 157]⟩,
  ⟨1445531293259, 2, [2, 13, 19, 31, 94392797]⟩,
  ⟨106969315701167, 5, [2, 37, 1445531293259]⟩,
  ⟨11, 2, [2, 5]⟩,
  ⟨397, 5, [2, 2, 3, 3, 11]⟩,
  ⟨1249, 7, [2, 2, 2, 2, 2, 3, 13]⟩,
  ⟨22483, 2, [2, 3, 3, 1249]⟩,
  ⟨17, 3, [2, 2, 2, 2]⟩,
  ⟨79, 3, [2, 3, 13]⟩,
  ⟨2549, 2, [2, 2, 7, 7, 13]⟩,
  ⟨16493, 2, [2, 2, 7, 19, 31]⟩,
  ⟨6222017237, 2, [2, 2, 37, 2549, 16493]⟩,
  ⟨2949236170339, 3, [2, 3, 79, 6222017237]⟩,
  ⟨100274029791527, 5, [2, 17, 2949236170339]⟩,
  ⟨23, 5, [2, 11]⟩,
  ⟨53, 2, [2, 2, 13]⟩,
  ⟨51199, 12, [2, 3, 7, 23, 53]⟩,
  ⟨192697, 5, [2, 2, 2, 3, 7, 31, 37]⟩,
  ⟨61, 2, [2, 2, 3, 5]⟩,
  ⟨367, 6, [2, 3, 61]⟩,
  ⟨2203, 5, [2, 3, 367]⟩,
  ⟨5829139, 3, [2, 3, 3, 3, 7, 7, 2203]⟩,
  ⟨43, 3, [2, 3, 7]⟩,
  ⟨1033, 5, [2, 2, 2, 3, 43]⟩,
  ⟨6199, 3, [2, 3, 1033]⟩,
  ⟨4599659, 2, [2, 7, 53, 6199]⟩,
  ⟨421, 2, [2, 2, 3, 5, 7]⟩,
  ⟨47, 5, [2, 23]⟩,
  ⟨1693, 2, [2, 2, 3, 3, 47]⟩,
  ⟨213319, 6, [2, 3, 3, 7, 1693]⟩,
  ⟨2155375177, 5, [2, 2, 2, 3, 421, 213319]⟩,
  ⟨59483944987587859, 2, [2, 3, 4599659, 2155375177]⟩,
  ⟨1202684276868524221513588244947, 5, [2, 3, 3, 192697, 5829139, 59483944987587859]⟩,
  ⟨3201964079152361724098258636758155557, 2, [2, 2, 13, 51199, 1202684276868524221513588244947]⟩,
  ⟨2848630210554880446022254608450222949126931851754251657020267, 2,
    [2, 7, 71, 397, 22483, 100274029791527, 3201964079152361724098258636758155557]⟩,
  ⟨57896044618658097711785492504343953926634992332820282019728792003956564801911, 7,
    [2, 5, 19, 106969315701167, 2848630210554880446022254608450222949126931851754251657020267]⟩,
  ⟨115792089237316195423570985008687907853269984665640564039457584007913129603823, 5,
    [2, 57896044618658097711785492504343953926634992332820282019728792003956564801911]⟩]

theorem f256Certificates_check : Pratt.checks [] f256Certificates = true := by decide +kernel

theorem f256P_prime : f256P.Prime :=
  Pratt.prime_of_checks (fun _ hmem ↦ absurd hmem List.not_mem_nil) f256Certificates_check
    f256P (by decide +kernel)

/-! ### The two moduli -/

/-- The moduli of the kernel, with the primes they stand for. -/
def moduli : List (SignedModulus × ℕ) := [(secpModulus, secpP), (f256Modulus, f256P)]

def invSecp (a : U256) : Option U256 := modinv256 secpModulus a

def invF256 (a : U256) : Option U256 := modinv256 f256Modulus (norm256 a cF256)

/-- The limbs of the secp modulus are those of the prime, with the inverse that the kernel needs of
it. -/
theorem secpModulus_isOf : secpModulus.IsOf secpP where
  M0 := by decide
  M1 := by decide
  value := by decide +kernel
  inverse := by decide +kernel
  low := by decide +kernel
  high := by decide +kernel

/-- The limbs of the 256-bit field modulus are those of the prime, with the inverse that the kernel
needs of it. -/
theorem f256Modulus_isOf : f256Modulus.IsOf f256P where
  M0 := by decide
  M1 := by decide
  value := by decide +kernel
  inverse := by decide +kernel
  low := by decide +kernel
  high := by decide +kernel

/-- Both moduli are limbs of their number, and both numbers are prime. -/
theorem moduli_isOf {modulus : SignedModulus} {m : ℕ} (hmem : (modulus, m) ∈ moduli) :
    modulus.IsOf m ∧ m.Prime := by
  unfold moduli at hmem
  rw [List.mem_cons, List.mem_singleton, Prod.mk.injEq, Prod.mk.injEq] at hmem
  rcases hmem with ⟨rfl, rfl⟩ | ⟨rfl, rfl⟩
  · exact ⟨secpModulus_isOf, secpP_prime⟩
  · exact ⟨f256Modulus_isOf, f256P_prime⟩

section

variable {modulus : SignedModulus} {m : ℕ}

/-- The only numbers of 256 bits without an inverse are zero and the modulus. -/
theorem coprime_of_ne (hmodulus : modulus.IsOf m) (hm : m.Prime) {x : U256} (hzero : x.toNat ≠ 0)
    (hne : x.toNat ≠ m) : m.Coprime x.toNat := by
  rw [hm.coprime_iff_not_dvd]
  rintro ⟨factor, hfactor⟩
  have hx : x.toNat < 2 ^ 256 := x.toNat_lt
  have hlow : 2 ^ 255 < m := by exact_mod_cast hmodulus.low
  rcases factor with _ | _ | factor
  · exact hzero (by simpa using hfactor)
  · exact hne (by simpa using hfactor)
  · have hdouble : m * 2 ≤ m * (factor + 1 + 1) := Nat.mul_le_mul_left m (by omega)
    omega

/-- With or without the `break`: the inverse, where there is one, and zero for zero. -/
theorem modinv256With_isInverse (hmodulus : modulus.IsOf m) (hm : m.Prime) (leaves : Bool)
    {x : U256} (hne : x.toNat ≠ m) :
    ∃ y, modinv256With leaves modulus x = some y ∧ y.toNat < m ∧ (x.toNat = 0 → y.toNat = 0) ∧
      (x.toNat ≠ 0 → x.toNat * y.toNat ≡ 1 [MOD m]) := by
  obtain ⟨y, hy, hlt, hinverse, hnone⟩ := modinv256With_spec hmodulus leaves x
  refine ⟨y, hy, by exact_mod_cast hlt, hnone, fun hzero ↦ ?_⟩
  have hproduct := hinverse (Nat.isCoprime_iff_coprime.mpr (coprime_of_ne hmodulus hm hzero hne))
  exact_mod_cast hproduct

/-- The inverse is one of the numbers below the modulus. -/
theorem inverse_unique {x y z : ℕ} (hy : y < m) (hz : z < m) (hinverse : x * y ≡ 1 [MOD m])
    (hinverse' : x * z ≡ 1 [MOD m]) : z = y := by
  have hsame : z ≡ y [MOD m] := by
    calc z ≡ z * (x * y) [MOD m] := by simpa using (hinverse.mul_left z).symm
      _ = y * (x * z) := by ring
      _ ≡ y [MOD m] := by simpa using hinverse'.mul_left y
  rwa [Nat.ModEq, Nat.mod_eq_of_lt hz, Nat.mod_eq_of_lt hy] at hsame

/-- Fermat's inverse. -/
theorem fermat_inverse (hm : m.Prime) {x : ℕ} (hcoprime : m.Coprime x) :
    x * x ^ (m - 2) ≡ 1 [MOD m] := by
  have htwo := hm.two_le
  have hpower : x * x ^ (m - 2) = x ^ (m - 1) := by
    rw [← pow_succ']
    congr 1
    omega
  rw [hpower, ← Nat.totient_prime hm]
  exact Nat.ModEq.pow_totient hcoprime.symm

/-- What the inversion gives is the power of Fermat. -/
theorem modinv256_toNat (hmodulus : modulus.IsOf m) (hm : m.Prime) {x : U256} (hne : x.toNat ≠ m) :
    (modinv256 modulus x).map Limbs.toNat = some (x.toNat ^ (m - 2) % m) := by
  obtain ⟨y, hy, hlt, hnone, hinverse⟩ := modinv256With_isInverse hmodulus hm true hne
  have hpos := hm.pos
  have hlow : 2 ^ 255 < m := by exact_mod_cast hmodulus.low
  rw [modinv256, hy, Option.map_some, Option.some.injEq]
  by_cases hzero : x.toNat = 0
  · rw [hnone hzero, hzero, zero_pow (by omega), Nat.zero_mod]
  · have hfermat := fermat_inverse hm (coprime_of_ne hmodulus hm hzero hne)
    refine inverse_unique (Nat.mod_lt _ hpos) hlt ?_ (hinverse hzero)
    exact (Nat.ModEq.mul_left x.toNat (Nat.mod_modEq _ m)).trans hfermat

end

/-! ### The inversions are inverses -/

/-- The two inversions of the kernel. For both moduli and every number below them: an inverse comes
out, canonical, and the only one there is; zero goes to zero. On all numbers of 256 bits the two
functions give the power that Fermat's theorem has for the inverse, with secp256k1's prime itself as
the one exception, which `inv_secp` takes as it is. -/
theorem inversions_are_inverses :
    (∀ modulus m, (modulus, m) ∈ moduli → ∀ x : U256, x.toNat < m →
      ∃ y, modinv256 modulus x = some y ∧ y.toNat < m ∧ (x.toNat = 0 → y.toNat = 0) ∧
        (x.toNat ≠ 0 → x.toNat * y.toNat ≡ 1 [MOD m] ∧
          ∀ z < m, x.toNat * z ≡ 1 [MOD m] → z = y.toNat)) ∧
    (∀ a : U256, a.toNat ≠ secpP →
      (invSecp a).map Limbs.toNat = some (a.toNat ^ (secpP - 2) % secpP)) ∧
    ∀ a : U256, (invF256 a).map Limbs.toNat = some (a.toNat ^ (f256P - 2) % f256P) := by
  refine ⟨fun modulus m hmem x hx ↦ ?_, fun a hne ↦ ?_, fun a ↦ ?_⟩
  · obtain ⟨hmodulus, hm⟩ := moduli_isOf hmem
    obtain ⟨y, hy, hlt, hnone, hinverse⟩ := modinv256With_isInverse hmodulus hm true hx.ne
    exact ⟨y, hy, hlt, hnone, fun hzero ↦ ⟨hinverse hzero, fun z hz hother ↦
      inverse_unique hlt hz (hinverse hzero) hother⟩⟩
  · exact modinv256_toNat secpModulus_isOf secpP_prime hne
  · have hnorm : (norm256 a cF256).toNat = a.toNat % f256P := norm256_toNat a (by decide +kernel)
    have hlt : (norm256 a cF256).toNat < f256P := by
      rw [hnorm]
      exact Nat.mod_lt _ f256P_prime.pos
    have hpower := modinv256_toNat f256Modulus_isOf f256P_prime hlt.ne
    rwa [hnorm, ← Nat.pow_mod] at hpower

/-- secp256k1's prime as it comes: `inv_secp` gives 1, and the power is 0. -/
theorem secpP_inverts_to_one :
    ∃ a : U256, (invSecp a).map Limbs.toNat ≠ some (a.toNat ^ (secpP - 2) % secpP) := by
  refine ⟨mk256 0xFFFFFFFEFFFFFC2F 0xFFFFFFFFFFFFFFFF 0xFFFFFFFFFFFFFFFF 0xFFFFFFFFFFFFFFFF, ?_⟩
  have hvalue : (mk256 0xFFFFFFFEFFFFFC2F 0xFFFFFFFFFFFFFFFF 0xFFFFFFFFFFFFFFFF
      0xFFFFFFFFFFFFFFFF).toNat = secpP := by
    rw [toNat_mk256]
    decide +kernel
  have hpower : secpP ^ (secpP - 2) % secpP = 0 :=
    Nat.mod_eq_zero_of_dvd (dvd_pow_self _ (by decide +kernel))
  have hone : (invSecp (mk256 0xFFFFFFFEFFFFFC2F 0xFFFFFFFFFFFFFFFF 0xFFFFFFFFFFFFFFFF
      0xFFFFFFFFFFFFFFFF)).map Limbs.toNat = some 1 := by decide +kernel
  rw [hone, hvalue, hpower]
  decide

/-! ### Ranges, and where the loop ends -/

/-- The numbers are in the ranges that the kernel's comments give them. -/
structure Inversion.InRange (m : ℤ) (s : Inversion) : Prop where
  d : -2 * m < SignedLimbs.value 30 s.d ∧ SignedLimbs.value 30 s.d < m
  e : -2 * m < SignedLimbs.value 30 s.e ∧ SignedLimbs.value 30 s.e < m
  f : -m < SignedLimbs.value 30 s.f ∧ SignedLimbs.value 30 s.f ≤ m
  g : -m < SignedLimbs.value 30 s.g ∧ SignedLimbs.value 30 s.g ≤ m

/-- After any number of rounds the numbers of the inversion are in the ranges that the kernel's
comments give them. -/
theorem Inversion.After.inRange {modulus : SignedModulus} {m x : ℤ} (hmodulus : modulus.IsOf m)
    (hpos : 0 ≤ x) (hx : x ≤ m) {count : ℕ} {s : Inversion} (hs : s.After m x count) :
    s.InRange m := by
  have hlow := hmodulus.low
  have hstart : Divstep.Within m ⟨-1, m, x⟩ := by
    constructor <;> dsimp only <;> omega
  obtain ⟨hfgt, hfle, hggt, hgle⟩ := hstart.iterate hmodulus.odd (30 * count)
  refine ⟨hs.d_range, hs.e_range, ?_, ?_⟩
  · rw [hs.f.value]
    exact ⟨hfgt, hfle⟩
  · rw [hs.g.value]
    exact ⟨hggt, hgle⟩

/-- The run of an inversion, for both moduli and every number below them. With the early exit and
without it the same comes out, and something does. At the end of each of the 20 batches there is a
state, so nothing overflowed, whose numbers are in range, and the rows of whose matrix sum to at
most `2 ^ 30`. And the form of the divsteps with masks and the one with multipliers are the same
function of their words. -/
theorem inversion_sound {modulus : SignedModulus} {m : ℕ} (hmem : (modulus, m) ∈ moduli) {x : U256}
    (hx : x.toNat < m) :
    (modinv256With true modulus x = modinv256With false modulus x ∧
      (modinv256With true modulus x).isSome = true) ∧
    (∀ count ≤ 20, ∃ s, (Inversion.start modulus x).batches modulus false count 0 = some s ∧
      s.InRange m ∧ s.divsteps.entries.RowsLe (2 ^ 30)) ∧
    ∀ (zeta : Int32) (f0 g0 : UInt32), divsteps30Masks zeta f0 g0 = divsteps30 zeta f0 g0 := by
  obtain ⟨hmodulus, hm⟩ := moduli_isOf hmem
  refine ⟨?_, fun count hcount ↦ ?_, fun zeta f0 g0 ↦ by rw [divsteps30Masks_eq]⟩
  · obtain ⟨y, hy, hlt, hnone, hinverse⟩ := modinv256With_isInverse hmodulus hm true hx.ne
    obtain ⟨z, hz, hlt', hnone', hinverse'⟩ := modinv256With_isInverse hmodulus hm false hx.ne
    have hsame : z = y := by
      refine Limbs.toNat_injective ?_
      by_cases hzero : x.toNat = 0
      · rw [hnone hzero, hnone' hzero]
      · exact inverse_unique hlt hlt' (hinverse hzero) (hinverse' hzero)
    rw [hy, hz, hsame]
    exact ⟨rfl, rfl⟩
  · have hpos : (0 : ℤ) ≤ x.toNat := Int.natCast_nonneg _
    have hle : (x.toNat : ℤ) ≤ 2 ^ 256 := by exact_mod_cast x.toNat_lt.le
    have hrange : 0 + count ≤ 20 := by omega
    obtain ⟨s, done, hs, hafter, hdone⟩ :=
      (Inversion.start_after hmodulus x).batches hmodulus hpos hle false hrange
    have hcountDone : done = count := by
      rcases hdone with hdone | hleft
      · omega
      · exact absurd hleft.1 (by decide)
    subst hcountDone
    refine ⟨s, hs, hafter.inRange hmodulus hpos (by exact_mod_cast hx.le), ?_⟩
    rw [(hafter.matrix hmodulus hpos hle hcount).2]
    exact Divstep.transition_rowsLe _ _

/-- Two modulo secp256k1's prime. -/
theorem two_inversion_sound :
    modinv256With true secpModulus (mk256 2 0 0 0) =
      modinv256With false secpModulus (mk256 2 0 0 0) :=
  (@inversion_sound secpModulus secpP List.mem_cons_self (mk256 2 0 0 0)
    (by rw [toNat_mk256]; decide +kernel)).1.1

end Bc3Miner.Kernel
