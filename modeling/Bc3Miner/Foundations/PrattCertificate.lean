import Mathlib.Data.List.Dedup
import Mathlib.Data.List.Prime
import Mathlib.NumberTheory.LucasPrimality

/-!
# Primality by certificates

A number `p` is prime when some base has order `p - 1` modulo `p`, which is seen from the prime
factors of `p - 1` (Lucas). A certificate gives the base and the factors, and the factors have
certificates of their own. `checks` reads a list of them, each over the ones before it, and decides
with powers by repeated squaring.

The check is a computation on natural numbers, done once for each prime by evaluation; what it
proves is `Nat.Prime`, so nothing that uses the primes afterwards depends on how they were
certified.
-/

set_option autoImplicit false
set_option relaxedAutoImplicit false

namespace Bc3Miner.Foundations.Pratt

/-! ### Powers by repeated squaring -/

/-- `base ^ exponent` modulo `modulus`, for exponents of at most `bits` bits. -/
def powerBits (modulus base : ℕ) : ℕ → ℕ → ℕ
  | 0, _ => 1 % modulus
  | bits + 1, exponent =>
    let half := powerBits modulus base bits (exponent / 2)
    if exponent % 2 = 0 then half * half % modulus else half * half % modulus * base % modulus

/-- Square-and-multiply over the bits of an exponent is the power, if the bits are enough for it. -/
theorem powerBits_eq (modulus base : ℕ) {bits exponent : ℕ} (hbits : exponent < 2 ^ bits) :
    powerBits modulus base bits exponent = base ^ exponent % modulus := by
  induction bits generalizing exponent with
  | zero =>
    obtain rfl : exponent = 0 := by simpa using hbits
    rfl
  | succ bits ih =>
    have hhalf : exponent / 2 < 2 ^ bits := by
      rw [pow_succ] at hbits
      omega
    have hsquare : powerBits modulus base bits (exponent / 2) *
        powerBits modulus base bits (exponent / 2) % modulus =
          base ^ (2 * (exponent / 2)) % modulus := by
      rw [ih hhalf, ← Nat.mul_mod, two_mul, pow_add]
    rw [powerBits]
    simp only [hsquare]
    by_cases heven : exponent % 2 = 0
    · rw [if_pos heven, Nat.mul_div_cancel' (Nat.dvd_of_mod_eq_zero heven)]
    · have hodd : 2 * (exponent / 2) + 1 = exponent := by omega
      rw [if_neg heven, Nat.mod_mul_mod, ← pow_succ, hodd]

/-- `base ^ exponent` modulo `modulus`. -/
def power (modulus base exponent : ℕ) : ℕ :=
  powerBits modulus base (exponent.log2 + 1) exponent

theorem power_eq (modulus base exponent : ℕ) :
    power modulus base exponent = base ^ exponent % modulus :=
  powerBits_eq modulus base Nat.lt_log2_self

/-! ### Certificates -/

/-- A number said to be prime, a base of order `number - 1`, and the factors of `number - 1`, as
often as they divide it. -/
structure Certificate where
  number : ℕ
  base : ℕ
  factors : List ℕ

/-- The number is prime if all of `primes` are. -/
def Certificate.check (primes : List ℕ) (certificate : Certificate) : Bool :=
  decide (1 < certificate.number) &&
    decide (certificate.factors.prod = certificate.number - 1) &&
    decide (power certificate.number certificate.base (certificate.number - 1) = 1) &&
    certificate.factors.dedup.all fun factor ↦ decide (factor ∈ primes) &&
      decide (power certificate.number certificate.base ((certificate.number - 1) / factor) ≠ 1)

/-- Every certificate checks over the numbers of those before it. -/
def checks : List ℕ → List Certificate → Bool
  | _, [] => true
  | primes, certificate :: rest =>
    certificate.check primes && checks (certificate.number :: primes) rest

/-- A certificate that passes its check proves its number prime, if the factors it names are. -/
theorem Certificate.prime_of_check {primes : List ℕ} {certificate : Certificate}
    (hprimes : ∀ prime ∈ primes, prime.Prime) (hcheck : certificate.check primes = true) :
    certificate.number.Prime := by
  simp only [Certificate.check, Bool.and_eq_true, decide_eq_true_iff, List.all_eq_true] at hcheck
  rcases hcheck with ⟨⟨⟨hone, hproduct⟩, hpower⟩, hfactors⟩
  have hcast (exponent : ℕ) : (certificate.base : ZMod certificate.number) ^ exponent = 1 ↔
      power certificate.number certificate.base exponent = 1 := by
    rw [power_eq, ← Nat.cast_pow, ← Nat.cast_one, ZMod.natCast_eq_natCast_iff',
      Nat.mod_eq_of_lt hone]
  refine lucas_primality certificate.number certificate.base ((hcast _).mpr hpower) ?_
  intro factor hprime hdvd hone'
  rw [← hproduct, Prime.dvd_prod_iff hprime.prime] at hdvd
  rcases hdvd with ⟨listed, hmem, hdvd⟩
  rcases hfactors listed (List.mem_dedup.mpr hmem) with ⟨hlisted, hne⟩
  have heq : factor = listed := (Nat.prime_dvd_prime_iff_eq hprime (hprimes listed hlisted)).mp hdvd
  rw [heq] at hone'
  exact hne ((hcast _).mp hone')

/-- Every number of a list that checks is prime. -/
theorem prime_of_checks {primes : List ℕ} {certificates : List Certificate}
    (hprimes : ∀ prime ∈ primes, prime.Prime) (hchecks : checks primes certificates = true) :
    ∀ number ∈ certificates.map Certificate.number, number.Prime := by
  induction certificates generalizing primes with
  | nil => exact fun number hmem ↦ absurd hmem List.not_mem_nil
  | cons first rest ih =>
    rw [checks, Bool.and_eq_true] at hchecks
    have hfirst := Certificate.prime_of_check hprimes hchecks.1
    intro number hmem
    rcases List.mem_cons.mp hmem with rfl | hmem
    · exact hfirst
    · refine ih (fun prime hprime ↦ ?_) hchecks.2 number hmem
      rcases List.mem_cons.mp hprime with rfl | hprime
      · exact hfirst
      · exact hprimes prime hprime

end Bc3Miner.Foundations.Pratt
