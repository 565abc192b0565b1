import Bc3Miner.Foundations.PrattCertificate
import Bc3Miner.Kernel.Products

/-!
# The primes of secp256k1

The prime of the field and the order of the group are prime: certificates for both, each after those
of its factors.
-/

set_option autoImplicit false
set_option relaxedAutoImplicit false

namespace Bc3Miner.Kernel

open Foundations

/-- The order of secp256k1's group, whose limbs are `SECP_N`. -/
def secpN : ℕ := 2 ^ 256 - 432420386565659656852420866394968145599

def secpCertificates : List Pratt.Certificate := [
  ⟨2, 1, []⟩,
  ⟨3, 2, [2]⟩,
  ⟨7, 3, [2, 3]⟩,
  ⟨5, 2, [2, 2]⟩,
  ⟨13441, 11, [2, 2, 2, 2, 2, 2, 2, 3, 5, 7]⟩,
  ⟨29, 2, [2, 2, 7]⟩,
  ⟨31, 3, [2, 3, 5]⟩,
  ⟨11, 2, [2, 5]⟩,
  ⟨13, 2, [2, 2, 3]⟩,
  ⟨7723, 3, [2, 3, 3, 3, 11, 13]⟩,
  ⟨17, 3, [2, 2, 2, 2]⟩,
  ⟨443, 2, [2, 13, 17]⟩,
  ⟨887, 5, [2, 443]⟩,
  ⟨5323, 5, [2, 3, 887]⟩,
  ⟨131, 2, [2, 5, 13]⟩,
  ⟨2621, 2, [2, 2, 5, 131]⟩,
  ⟨24809, 6, [2, 2, 2, 7, 443]⟩,
  ⟨97, 5, [2, 2, 2, 2, 2, 3]⟩,
  ⟨971, 6, [2, 5, 97]⟩,
  ⟨1373, 2, [2, 2, 7, 7, 7]⟩,
  ⟨13331831, 13, [2, 5, 971, 1373]⟩,
  ⟨173378833005251801, 6, [2, 2, 2, 5, 5, 2621, 24809, 13331831]⟩,
  ⟨22149492674086928081353, 5, [2, 2, 2, 3, 5323, 173378833005251801]⟩,
  ⟨132896956044521568488119, 6, [2, 3, 22149492674086928081353]⟩,
  ⟨271, 6, [2, 3, 3, 3, 5]⟩,
  ⟨1627, 3, [2, 3, 271]⟩,
  ⟨41, 6, [2, 2, 2, 5]⟩,
  ⟨83, 2, [2, 41]⟩,
  ⟨2657, 3, [2, 2, 2, 2, 2, 83]⟩,
  ⟨67, 2, [2, 3, 11]⟩,
  ⟨4423, 3, [2, 3, 11, 67]⟩,
  ⟨103, 5, [2, 3, 17]⟩,
  ⟨41201, 3, [2, 2, 2, 2, 5, 5, 103]⟩,
  ⟨101, 2, [2, 2, 5, 5]⟩,
  ⟨239, 7, [2, 7, 17]⟩,
  ⟨96557, 2, [2, 2, 101, 239]⟩,
  ⟨19, 2, [2, 3, 3]⟩,
  ⟨419, 2, [2, 11, 19]⟩,
  ⟨20113, 10, [2, 2, 2, 2, 3, 419]⟩,
  ⟨1206781, 10, [2, 2, 3, 5, 20113]⟩,
  ⟨7240687, 3, [2, 3, 1206781]⟩,
  ⟨53, 2, [2, 2, 13]⟩,
  ⟨107590001, 3, [2, 2, 2, 2, 5, 5, 5, 5, 7, 29, 53]⟩,
  ⟨255515944373312847190720520512484175977, 3, [2, 2, 2, 7, 7, 11, 1627, 2657, 4423, 41201, 96557,
    7240687, 107590001]⟩,
  ⟨205115282021455665897114700593932402728804164701536103180137503955397371, 10,
    [2, 3, 5, 29, 29, 31, 7723, 132896956044521568488119,
    255515944373312847190720520512484175977]⟩,
  ⟨115792089237316195423570985008687907853269984665640564039457584007908834671663, 3,
    [2, 3, 7, 13441, 205115282021455665897114700593932402728804164701536103180137503955397371]⟩,
  ⟨37, 2, [2, 2, 3, 3]⟩,
  ⟨149, 2, [2, 2, 37]⟩,
  ⟨631, 3, [2, 3, 3, 5, 7]⟩,
  ⟨23, 5, [2, 11]⟩,
  ⟨16699, 3, [2, 3, 11, 11, 23]⟩,
  ⟨2861, 2, [2, 2, 5, 11, 13]⟩,
  ⟨85831, 3, [2, 3, 5, 2861]⟩,
  ⟨2011, 3, [2, 3, 5, 67]⟩,
  ⟨4681609, 23, [2, 2, 2, 3, 97, 2011]⟩,
  ⟨107361793816595537, 3, [2, 2, 2, 2, 16699, 85831, 4681609]⟩,
  ⟨59, 2, [2, 29]⟩,
  ⟨4051, 10, [2, 3, 3, 3, 3, 5, 5]⟩,
  ⟨113, 3, [2, 2, 2, 2, 7]⟩,
  ⟨120233, 3, [2, 2, 2, 7, 19, 113]⟩,
  ⟨199, 3, [2, 3, 3, 11]⟩,
  ⟨797, 2, [2, 2, 199]⟩,
  ⟨9349, 2, [2, 2, 3, 19, 41]⟩,
  ⟨44706919, 6, [2, 3, 797, 9349]⟩,
  ⟨174723607534414371449, 3, [2, 2, 2, 17, 59, 4051, 120233, 44706919]⟩,
  ⟨109, 6, [2, 2, 3, 3, 3]⟩,
  ⟨73, 5, [2, 2, 2, 3, 3]⟩,
  ⟨293, 2, [2, 2, 73]⟩,
  ⟨2731, 3, [2, 3, 5, 7, 13]⟩,
  ⟨305873, 3, [2, 2, 2, 2, 7, 2731]⟩,
  ⟨1409, 3, [2, 2, 2, 2, 2, 2, 2, 11]⟩,
  ⟨28181, 2, [2, 2, 5, 1409]⟩,
  ⟨545358713, 5, [2, 2, 2, 41, 59, 28181]⟩,
  ⟨461, 2, [2, 2, 5, 23]⟩,
  ⟨1871, 14, [2, 5, 11, 17]⟩,
  ⟨1627771, 3, [2, 3, 5, 29, 1871]⟩,
  ⟨297159362677, 2, [2, 2, 3, 3, 11, 461, 1627771]⟩,
  ⟨29047611873442575647497758179, 2, [2, 293, 305873, 545358713, 297159362677]⟩,
  ⟨341948486974166000522343609283189, 2, [2, 2, 3, 3, 3, 109, 29047611873442575647497758179]⟩,
  ⟨115792089237316195423570985008687907852837564279074904382605163141518161494337, 7,
    [2, 2, 2, 2, 2, 2, 3, 149, 631, 107361793816595537, 174723607534414371449,
    341948486974166000522343609283189]⟩]

theorem secpCertificates_check : Pratt.checks [] secpCertificates = true := by decide +kernel

theorem secpP_prime : secpP.Prime :=
  Pratt.prime_of_checks (fun _ hmem ↦ absurd hmem List.not_mem_nil) secpCertificates_check
    secpP (by decide +kernel)

theorem secpN_prime : secpN.Prime :=
  Pratt.prime_of_checks (fun _ hmem ↦ absurd hmem List.not_mem_nil) secpCertificates_check
    secpN (by decide +kernel)

instance : Fact secpP.Prime := ⟨secpP_prime⟩

end Bc3Miner.Kernel
