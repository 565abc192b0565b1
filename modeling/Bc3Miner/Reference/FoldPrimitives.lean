import Bc3Miner.Kernel.MixPrimitives
import Bc3Miner.Reference.StreamedMix

/-!
# The primitives of a fold

The functions that `Fold::block` of `bc3hash/vendor/bc3/mix.cpp` calls for its modular arithmetic,
over the tables that have been built (`foldCalls`). `exactFold` is the arithmetic itself.

Every call returns what `exactFold` has, whatever the window of the tables (`foldCalls_return`): all
modes of the reference fold a message to the same 64 bytes.

The modulus of a fold has 512 bits and its exponent too; the table of the generator is a curve table
of its own.
-/

set_option autoImplicit false
set_option relaxedAutoImplicit false

namespace Bc3Miner.Reference

open Foundations Kernel
open Bc3Miner.Reference.Mod

/-! ### The functions called -/

/-- What a fold calls, with nothing where a call throws. -/
structure FoldCalls where
  exp256 : UInt 4 → Option (UInt 4)
  exp512 : UInt 8 → Option (UInt 8)
  pow256 : UInt 4 → Option (UInt 4)
  pow512 : UInt 8 → Option (UInt 8)
  generator : UInt 4 → Option (UInt 4 × UInt 4)

/-- Every call returns what the primitives have. -/
structure FoldCalls.Return (calls : FoldCalls) (p : FoldPrimitives) : Prop where
  exp256 (a : UInt 4) : calls.exp256 a = some (p.exp256 a)
  exp512 (a : UInt 8) : calls.exp512 a = some (p.exp512 a)
  pow256 (a : UInt 4) : calls.pow256 a = some (p.pow256 a)
  pow512 (a : UInt 8) : calls.pow512 a = some (p.pow512 a)
  generator (k : UInt 4) : calls.generator k = some (p.generator k)

structure FoldTables (Pubkey : Type) where
  pow256 : List (List (UInt 4))
  pow512 : List (List (UInt 8))
  generator : CurveTable Pubkey

/-- The table of `tables` that a fold reads, `fold_power` and `generator_table`. -/
def makeFoldTables {Pubkey : Type} (api : Secp256k1 Pubkey) (window : ℕ) :
    Option (FoldTables Pubkey) := do
  let pow256 ← fixedPower 36113 g256
  let pow512 ← fixedPower 38117 g512
  let generator ← makeCurveTable api window generatorX generatorY
  some ⟨pow256, pow512, generator⟩

/-- The functions of `Fold::block`. -/
def foldCalls {Pubkey : Type} (api : Secp256k1Sums Pubkey) (t : FoldTables Pubkey) : FoldCalls where
  exp256 := Windows.power 189 4 (fixedExponent 4 e256)
  exp512 := Windows.power 569 5 (fixedExponent 5 e512)
  pow256 := tablePower 36113 t.pow256
  pow512 := tablePower 38117 t.pow512
  generator := t.generator.multiply api

/-! ### The arithmetic -/

/-- The generator of the curve. -/
def generatorPoint : CurvePoint where
  x := 0x79be667ef9dcbbac55a06295ce870b07029bfcdb2dce28d959f2815b16f81798
  y := 0x483ada7726a3c4655da4fbfc0e1108a8fd17b448a68554199c47d08ffb10d4b8
  equation := by decide +kernel
  y_ne_zero := by decide +kernel
  annihilates := by decide +kernel

/-- The moduli of `M512` and `F512`. -/
@[irreducible] def m512P : ℕ := 2 ^ 512 - 569

@[irreducible] def f512P : ℕ := 2 ^ 512 - 38117

/-- The modular arithmetic of a fold. -/
noncomputable def exactFold : FoldPrimitives where
  exp256 a := ofZMod 4 ((a.toNat : ZMod (2 ^ 256 - 189)) ^ e256.toNat)
  exp512 a := ofZMod 8 ((a.toNat : ZMod m512P) ^ e512.toNat)
  pow256 a := ofZMod 4 ((g256.toNat : ZMod f256P) ^ a.toNat)
  pow512 a := ofZMod 8 ((g512.toNat : ZMod f512P) ^ a.toNat)
  generator k := coordinatesOf (k.toNat • generatorPoint.toPoint)

/-- A power by windows with a fixed exponent is exact, for any window that is not zero. -/
theorem power_exact {L : ℕ} {C : UInt64} (hsmall : Small L C) {p : ℕ}
    (hp : (modulus C : UInt L).toNat = p) {window : ℕ} (hwindow : 1 ≤ window) (e a : UInt L) :
    Windows.power C window (fixedExponent window e) a =
      some (ofZMod L ((a.toNat : ZMod p) ^ e.toNat)) := by
  subst hp
  obtain ⟨r, hrun, hr⟩ := power_spec hsmall hwindow e a
  rw [hrun, eq_ofZMod_of_stands hr]

section Tables

variable {Pubkey : Type} {api : Secp256k1Sums Pubkey} {point : Pubkey → secpCurve.Point}
  (hlaw : api.ComputesGroupLaw point) {window : ℕ} (hlow : 10 ≤ window) (hhigh : window ≤ 20)

include hlaw hlow hhigh

/-- The table of the generator is made, and every multiple from it is the exact one. -/
theorem generatorTable_exact :
    ∃ t, makeCurveTable api.toSecp256k1 window generatorX generatorY = some t ∧
      ∀ k, t.multiply api k = some (exactFold.generator k) := by
  have hencodes {a : U256} {x : SecpField} (hreduced : a.toNat < secpP)
      (hresidue : (a.toNat : SecpField) = x) : Encodes a x := ⟨hreduced, hresidue⟩
  have hx : Encodes generatorX generatorPoint.x := hencodes (by decide +kernel) (by decide +kernel)
  have hy : Encodes generatorY generatorPoint.y := hencodes (by decide +kernel) (by decide +kernel)
  have horder := generatorPoint.addOrderOf_toPoint
  obtain ⟨t, ht, hwindow, hholds⟩ :=
    makeCurveTable_holds hlaw.calls (by omega) hhigh hx hy horder
  refine ⟨t, ht, fun k ↦ CurveTable.multiply_spec hholds horder ?_ hlaw k⟩
  rw [hwindow]
  exact rowsOf_le hlow hhigh

/-- Let the calls of libsecp256k1 compute the group law, and the window be that of a mode of the
reference. The tables of a fold can then be made, and every function that `Fold::block` calls over
them returns the exact arithmetic, so that all modes fold a message alike. -/
theorem foldCalls_return : ∃ t, makeFoldTables api.toSecp256k1 window = some t ∧
    (foldCalls api t).Return exactFold := by
  have hM256 : Small 4 189 := ⟨by norm_num, by decide, by decide⟩
  have hM512 : Small 8 569 := ⟨by norm_num, by decide, by decide⟩
  have hF256 : Small 4 36113 := ⟨by norm_num, by decide, by decide⟩
  have hF512 : Small 8 38117 := ⟨by norm_num, by decide, by decide⟩
  have hm512 : (modulus 569 : UInt 8).toNat = m512P := by decide +kernel
  have hf512 : (modulus 38117 : UInt 8).toNat = f512P := by decide +kernel
  obtain ⟨t256, ht256, -⟩ := powerRows_spec hF256 (8 * 4) g256
  obtain ⟨t512, ht512, -⟩ := powerRows_spec hF512 (8 * 8) g512
  obtain ⟨t, ht, hmultiply⟩ := generatorTable_exact hlaw hlow hhigh
  refine ⟨⟨t256, t512, t⟩, ?_, ?_⟩
  · have hfirst : fixedPower 36113 g256 = some t256 := ht256
    have hsecond : fixedPower 38117 g512 = some t512 := ht512
    rw [makeFoldTables, hfirst, hsecond, ht]
    rfl
  · have hexp256 := power_exact hM256 (modulus_eq hM256) (by norm_num : 1 ≤ 4) e256
    have hexp512 := power_exact hM512 hm512 (by norm_num : 1 ≤ 5) e512
    constructor
    case exp256 => exact hexp256
    case exp512 =>
      intro a
      dsimp only [foldCalls, exactFold]
      exact hexp512 a
    case pow256 => exact fun a ↦ tablePower_exact hF256 toNat_modulus256 ht256 a
    case pow512 => exact fun a ↦ tablePower_exact hF512 hf512 ht512 a
    case generator => exact hmultiply

end Tables

/-- The compact mode, over the group law itself. -/
theorem foldCalls_return_compact : ∃ t, makeFoldTables groupLawSums.toSecp256k1 10 = some t ∧
    (foldCalls groupLawSums t).Return exactFold :=
  foldCalls_return groupLawSums_computesGroupLaw le_rfl (by decide)

end Bc3Miner.Reference
