import Bc3Miner.Foundations.Divsteps
import Mathlib.Data.Int.ModEq
import Mathlib.Data.UInt

/-!
# Thirty divsteps on the bottom limbs

`divsteps_30` of `src/kernels/bc3hash.cl`, in words of 32 bits that wrap around. The source has it
in two forms: one masks what it adds, the other multiplies it by -1, 0 or 1. Both make the same of
every state (`stepMasks_eq`).

Only the parities of `g` decide, and 30 steps see no more than the bottom 30 bits of the two
numbers; the matrix of a run on any two numbers with these bits is in the words (`divsteps30_eq`).

`DivstepWords.Follows` relates words to whole numbers modulo a power of two that shrinks by one bit
a step, and `DivstepWords.Follows.iterate` is 30 steps of it. The counter `zeta` is a signed word,
and stays small enough not to wrap around.
-/

set_option autoImplicit false
set_option relaxedAutoImplicit false

namespace Bc3Miner.Kernel

open Foundations

/-! ### The kernel's function -/

/-- The variables of the loop. -/
@[ext]
structure DivstepWords where
  zeta : Int32
  f : UInt32
  g : UInt32
  u : UInt32
  v : UInt32
  q : UInt32
  r : UInt32
  deriving DecidableEq

namespace DivstepWords

/-- The body of the loop with masks. -/
def stepMasks (s : DivstepWords) : DivstepWords :=
  let mask1 := (s.zeta >>> 31).toUInt32
  let mask2 := 0 - (s.g &&& 1)
  let x := (s.f ^^^ mask1) - mask1
  let y := (s.u ^^^ mask1) - mask1
  let z := (s.v ^^^ mask1) - mask1
  let g := s.g + (x &&& mask2)
  let q := s.q + (y &&& mask2)
  let r := s.r + (z &&& mask2)
  let mask1 := mask1 &&& mask2
  let zeta := ((s.zeta.toUInt32 ^^^ mask1) - 1).toInt32
  let f := s.f + (g &&& mask1)
  let u := s.u + (q &&& mask1)
  let v := s.v + (r &&& mask1)
  ⟨zeta, f, g >>> 1, u <<< 1, v <<< 1, q, r⟩

/-- The body of the loop with multipliers. -/
def stepMultipliers (s : DivstepWords) : DivstepWords :=
  let c1 := (s.zeta >>> 31).toUInt32
  let c2 := 0 - (s.g &&& 1)
  let m := c2 &&& (c1 ||| 1)
  let g := s.g + s.f * m
  let q := s.q + s.u * m
  let r := s.r + s.v * m
  let swap := c1 &&& c2
  let zeta := ((s.zeta.toUInt32 ^^^ swap) - 1).toInt32
  let sw := swap &&& 1
  let f := s.f + g * sw
  let u := s.u + q * sw
  let v := s.v + r * sw
  ⟨zeta, f, g >>> 1, u <<< 1, v <<< 1, q, r⟩

end DivstepWords

/-- The new counter and the entries of the matrix. -/
structure Divsteps30 where
  zeta : Int32
  u : Int32
  v : Int32
  q : Int32
  r : Int32
  deriving DecidableEq

/-- The matrix. -/
def Divsteps30.entries (t : Divsteps30) : Divstep.Transition :=
  ⟨t.u.toInt, t.v.toInt, t.q.toInt, t.r.toInt⟩

/-- `divsteps_30` with a body for its loop. -/
def divsteps30With (body : DivstepWords → DivstepWords) (zeta : Int32) (f0 g0 : UInt32) :
    Divsteps30 :=
  let last := body^[30] ⟨zeta, f0, g0, 1, 0, 0, 1⟩
  ⟨last.zeta, last.u.toInt32, last.v.toInt32, last.q.toInt32, last.r.toInt32⟩

/-- `divsteps_30` where `BC3_DIVSTEPS_MASKS` is defined. -/
def divsteps30Masks : Int32 → UInt32 → UInt32 → Divsteps30 :=
  divsteps30With DivstepWords.stepMasks

/-- `divsteps_30` where it is not. -/
def divsteps30 : Int32 → UInt32 → UInt32 → Divsteps30 :=
  divsteps30With DivstepWords.stepMultipliers

/-! ### The two forms -/

/-- The sign of the counter as a mask. -/
theorem shiftRight_31 (zeta : Int32) :
    (zeta >>> 31).toUInt32 = if zeta.toInt < 0 then -1 else 0 := by
  have hsign : (zeta >>> 31).toBitVec = BitVec.ofInt 32 (zeta.toInt >>> (31 : ℕ)) := by
    show zeta.toBitVec.sshiftRight' _ = _
    rw [BitVec.sshiftRight_eq', BitVec.sshiftRight_eq]
    rfl
  have hlow := zeta.le_toInt
  have hhigh := zeta.toInt_lt
  have hword : (zeta >>> 31).toUInt32 =
      UInt32.ofBitVec (BitVec.ofInt 32 (zeta.toInt >>> (31 : ℕ))) := by
    rw [← hsign]
    rfl
  rw [hword, Int.shiftRight_eq_div_pow]
  split_ifs with hneg
  · have hminus : zeta.toInt / (2 ^ 31 : ℕ) = -1 := by omega
    rw [hminus]
    rfl
  · have hzero : zeta.toInt / (2 ^ 31 : ℕ) = 0 := by omega
    rw [hzero]
    rfl

/-- The lowest bit of a word as a mask. -/
theorem zero_sub_and_one (g : UInt32) :
    0 - (g &&& 1) = if g.toNat % 2 = 0 then 0 else -1 := by
  have hbit : (g &&& 1).toNat = g.toNat % 2 := by
    rw [UInt32.toNat_and]
    exact Nat.and_one_is_mod _
  split_ifs with heven
  · rw [show g &&& 1 = 0 from UInt32.toNat_inj.mp (hbit.trans heven)]
    rfl
  · have hodd : g.toNat % 2 = 1 := by omega
    rw [show g &&& 1 = 1 from UInt32.toNat_inj.mp (hbit.trans hodd)]
    rfl

namespace DivstepWords

/-- What both forms make of the variables. -/
def stepPlain (s : DivstepWords) : DivstepWords :=
  if s.g.toNat % 2 = 0 then
    ⟨(s.zeta.toUInt32 - 1).toInt32, s.f, s.g >>> 1, s.u <<< 1, s.v <<< 1, s.q, s.r⟩
  else if s.zeta.toInt < 0 then
    ⟨(~~~s.zeta.toUInt32 - 1).toInt32, s.g, (s.g - s.f) >>> 1, s.q <<< 1, s.r <<< 1, s.q - s.u,
      s.r - s.v⟩
  else
    ⟨(s.zeta.toUInt32 - 1).toInt32, s.f, (s.g + s.f) >>> 1, s.u <<< 1, s.v <<< 1, s.q + s.u,
      s.r + s.v⟩

/-- The step with masks and multipliers is the plain one. -/
theorem stepMultipliers_eq_plain (s : DivstepWords) : s.stepMultipliers = s.stepPlain := by
  have hminus : ∀ x y : UInt32, x + y * -1 = x - y := by grind
  have hback : ∀ x y : UInt32, y + (x - y) = x := by grind
  unfold stepMultipliers stepPlain
  rw [shiftRight_31, zero_sub_and_one]
  split_ifs with hneg heven
  · simp
  · simp only [UInt32.neg_one_or, UInt32.and_neg_one, UInt32.neg_one_and, UInt32.xor_neg_one,
      hminus, mul_one, hback]
  · simp
  · simp

/-- The masks do what the multipliers do. -/
theorem stepMasks_eq_plain (s : DivstepWords) : s.stepMasks = s.stepPlain := by
  have hnot : ∀ x : UInt32, ~~~x - -1 = -x := by
    intro x
    rw [UInt32.not_eq_neg_sub]
    grind
  have hminus : ∀ x y : UInt32, x + -y = x - y := by grind
  have hback : ∀ x y : UInt32, y + (x - y) = x := by grind
  unfold stepMasks stepPlain
  rw [shiftRight_31, zero_sub_and_one]
  split_ifs with hneg heven
  · simp
  · simp only [UInt32.and_neg_one, UInt32.xor_neg_one, hnot, hminus, hback]
  · simp
  · simp

end DivstepWords

/-- The two forms of `divsteps_30` make the same of every counter and every two words. -/
theorem divsteps30Masks_eq : divsteps30Masks = divsteps30 := by
  have hbody : DivstepWords.stepMasks = DivstepWords.stepMultipliers := by
    funext s
    rw [s.stepMasks_eq_plain, s.stepMultipliers_eq_plain]
  unfold divsteps30Masks divsteps30
  rw [hbody]

/-! ### Words modulo powers of two -/

theorem toNat_add_modEq (a b : UInt32) : ((a + b).toNat : ℤ) ≡ a.toNat + b.toNat [ZMOD 2 ^ 32] := by
  rw [Int.ModEq, UInt32.toNat_add]
  omega

theorem toNat_sub_modEq (a b : UInt32) : ((a - b).toNat : ℤ) ≡ a.toNat - b.toNat [ZMOD 2 ^ 32] := by
  have hb := b.toNat_lt
  rw [Int.ModEq, UInt32.toNat_sub]
  omega

/-- A shift by one doubles a word modulo `2 ^ 32`. -/
theorem toNat_shiftLeft_modEq (a : UInt32) : ((a <<< 1).toNat : ℤ) ≡ 2 * a.toNat [ZMOD 2 ^ 32] := by
  have hshift : (a <<< 1).toNat = a.toNat * 2 % 2 ^ 32 := by
    rw [UInt32.toNat_shiftLeft, Nat.shiftLeft_eq]
    rfl
  rw [Int.ModEq, hshift]
  omega

/-- A whole number made a word. -/
theorem toNat_ofInt (x : ℤ) : ((UInt32.ofInt x).toNat : ℤ) = x % 2 ^ 32 := by
  have hpos : 0 ≤ x % 2 ^ 32 := Int.emod_nonneg _ (by norm_num)
  have hlt : x % 2 ^ 32 < 2 ^ 32 := Int.emod_lt_of_pos _ (by norm_num)
  have hword : (UInt32.ofInt x).toNat = (x % 2 ^ 32).toNat % 2 ^ 32 := UInt32.toNat_ofNat'
  rw [hword]
  omega

/-- Half of a word, modulo one bit less. -/
theorem toNat_shiftRight_modEq {a : UInt32} {half : ℤ} {bits : ℕ}
    (ha : (a.toNat : ℤ) ≡ 2 * half [ZMOD 2 ^ (bits + 1)]) :
    ((a >>> 1).toNat : ℤ) ≡ half [ZMOD 2 ^ bits] := by
  have hshift : (a >>> 1).toNat = a.toNat / 2 := by
    rw [UInt32.toNat_shiftRight, Nat.shiftRight_eq_div_pow]
    rfl
  obtain ⟨factor, hfactor⟩ := Int.modEq_iff_dvd.mp ha
  refine Int.modEq_iff_dvd.mpr ⟨factor, ?_⟩
  rw [pow_succ, mul_right_comm] at hfactor
  rw [hshift]
  push_cast
  omega

/-- A signed word that is congruent to a small number is that number. -/
theorem toInt_toInt32 {a : UInt32} {x : ℤ} (ha : (a.toNat : ℤ) ≡ x [ZMOD 2 ^ 32])
    (hlow : -2 ^ 31 ≤ x) (hhigh : x < 2 ^ 31) : a.toInt32.toInt = x := by
  have hword : a.toInt32.toInt = (a.toNat : ℤ).bmod (2 ^ 32) := BitVec.toInt_eq_toNat_bmod _
  rw [Int.ModEq] at ha
  rw [hword, Int.bmod_def]
  omega

/-- A signed word read as unsigned is the same modulo `2 ^ 32`. -/
theorem toNat_toUInt32_modEq (zeta : Int32) :
    (zeta.toUInt32.toNat : ℤ) ≡ zeta.toInt [ZMOD 2 ^ 32] := by
  have hword : zeta.toInt = (zeta.toUInt32.toNat : ℤ).bmod (2 ^ 32) := BitVec.toInt_eq_toNat_bmod _
  have hlt := zeta.toUInt32.toNat_lt
  rw [Int.ModEq, hword, Int.bmod_def]
  omega

/-- The counter, one less. -/
theorem toInt_sub_one {zeta : Int32} (hlow : -2 ^ 31 < zeta.toInt) :
    (zeta.toUInt32 - 1).toInt32.toInt = zeta.toInt - 1 := by
  have hhigh := zeta.toInt_lt
  refine toInt_toInt32 ((toNat_sub_modEq _ _).trans ?_) (by omega) (by omega)
  exact (toNat_toUInt32_modEq zeta).sub_right _

/-- The counter, turned round and one less. -/
theorem toInt_not_sub_one {zeta : Int32} (hhigh : zeta.toInt < 2 ^ 31 - 1) :
    (~~~zeta.toUInt32 - 1).toInt32.toInt = -zeta.toInt - 2 := by
  have hlow := zeta.le_toInt
  have hsplit : ~~~zeta.toUInt32 - 1 = 0 - zeta.toUInt32 - 1 - 1 := by
    rw [UInt32.not_eq_neg_sub]
    grind
  have hmod := toNat_toUInt32_modEq zeta
  refine toInt_toInt32 ?_ (by omega) (by omega)
  rw [hsplit]
  refine (toNat_sub_modEq _ _).trans ?_
  have hinner := (toNat_sub_modEq (0 - zeta.toUInt32) 1).trans
    ((toNat_sub_modEq 0 zeta.toUInt32).sub_right _)
  have hall := (hinner.trans ((hmod.sub_left _).sub_right _)).sub_right ((1 : UInt32).toNat : ℤ)
  have hvalue : ((0 : UInt32).toNat : ℤ) - zeta.toInt - ((1 : UInt32).toNat : ℤ) -
      ((1 : UInt32).toNat : ℤ) = -zeta.toInt - 2 := by
    rw [show (0 : UInt32).toNat = 0 from rfl, show (1 : UInt32).toNat = 1 from rfl]
    omega
  rwa [hvalue] at hall

/-! ### The words follow the steps -/

/-- The variables are those of a run: the counter is its counter, the numbers are congruent to the
run's in the given number of bits, and the entries to those of its matrix. -/
structure DivstepWords.Follows (bits : ℕ) (w : DivstepWords) (s : Divstep.State)
    (t : Divstep.Transition) : Prop where
  zeta : w.zeta.toInt = s.zeta
  f : (w.f.toNat : ℤ) ≡ s.f [ZMOD 2 ^ bits]
  g : (w.g.toNat : ℤ) ≡ s.g [ZMOD 2 ^ bits]
  u : (w.u.toNat : ℤ) ≡ t.u [ZMOD 2 ^ 32]
  v : (w.v.toNat : ℤ) ≡ t.v [ZMOD 2 ^ 32]
  q : (w.q.toNat : ℤ) ≡ t.q [ZMOD 2 ^ 32]
  r : (w.r.toNat : ℤ) ≡ t.r [ZMOD 2 ^ 32]

/-- What is congruent in 32 bits is so in fewer. -/
theorem modEq_fewer {x y : ℤ} {bits : ℕ} (hbits : bits ≤ 32) (hmod : x ≡ y [ZMOD 2 ^ 32]) :
    x ≡ y [ZMOD 2 ^ bits] := hmod.of_dvd (pow_dvd_pow 2 hbits)

/-- One step of the words is one step of the run, and costs one bit. -/
theorem DivstepWords.Follows.step {bits : ℕ} {w : DivstepWords} {s : Divstep.State}
    {t : Divstep.Transition} (hfollows : w.Follows (bits + 1) s t) (hbits : bits < 32)
    (hf : s.f % 2 = 1) (hlow : -2 ^ 31 < s.zeta) (hhigh : s.zeta < 2 ^ 31 - 1) :
    w.stepPlain.Follows bits (Divstep.step s) (t.next s) := by
  obtain ⟨hzeta, hwf, hwg, hwu, hwv, hwq, hwr⟩ := hfollows
  have hparity : (w.g.toNat : ℤ) % 2 = s.g % 2 :=
    hwg.of_dvd (dvd_pow_self 2 (Nat.succ_ne_zero bits))
  have hfewer : ∀ {x y : ℤ}, x ≡ y [ZMOD 2 ^ (bits + 1)] → x ≡ y [ZMOD 2 ^ bits] :=
    fun hmod ↦ hmod.of_dvd (pow_dvd_pow 2 (Nat.le_succ bits))
  have hdouble : ∀ {a : UInt32} {x : ℤ}, (a.toNat : ℤ) ≡ x [ZMOD 2 ^ 32] →
      ((a <<< 1).toNat : ℤ) ≡ 2 * x [ZMOD 2 ^ 32] :=
    fun hmod ↦ (toNat_shiftLeft_modEq _).trans (hmod.mul_left 2)
  have hlow' : -2 ^ 31 < w.zeta.toInt := by rwa [hzeta]
  have hhigh' : w.zeta.toInt < 2 ^ 31 - 1 := by rwa [hzeta]
  rw [DivstepWords.stepPlain, Divstep.Transition.next]
  rcases Divstep.step_cases hf with
    ⟨half, hg, hstep⟩ | ⟨half, hodd, hneg, hhalf, hstep⟩ | ⟨half, hodd, hpos, hhalf, hstep⟩
  · rw [hstep, if_pos (by omega), if_pos (by omega)]
    rw [hg] at hwg
    exact ⟨by rw [toInt_sub_one hlow', hzeta], hfewer hwf, toNat_shiftRight_modEq hwg, hdouble hwu,
      hdouble hwv, hwq, hwr⟩
  · rw [hstep, if_neg (by omega), if_pos (by omega), if_neg (by omega), if_pos hneg]
    have hdifference : ((w.g - w.f).toNat : ℤ) ≡ 2 * half [ZMOD 2 ^ (bits + 1)] := by
      rw [← hhalf]
      exact (modEq_fewer hbits (toNat_sub_modEq _ _)).trans (hwg.sub hwf)
    exact ⟨by rw [toInt_not_sub_one hhigh', hzeta], hfewer hwg, toNat_shiftRight_modEq hdifference,
      hdouble hwq, hdouble hwr, (toNat_sub_modEq _ _).trans (hwq.sub hwu),
      (toNat_sub_modEq _ _).trans (hwr.sub hwv)⟩
  · rw [hstep, if_neg (by omega), if_neg (by omega), if_neg (by omega), if_neg (by omega)]
    have hsum : ((w.g + w.f).toNat : ℤ) ≡ 2 * half [ZMOD 2 ^ (bits + 1)] := by
      rw [← hhalf]
      exact (modEq_fewer hbits (toNat_add_modEq _ _)).trans (hwg.add hwf)
    exact ⟨by rw [toInt_sub_one hlow', hzeta], hfewer hwf, toNat_shiftRight_modEq hsum, hdouble hwu,
      hdouble hwv, (toNat_add_modEq _ _).trans (hwq.add hwu),
      (toNat_add_modEq _ _).trans (hwr.add hwv)⟩

/-- After a run the words are what it came to. -/
theorem DivstepWords.Follows.iterate {w : DivstepWords} {s : Divstep.State} {count : ℕ}
    (hfollows : w.Follows 30 s .one) (hf : s.f % 2 = 1) (hzeta : |s.zeta| ≤ 2 ^ 30)
    (hcount : count ≤ 30) :
    (stepMultipliers^[count] w).Follows (30 - count) (Divstep.step^[count] s)
      (Divstep.transition s count) := by
  induction count with
  | zero => exact hfollows
  | succ count ih =>
    rw [Function.iterate_succ_apply', Function.iterate_succ_apply', stepMultipliers_eq_plain]
    have hbits : 30 - count = (30 - (count + 1)) + 1 := by omega
    have hbefore := ih (by omega)
    rw [hbits] at hbefore
    have hrange := Divstep.abs_zeta_iterate s count
    have hcounter : |(Divstep.step^[count] s).zeta| ≤ 2 ^ 30 + 30 := by omega
    rw [abs_le] at hcounter
    exact hbefore.step (by omega) (Divstep.odd_iterate hf count) (by omega) (by omega)

/-- Let the first of two numbers be odd, the counter be in range, and two words have the bottom 30
bits of the numbers. Then `divsteps_30` on these words gives the counter and the matrix that 30
divsteps of the whole numbers have. -/
theorem divsteps30_eq {s : Divstep.State} (hf : s.f % 2 = 1) (hzeta : |s.zeta| ≤ 2 ^ 30)
    {zeta : Int32} (hcounter : zeta.toInt = s.zeta) {f0 g0 : UInt32}
    (hf0 : (f0.toNat : ℤ) ≡ s.f [ZMOD 2 ^ 30]) (hg0 : (g0.toNat : ℤ) ≡ s.g [ZMOD 2 ^ 30]) :
    (divsteps30 zeta f0 g0).zeta.toInt = (Divstep.step^[30] s).zeta ∧
      (divsteps30 zeta f0 g0).entries = Divstep.transition s 30 := by
  have hstart : (⟨zeta, f0, g0, 1, 0, 0, 1⟩ : DivstepWords).Follows 30 s .one :=
    ⟨hcounter, hf0, hg0, rfl, rfl, rfl, rfl⟩
  obtain ⟨hlast, -, -, hu, hv, hq, hr⟩ := hstart.iterate hf hzeta le_rfl
  obtain ⟨hrow, hrow'⟩ := Divstep.transition_rowsLe s 30
  have hentry : ∀ x y : ℤ, |x| + |y| ≤ 2 ^ 30 →
      -2 ^ 31 ≤ x ∧ x < 2 ^ 31 ∧ -2 ^ 31 ≤ y ∧ y < 2 ^ 31 := by
    intro x y hsum
    have hx := abs_le.mp (le_of_add_le_of_nonneg_left hsum (abs_nonneg y))
    have hy := abs_le.mp (le_of_add_le_of_nonneg_right hsum (abs_nonneg x))
    omega
  obtain ⟨hulow, huhigh, hvlow, hvhigh⟩ := hentry _ _ hrow
  obtain ⟨hqlow, hqhigh, hrlow, hrhigh⟩ := hentry _ _ hrow'
  refine ⟨hlast, Divstep.Transition.ext ?_ ?_ ?_ ?_⟩
  · exact toInt_toInt32 hu hulow huhigh
  · exact toInt_toInt32 hv hvlow hvhigh
  · exact toInt_toInt32 hq hqlow hqhigh
  · exact toInt_toInt32 hr hrlow hrhigh

end Bc3Miner.Kernel
