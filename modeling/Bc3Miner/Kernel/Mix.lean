import Bc3Miner.Kernel.Constants
import Bc3Miner.Kernel.Words
import Bc3Miner.Reference.Mix

/-!
# The mix of the kernel

`bc3mix512` of `src/kernels/bc3hash.cl`, over the same modular primitives as the reference. Its
words of 128 and 256 bits lie in arrays of only the places it uses, at the reference's index less 24
and less 41, and nothing is in them before it is written.

`bc3mix512_is_mix512` has no hypothesis: whatever the primitives compute, the two mixes call them
with the same arguments in the same places. An array is a `LocalArray`, so a read of what was not
written would be no result.
-/

set_option autoImplicit false
set_option relaxedAutoImplicit false

namespace Bc3Miner.Kernel

open Foundations Reference

/-! ### The message words -/

/-- Eight bytes, most significant first. -/
def loadBe64 (bytes : ℕ → UInt8) : UInt64 :=
  (List.range 8).foldl (fun v i ↦ (v <<< 8) ||| (bytes i).toUInt64) 0

/-- The four words of a constant from word `first` on. -/
def c256 (words : List UInt64) (first : ℕ) : Option U256 := do
  return mk256 (← words[first]?) (← words[first + 1]?) (← words[first + 2]?) (← words[first + 3]?)

def expand64 (input : Vector UInt8 64) : Option (LocalArray UInt64 32) := do
  let m64 ← LocalArray.fill 0 (fun _ i ↦ some (loadBe64 fun j ↦ byteAt input (8 * i + j))) 8 0
    LocalArray.uninitialised
  LocalArray.fill 0 (fun m64 i ↦ do
    return gamma64 (← m64.read (i - 8)) (← m64.read (i - 4)) +
      gamma64 (← m64.read (i - 7)) (← m64.read (i - 3)) +
      gamma64 (← m64.read (i - 6)) (← m64.read (i - 2)) +
      gamma64 (← m64.read (i - 5)) (← m64.read (i - 1))) 24 8 m64

/-- `m128[i]` of the reference is `m128[i - 24]` here. -/
def expand128 (m64 : LocalArray UInt64 32) : Option (LocalArray U128 24) := do
  let m128 ← LocalArray.fill 24 (fun _ i ↦ do return mk128 (← m64.read i) 0) 8 24
    LocalArray.uninitialised
  LocalArray.fill 24 (fun m128 i ↦ do
    return add128 (add128 (beta128 (← m128.read (i - 32))) (beta128 (← m128.read (i - 31))))
      (add128 (beta128 (← m128.read (i - 28))) (beta128 (← m128.read (i - 27))))) 16 32 m128

/-- `m256[i]` of the reference is `m256[i - 41]` here. -/
def expand256 (m128 : LocalArray U128 24) : Option (LocalArray U256 23) := do
  let m256 ← LocalArray.fill 41 (fun _ i ↦ do
    return mk256 ((← m128.read (i - 24)).limb 0) ((← m128.read (i - 24)).limb 1) 0 0) 7 41
    LocalArray.uninitialised
  LocalArray.fill 41 (fun m256 i ↦ do
    return add256 (add256 (beta256 (← m256.read (i - 48))) (beta256 (← m256.read (i - 47))))
      (add256 (beta256 (← m256.read (i - 43))) (beta256 (← m256.read (i - 42))))) 16 48 m256

/-! ### The stages -/

/-- The lanes of the first stage before its first round. -/
def startLanes (m64 : LocalArray UInt64 32) : Option (Lanes8 UInt64) := do
  return ⟨(← m64.read 0) ^^^ (← bc3Base[0]?), (← m64.read 1) ^^^ (← bc3Base[1]?),
    (← m64.read 2) ^^^ (← bc3Base[2]?), (← m64.read 3) ^^^ (← bc3Base[3]?),
    (← m64.read 4) ^^^ (← bc3Base[4]?), (← m64.read 5) ^^^ (← bc3Base[5]?),
    (← m64.read 6) ^^^ (← bc3Base[6]?), (← m64.read 7) ^^^ (← bc3Base[7]?)⟩

/-- A round of the first stage. -/
def s1Round (p : Primitives) (constant message : UInt64) : Lanes8 UInt64 → Lanes8 UInt64
  | ⟨c1, c2, c3, c4, c5, c6, c7, c8⟩ =>
    let powers := p.exp64 (c1 ^^^ sig0_64 c2) (c3 ^^^ sig1_64 c4)
    let d1 := powers.1 + ror64 c6 7 + rol64 c5 13
    let d2 := powers.2 + ch64 c5 c6 c7 + maj64 c1 c4 c8
    let d3 := c8 + bigSig0_64 c7 + constant
    let d4 := c5 + bigSig1_64 c1 + d1 + message + p.pow64 d3
    let n8 := c7
    let n7 := c6 + d1 + sig0_64 (p.mul64 d1 d3)
    let n6 := c5 + sig1_64 (d2 ^^^ d3)
    let n1 := gamma64 d1 d2 + (d3 ^^^ d4) + beta64 (p.mul64 d2 d4)
    ⟨n1, c1 ^^^ d3, c2, c3 + d4, c4, n6, n7, n8⟩

/-- A round of the second stage. -/
def s2Round (p : Primitives) (constant message : U128) : Lanes4 U128 → Lanes4 U128
  | ⟨f1, f2, f3, f4⟩ =>
    let powers := p.exp128 (xor128 f1 (beta128 f3)) (xor128 f2 (beta128 f4))
    let a := add128 (add128 powers.1 (sig0_128 (xor128 f2 f4))) (ch128 f2 f3 f4)
    let b := add128 (add128 powers.2 (sig1_128 (xor128 f1 f3))) (maj128 f1 f2 f3)
    let c := add128 (add128 (rol128 (not128 f1) 29) (ror128 (not128 f2) 7)) f3
    let c := add128 (add128 c (not128 f4)) message
    let c := add128 c (p.pow128 f3)
    let d := add128 (add128 (rol128 (not128 f3) 29) (ror128 f4 7)) f2
    let d := add128 (add128 d (not128 f1)) constant
    let nf4 := add128 f3 a
    let nf2 := add128 (add128 f1 c) (beta128 d)
    let nf1 := add128 b (bigSig0_128 (xor128 (xor128 a c) d))
    ⟨nf1, nf2, f2, nf4⟩

/-- There is a first curve point. -/
local instance neZeroCurves : NeZero 4 := ⟨by decide⟩

/-- The four scalar multiplications of a round, whose eight coordinates are in `pts`. -/
def curveMul4 (p : Primitives) (k0 k1 k2 k3 : U256) : Vector U256 8 :=
  #v[(p.curve 0 k0).1, (p.curve 0 k0).2, (p.curve 1 k1).1, (p.curve 1 k1).2, (p.curve 2 k2).1,
    (p.curve 2 k2).2, (p.curve 3 k3).1, (p.curve 3 k3).2]

/-- A round of the third stage. -/
def s3Round (p : Primitives) (constant message : U256) : U256 × U256 → U256 × U256
  | (h1, h2) =>
    let powers := p.exp256 (xor256 (rol256 h1 11) h2) (xor256 h1 (beta256 (not256 h2)))
    let j1 := add256 powers.1 (beta256 (xor256 h1 h2))
    let j2 := add256 powers.2 (gamma256 h1 h2)
    let powers := p.exp256 j1 j2
    let j3 := add256 (add256 (gamma256 j1 j2) powers.1) constant
    let j4 := add256 (add256 (gamma256 j3 (beta256 h2)) powers.2) (add256 message (ch256 j1 j2 j3))
    let pts := curveMul4 p h1 h2 j1 j3
    let j5 := pts[0]
    let j6 := pts[1]
    let j7 := pts[2]
    let j8 := pts[3]
    let j9 := pts[4]
    let j10 := pts[5]
    let j11 := pts[6]
    let j12 := pts[7]
    let nh2 := add256 h1 (gamma256 j1 j3)
    let nh2 := add256 nh2 (maj256 j2 j3 j4)
    let nh2 := add256 nh2 j5
    let nh2 := add256 nh2 j8
    let nh2 := add256 nh2 (ch256 j1 j6 j7)
    let nh2 := add256 nh2 (beta256 j10)
    let nh2 := add256 nh2 j11
    let nh1 := add256 (beta256 j2) (gamma256 j3 j4)
    let nh1 := add256 nh1 (bigSig1_256 (p.mul256 j1 j2))
    let nh1 := add256 nh1 (maj256 j7 j6 j5)
    let nh1 := add256 nh1 (bigSig0_256 j9)
    let nh1 := add256 nh1 j12
    (nh1, nh2)

/-- A round of the fourth stage up to its inversion: `k1` and `k2`. -/
def s4Pre (p : Primitives) (u1 u2 : U256) : U256 × U256 :=
  let powers := p.pow256 u1 u2
  let k1 := add256 powers.1 (beta256 u2)
  (k1, add256 (add256 powers.2 (gamma256 u1 u2)) (ch256 k1 u2 u1))

/-- A round of the fourth stage after its inversion. -/
def s4Post (u1 u2 k1 k2 ik2 fc : U256) : U256 × U256 :=
  let k3 := add256 (add256 ik2 (beta256 u1)) (beta256 (xor256 (xor256 u2 k1) fc))
  let nu2 := add256 (add256 (xor256 k1 u1) (maj256 k1 k2 u2)) (beta256 k3)
  let nu1 := add256 (beta256 k1) k2
  (nu1, nu2)

def mixOut (u1 u2 : U256) : List UInt8 :=
  let res := add256 u1 (beta256 u2)
  (List.range 4).flatMap fun i ↦ (List.range 8).map fun j ↦
    (res.limb (3 - i) >>> (56 - 8 * j).toUInt64).toUInt8

/-! ### The mix -/

/-- The 32 rounds of the first stage. -/
def s1Rounds (p : Primitives) (m64 : LocalArray UInt64 32) (c : Lanes8 UInt64) :
    Option (Lanes8 UInt64) :=
  (List.range 32).foldlM (fun c i ↦ do
    return s1Round p (← bc3Round64[i]?) (← m64.read i) c) c

/-- The 16 rounds of the second stage. -/
def s2Rounds (p : Primitives) (m128 : LocalArray U128 24) (f : Lanes4 U128) :
    Option (Lanes4 U128) :=
  (List.range 16).foldlM (fun f i ↦ do
    return s2Round p (mk128 (← bc3Round128[2 * i]?) (← bc3Round128[2 * i + 1]?))
      (← m128.read (8 + i)) f) f

/-- The 16 rounds of the third stage. -/
def s3Rounds (p : Primitives) (m256 : LocalArray U256 23) (h : U256 × U256) :
    Option (U256 × U256) :=
  (List.range 16).foldlM (fun h i ↦ do
    return s3Round p (← c256 bc3Round256 (4 * i)) (← m256.read (7 + i)) h) h

/-- The expansion and the first three stages. -/
def bc3mixS123 (p : Primitives) (input : Vector UInt8 64) : Option (U256 × U256) := do
  let m64 ← expand64 input
  let c ← startLanes m64
  let m128 ← expand128 m64
  let m256 ← expand256 m128
  let c ← s1Rounds p m64 c
  let f ← s2Rounds p m128 ⟨mk128 c.c5 c.c1, mk128 c.c6 c.c2, mk128 c.c7 c.c3, mk128 c.c8 c.c4⟩
  s3Rounds p m256 (mk256 (f.f3.limb 0) (f.f3.limb 1) (f.f1.limb 0) (f.f1.limb 1),
    mk256 (f.f4.limb 0) (f.f4.limb 1) (f.f2.limb 0) (f.f2.limb 1))

/-- The 64 rounds of the fourth stage. -/
def s4Rounds (p : Primitives) (u : U256 × U256) : Option (U256 × U256) :=
  (List.range 64).foldlM (fun u i ↦ do
    let (k1, k2) := s4Pre p u.1 u.2
    let ik2 := p.inverse256 k2
    return s4Post u.1 u.2 k1 k2 ik2 (← c256 bc3Final (4 * i))) u

def bc3mix512 (p : Primitives) (input : Vector UInt8 64) : Option (List UInt8) := do
  let u ← bc3mixS123 p input
  let u ← s4Rounds p u
  return mixOut u.1 u.2

/-! ### Rounds of the reference -/

section Rounds

variable (p : Primitives)

/-- Lanes of 64 bits read as numbers of one limb. -/
def readLanes (c : Lanes8 UInt64) : Lanes8 (UInt 1) :=
  ⟨toUInt c.c1, toUInt c.c2, toUInt c.c3, toUInt c.c4, toUInt c.c5, toUInt c.c6, toUInt c.c7,
    toUInt c.c8⟩

theorem exp64_fst (a b : UInt64) :
    toUInt (p.exp64 a b).1 = (p.exp64Pair (toUInt a) (toUInt b)).1 := rfl

theorem exp64_snd (a b : UInt64) :
    toUInt (p.exp64 a b).2 = (p.exp64Pair (toUInt a) (toUInt b)).2 := rfl

theorem pow64_eq (a : UInt64) : toUInt (p.pow64 a) = p.power64 (toUInt a) := rfl

theorem mul64_eq (a b : UInt64) : toUInt (p.mul64 a b) = p.product64 (toUInt a) (toUInt b) := rfl

/-- A round of the first stage on 64-bit lanes is that of the reference. -/
theorem s1Round_eq (constant message : UInt64) (c : Lanes8 UInt64) :
    readLanes (s1Round p constant message c) =
      round1 p 0 (toUInt constant) (toUInt message) (readLanes c) := by
  rcases c with ⟨c1, c2, c3, c4, c5, c6, c7, c8⟩
  have hxor (a b : UInt64) : toUInt (a ^^^ b) = toUInt a ^^^ toUInt b :=
    operations64_areReference.xor a b
  have hror : toUInt (ror64 c6 7) = ror 7 (toUInt c6) := ror64_eq (by omega) c6
  have hrol : toUInt (rol64 c5 13) = rol 13 (toUInt c5) :=
    operations64_areReference.rol c5 13 (by omega) (by omega)
  simp only [s1Round, round1, readLanes, toUInt_add, hxor, hror, hrol, sig0_64, sig1_64,
    bigSig0_64, bigSig1_64, ch64, maj64, beta64, gamma64, mixes64.sig0, mixes64.sig1,
    mixes64.bigSig0, mixes64.bigSig1, mixes64.ch, mixes64.maj, mixes64.beta, mixes64.gamma,
    exp64_fst, exp64_snd, pow64_eq, mul64_eq, add_ofWord_zero]

/-- A round of the second stage on 128-bit lanes is that of the reference. -/
theorem s2Round_eq (constant message : U128) (f : Lanes4 U128) :
    s2Round p constant message f = round2 p constant message f := by
  rcases f with ⟨f1, f2, f3, f4⟩
  have hxor (a b : U128) : xor128 a b = a ^^^ b := operations128_areReference.xor a b
  have hror (a : U128) : ror128 a 7 = ror 7 a :=
    operations128_areReference.ror a 7 (by omega) (by omega)
  have hrol (a : U128) : rol128 a 29 = rol 29 a := rol128_eq (by omega) (by omega) a
  have hsig0 (x : U128) : sig0_128 x = sig0 x := mixes128.sig0 x
  have hsig1 (x : U128) : sig1_128 x = sig1 x := mixes128.sig1 x
  have hbigSig0 (x : U128) : bigSig0_128 x = bigSig0 x := mixes128.bigSig0 x
  have hbeta (x : U128) : beta128 x = beta x := mixes128.beta x
  have hch (x y z : U128) : ch128 x y z = ch x y z := mixes128.ch x y z
  have hmaj (x y z : U128) : maj128 x y z = maj x y z := mixes128.maj x y z
  simp only [s2Round, round2, add128_eq, not128_eq, hxor, hror, hrol, hsig0, hsig1, hbigSig0,
    hbeta, hch, hmaj]

/-- A round of the third stage on 256-bit halves is that of the reference. -/
theorem s3Round_eq (constant message : U256) (h : U256 × U256) :
    s3Round p constant message h = round3 p constant message h := by
  rcases h with ⟨h1, h2⟩
  have hxor (a b : U256) : xor256 a b = a ^^^ b := operations256_areReference.xor a b
  have hrol (a : U256) : rol256 a 11 = rol 11 a := rol256_eq (by omega) (by omega) a
  have hbigSig0 (x : U256) : bigSig0_256 x = bigSig0 x := mixes256.bigSig0 x
  have hbigSig1 (x : U256) : bigSig1_256 x = bigSig1 x := mixes256.bigSig1 x
  have hbeta (x : U256) : beta256 x = beta x := mixes256.beta x
  have hgamma (x y : U256) : gamma256 x y = gamma x y := mixes256.gamma x y
  have hch (x y z : U256) : ch256 x y z = ch x y z := mixes256.ch x y z
  have hmaj (x y z : U256) : maj256 x y z = maj x y z := mixes256.maj x y z
  simp only [s3Round, round3, curveMul4, add256_eq, not256_eq, hxor, hrol, hbigSig0, hbigSig1,
    hbeta, hgamma, hch, hmaj, add_assoc]
  rfl

/-- The two parts of a round of the fourth stage around its inversion are the round. -/
theorem s4Round_eq (u : U256 × U256) (fc : U256) :
    s4Post u.1 u.2 (s4Pre p u.1 u.2).1 (s4Pre p u.1 u.2).2 (p.inverse256 (s4Pre p u.1 u.2).2) fc =
      round4 p u fc := by
  rcases u with ⟨u1, u2⟩
  have hxor (a b : U256) : xor256 a b = a ^^^ b := operations256_areReference.xor a b
  have hbeta (x : U256) : beta256 x = beta x := mixes256.beta x
  have hgamma (x y : U256) : gamma256 x y = gamma x y := mixes256.gamma x y
  have hch (x y z : U256) : ch256 x y z = ch x y z := mixes256.ch x y z
  have hmaj (x y z : U256) : maj256 x y z = maj x y z := mixes256.maj x y z
  simp only [s4Pre, s4Post, round4, add256_eq, hxor, hbeta, hgamma, hch, hmaj]

end Rounds

/-! ### Constants of the reference -/

/-- A word of a table that is laid out limb by limb. -/
theorem word_of_table {L : ℕ} {words : List UInt64} {table : List (UInt L)}
    (hwords : words = table.flatMap fun a ↦ a.v.toList) {i j : ℕ} (hi : i < table.length)
    (hj : j < L) : words[L * i + j]? = some ((entry table i).limb j) := by
  subst hwords
  induction table generalizing i with
  | nil => exact absurd hi (Nat.not_lt_zero i)
  | cons a rest ih =>
    have hlength : a.v.toList.length = L := Vector.length_toList
    rw [List.flatMap_cons]
    cases i with
    | zero =>
      have hinside : j < a.v.toList.length := hlength.symm ▸ hj
      have hlimb : a.limb j = a.v.toList[j] := by
        unfold Limbs.limb
        rw [List.getD_eq_getElem?_getD, List.getElem?_eq_getElem hinside, Option.getD_some]
      rw [Nat.mul_zero, Nat.zero_add, List.getElem?_append_left hinside,
        List.getElem?_eq_getElem hinside, ← hlimb]
      rfl
    | succ i =>
      have hplace : L * (i + 1) + j = a.v.toList.length + (L * i + j) := by
        rw [hlength]
        ring
      rw [hplace, List.getElem?_append_right (Nat.le_add_right _ _), Nat.add_sub_cancel_left,
        ih (Nat.lt_of_succ_lt_succ hi)]
      rfl

/-- Four words of such a table. -/
theorem c256_of_table {words : List UInt64} {table : List U256}
    (hwords : words = table.flatMap fun a ↦ a.v.toList) {i : ℕ} (hi : i < table.length) :
    c256 words (4 * i) = some (entry table i) := by
  have hlimbs : mk256 ((entry table i).limb 0) ((entry table i).limb 1) ((entry table i).limb 2)
      ((entry table i).limb 3) = entry table i :=
    Limbs.ext_limb fun j hj ↦ by interval_cases j <;> rfl
  have hfirst : words[4 * i]? = some ((entry table i).limb 0) :=
    word_of_table hwords hi (by omega : 0 < 4)
  unfold c256
  rw [hfirst, word_of_table hwords hi (by omega : 1 < 4),
    word_of_table hwords hi (by omega : 2 < 4), word_of_table hwords hi (by omega : 3 < 4)]
  exact congrArg some hlimbs

theorem bc3Base_eq : ∀ i < 8, bc3Base[i]? = some ((entry base i).limb 0) := by
  intro i hi
  have hwords : bc3Base = base.flatMap fun a ↦ a.v.toList := by decide +kernel
  have hword := word_of_table hwords hi Nat.one_pos
  rwa [Nat.one_mul] at hword

theorem bc3Round64_eq : ∀ i < 32, bc3Round64[i]? = some ((entry round64 i).limb 0) := by
  intro i hi
  have hwords : bc3Round64 = round64.flatMap fun a ↦ a.v.toList := by decide +kernel
  have hword := word_of_table hwords hi Nat.one_pos
  rwa [Nat.one_mul] at hword

theorem bc3Round128_eq : ∀ i < 16, bc3Round128[2 * i]? = some ((entry round128 i).limb 0) ∧
    bc3Round128[2 * i + 1]? = some ((entry round128 i).limb 1) := by
  intro i hi
  have hwords : bc3Round128 = round128.flatMap fun a ↦ a.v.toList := by decide +kernel
  exact ⟨word_of_table hwords hi Nat.two_pos, word_of_table hwords hi Nat.one_lt_two⟩

theorem bc3Round256_eq : ∀ i < 16, c256 bc3Round256 (4 * i) = some (entry round256 i) := by
  have hwords : bc3Round256 = round256.flatMap fun a ↦ a.v.toList := by decide +kernel
  exact fun i hi ↦ c256_of_table hwords hi

theorem bc3Final_eq : ∀ i < 64, c256 bc3Final (4 * i) = some (entry final i) := by
  have hwords : bc3Final = final.flatMap fun a ↦ a.v.toList := by decide +kernel
  exact fun i hi ↦ c256_of_table hwords hi

/-- A table is the list of its entries. -/
theorem eq_map_entry {L : ℕ} (table : List (UInt L)) :
    table = (List.range table.length).map (entry table) := by
  refine List.ext_getElem? fun i ↦ ?_
  rw [List.getElem?_map]
  rcases Nat.lt_or_ge i table.length with hi | hi
  · rw [List.getElem?_range hi, getElem?_eq_entry hi, Option.map_some]
  · rw [List.getElem?_eq_none hi, List.getElem?_eq_none (by rwa [List.length_range]),
      Option.map_none]

/-! ### The arrays hold the message words -/

theorem toUInt_limb (a : UInt 1) : toUInt (a.limb 0) = a :=
  Limbs.ext_limb fun i hi ↦ by interval_cases i; rfl

theorem eq_limb_of_toUInt {word : UInt64} {a : UInt 1} (heq : toUInt word = a) :
    word = a.limb 0 := by
  rw [← heq]
  rfl

theorem ofUInt_eq_mk128 (a : UInt 1) : (UInt.ofUInt a : UInt 2) = mk128 (a.limb 0) 0 :=
  Limbs.ext_limb fun i hi ↦ by interval_cases i <;> rfl

theorem ofUInt_eq_mk256 (a : U128) : (UInt.ofUInt a : UInt 4) = mk256 (a.limb 0) (a.limb 1) 0 0 :=
  Limbs.ext_limb fun i hi ↦ by interval_cases i <;> rfl

variable (input : Vector UInt8 64)

/-- Word `i` of 64 bits, as the kernel has it. -/
def limb64 (i : ℕ) : UInt64 := (word64 input i).limb 0

theorem loadBe64_eq {i : ℕ} (hi : i < 8) :
    loadBe64 (fun j ↦ byteAt input (8 * i + j)) = limb64 input i := by
  rw [limb64, word64_of_lt input hi, UInt.load, Limbs.limb_ofFn _ Nat.zero_lt_one]
  simp only [loadBe64, Nat.sub_self, Nat.zero_mul, Nat.zero_add]

/-- The sum of the four mixed pairs is the limb of the schedule they are for. -/
theorem gamma64_sum_eq {i : ℕ} (hi : 8 ≤ i) :
    gamma64 (limb64 input (i - 8)) (limb64 input (i - 4)) +
      gamma64 (limb64 input (i - 7)) (limb64 input (i - 3)) +
      gamma64 (limb64 input (i - 6)) (limb64 input (i - 2)) +
      gamma64 (limb64 input (i - 5)) (limb64 input (i - 1)) = limb64 input i := by
  apply eq_limb_of_toUInt
  have hgamma (x y : UInt64) : toUInt (gamma64 x y) = gamma (toUInt x) (toUInt y) :=
    mixes64.gamma x y
  have hword (j : ℕ) : toUInt (limb64 input j) = word64 input j := toUInt_limb (word64 input j)
  rw [word64_of_ge input hi, toUInt_add, toUInt_add, toUInt_add]
  simp only [hgamma, hword]

/-- The 64-bit expansion stays inside its array and holds the limbs of the schedule. -/
theorem expand64_holds :
    ∃ m, expand64 input = some m ∧ m.Holds 0 (limb64 input) 0 32 := by
  refine LocalArray.fill_fill_holds le_rfl rfl rfl le_rfl (fun m i _ hlt ↦ ?_)
    fun m i hheld hge hlt ↦ ?_
  · rw [loadBe64_eq input hlt]
  · have hread (j : ℕ) (hj : j < i) : m.read j = some (limb64 input j) :=
      hheld.read_eq j (Nat.zero_le j) hj
    rw [← gamma64_sum_eq input hge]
    simp [hread (i - 8) (by omega), hread (i - 7) (by omega), hread (i - 6) (by omega),
      hread (i - 5) (by omega), hread (i - 4) (by omega), hread (i - 3) (by omega),
      hread (i - 2) (by omega), hread (i - 1) (by omega)]

/-- The 128-bit expansion stays inside its array and holds the words of the schedule in its window.
-/
theorem expand128_holds {m64 : LocalArray UInt64 32} (hm64 : m64.Holds 0 (limb64 input) 0 32) :
    ∃ m, expand128 m64 = some m ∧ m.Holds 24 (word128 input) 24 48 := by
  have hbeta (x : U128) : beta128 x = beta x := mixes128.beta x
  refine LocalArray.fill_fill_holds le_rfl rfl rfl (by omega) (fun m i hge hlt ↦ ?_)
    fun m i hheld hge hlt ↦ ?_
  · have hread : m64.read i = some (limb64 input i) := hm64.read_eq i (Nat.zero_le i) hlt
    rw [word128_of_lt input hlt, ofUInt_eq_mk128, hread]
    rfl
  · have hread (j : ℕ) (hlow : 24 ≤ j) (hj : j < i) : m.read (j - 24) = some (word128 input j) :=
      hheld.read_eq j hlow hj
    have h8 := hread (i - 8) (by omega) (by omega)
    have h7 := hread (i - 7) (by omega) (by omega)
    have h4 := hread (i - 4) (by omega) (by omega)
    have h3 := hread (i - 3) (by omega) (by omega)
    rw [Nat.sub_sub] at h8 h7 h4 h3
    simp [h8, h7, h4, h3, word128_of_ge input hge, add128_eq, hbeta, add_assoc]

/-- The 256-bit expansion stays inside its array and holds the words of the schedule in its window.
-/
theorem expand256_holds {m128 : LocalArray U128 24} (hm128 : m128.Holds 24 (word128 input) 24 48) :
    ∃ m, expand256 m128 = some m ∧ m.Holds 41 (word256 input) 41 64 := by
  have hbeta (x : U256) : beta256 x = beta x := mixes256.beta x
  refine LocalArray.fill_fill_holds le_rfl rfl rfl (by omega) (fun m i hge hlt ↦ ?_)
    fun m i hheld hge hlt ↦ ?_
  · have hread : m128.read (i - 24) = some (word128 input i) := hm128.read_eq i (by omega) hlt
    rw [word256_of_lt input hlt, ofUInt_eq_mk256, hread]
    rfl
  · have hread (j : ℕ) (hlow : 41 ≤ j) (hj : j < i) : m.read (j - 41) = some (word256 input j) :=
      hheld.read_eq j hlow hj
    have h7 := hread (i - 7) (by omega) (by omega)
    have h6 := hread (i - 6) (by omega) (by omega)
    have h2 := hread (i - 2) (by omega) (by omega)
    have h1 := hread (i - 1) (by omega) (by omega)
    rw [Nat.sub_sub] at h7 h6 h2 h1
    simp [h7, h6, h2, h1, word256_of_ge input hge, add256_eq, hbeta, add_assoc]

/-! ### The stages of the reference -/

/-- Lanes of one limb as words. -/
def limbLanes (c : Lanes8 (UInt 1)) : Lanes8 UInt64 :=
  ⟨c.c1.limb 0, c.c2.limb 0, c.c3.limb 0, c.c4.limb 0, c.c5.limb 0, c.c6.limb 0, c.c7.limb 0,
    c.c8.limb 0⟩

theorem readLanes_limbLanes (c : Lanes8 (UInt 1)) : readLanes (limbLanes c) = c := by
  simp only [readLanes, limbLanes, toUInt_limb]

theorem limbLanes_readLanes (c : Lanes8 UInt64) : limbLanes (readLanes c) = c := rfl

/-- The lanes that the first stage starts from are those of the reference. -/
theorem startLanes_eq {m64 : LocalArray UInt64 32} (hm64 : m64.Holds 0 (limb64 input) 0 32) :
    startLanes m64 = some (limbLanes (lanes input)) := by
  have hread (j : ℕ) (hj : j < 8) : m64.read j = some (limb64 input j) :=
    hm64.read_eq j (Nat.zero_le j) (by omega)
  unfold startLanes
  simp only [hread 0 (by omega), hread 1 (by omega), hread 2 (by omega), hread 3 (by omega),
    hread 4 (by omega), hread 5 (by omega), hread 6 (by omega), hread 7 (by omega),
    bc3Base_eq 0 (by omega), bc3Base_eq 1 (by omega), bc3Base_eq 2 (by omega),
    bc3Base_eq 3 (by omega), bc3Base_eq 4 (by omega), bc3Base_eq 5 (by omega),
    bc3Base_eq 6 (by omega), bc3Base_eq 7 (by omega)]
  rfl

variable (p : Primitives)

/-- A round of the first stage on lanes taken from limbs. -/
theorem s1Round_limbLanes (constant message : UInt 1) (c : Lanes8 (UInt 1)) :
    s1Round p (constant.limb 0) (message.limb 0) (limbLanes c) =
      limbLanes (round1 p 0 constant message c) := by
  have hround := s1Round_eq p (constant.limb 0) (message.limb 0) (limbLanes c)
  rw [toUInt_limb, toUInt_limb, readLanes_limbLanes] at hround
  rw [← hround, limbLanes_readLanes]

/-- The first stage of the kernel is that of the reference, if its messages are in the array. -/
theorem s1Rounds_eq {m64 : LocalArray UInt64 32} (hm64 : m64.Holds 0 (limb64 input) 0 32) :
    s1Rounds p m64 (limbLanes (lanes input)) = some (limbLanes (stage1 p input 0)) := by
  have hrounds : s1Rounds p m64 (limbLanes (lanes input)) =
      some ((List.range 32).foldl
        (fun c i ↦ s1Round p ((entry round64 i).limb 0) (limb64 input i) c)
        (limbLanes (lanes input))) := by
    refine foldlM_eq_some (fun i hmem c ↦ ?_) (limbLanes (lanes input))
    have hi : i < 32 := List.mem_range.mp hmem
    have hread : m64.read i = some (limb64 input i) := hm64.read_eq i (Nat.zero_le i) hi
    rw [bc3Round64_eq i hi, hread]
    rfl
  rw [hrounds, stage1]
  exact congrArg some (List.foldl_hom limbLanes fun c i ↦
    s1Round_limbLanes p (entry round64 i) (word64 input i) c)

/-- The second stage of the kernel is that of the reference, if its messages are in the array. -/
theorem s2Rounds_eq {m128 : LocalArray U128 24} (hm128 : m128.Holds 24 (word128 input) 24 48) :
    s2Rounds p m128 (toLanes4 (stage1 p input 0)) = some (stage2 p input 0) := by
  refine foldlM_eq_some (fun i hmem f ↦ ?_) (toLanes4 (stage1 p input 0))
  have hi : i < 16 := List.mem_range.mp hmem
  have hread : m128.read (32 + i - 24) = some (word128 input (32 + i)) :=
    hm128.read_eq (32 + i) (by omega) (by omega)
  have hlimbs : mk128 ((entry round128 i).limb 0) ((entry round128 i).limb 1) = entry round128 i :=
    Limbs.ext_limb fun j hj ↦ by interval_cases j <;> rfl
  rw [show 32 + i - 24 = 8 + i by omega] at hread
  rw [(bc3Round128_eq i hi).1, (bc3Round128_eq i hi).2, hread, ← s2Round_eq, ← hlimbs]
  rfl

/-- The third stage of the kernel is that of the reference, if its messages are in the array. -/
theorem s3Rounds_eq {m256 : LocalArray U256 23} (hm256 : m256.Holds 41 (word256 input) 41 64) :
    s3Rounds p m256 (toHalves (stage2 p input 0)) = some (stage3 p input 0) := by
  refine foldlM_eq_some (fun i hmem h ↦ ?_) (toHalves (stage2 p input 0))
  have hi : i < 16 := List.mem_range.mp hmem
  have hread : m256.read (48 + i - 41) = some (word256 input (48 + i)) :=
    hm256.read_eq (48 + i) (by omega) (by omega)
  rw [show 48 + i - 41 = 7 + i by omega] at hread
  rw [bc3Round256_eq i hi, hread, ← s3Round_eq]
  rfl

theorem limbLanes_toLanes4 (c : Lanes8 (UInt 1)) :
    (⟨mk128 (limbLanes c).c5 (limbLanes c).c1, mk128 (limbLanes c).c6 (limbLanes c).c2,
      mk128 (limbLanes c).c7 (limbLanes c).c3, mk128 (limbLanes c).c8 (limbLanes c).c4⟩ :
        Lanes4 U128) = toLanes4 c := rfl

theorem mk256_toHalves (f : Lanes4 U128) :
    (mk256 (f.f3.limb 0) (f.f3.limb 1) (f.f1.limb 0) (f.f1.limb 1),
      mk256 (f.f4.limb 0) (f.f4.limb 1) (f.f2.limb 0) (f.f2.limb 1)) = toHalves f := rfl

/-- The first three stages of the kernel are those of the reference, and read nothing outside their
arrays. -/
theorem bc3mixS123_eq : bc3mixS123 p input = some (stage3 p input 0) := by
  rcases expand64_holds input with ⟨m64, hexpand64, hm64⟩
  rcases expand128_holds input hm64 with ⟨m128, hexpand128, hm128⟩
  rcases expand256_holds input hm128 with ⟨m256, hexpand256, hm256⟩
  unfold bc3mixS123
  simp only [hexpand64, startLanes_eq input hm64, hexpand128, hexpand256,
    s1Rounds_eq input p hm64, limbLanes_toLanes4, s2Rounds_eq input p hm128, mk256_toHalves,
    s3Rounds_eq input p hm256, Option.bind_eq_bind, Option.bind_some]

/-- The last stage of the kernel is that of the reference. -/
theorem s4Rounds_eq (u : U256 × U256) : s4Rounds p u = some (final.foldl (round4 p) u) := by
  have hrounds : s4Rounds p u =
      some ((List.range 64).foldl (fun u i ↦ round4 p u (entry final i)) u) := by
    refine foldlM_eq_some (fun i hmem u ↦ ?_) u
    have hi : i < 64 := List.mem_range.mp hmem
    rw [bc3Final_eq i hi, ← s4Round_eq]
    rfl
  have hfold : final.foldl (round4 p) u =
      (List.range 64).foldl (fun u i ↦ round4 p u (entry final i)) u := by
    conv_lhs => rw [eq_map_entry final]
    exact List.foldl_map
  rw [hrounds, hfold]

theorem mixOut_eq (u1 u2 : U256) : mixOut u1 u2 = UInt.store (u1 + beta u2) := by
  have hbeta : beta256 u2 = beta u2 := mixes256.beta u2
  unfold mixOut UInt.store
  simp only [add256_eq, hbeta, Nat.mul_comm 8]

/-- The kernel computes the mix. -/
theorem bc3mix512_eq : bc3mix512 p input = some (digest p input 0) := by
  unfold bc3mix512
  simp only [bc3mixS123_eq input p, s4Rounds_eq p, mixOut_eq, Option.bind_eq_bind,
    Option.bind_some, digest, stage4, add_ofWord_zero]
  rfl

/-- The two mixes agree. For any modular primitives, which both are given, and every input of 64
bytes: the kernel's mix and the reference's both return, so that neither reads a place that was not
written, and what they return are the same 32 bytes. -/
theorem bc3mix512_is_mix512 (p : Primitives) (input : Vector UInt8 64) :
    ∃ digest : List UInt8, digest.length = 32 ∧ mix512 p input 0 = some digest ∧
      bc3mix512 p input = some digest := by
  refine ⟨digest p input 0, ?_, mix512_eq input p 0, bc3mix512_eq input p⟩
  simp [digest, UInt.store]

end Bc3Miner.Kernel
