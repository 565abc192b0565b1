import Bc3Miner.Foundations.PieceByPiece
import Bc3Miner.Reference.Bytes
import Bc3Miner.Reference.Mix
import Bc3Miner.Reference.Modular
import Bc3Miner.Reference.Parameters
import Bc3Miner.Reference.StreamedHashes

/-!
# The mix of a message in pieces

`Fold`, `bc3fold`, `bc3mix` and `Mix` of `bc3hash/vendor/bc3/mix.cpp`. A message that does not have
64 bytes is folded to 64 first, block by block and with its length in a block of its own. A `Mix`
keeps the message until it has more than 64 bytes, and is folding from then on.

`mixDigest` is the mix without a state. Whatever the pieces, `Mix` gives the digest of the pieces
joined together, as `bc3mix` does of the message in one piece (`mix_replies`).

`mix_replies` is for any primitives, pieces and later calls. The limit of 2 ^ 509 bytes is where the
length in bits no longer fits its block; no program comes near it.
-/

set_option autoImplicit false
set_option relaxedAutoImplicit false

namespace Bc3Miner.Reference

open Foundations MessageBlocks BlockStream Consensus

/-! ### Folding a block -/

/-- The modular primitives of a fold: powers with the fixed exponents, powers of the fixed bases,
and the multiples of the generator. -/
structure FoldPrimitives where
  exp256 : UInt 4 → UInt 4
  exp512 : UInt 8 → UInt 8
  pow256 : UInt 4 → UInt 4
  pow512 : UInt 8 → UInt 8
  generator : UInt 4 → UInt 4 × UInt 4

/-- What a block changes. -/
structure FoldChain where
  c0 : UInt 8
  s1 : UInt 4
  s2 : UInt 4

structure FoldLanes where
  c1 : UInt 4
  c2 : UInt 4
  f1 : UInt 4
  f2 : UInt 4

def FoldChain.start : FoldChain :=
  ⟨bc3foldConst, UInt.ofUInt (shr 256 bc3foldConst), UInt.ofUInt bc3foldConst⟩

variable (p : FoldPrimitives)

/-- A turn of the loop. Lanes are updated in place, in this order. -/
def foldRound : FoldLanes → FoldLanes
  | ⟨c1, c2, f1, f2⟩ =>
    let previous := c1
    let c1 := p.pow256 c2 + beta c1
    let c2 := p.pow256 previous + beta c2
    let w1 := p.exp256 f1 + beta f2
    let w2 := p.pow256 f2 + beta f1 + c2
    let w3 := f1 + f2 + c1
    let (x1, y1) := p.generator w1
    let (x2, y2) := p.generator w2
    let (x3, y3) := p.generator w3
    let f2 := beta w2 + gamma y1 w1 + ch y2 w1 f2 + w3
    let f1 := f2 + sig0 x2 + bigSig1 y2 + w1 + maj w2 y1 x2 + ch y3 x1 y2 + x3
    ⟨c1, c2, f1, f2⟩

def foldBlock (chain : FoldChain) (data : List UInt8) : FoldChain :=
  let dt : UInt 8 := UInt.load fun j ↦ data.getD j 0
  let c0 := p.pow512 chain.c0 + ror 237 chain.c0
  let d0 := p.exp512 (c0 ^^^ dt) + rol 291 dt
  let lanes := (foldRound p)^[64] ⟨UInt.ofUInt (shr 256 c0), UInt.ofUInt c0,
    UInt.ofUInt (shr 256 d0) ^^^ chain.s1, UInt.ofUInt d0 ^^^ chain.s2⟩
  ⟨⟨#v[lanes.c2.limb 0, lanes.c2.limb 1, lanes.c2.limb 2, lanes.c2.limb 3, lanes.c1.limb 0,
    lanes.c1.limb 1, lanes.c1.limb 2, lanes.c1.limb 3]⟩, chain.s1 + lanes.f1, chain.s2 + lanes.f2⟩

/-! ### Folding a message -/

/-- The length is the count of bytes. -/
structure Fold where
  buffer : BlockBuffer FoldChain
  length : UInt 8

namespace Fold

def start : Fold := ⟨⟨FoldChain.start, List.replicate 64 0, 0⟩, UInt.ofWord 0⟩

def update (s : Fold) (data : List UInt8) : Option Fold :=
  if data.length = 0 then some s
  else
    let next : UInt 8 := s.length + UInt.ofWord data.length.toUInt64
    if next.ge s.length = false ∨ next.limb 7 >>> 61 ≠ 0 then none
    else (s.buffer.blocks 64 (foldBlock p) data).map fun buffer ↦ ⟨buffer, next⟩

def finish (s : Fold) : Option (List UInt8) :=
  (s.buffer.finish 64 0 (foldBlock p) (rol 3 s.length).store).map fun chain ↦
    chain.s1.store ++ (beta chain.s2).store

end Fold

def bc3fold (data : List UInt8) : Option (List UInt8) := do
  let fold ← Fold.start.update p data
  fold.finish p

/-! ### The mix -/

variable (q : Primitives)

/-- The mix of a message in one piece. -/
def bc3mix (data : List UInt8) : Option (List UInt8) :=
  if data.length = 64 then mix512 q (toBlock data) 0
  else do
    let folded ← bc3fold p data
    mix512 q (toBlock folded) 1

/-- The bytes of a message that may still be the whole of it, and the fold of a longer one. -/
structure MixState where
  first : List UInt8
  size : ℕ
  fold : Option Fold

namespace MixState

def start : MixState := ⟨List.replicate 64 0, 0, none⟩

def update (s : MixState) (data : List UInt8) : Option MixState :=
  if data.length = 0 then some s
  else match s.fold with
    | some fold => (fold.update p data).map fun fold ↦ { s with fold := some fold }
    | none =>
      if data.length ≤ 64 - s.size then
        (store s.first s.size data).map fun first ↦ ⟨first, s.size + data.length, none⟩
      else do
        let fold ← Fold.start.update p (s.first.take s.size)
        let fold ← fold.update p data
        some { s with fold := some fold }

def finish (s : MixState) : Option (List UInt8) :=
  match s.fold with
  | none => bc3mix p q (s.first.take s.size)
  | some fold => do
    let folded ← fold.finish p
    mix512 q (toBlock folded) 1

end MixState

/-- `Mix`: the state and whether it has finished. -/
def mix : Digester UInt8 MixState (List UInt8) where
  start := some MixState.start
  update := MixState.update p
  finish := MixState.finish p q

/-! ### The mix without a state -/

/-- The message, a bit one, zeros up to a whole block, and the length in bits as a block. -/
def foldPadded (msg : List UInt8) : List UInt8 :=
  Kernel.strengthened 64 64 (fun bits ↦ (leBytesOf 64 bits).reverse) msg

def foldDigest (msg : List UInt8) : List UInt8 :=
  let chain := (blocks 64 (foldPadded msg)).foldl (foldBlock p) FoldChain.start
  chain.s1.store ++ (beta chain.s2).store

def mixDigest (msg : List UInt8) : List UInt8 :=
  if msg.length = 64 then digest q (toBlock msg) 0 else digest q (toBlock (foldDigest p msg)) 1

/-! ### The length in bits -/

/-- A byte of a number written least significant byte first. -/
theorem getElem_leBytesOf {width i : ℕ} (number : ℕ) (hi : i < (leBytesOf width number).length) :
    (leBytesOf width number)[i] = UInt8.ofNat (number / 256 ^ i) := by
  induction width generalizing number i with
  | zero => exact absurd hi (Nat.not_lt_zero i)
  | succ width ih =>
    cases i with
    | zero => simp [leBytesOf]
    | succ i =>
      simp only [leBytesOf, List.getElem_cons_succ]
      rw [ih, Nat.div_div_eq_div_mul, ← pow_succ']

/-- The bytes of a number, most significant first. -/
theorem store_eq_leBytesOf {L : ℕ} (a : UInt L) :
    a.store = (leBytesOf (L * 8) a.toNat).reverse := by
  refine List.ext_getElem ?_ fun k hk hk' ↦ ?_
  · rw [UInt.length_store, List.length_reverse, length_leBytesOf]
  rw [UInt.length_store] at hk
  have hplace : k = k / 8 * 8 + k % 8 := by omega
  have hbyte := UInt.getD_store a (by omega : k / 8 < L) (Nat.mod_lt k (by norm_num))
  rw [← hplace, List.getD_eq_getElem _ _ (by rwa [UInt.length_store])] at hbyte
  have hexponent : 8 * (L * 8 - 1 - k) = 64 * (L - 1 - k / 8) + (56 - k % 8 * 8) := by omega
  have hbase : (256 : ℕ) ^ (L * 8 - 1 - k) = 2 ^ (8 * (L * 8 - 1 - k)) := by
    rw [pow_mul]
    rfl
  rw [hbyte, List.getElem_reverse, getElem_leBytesOf, length_leBytesOf, hbase, hexponent]
  refine UInt8.toNat_inj.mp ?_
  rw [UInt64.toNat_toUInt8, UInt8.toNat_ofNat', Limbs.toNat_limb_shiftRight a _ (by omega)]
  exact Nat.mod_mod_of_dvd _ (pow_dvd_pow 2 (by omega : 8 ≤ 64 - (56 - k % 8 * 8)))

/-- A count of bytes that has a count of bits is rotated without loss: the top limb turns nothing
over to the lowest one. -/
theorem rol_three_toNat {a : UInt 8} (hshort : a.toNat < 2 ^ 509) :
    (rol 3 a).toNat = 8 * a.toNat := by
  have hlimb : ∀ i < 8, ((rol 3 a).limb i).toNat = 8 * a.toNat / 2 ^ (64 * i) % 2 ^ 64 := by
    intro i hi
    have hplace : 8 * 64 - 3 % (8 * 64) = 509 := rfl
    have hturn : (i + 7 + 1) % 8 = i := by omega
    have hjoin := Limbs.toNat_shiftRight_or_shiftLeft (a.limb ((i + 7) % 8)) (a.limb i)
      (by norm_num : 0 < 61) (by norm_num : 61 < 64)
    rw [Limbs.toNat_limb_div, Limbs.toNat_limb_div] at hjoin
    rw [rol, ror, Limbs.limb_ofFn _ hi, hplace]
    show (if 509 % 64 ≠ 0 then a.limb ((i + 7) % 8) >>> (61 : ℕ).toUInt64 |||
      a.limb ((i + 7 + 1) % 8) <<< (64 - 61 : ℕ).toUInt64 else _).toNat = _
    rw [if_pos (by norm_num), hturn, hjoin]
    rcases i with _ | i
    · have htop : (0 + 7) % 8 = 7 := rfl
      have hlt : a.toNat / 2 ^ (64 * 7) < 2 ^ 61 := by
        have hexponent : 61 + 64 * 7 = 509 := rfl
        rwa [Nat.div_lt_iff_lt_mul (by positivity), ← pow_add, hexponent]
      rw [htop, Nat.mod_eq_of_lt (hlt.trans (by norm_num)), Nat.div_eq_of_lt hlt, Nat.mul_zero,
        pow_zero, Nat.div_one, Nat.div_one]
      omega
    · have hbelow : (i + 1 + 7) % 8 = i := by omega
      have hpow : 2 ^ (64 * (i + 1)) = 2 ^ (64 * i) * 2 ^ 64 := by rw [← pow_add, Nat.mul_succ]
      have hcancel : 8 * a.toNat / (2 ^ (64 * i) * 2 ^ 64) = a.toNat / 2 ^ (64 * i) / 2 ^ 61 := by
        have hsplit : 2 ^ (64 * i) * 2 ^ 64 = 8 * (2 ^ (64 * i) * 2 ^ 61) := by ring
        rw [hsplit, Nat.mul_div_mul_left _ _ (by norm_num : 0 < 8), Nat.div_div_eq_div_mul]
      rw [hbelow, hpow, hcancel, ← Nat.div_div_eq_div_mul]
      omega
  rw [Limbs.toNat_of_limb hlimb]
  exact Nat.mod_eq_of_lt (by omega)

theorem small_modulus512 : Mod.Small 8 569 := ⟨by norm_num, by decide, by decide⟩

namespace Fold

variable {p} {s : Fold} {msg : List UInt8}

/-- The state after a message. -/
structure Took (p : FoldPrimitives) (s : Fold) (msg : List UInt8) : Prop where
  buffer : s.buffer.Holds 64 (feed 64 (· / 64) (foldBlock p) (FoldChain.start, []) msg)
  count : s.length.toNat = msg.length
  short : msg.length < 2 ^ 509

theorem start_took : Took p start [] :=
  ⟨BlockBuffer.start_holds 64 _ rfl (foldBlock p) _, toNat_ofWord_zero, by norm_num⟩

/-- The length with one more piece. -/
theorem next_toNat (htook : Took p s msg) {data : List UInt8} (hdata : data.length < 2 ^ 64) :
    (s.length + UInt.ofWord data.length.toUInt64 : UInt 8).toNat = msg.length + data.length := by
  have hshort := htook.short
  rw [toNat_add, Mod.toNat_ofWord small_modulus512, toNat_toUInt64_of_lt hdata, htook.count]
  exact Nat.mod_eq_of_lt (by omega)

/-- The check for the length of the message. -/
theorem long_iff (htook : Took p s msg) {data : List UInt8} (hdata : data.length < 2 ^ 64) :
    ((s.length + UInt.ofWord data.length.toUInt64 : UInt 8).ge s.length = false ∨
        (s.length + UInt.ofWord data.length.toUInt64 : UInt 8).limb 7 >>> 61 ≠ 0) ↔
      2 ^ 509 ≤ msg.length + data.length := by
  have hnext := next_toNat htook hdata
  have hge : (s.length + UInt.ofWord data.length.toUInt64 : UInt 8).ge s.length = true := by
    rw [Limbs.ge_iff, hnext, htook.count]
    exact Nat.le_add_right _ _
  have htop := Limbs.toNat_limb_shiftRight
    (s.length + UInt.ofWord data.length.toUInt64 : UInt 8) 7 (by norm_num : 61 < 64)
  have hzero : (0 : UInt64).toNat = 0 := rfl
  have hshort := htook.short
  have hshift : (61 : ℕ).toUInt64 = 61 := rfl
  rw [hnext, hshift] at htop
  rw [hge, Ne, ← UInt64.toNat_inj, hzero, htop]
  simp only [Bool.true_eq_false, false_or]
  omega

/-- Fold: an update takes its piece behind what has been taken, as long as the length fits its
counter. -/
theorem update_took (htook : Took p s msg) {data : List UInt8} (hdata : data.length < 2 ^ 64)
    (hshort : msg.length + data.length < 2 ^ 509) :
    ∃ s', s.update p data = some s' ∧ Took p s' (msg ++ data) := by
  by_cases hnone : data.length = 0
  · rw [List.length_eq_zero_iff.mp hnone, List.append_nil]
    exact ⟨s, rfl, htook⟩
  obtain ⟨buffer, hrun, hholds⟩ :=
    s.buffer.blocks_feed (by norm_num) (foldBlock p) htook.buffer data
  have hupdate : s.update p data =
      some ⟨buffer, s.length + UInt.ofWord data.length.toUInt64⟩ := by
    rw [update, if_neg hnone, if_neg ((long_iff htook hdata).not.mpr hshort.not_ge), hrun]
    rfl
  refine ⟨_, hupdate, hholds, ?_, ?_⟩
  · rw [List.length_append]
    exact next_toNat htook hdata
  · rwa [List.length_append]

theorem update_long (htook : Took p s msg) {data : List UInt8} (hdata : data.length < 2 ^ 64)
    (hlong : 2 ^ 509 ≤ msg.length + data.length) : s.update p data = none := by
  have hshort := htook.short
  rw [update, if_neg (by omega), if_pos ((long_iff htook hdata).mpr hlong)]

/-- Fold: finishing gives the digest of all that has been taken. -/
theorem finish_took (htook : Took p s msg) : s.finish p = some (foldDigest p msg) := by
  have hlength : (rol 3 s.length).store = (leBytesOf 64 (8 * msg.length)).reverse := by
    rw [store_eq_leBytesOf, rol_three_toNat (htook.count ▸ htook.short), htook.count]
  have hwidth : (leBytesOf 64 (8 * msg.length)).reverse.length = 64 - 0 := by
    rw [List.length_reverse, length_leBytesOf]
  rw [finish, hlength, s.buffer.finish_feed (by norm_num) (Nat.zero_le 64) (foldBlock p)
    htook.buffer (fun bits ↦ (leBytesOf 64 bits).reverse) hwidth]
  rfl

end Fold

/-- The fold of a message in one piece. -/
theorem bc3fold_eq (p : FoldPrimitives) {data : List UInt8} (hdata : data.length < 2 ^ 64) :
    bc3fold p data = some (foldDigest p data) := by
  have hshort : ([] : List UInt8).length + data.length < 2 ^ 509 := by
    rw [List.length_nil]
    omega
  obtain ⟨fold, hupdate, htook⟩ := Fold.update_took (Fold.start_took (p := p)) hdata hshort
  rw [bc3fold, hupdate]
  exact Fold.finish_took htook

/-- The mix of a message in one piece. -/
theorem bc3mix_eq (p : FoldPrimitives) (q : Primitives) {data : List UInt8}
    (hdata : data.length < 2 ^ 64) : bc3mix p q data = some (mixDigest p q data) := by
  unfold bc3mix mixDigest
  by_cases hblock : data.length = 64
  · rw [if_pos hblock, if_pos hblock, mix512_eq]
  · rw [if_neg hblock, if_neg hblock, bc3fold_eq p hdata, Option.bind_eq_bind, Option.bind_some,
      mix512_eq]

/-! ### Every run -/

namespace MixState

/-- The bytes of a message that may be all of it, as they wait in a buffer. -/
def waiting (s : MixState) : BlockBuffer Unit := ⟨(), s.first, s.size⟩

/-- The state after a message: its bytes as long as they may be all of it, and its fold then. -/
structure Took (p : FoldPrimitives) (s : MixState) (msg : List UInt8) : Prop where
  kept : s.fold = none → s.waiting.Holds 64 ((), msg)
  folded (fold : Fold) : s.fold = some fold → 64 < msg.length ∧ fold.Took p msg

theorem start_took (p : FoldPrimitives) : Took p start [] where
  kept _ := ⟨List.length_replicate, rfl, rfl, _, rfl⟩
  folded _ hfold := nomatch hfold

variable {p} {s : MixState} {msg : List UInt8}

/-- The bytes that are kept are the message. -/
theorem take_first (hholds : s.waiting.Holds 64 ((), msg)) : s.first.take s.size = msg := by
  obtain ⟨behind, hfirst⟩ := hholds.waiting
  have hsize : s.size = msg.length := hholds.used
  have hbytes : s.first = msg ++ behind := hfirst
  rw [hsize, hbytes, List.take_left]

theorem length_le (hholds : s.waiting.Holds 64 ((), msg)) : msg.length ≤ 64 := by
  obtain ⟨behind, hfirst⟩ := hholds.waiting
  rw [← hholds.length, hfirst, List.length_append]
  exact Nat.le_add_right _ _

/-- A piece for a state that is not folding yet. Where it makes the message longer than 64 bytes,
the message that was kept is the fold's first piece. -/
theorem update_kept (htook : Took p s msg) (hkept : s.fold = none) {data : List UInt8}
    (hdata : data.length < 2 ^ 64) (hsome : data.length ≠ 0) :
    ∃ s', s.update p data = some s' ∧ Took p s' (msg ++ data) := by
  have hholds := htook.kept hkept
  have hroom := length_le hholds
  have hsize : s.size = msg.length := hholds.used
  have hjoined : (msg ++ data).length = msg.length + data.length := List.length_append
  rw [update, if_neg hsome, hkept, hsize]
  rcases Nat.lt_or_ge 64 (msg.length + data.length) with hlong | hshort
  · have hfirst : ∃ first, Fold.start.update p msg = some first ∧ first.Took p ([] ++ msg) :=
      Fold.update_took Fold.start_took (by omega) (by rw [List.length_nil]; omega)
    obtain ⟨first, hrun, hfold⟩ := hfirst
    obtain ⟨fold, hrun', hfold⟩ := Fold.update_took hfold hdata (by rw [List.nil_append]; omega)
    refine ⟨{ s with fold := some fold }, ?_, nofun, ?_⟩
    · rw [← hsize, take_first hholds, hsize]
      simp only [if_neg (by omega : ¬data.length ≤ 64 - msg.length), Option.bind_eq_bind,
        Option.bind_some, hrun, hrun']
    · rintro _ ⟨⟩
      exact ⟨hjoined ▸ hlong, hfold⟩
  · have hfits : ((), msg).2.length + data.length ≤ 64 := hshort
    obtain ⟨behind, hstore, hlength⟩ := hholds.store hfits
    have hbytes : store s.first s.size data = some (msg ++ data ++ behind) := hstore
    refine ⟨⟨msg ++ data ++ behind, msg.length + data.length, none⟩, ?_, fun _ ↦ ?_, nofun⟩
    · simp only [if_pos (by omega : data.length ≤ 64 - msg.length)]
      rw [← hsize, hbytes]
      rfl
    · exact ⟨hlength, hjoined.symm, rfl, behind, rfl⟩

/-- Mix: an update takes its piece behind what has been taken, as long as the length fits its
counter. -/
theorem update_took (htook : Took p s msg) {data : List UInt8} (hdata : data.length < 2 ^ 64)
    (hshort : msg.length + data.length < 2 ^ 509) :
    ∃ s', s.update p data = some s' ∧ Took p s' (msg ++ data) := by
  by_cases hsome : data.length = 0
  · rw [List.length_eq_zero_iff.mp hsome, List.append_nil]
    exact ⟨s, rfl, htook⟩
  rcases hfold : s.fold with _ | fold
  · exact update_kept htook hfold hdata hsome
  · obtain ⟨hlong, hfolded⟩ := htook.folded fold hfold
    obtain ⟨next, hrun, hnext⟩ := Fold.update_took hfolded hdata hshort
    refine ⟨{ s with fold := some next }, ?_, nofun, ?_⟩
    · rw [update, if_neg hsome, hfold]
      simp only [hrun, Option.map_some]
    · rintro _ ⟨⟩
      rw [List.length_append]
      exact ⟨hlong.trans_le (Nat.le_add_right _ _), hnext⟩

/-- Only a fold throws on a length. -/
theorem update_long (htook : Took p s msg) {data : List UInt8} (hdata : data.length < 2 ^ 64)
    (hlong : 2 ^ 509 ≤ msg.length + data.length) : s.update p data = none := by
  rcases hfold : s.fold with _ | fold
  · have hroom := length_le (htook.kept hfold)
    omega
  · obtain ⟨-, hfolded⟩ := htook.folded fold hfold
    have hshort := hfolded.short
    rw [update, if_neg (by omega), hfold]
    simp only [Fold.update_long hfolded hdata hlong, Option.map_none]

theorem finish_folding (p : FoldPrimitives) (q : Primitives) {fold : Fold}
    (hfold : s.fold = some fold) :
    s.finish p q = (fold.finish p).bind fun folded ↦ mix512 q (toBlock folded) 1 := by
  rw [finish, hfold]
  rfl

/-- Mix: finishing gives the digest of all that has been taken. -/
theorem finish_took (q : Primitives) (htook : Took p s msg) :
    s.finish p q = some (mixDigest p q msg) := by
  rcases hfold : s.fold with _ | fold
  · have hroom := length_le (htook.kept hfold)
    rw [finish, hfold]
    simp only [take_first (htook.kept hfold)]
    exact bc3mix_eq p q (by omega)
  · obtain ⟨hlong, hfolded⟩ := htook.folded fold hfold
    rw [finish_folding p q hfold, Fold.finish_took hfolded, Option.bind_some, mix512_eq, mixDigest,
      if_neg (by omega)]

end MixState

/-- The mix computes its digest piece by piece, for pieces and messages up to the limits of its
counters. -/
theorem mix_computes (p : FoldPrimitives) (q : Primitives) :
    (mix p q).Computes (2 ^ 64) (2 ^ 509) (MixState.Took p) (mixDigest p q) where
  start := ⟨_, rfl, MixState.start_took p⟩
  update htook hdata hshort := MixState.update_took htook hdata hshort
  update_long htook _ hdata hlong := MixState.update_long htook hdata hlong
  finish htook := MixState.finish_took q htook

/-- A `Mix` over any primitives, with any pieces and any calls after `finish`. Where the pieces
together stay below 2 ^ 509 bytes, it takes every piece, gives the mix of the pieces joined
together, the same that `bc3mix` gives of them in one piece where that has a length of 64 bits, and
throws on every call after that. Where they do not, it throws on one of the pieces. -/
theorem mix_replies (p : FoldPrimitives) (q : Primitives) (pieces : List (Piece UInt8 (2 ^ 64)))
    (later : List (PieceCall UInt8 (2 ^ 64))) :
    if (pieces.flatMap Piece.data).length < 2 ^ 509 then
      ∃ result, (mix p q).run (pieces.map .update ++ .finish :: later) =
          some (List.replicate pieces.length .done ++ .digest result ::
            List.replicate later.length .refused) ∧
        result = mixDigest p q (pieces.flatMap Piece.data) ∧
        ((pieces.flatMap Piece.data).length < 2 ^ 64 →
          bc3mix p q (pieces.flatMap Piece.data) = some result)
    else (mix p q).run (pieces.map .update ++ .finish :: later) = none := by
  have hreplies := (mix_computes p q).replies (by positivity) pieces later
  generalize 2 ^ 509 = limit at hreplies ⊢
  by_cases hshort : (pieces.flatMap Piece.data).length < limit
  · rw [if_pos hshort] at hreplies ⊢
    exact ⟨_, hreplies, rfl, fun hpiece ↦ bc3mix_eq p q hpiece⟩
  · rw [if_neg hshort] at hreplies ⊢
    exact hreplies

end Bc3Miner.Reference
