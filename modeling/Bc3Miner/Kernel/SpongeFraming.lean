import Bc3Miner.Foundations.LocalArray
import Bc3Miner.Foundations.MessageBlocks
import Mathlib.Data.List.Basic
import Mathlib.Logic.Function.Basic

/-!
# The framing of SHA-3

`sha3` of `src/kernels/bc3hash.cl` for any permutation (`keccakf`): the message enters the state
byte by byte and the two ends of the padding lane by lane, without a block buffer. Next to it stands
the padding of the specification. Access to a lane outside the state fails.

`sha3_eq` is for any output whose rate is made of whole lanes; where it is not, the marker at the
end goes to another lane than the specification has it.
-/

set_option autoImplicit false
set_option relaxedAutoImplicit false

namespace Bc3Miner.Kernel

open Foundations MessageBlocks

/-- `a[i] ^= x`, within the state. -/
def xorLane (a : Vector UInt64 25) (i : ℕ) (x : UInt64) : Option (Vector UInt64 25) :=
  if h : i < 25 then some (a.set i (a[i] ^^^ x)) else none

/-- A byte at place `pos` of the state. -/
def xorByte (a : Vector UInt64 25) (pos : ℕ) (byte : UInt64) : Option (Vector UInt64 25) :=
  xorLane a (pos >>> 3) (byte <<< (8 * (pos &&& 7)).toUInt64)

/-- One byte of the message. -/
def absorbByte (keccakf : Vector UInt64 25 → Vector UInt64 25) (rate : ℕ)
    (state : Vector UInt64 25 × ℕ) (byte : UInt8) : Option (Vector UInt64 25 × ℕ) := do
  let a ← xorByte state.1 state.2 byte.toUInt64
  let pos := state.2 + 1
  if pos = rate then some (keccakf a, 0) else some (a, pos)

/-- The state that the output is read from. -/
def sha3State (keccakf : Vector UInt64 25 → Vector UInt64 25) (msg : List UInt8) (outlen : ℕ) :
    Option (Vector UInt64 25) := do
  let rate := (200 - 2 * outlen.toUInt32).toNat
  let (a, pos) ← msg.foldlM (absorbByte keccakf rate) (Vector.replicate 25 0, 0)
  let a ← xorByte a pos 6
  let a ← xorLane a ((200 - 2 * outlen.toUInt32) / 8 - 1).toNat ((0x80 : UInt64) <<< 56)
  some (keccakf a)

def sha3 (keccakf : Vector UInt64 25 → Vector UInt64 25) (msg : List UInt8) (outlen : ℕ) :
    Option (List UInt8) := do
  let a ← sha3State keccakf msg outlen
  (List.range outlen).mapM fun i ↦
    a[i >>> 3]?.map fun lane ↦ (lane >>> (8 * (i &&& 7)).toUInt64).toUInt8

/-! ### The specification -/

/-- The domain bits and the first bit of the padding, zeros, and its last bit: in one byte where
there is room for one only. -/
def domainAndPadding (zeros : ℕ) : List UInt8 :=
  if zeros = 0 then [0x86] else 0x06 :: List.replicate (zeros - 1) 0 ++ [0x80]

def sha3Padded (rate : ℕ) (msg : List UInt8) : List UInt8 :=
  msg ++ domainAndPadding (padding rate (msg.length + 1))

/-- Lane `i` of the bytes, the first of its eight the least significant. -/
def laneOf (bytes : ℕ → UInt8) (i : ℕ) : UInt64 :=
  (List.range 8).foldl
    (fun lane j ↦ lane ^^^ (bytes (8 * i + j)).toUInt64 <<< (8 * j).toUInt64) 0

def xorBytes (a : Vector UInt64 25) (bytes : ℕ → UInt8) : Vector UInt64 25 :=
  Vector.ofFn fun i : Fin 25 ↦ a[i] ^^^ laneOf bytes i

/-- A block, which need not fill the state. -/
def absorbBlock (a : Vector UInt64 25) (block : List UInt8) : Vector UInt64 25 :=
  xorBytes a fun place ↦ block.getD place 0

/-- Byte `i` of the state. -/
def stateByte (a : Vector UInt64 25) (i : ℕ) : UInt8 :=
  (a.toList.getD (i / 8) 0 >>> (8 * (i % 8)).toUInt64).toUInt8

/-! ### One byte -/

/-- What is xored in first may be xored in last. -/
theorem foldl_xor_init (f : ℕ → UInt64) (places : List ℕ) (init change : UInt64) :
    places.foldl (fun lane j ↦ lane ^^^ f j) (init ^^^ change) =
      places.foldl (fun lane j ↦ lane ^^^ f j) init ^^^ change := by
  induction places generalizing init with
  | nil => rfl
  | cons place rest ih =>
    rw [List.foldl_cons, List.foldl_cons, ← ih, UInt64.xor_assoc, UInt64.xor_comm change,
      UInt64.xor_assoc]

/-- If two families of lanes differ in one place only, and that place is among those summed once,
then their sums by exclusive or differ by the same change. -/
theorem foldl_xor_of_changed {f g : ℕ → UInt64} {changed : ℕ} {change : UInt64}
    (hchanged : g changed = f changed ^^^ change) (hsame : ∀ j ≠ changed, g j = f j)
    {places : List ℕ} (hnodup : places.Nodup) (hmem : changed ∈ places) (init : UInt64) :
    places.foldl (fun lane j ↦ lane ^^^ g j) init =
      places.foldl (fun lane j ↦ lane ^^^ f j) init ^^^ change := by
  induction places generalizing init with
  | nil => exact absurd hmem List.not_mem_nil
  | cons place rest ih =>
    obtain ⟨hfresh, hrest⟩ := List.nodup_cons.mp hnodup
    rw [List.foldl_cons, List.foldl_cons]
    by_cases hhere : place = changed
    · subst hhere
      have hothers : rest.foldl (fun lane j ↦ lane ^^^ g j) (init ^^^ g place) =
          rest.foldl (fun lane j ↦ lane ^^^ f j) (init ^^^ g place) := by
        refine List.foldl_ext _ _ _ fun lane j hj ↦ ?_
        rw [hsame j fun heq ↦ hfresh (heq ▸ hj)]
      rw [hothers, hchanged, ← UInt64.xor_assoc, foldl_xor_init]
    · rw [hsame place hhere]
      refine ih hrest ?_ _
      exact (List.mem_cons.mp hmem).resolve_left fun heq ↦ hhere heq.symm

/-- A byte xored into a string of bytes is xored into the lane it is in, at its place. -/
theorem laneOf_update (bytes : ℕ → UInt8) (pos : ℕ) (byte : UInt8) (i : ℕ) :
    laneOf (Function.update bytes pos (bytes pos ^^^ byte)) i =
      if pos / 8 = i then laneOf bytes i ^^^ byte.toUInt64 <<< (8 * (pos % 8)).toUInt64
      else laneOf bytes i := by
  have hplace : 8 * (pos / 8) + pos % 8 = pos := Nat.div_add_mod pos 8
  by_cases hlane : pos / 8 = i
  · subst hlane
    rw [if_pos rfl, laneOf, laneOf]
    have hmem : pos % 8 ∈ List.range 8 := List.mem_range.mpr (Nat.mod_lt pos (Nat.succ_pos 7))
    refine foldl_xor_of_changed ?_ (fun j hj ↦ ?_) List.nodup_range hmem 0
    · rw [hplace, Function.update_self, UInt8.toUInt64_xor, UInt64.shiftLeft_xor]
    · have hne : 8 * (pos / 8) + j ≠ pos := fun heq ↦ hj (by omega)
      rw [Function.update_of_ne hne]
  · rw [if_neg hlane, laneOf, laneOf]
    refine List.foldl_ext _ _ _ fun lane j hj ↦ ?_
    have hne : 8 * i + j ≠ pos := by
      have hlt := List.mem_range.mp hj
      omega
    rw [Function.update_of_ne hne]

/-- A byte written at its place of the bytes that the state has taken. -/
theorem xorByte_xorBytes (a : Vector UInt64 25) (bytes : ℕ → UInt8) {pos : ℕ} (hpos : pos < 200)
    (byte : UInt8) :
    xorByte (xorBytes a bytes) pos byte.toUInt64 =
      some (xorBytes a (Function.update bytes pos (bytes pos ^^^ byte))) := by
  have hand : pos &&& 7 = pos % 8 := Nat.and_two_pow_sub_one_eq_mod pos 3
  have hlane : pos >>> 3 = pos / 8 := Nat.shiftRight_eq_div_pow pos 3
  have hinside : pos / 8 < 25 := by omega
  rw [xorByte, hand, hlane, xorLane, dif_pos hinside]
  refine congrArg some (Vector.ext fun i hi ↦ ?_)
  rw [Vector.getElem_set]
  simp only [xorBytes, Vector.getElem_ofFn, laneOf_update]
  by_cases hsame : pos / 8 = i
  · subst hsame
    simp [UInt64.xor_assoc]
  · simp [hsame]

/-- The bytes of a list and of one more. -/
theorem getD_concat (part : List UInt8) (byte : UInt8) :
    (fun place ↦ (part ++ [byte]).getD place 0) =
      Function.update (fun place ↦ part.getD place 0) part.length byte := by
  funext place
  rcases lt_trichotomy place part.length with hlt | rfl | hgt
  · rw [Function.update_of_ne hlt.ne, List.getD_append _ _ _ _ hlt]
  · rw [Function.update_self, List.getD_append_right _ _ _ _ le_rfl, Nat.sub_self]
    rfl
  · have hlength : (part ++ [byte]).length ≤ place := by
      rw [List.length_append, List.length_singleton]
      omega
    rw [Function.update_of_ne hgt.ne', List.getD_eq_default _ _ hlength,
      List.getD_eq_default _ _ hgt.le]

/-- Absorbing one more byte is xoring it in behind the bytes that are there, if the state has room.
-/
theorem xorByte_absorbBlock (a : Vector UInt64 25) {part : List UInt8} (hpart : part.length < 200)
    (byte : UInt8) :
    xorByte (absorbBlock a part) part.length byte.toUInt64 =
      some (absorbBlock a (part ++ [byte])) := by
  have hfree : part.getD part.length 0 = 0 := List.getD_eq_default _ _ le_rfl
  rw [absorbBlock, xorByte_xorBytes a _ hpart, hfree, UInt8.zero_xor, absorbBlock, getD_concat]

/-- Two bytes at one place. -/
theorem xorByte_concat (a : Vector UInt64 25) {part : List UInt8} (hpart : part.length < 200)
    (first second : UInt8) :
    xorByte (absorbBlock a (part ++ [first])) part.length second.toUInt64 =
      some (absorbBlock a (part ++ [first ^^^ second])) := by
  have htaken : (part ++ [first]).getD part.length 0 = first := by
    rw [List.getD_append_right _ _ _ _ le_rfl, Nat.sub_self]
    rfl
  rw [absorbBlock, xorByte_xorBytes a _ hpart, htaken, absorbBlock, getD_concat, getD_concat,
    Function.update_idem]

/-- Zeros make no difference. -/
theorem absorbBlock_zeros (a : Vector UInt64 25) (part : List UInt8) (zeros : ℕ) :
    absorbBlock a (part ++ List.replicate zeros 0) = absorbBlock a part := by
  refine congrArg (xorBytes a) (funext fun place ↦ ?_)
  rcases Nat.lt_or_ge place part.length with hlt | hge
  · rw [List.getD_append _ _ _ _ hlt]
  · rw [List.getD_append_right _ _ _ _ hge, List.getD_eq_default part _ hge]
    rcases Nat.lt_or_ge (place - part.length) zeros with hinside | hpast
    · rw [List.getD_replicate _ hinside]
    · rw [List.getD_eq_default _ _ (by rwa [List.length_replicate])]

theorem absorbBlock_nil (a : Vector UInt64 25) : absorbBlock a [] = a := by
  have hzero (i : ℕ) : laneOf (fun _ ↦ 0) i = 0 := by simp [laneOf]
  refine Vector.ext fun i hi ↦ ?_
  simp [absorbBlock, xorBytes, hzero]

/-! ### The message -/

section Absorb

variable (keccakf : Vector UInt64 25 → Vector UInt64 25) {rate : ℕ} (hpos : 0 < rate)
  (hrate : rate ≤ 200)

include hpos hrate

/-- From a state that has absorbed a part of a block, the bytes of a message are absorbed one after
the other: what comes out has permuted each whole block of the part and the message, and absorbed
what is left behind the last of them. -/
theorem absorbBytes_spec {part : List UInt8} (hpart : part.length < rate) (a : Vector UInt64 25)
    (msg : List UInt8) :
    msg.foldlM (absorbByte keccakf rate) (absorbBlock a part, part.length) =
      some (absorbBlock ((blocks rate (part ++ msg)).foldl
        (fun a block ↦ keccakf (absorbBlock a block)) a) (leftover rate (part ++ msg)),
          (leftover rate (part ++ msg)).length) := by
  induction msg generalizing part a with
  | nil =>
    rw [List.append_nil, blocks_of_lt hpart, leftover_of_lt hpart]
    rfl
  | cons byte msg ih =>
    have hsplit : part ++ byte :: msg = (part ++ [byte]) ++ msg := by
      rw [List.append_assoc, List.singleton_append]
    have hlength : (part ++ [byte]).length = part.length + 1 := by
      rw [List.length_append, List.length_singleton]
    rw [List.foldlM_cons, absorbByte, xorByte_absorbBlock a (hpart.trans_le hrate)]
    simp only [Option.bind_eq_bind, Option.bind_some]
    by_cases hfull : part.length + 1 = rate
    · have hnone : ([] : List UInt8).length < rate := hpos
      have hrest := ih hnone (keccakf (absorbBlock a (part ++ [byte])))
      rw [absorbBlock_nil, List.length_nil, List.nil_append] at hrest
      rw [if_pos hfull, Option.bind_some, hrest, hsplit,
        blocks_append hpos (hlength.trans hfull), leftover_append hpos (hlength.trans hfull),
        List.foldl_cons]
    · have hmore : (part ++ [byte]).length < rate := by omega
      have hrest := ih hmore a
      rw [hlength] at hrest
      rw [if_neg hfull, Option.bind_some, hrest, hsplit]

end Absorb

/-! ### The padding -/

/-- The domain byte and the zeros behind it, up to the last byte of the block. -/
theorem length_domainAndPadding (zeros : ℕ) : (domainAndPadding zeros).length = zeros + 1 := by
  unfold domainAndPadding
  by_cases hzero : zeros = 0
  · rw [if_pos hzero, hzero]
    rfl
  · rw [if_neg hzero, List.length_append, List.length_cons, List.length_replicate,
      List.length_singleton]
    omega

theorem dvd_length_sha3Padded {rate : ℕ} (hpos : 0 < rate) (msg : List UInt8) :
    rate ∣ (sha3Padded rate msg).length := by
  rw [sha3Padded, List.length_append, length_domainAndPadding, Nat.add_comm (padding _ _),
    ← Nat.add_assoc]
  exact (padding_spec hpos (msg.length + 1)).2

/-- The last lane of the rate takes its bit at the last byte of the rate. -/
theorem xorLane_last (a : Vector UInt64 25) {rate : ℕ} (hpos : 0 < rate) (hlanes : 8 ∣ rate) :
    xorLane a (rate / 8 - 1) ((0x80 : UInt64) <<< 56) =
      xorByte a (rate - 1) (0x80 : UInt8).toUInt64 := by
  have hand : (rate - 1) &&& 7 = (rate - 1) % 8 := Nat.and_two_pow_sub_one_eq_mod _ 3
  have hlane : (rate - 1) >>> 3 = (rate - 1) / 8 := Nat.shiftRight_eq_div_pow _ 3
  have hmod : (rate - 1) % 8 = 7 := by omega
  have hdiv : (rate - 1) / 8 = rate / 8 - 1 := by omega
  rw [xorByte, hand, hlane, hmod, hdiv]
  rfl

/-- The two ends of the padding, the domain byte behind what is left of the message and the last bit
of the rate, are absorbed as one block with zeros between them, for a rate of whole lanes. -/
theorem finish_spec (a : Vector UInt64 25) {rate zeros : ℕ} (hrate : rate ≤ 200)
    (hlanes : 8 ∣ rate) {rest : List UInt8} (hrest : rest.length + 1 + zeros = rate) :
    ((xorByte (absorbBlock a rest) rest.length 6).bind fun a ↦
      xorLane a (rate / 8 - 1) ((0x80 : UInt64) <<< 56)) =
        some (absorbBlock a (rest ++ domainAndPadding zeros)) := by
  have hsix : (6 : UInt64) = (0x06 : UInt8).toUInt64 := rfl
  rw [hsix, xorByte_absorbBlock a (by omega), Option.bind_some, xorLane_last _ (by omega) hlanes,
    domainAndPadding]
  by_cases hzero : zeros = 0
  · have hplace : rate - 1 = rest.length := by omega
    rw [if_pos hzero, hplace, xorByte_concat a (by omega)]
    rfl
  · have hplace : rate - 1 = (rest ++ [0x06] ++ List.replicate (zeros - 1) (0 : UInt8)).length := by
      rw [List.length_append, List.length_append, List.length_replicate, List.length_singleton]
      omega
    rw [if_neg hzero, ← absorbBlock_zeros a _ (zeros - 1), hplace,
      xorByte_absorbBlock a (hplace ▸ by omega)]
    simp only [List.append_assoc, List.cons_append, List.nil_append]

/-- The state of the sponge after the message and its padding, for an output whose rate is made of
whole lanes: the blocks of the padded message, absorbed and permuted one after the other from the
state of zeros. -/
theorem sha3State_spec (keccakf : Vector UInt64 25 → Vector UInt64 25) (msg : List UInt8)
    {outlen : ℕ} (hlanes : 4 ∣ outlen) (houtlen : outlen < 100) :
    sha3State keccakf msg outlen =
      some ((blocks (200 - 2 * outlen) (sha3Padded (200 - 2 * outlen) msg)).foldl
        (fun a block ↦ keccakf (absorbBlock a block)) (Vector.replicate 25 0)) := by
  have hrate : (200 - 2 * outlen.toUInt32).toNat = 200 - 2 * outlen := by
    rw [UInt32.toNat_sub, UInt32.toNat_mul, Nat.toUInt32_eq, UInt32.toNat_ofNat']
    simp only [UInt32.toNat_ofNat]
    omega
  have hlast : ((200 - 2 * outlen.toUInt32) / 8 - 1).toNat = (200 - 2 * outlen) / 8 - 1 := by
    have hone : 1 ≤ (200 - 2 * outlen) / 8 := by omega
    rw [UInt32.toNat_sub, UInt32.toNat_div, hrate]
    simp only [UInt32.toNat_ofNat, Nat.reducePow, Nat.reduceMod]
    omega
  generalize hsize : 200 - 2 * outlen = rate at *
  have hpos : 0 < rate := by omega
  have hupper : rate ≤ 200 := by omega
  have height : 8 ∣ rate := by omega
  have hshorter := length_leftover_lt hpos msg
  have hsplit : rate * (msg.length / rate) + (leftover rate msg).length = msg.length := by
    rw [leftover, List.length_drop, Nat.add_sub_cancel' (Nat.mul_div_le _ _)]
  have hzeros : rate - (leftover rate msg).length - 1 = padding rate (msg.length + 1) := by
    refine eq_padding hpos (by omega) ?_
    have hsum : msg.length + 1 + (rate - (leftover rate msg).length - 1) =
        rate * (msg.length / rate) + rate := by omega
    rw [hsum]
    exact Nat.dvd_add (Nat.dvd_mul_right _ _) dvd_rfl
  have hrest : (leftover rate msg).length + 1 + padding rate (msg.length + 1) = rate := by omega
  have hlength : (leftover rate msg ++ domainAndPadding (padding rate (msg.length + 1))).length =
      rate := by
    rw [List.length_append, length_domainAndPadding]
    omega
  have hnone : ([] : List UInt8).length < rate := hpos
  have habsorbed := absorbBytes_spec keccakf hpos hupper hnone (Vector.replicate 25 0) msg
  rw [absorbBlock_nil, List.length_nil, List.nil_append] at habsorbed
  rw [sha3State, hrate, hlast]
  simp only [Option.bind_eq_bind]
  rw [habsorbed, Option.bind_some, ← Option.bind_assoc, finish_spec _ hupper height hrest,
    sha3Padded, blocks_append_leftover hpos, blocks_of_length_eq hpos hlength, List.foldl_append,
    Option.bind_some, List.foldl_cons, List.foldl_nil]

/-- The output is the first bytes of the state. -/
theorem sha3_eq (keccakf : Vector UInt64 25 → Vector UInt64 25) (msg : List UInt8) {outlen : ℕ}
    (houtlen : outlen < 100) {a : Vector UInt64 25} (ha : sha3State keccakf msg outlen = some a) :
    sha3 keccakf msg outlen = some ((List.range outlen).map (stateByte a)) := by
  rw [sha3, ha, Option.bind_eq_bind, Option.bind_some]
  refine mapM_eq_some fun i hmem ↦ ?_
  have hi := List.mem_range.mp hmem
  have hand : i &&& 7 = i % 8 := Nat.and_two_pow_sub_one_eq_mod i 3
  have hlane : i >>> 3 = i / 8 := Nat.shiftRight_eq_div_pow i 3
  have hinside : i / 8 < 25 := by omega
  have hread : a.toList.getD (i / 8) 0 = a[i / 8] := by
    rw [List.getD_eq_getElem _ _ (by rwa [Vector.length_toList]), Vector.getElem_toList]
  rw [hand, hlane, Vector.getElem?_eq_getElem hinside, Option.map_some, stateByte, hread]

end Bc3Miner.Kernel
