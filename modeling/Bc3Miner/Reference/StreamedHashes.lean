import Bc3Miner.Reference.StandardHashes

/-!
# The standard hashes of a message in pieces

Whatever the pieces are, each class of `bc3hash/vendor/bc3/standard_hashes.cpp` holds the state of
the message so far (`Took`), and its digest is the one of the specification. `Sha512` and
`Ripemd160` throw on the piece with which the message gets too long to say its length in bits, and
on no piece before (`update_long`, `update_took`).

`Took` is the relation of `Digester.Computes` for each class, and `finish_took` the digest.
-/

set_option autoImplicit false
set_option relaxedAutoImplicit false

namespace Bc3Miner.Reference

open Consensus Foundations MessageBlocks BlockStream

/-! ### The state of SHA-3 -/

/-- A byte that is moved past a number, or joined to it. -/
theorem or_shiftLeft_eq_xor {low high : UInt64} {bits : ℕ} (hbits : bits < 64)
    (hlow : low.toNat < 2 ^ bits) :
    low ||| high <<< bits.toUInt64 = low ^^^ high <<< bits.toUInt64 := by
  have hcount : bits.toUInt64.toNat % 64 = bits := by
    rw [Nat.toUInt64_eq, UInt64.toNat_ofNat']
    omega
  refine UInt64.toNat_inj.mp (Nat.eq_of_testBit_eq fun i ↦ ?_)
  rw [UInt64.toNat_or, UInt64.toNat_xor, UInt64.toNat_shiftLeft, hcount, Nat.testBit_or,
    Nat.testBit_xor]
  rcases Nat.lt_or_ge i bits with hi | hi
  · have hhigh : (high.toNat <<< bits % 2 ^ 64).testBit i = false := by
      rw [Nat.testBit_mod_two_pow, Nat.testBit_shiftLeft, decide_eq_false (Nat.not_le.mpr hi),
        Bool.false_and, Bool.and_false]
    rw [hhigh, Bool.or_false, Bool.xor_false]
  · have hnone : low.toNat.testBit i = false :=
      Nat.testBit_lt_two_pow (hlow.trans_le (Nat.pow_le_pow_right (Nat.succ_pos 1) hi))
    rw [hnone, Bool.false_or, Bool.false_xor]

namespace Sha3

/-- Both ways of putting eight bytes together. -/
theorem read64_eq_laneOf (bytes : List UInt8) (i : ℕ) :
    read64 false (bytes.drop (8 * i)) = Kernel.laneOf (fun place ↦ bytes.getD place 0) i := by
  have hread (j : ℕ) : (bytes.drop (8 * i)).getD j 0 = bytes.getD (8 * i + j) 0 := by
    rw [List.getD_eq_getElem?_getD, List.getD_eq_getElem?_getD, List.getElem?_drop]
  have hboth : ∀ count ≤ 8,
      (List.range count).foldl (fun (v : UInt64) j ↦
        v ||| ((bytes.drop (8 * i)).getD j 0).toUInt64 <<< (8 * j).toUInt64) 0 =
        (List.range count).foldl (fun (lane : UInt64) j ↦
          lane ^^^ (bytes.getD (8 * i + j) 0).toUInt64 <<< (8 * j).toUInt64) 0 ∧
      ((List.range count).foldl (fun (v : UInt64) j ↦
        v ||| ((bytes.drop (8 * i)).getD j 0).toUInt64 <<< (8 * j).toUInt64) 0).toNat <
          2 ^ (8 * count) := by
    intro count hcount
    induction count with
    | zero => exact ⟨rfl, Nat.one_pos⟩
    | succ count ih =>
      obtain ⟨hsame, hlt⟩ := ih (by omega)
      rw [List.range_succ, List.foldl_append, List.foldl_append, List.foldl_cons, List.foldl_cons,
        List.foldl_nil, List.foldl_nil, or_shiftLeft_eq_xor (by omega) hlt, hsame, hread]
      refine ⟨rfl, ?_⟩
      have hbyte := (bytes.getD (8 * i + count) 0).toNat_lt
      have hshift : (8 * count).toUInt64.toNat % 64 = 8 * count := by
        rw [Nat.toUInt64_eq, UInt64.toNat_ofNat']
        omega
      rw [UInt64.toNat_xor, UInt64.toNat_shiftLeft, hshift, UInt8.toNat_toUInt64,
        Nat.shiftLeft_eq]
      refine Nat.xor_lt_two_pow ?_ ?_
      · rw [← hsame]
        exact hlt.trans_le (Nat.pow_le_pow_right (Nat.succ_pos 1) (by omega))
      · refine (Nat.mod_le _ _).trans_lt ?_
        rw [Nat.mul_succ, pow_add, Nat.mul_comm]
        exact Nat.mul_lt_mul_of_pos_left hbyte (Nat.two_pow_pos _)
  exact (hboth 8 le_rfl).1

/-- A whole block, as the specification absorbs it. -/
theorem xorWords_eq {rate : ℕ} (hlanes : 8 ∣ rate) (hrate : rate ≤ 200) (lanes : Vector UInt64 25)
    {data : List UInt8} (hdata : rate ≤ data.length) :
    xorWords lanes rate data = some (Kernel.absorbBlock lanes (data.take rate)) := by
  have hbyte (place : ℕ) (hplace : place < rate) :
      (data.take rate).getD place 0 = data.getD place 0 := by
    rw [List.getD_eq_getElem?_getD, List.getD_eq_getElem?_getD, List.getElem?_take_of_lt hplace]
  have hnone (place : ℕ) (hplace : rate ≤ place) : (data.take rate).getD place 0 = 0 := by
    refine List.getD_eq_default _ _ ?_
    rw [List.length_take]
    omega
  have hpartly : ∀ count ≤ rate / 8,
      (List.range count).foldlM
        (fun lanes i ↦ Kernel.xorLane lanes i (read64 false (data.drop (8 * i)))) lanes =
      some (Vector.ofFn fun i : Fin 25 ↦
        if i < count then lanes[i] ^^^ Kernel.laneOf (fun place ↦ data.getD place 0) i
        else lanes[i]) := by
    intro count hcount
    induction count with
    | zero =>
      refine congrArg some (Vector.ext fun i hi ↦ ?_)
      simp
    | succ count ih =>
      have hinside : count < 25 := by omega
      rw [List.range_succ, List.foldlM_append, ih (by omega)]
      simp only [List.foldlM_cons, List.foldlM_nil, Option.bind_eq_bind, Option.bind_some,
        Kernel.xorLane, dif_pos hinside, Option.pure_def]
      refine congrArg some (Vector.ext fun i hi ↦ ?_)
      rw [Vector.getElem_set]
      simp only [Vector.getElem_ofFn]
      by_cases hsame : count = i
      · subst hsame
        rw [if_pos rfl, if_neg (lt_irrefl count), if_pos (Nat.lt_succ_self count), read64_eq_laneOf]
      · have hiff : i < count + 1 ↔ i < count := by omega
        rw [if_neg hsame]
        simp only [hiff]
  rw [xorWords, hpartly _ le_rfl]
  refine congrArg some (Vector.ext fun i hi ↦ ?_)
  simp only [Kernel.absorbBlock, Kernel.xorBytes, Vector.getElem_ofFn]
  by_cases hlane : i < rate / 8
  · rw [if_pos hlane, Kernel.laneOf, Kernel.laneOf]
    refine congrArg (lanes[i] ^^^ ·) (List.foldl_ext _ _ _ fun lane j hj ↦ ?_)
    have hlt := List.mem_range.mp hj
    rw [hbyte _ (by omega)]
  · have hzero : Kernel.laneOf (fun place ↦ (data.take rate).getD place 0) i = 0 := by
      have hall : ∀ j ∈ List.range 8, (data.take rate).getD (8 * i + j) 0 = 0 :=
        fun j _ ↦ hnone _ (by omega)
      have hconst : (List.range 8).foldl (fun (lane : UInt64) j ↦
          lane ^^^ ((data.take rate).getD (8 * i + j) 0).toUInt64 <<< (8 * j).toUInt64) 0 =
          (List.range 8).foldl (fun (lane : UInt64) _ ↦ lane) 0 := by
        refine List.foldl_ext _ _ _ fun lane j hj ↦ ?_
        rw [hall j hj]
        simp
      exact hconst
    rw [if_neg hlane, hzero, UInt64.xor_zero]

/-- Nothing is written past the state. -/
theorem xorPart_isSome {data : List UInt8} {p : ℕ} (hfits : p + data.length ≤ 200)
    (lanes : Vector UInt64 25) : ∃ lanes', xorPart lanes p data = some lanes' := by
  induction data generalizing lanes p with
  | nil => exact ⟨lanes, rfl⟩
  | cons byte rest ih =>
    rw [List.length_cons] at hfits
    have hinside : p / 8 < 25 := by omega
    have hnext : p + 1 + rest.length ≤ 200 := by omega
    rw [xorPart, Kernel.xorLane, dif_pos hinside]
    exact ih hnext _

section Permutation

variable (permute : Vector UInt64 25 → Vector UInt64 25) {rate : ℕ}

/-- The bytes of a part of a block, absorbed one by one from a position in it and not reaching
beyond it, are xored in together; the state is permuted once if they fill the block, and else the
position moves on. -/
theorem absorb_part {data : List UInt8} {p : ℕ} (hp : p < rate) (hfits : p + data.length ≤ rate)
    (lanes : Vector UInt64 25) :
    data.foldlM (Kernel.absorbByte permute rate) (lanes, p) =
      (xorPart lanes p data).map fun lanes ↦
        if p + data.length = rate then (permute lanes, 0) else (lanes, p + data.length) := by
  induction data generalizing lanes p with
  | nil =>
    simp only [List.length_nil, Nat.add_zero, if_neg hp.ne]
    rfl
  | cons byte rest ih =>
    rw [List.length_cons] at hfits ⊢
    have hand : p &&& 7 = p % 8 := Nat.and_two_pow_sub_one_eq_mod p 3
    have hlane : p >>> 3 = p / 8 := Nat.shiftRight_eq_div_pow p 3
    rw [List.foldlM_cons, Kernel.absorbByte, Kernel.xorByte, hand, hlane, xorPart]
    rcases Kernel.xorLane lanes (p / 8) (byte.toUInt64 <<< (8 * (p % 8)).toUInt64) with _ | after
    · rfl
    · simp only [Option.bind_eq_bind, Option.bind_some]
      by_cases hfull : p + 1 = rate
      · have hnil : rest = [] := List.eq_nil_of_length_eq_zero (by omega)
        subst hnil
        simp only [List.length_nil, Nat.zero_add, if_pos hfull]
        rfl
      · rw [if_neg hfull, Option.bind_some, ih (by omega) (by omega), Nat.add_assoc,
          Nat.add_comm 1]

/-- A message of one block. -/
theorem absorb_block (hpos : 0 < rate) (hrate : rate ≤ 200) {block : List UInt8}
    (hblock : block.length = rate) (lanes : Vector UInt64 25) :
    block.foldlM (Kernel.absorbByte permute rate) (lanes, 0) =
      some (permute (Kernel.absorbBlock lanes block), 0) := by
  have hnone : ([] : List UInt8).length < rate := hpos
  have hspec := Kernel.absorbBytes_spec permute hpos hrate hnone lanes block
  have hleft : leftover rate block = [] := by
    have hrest := leftover_append hpos hblock []
    rwa [List.append_nil, leftover_of_lt hnone] at hrest
  rwa [Kernel.absorbBlock_nil, List.nil_append, blocks_of_length_eq hpos hblock, hleft,
    Kernel.absorbBlock_nil] at hspec

/-- Whatever the piece, it is absorbed byte by byte. -/
theorem update_spec {s : Sha3} (hlanes : 8 ∣ s.rate) (hrate : s.rate ≤ 200) (data : List UInt8) :
    ∃ s', s.update permute data = some s' ∧ s'.rate = s.rate ∧ s'.output = s.output ∧
      data.foldlM (Kernel.absorbByte permute s.rate) (s.lanes, s.position) =
        some (s'.lanes, s'.position) := by
  induction hlength : data.length using Nat.strong_induction_on generalizing s data with
  | _ length ih =>
    have hinside := s.inside
    rw [update]
    by_cases hempty : data.length = 0
    · rw [dif_pos hempty, List.eq_nil_of_length_eq_zero hempty]
      exact ⟨s, rfl, rfl, rfl, rfl⟩
    rw [dif_neg hempty]
    have hfold (count : ℕ) {state : Vector UInt64 25 × ℕ}
        (hstate : (data.take count).foldlM (Kernel.absorbByte permute s.rate)
          (s.lanes, s.position) = some state) :
        data.foldlM (Kernel.absorbByte permute s.rate) (s.lanes, s.position) =
          (data.drop count).foldlM (Kernel.absorbByte permute s.rate) state := by
      have hsplit : (data.take count ++ data.drop count).foldlM
          (Kernel.absorbByte permute s.rate) (s.lanes, s.position) =
            (data.take count).foldlM (Kernel.absorbByte permute s.rate) (s.lanes, s.position) >>=
              (data.drop count).foldlM (Kernel.absorbByte permute s.rate) := List.foldlM_append
      rw [List.take_append_drop, hstate] at hsplit
      exact hsplit
    by_cases hwhole : s.position = 0 ∧ s.rate ≤ data.length
    · obtain ⟨hposition, hmore⟩ := hwhole
      have hblock : (data.take s.rate).length = s.rate := by
        rw [List.length_take, Nat.min_eq_left hmore]
      have hshorter : (data.drop s.rate).length < length := by
        rw [List.length_drop]
        omega
      rw [dif_pos ⟨hposition, hmore⟩, xorWords_eq hlanes hrate _ hmore, Option.bind_some]
      obtain ⟨s', hrun, hrate', houtput', habsorbed⟩ := ih _ hshorter
        (s := { s with lanes := permute (Kernel.absorbBlock s.lanes (data.take s.rate)) })
        hlanes hrate _ rfl
      refine ⟨s', hrun, hrate', houtput', ?_⟩
      have hbytes := absorb_block permute (Nat.zero_lt_of_lt hinside) hrate hblock s.lanes
      rw [← hposition] at hbytes
      rw [hfold s.rate hbytes]
      exact habsorbed
    · rw [dif_neg hwhole]
      dsimp only
      obtain ⟨take, htake⟩ : ∃ take, take = min data.length (s.rate - s.position) := ⟨_, rfl⟩
      have htaken : (data.take take).length = take := by
        rw [List.length_take]
        omega
      have hshorter : (data.drop take).length < length := by
        rw [List.length_drop]
        omega
      have hfits : s.position + (data.take take).length ≤ s.rate := by omega
      obtain ⟨lanes, hpart⟩ := xorPart_isSome (hfits.trans hrate) s.lanes
      have hbytes := absorb_part permute hinside hfits s.lanes
      rw [hpart, Option.map_some, htaken] at hbytes
      simp only [← htake, hpart, Option.bind_some]
      by_cases hfull : s.position + take = s.rate
      · rw [if_pos hfull] at hbytes
        rw [dif_pos hfull, hfold take hbytes]
        exact ih _ hshorter
          (s := ⟨permute lanes, s.rate, 0, s.output, Nat.zero_lt_of_lt hinside⟩) hlanes hrate _ rfl
      · have hopen : s.position + take < s.rate := by omega
        rw [if_neg hfull] at hbytes
        rw [dif_neg hfull, hfold take hbytes]
        exact ih _ hshorter (s := ⟨lanes, s.rate, s.position + take, s.output, hopen⟩) hlanes
          hrate _ rfl

/-- The state after a message, for an output of so many bytes. -/
structure Took (output : ℕ) (s : Sha3) (msg : List UInt8) : Prop where
  rate : s.rate = 200 - 2 * output
  output : s.output = output
  absorbed : msg.foldlM (Kernel.absorbByte permute s.rate) (Vector.replicate 25 0, 0) =
    some (s.lanes, s.position)

theorem ofBits_took {bits : ℕ} (hbits : bits = 224 ∨ bits = 256 ∨ bits = 384 ∨ bits = 512) :
    ∃ s, ofBits bits = some s ∧ Took permute (bits / 8) s [] := by
  refine ⟨_, dif_pos hbits, ?_, rfl, rfl⟩
  show 200 - bits / 4 = _
  omega

variable {permute}

/-- SHA-3: an update takes its piece behind what has been taken. -/
theorem update_took {output : ℕ} (hlanes : 4 ∣ output) (houtput : output < 100) {s : Sha3}
    {msg : List UInt8} (htook : Took permute output s msg) (data : List UInt8) :
    ∃ s', s.update permute data = some s' ∧ Took permute output s' (msg ++ data) := by
  have hrate := htook.rate
  obtain ⟨s', hrun, hrate', houtput', habsorbed⟩ :=
    update_spec permute (s := s) (by omega) (by omega) data
  refine ⟨s', hrun, hrate'.trans hrate, houtput'.trans htook.output, ?_⟩
  rw [hrate', List.foldlM_append, htook.absorbed]
  exact habsorbed

/-- SHA-3: finishing gives the digest of all that has been taken, for each of the four output
lengths. -/
theorem finish_took {output : ℕ}
    (houtput : output = 28 ∨ output = 32 ∨ output = 48 ∨ output = 64) {s : Sha3}
    {msg : List UInt8} (htook : Took permute output s msg) :
    s.finish permute = some (sha3Digest permute output msg) := by
  have hrate : (200 - 2 * output.toUInt32).toNat = s.rate := by
    rw [htook.rate]
    rcases houtput with rfl | rfl | rfl | rfl <;> rfl
  have hlast : ((200 - 2 * output.toUInt32) / 8 - 1).toNat = s.rate / 8 - 1 := by
    rw [htook.rate]
    rcases houtput with rfl | rfl | rfl | rfl <;> rfl
  have hbelow : output < 100 := by omega
  have hspec := Kernel.sha3State_spec permute msg (by omega : 4 ∣ output) hbelow
  have hbytes := Kernel.sha3_eq permute msg hbelow hspec
  have hand : s.position &&& 7 = s.position % 8 := Nat.and_two_pow_sub_one_eq_mod _ 3
  have hlane : s.position >>> 3 = s.position / 8 := Nat.shiftRight_eq_div_pow _ 3
  have hstate : Kernel.sha3State permute msg output =
      (Kernel.xorLane s.lanes (s.position / 8)
        ((6 : UInt64) <<< (8 * (s.position % 8)).toUInt64)).bind fun lanes ↦
          (Kernel.xorLane lanes (s.rate / 8 - 1) ((0x80 : UInt64) <<< 56)).bind fun lanes ↦
            some (permute lanes) := by
    rw [Kernel.sha3State, hrate, hlast, htook.absorbed]
    simp only [Option.bind_eq_bind, Option.bind_some, Kernel.xorByte, hand, hlane]
  have hplace (i : ℕ) : i &&& 7 = i % 8 ∧ i >>> 3 = i / 8 :=
    ⟨Nat.and_two_pow_sub_one_eq_mod i 3, Nat.shiftRight_eq_div_pow i 3⟩
  have hfinish : s.finish permute = (Kernel.sha3State permute msg output).bind fun a ↦
      (List.range output).mapM fun i ↦ a[i >>> 3]?.map fun lane ↦
        (lane >>> (8 * (i &&& 7)).toUInt64).toUInt8 := by
    rw [hstate, finish, htook.output]
    simp only [hplace, Option.bind_eq_bind, Option.bind_assoc, Option.bind_some]
  rw [hfinish]
  exact hbytes

end Permutation

end Sha3

/-! ### The padded message -/

/-- The count of bytes may be taken modulo the block. -/
theorem padding_congr {size first second : ℕ} (hsame : first % size = second % size) :
    padding size first = padding size second := by
  rw [padding, padding, hsame]

theorem feed_whole {σ : Type} (size : ℕ) (compress : σ → List UInt8 → σ) (chain : σ)
    (msg : List UInt8) :
    feed size (· / size) compress (chain, []) msg =
      ((blocks size msg).foldl compress chain, leftover size msg) := rfl

/-- An empty buffer holds nothing of an empty stream. -/
theorem BlockBuffer.start_holds {σ : Type} (size : ℕ) (count : ℕ → ℕ) (hnone : count 0 = 0)
    (step : σ → List UInt8 → σ) (chain : σ) :
    BlockBuffer.Holds size ⟨chain, List.replicate size 0, 0⟩
      (feed size count step (chain, []) []) := by
  rw [feed_of_count_eq_zero hnone]
  exact ⟨List.length_replicate, rfl, rfl, _, rfl⟩

/-- A piece for a buffer that a message went into. -/
theorem BlockBuffer.blocks_feed {σ : Type} {size : ℕ} (hpos : 0 < size)
    (compress : σ → List UInt8 → σ) {s : BlockBuffer σ} {start : σ} {msg : List UInt8}
    (hholds : s.Holds size (feed size (· / size) compress (start, []) msg)) (data : List UInt8) :
    ∃ s', s.blocks size compress data = some s' ∧
      s'.Holds size (feed size (· / size) compress (start, []) (msg ++ data)) := by
  rw [feed_append _ (cuts_whole hpos)]
  exact s.blocks_holds hpos compress hholds (length_leftover_lt hpos msg) data

/-- The end of a message. If the buffer holds what a stream keeps of the message, and the length
field is the one of the message, then finishing compresses the blocks of the padded message from
where the stream stands, so the result is the fold over all of its blocks. -/
theorem BlockBuffer.finish_feed {σ : Type} {size room : ℕ} (hpos : 0 < size) (hroom : room ≤ size)
    (compress : σ → List UInt8 → σ) {s : BlockBuffer σ} {start : σ} {msg : List UInt8}
    (hholds : s.Holds size (feed size (· / size) compress (start, []) msg))
    (field : ℕ → List UInt8) (hfield : (field (8 * msg.length)).length = size - room) :
    s.finish size room compress (field (8 * msg.length)) =
      some ((MessageBlocks.blocks size
        (Kernel.strengthened size (size - room) field msg)).foldl compress start) := by
  rw [feed_whole] at hholds
  have hrest := length_leftover_lt hpos msg
  have hlength : (leftover size msg).length = msg.length % size := by
    rw [leftover, List.length_drop, Nat.mod_eq_sub_mul_div]
  have hpadding : padding size ((leftover size msg).length + 1 + (size - room)) =
      padding size (msg.length + 1 + (size - room)) := by
    refine padding_congr ?_
    rw [hlength, Nat.add_assoc, Nat.add_assoc, Nat.mod_add_mod]
  rw [s.finish_holds hpos compress hroom hholds hrest hfield, hpadding, Kernel.strengthened,
    List.append_assoc msg, blocks_append_leftover hpos msg, List.foldl_append, List.append_assoc]

/-! ### The state of SHA-512 -/

theorem toNat_toUInt64_of_lt {number : ℕ} (hfits : number < 2 ^ 64) :
    number.toUInt64.toNat = number := by
  rw [Nat.toUInt64_eq, UInt64.toNat_ofNat']
  exact Nat.mod_eq_of_lt hfits

/-- A number of so many low bytes, and the bytes after them. -/
theorem leBytesOf_add (low high number : ℕ) :
    leBytesOf (low + high) number =
      leBytesOf low number ++ leBytesOf high (number / 256 ^ low) := by
  induction low generalizing number with
  | zero => rw [Nat.zero_add, pow_zero, Nat.div_one]; rfl
  | succ low ih =>
    rw [Nat.succ_add, leBytesOf, leBytesOf, ih, Nat.div_div_eq_div_mul, ← pow_succ',
      List.cons_append]

/-- A number written in a width loses what does not fit it. -/
theorem leBytesOf_mod (width number : ℕ) :
    leBytesOf width (number % 256 ^ width) = leBytesOf width number := by
  induction width generalizing number with
  | zero => rfl
  | succ width ih =>
    have hbyte : UInt8.ofNat (number % 256 ^ (width + 1)) = UInt8.ofNat number := by
      refine UInt8.toNat_inj.mp ?_
      rw [UInt8.toNat_ofNat', UInt8.toNat_ofNat']
      exact Nat.mod_mod_of_dvd _ (dvd_pow_self 256 (Nat.succ_ne_zero width))
    rw [leBytesOf, leBytesOf, hbyte, pow_succ', Nat.mod_mul_right_div_self, ih]

namespace Sha512

/-- The two words of the count take a piece as one number does. -/
theorem count_update (low high : UInt64) {length : ℕ} (hlength : length < 2 ^ 64)
    (hhigh : high.toNat < 2 ^ 61) :
    (low + length.toUInt64).toNat +
        2 ^ 64 * (high + if low + length.toUInt64 < low then 1 else 0).toNat =
      low.toNat + 2 ^ 64 * high.toNat + length := by
  have hlow := low.toNat_lt
  have hsum : (low + length.toUInt64).toNat = (low.toNat + length) % 2 ^ 64 := by
    rw [UInt64.toNat_add, toNat_toUInt64_of_lt hlength]
  rw [hsum]
  by_cases hcarry : low + length.toUInt64 < low
  · have hless := UInt64.lt_iff_toNat_lt.mp hcarry
    have hone : (high + 1).toNat = high.toNat + 1 := by
      have hunit : (1 : UInt64).toNat = 1 := rfl
      rw [UInt64.toNat_add, hunit]
      exact Nat.mod_eq_of_lt (by omega)
    rw [if_pos hcarry, hone]
    omega
  · have hless := mt UInt64.lt_iff_toNat_lt.mpr hcarry
    rw [if_neg hcarry, UInt64.add_zero]
    omega

/-- The length in bits, in two words. -/
theorem length_bytes {low high : UInt64} {length : ℕ} (hlength : length < 2 ^ 125)
    (hcount : low.toNat + 2 ^ 64 * high.toNat = length) :
    Kernel.beBytes64 ((high <<< 3) ||| (low >>> 61)) ++ Kernel.beBytes64 (low <<< 3) =
      (leBytesOf 16 (8 * length)).reverse := by
  have hlow := low.toNat_lt
  have hthree : (3 : UInt64).toNat % 64 = 3 := rfl
  have hmost : (61 : UInt64).toNat % 64 = 61 := rfl
  have hshift : (high <<< 3).toNat = 8 * high.toNat := by
    rw [UInt64.toNat_shiftLeft, hthree, Nat.shiftLeft_eq]
    omega
  have hfew : (low >>> 61).toNat = low.toNat / 2 ^ 61 := by
    rw [UInt64.toNat_shiftRight, hmost, Nat.shiftRight_eq_div_pow]
  have hhighWord : ((high <<< 3) ||| (low >>> 61)).toNat = 8 * length / 2 ^ 64 := by
    have hbelow : low.toNat / 2 ^ 61 < 2 ^ 3 := by omega
    have hjoin : 8 * high.toNat ||| low.toNat / 2 ^ 61 = 8 * high.toNat + low.toNat / 2 ^ 61 :=
      (Nat.two_pow_add_eq_or_of_lt hbelow high.toNat).symm
    rw [UInt64.toNat_or, hshift, hfew, hjoin]
    omega
  have hlowWord : (low <<< 3).toNat = 8 * length % 2 ^ 64 := by
    rw [UInt64.toNat_shiftLeft, hthree, Nat.shiftLeft_eq]
    omega
  have hbase : (256 : ℕ) ^ 8 = 2 ^ 64 := by norm_num
  have hsplit := leBytesOf_add 8 8 (8 * length)
  rw [Kernel.beBytes64_eq, Kernel.beBytes64_eq, Kernel.leBytes64_eq, Kernel.leBytes64_eq,
    ← List.reverse_append, hhighWord, hlowWord]
  refine congrArg List.reverse ?_
  rw [hsplit, ← leBytesOf_mod 8 (8 * length), hbase]

variable (compress : Vector UInt64 8 → List UInt8 → Vector UInt64 8)

/-- The state after a message. -/
structure Took (s : Sha512) (msg : List UInt8) : Prop where
  buffer : s.buffer.Holds 128 (feed 128 (· / 128) compress (Kernel.sha512Iv, []) msg)
  count : s.bytesLow.toNat + 2 ^ 64 * s.bytesHigh.toNat = msg.length
  short : msg.length < 2 ^ 125

theorem start_took : Took compress start [] :=
  ⟨BlockBuffer.start_holds 128 _ rfl compress _, rfl, by norm_num⟩

variable {compress} {s : Sha512} {msg : List UInt8}

/-- The check for the length of the message. -/
theorem high_iff (htook : Took compress s msg) {data : List UInt8} (hdata : data.length < 2 ^ 64) :
    (s.bytesHigh + if s.bytesLow + data.length.toUInt64 < s.bytesLow then 1 else 0) >>> 61 ≠ 0 ↔
      2 ^ 125 ≤ msg.length + data.length := by
  have hlow := (s.bytesLow + data.length.toUInt64).toNat_lt
  have hcount := htook.count
  have hshort := htook.short
  have hhigh : s.bytesHigh.toNat < 2 ^ 61 := by omega
  have hnext := count_update s.bytesLow s.bytesHigh hdata hhigh
  have hmost : (61 : UInt64).toNat % 64 = 61 := rfl
  rw [hcount] at hnext
  rw [Ne, ← UInt64.toNat_inj, UInt64.toNat_shiftRight, hmost, Nat.shiftRight_eq_div_pow]
  have hzero : (0 : UInt64).toNat = 0 := rfl
  rw [hzero]
  omega

/-- SHA-512: an update takes its piece behind what has been taken, as long as the length fits its
counter. -/
theorem update_took (htook : Took compress s msg) {data : List UInt8}
    (hdata : data.length < 2 ^ 64) (hshort : msg.length + data.length < 2 ^ 125) :
    ∃ s', s.update compress data = some s' ∧ Took compress s' (msg ++ data) := by
  obtain ⟨buffer, hrun, hholds⟩ :=
    s.buffer.blocks_feed (by norm_num) compress htook.buffer data
  have hhigh : s.bytesHigh.toNat < 2 ^ 61 := by
    have hcount := htook.count
    have hbefore := htook.short
    omega
  have hnext := count_update s.bytesLow s.bytesHigh hdata hhigh
  have hupdate : s.update compress data = some ⟨buffer, s.bytesLow + data.length.toUInt64,
      s.bytesHigh + if s.bytesLow + data.length.toUInt64 < s.bytesLow then 1 else 0⟩ := by
    rw [update, if_neg ((high_iff htook hdata).not.mpr hshort.not_ge), hrun]
    rfl
  refine ⟨_, hupdate, hholds, ?_, ?_⟩
  · rw [List.length_append, ← htook.count]
    exact hnext
  · rwa [List.length_append]

/-- SHA-512: the piece with which the message reaches `2 ^ 125` bytes is refused, since its length in
bits no longer fits the two words that count it. -/
theorem update_long (htook : Took compress s msg) {data : List UInt8}
    (hdata : data.length < 2 ^ 64) (hlong : 2 ^ 125 ≤ msg.length + data.length) :
    s.update compress data = none := by
  rw [update, if_pos ((high_iff htook hdata).mpr hlong)]

/-- SHA-512: finishing gives the digest of all that has been taken. -/
theorem finish_took (htook : Took compress s msg) :
    s.finish compress = some (sha512Digest compress msg) := by
  have hwidth : (leBytesOf 16 (8 * msg.length)).reverse.length = 128 - 112 := by
    rw [List.length_reverse, length_leBytesOf]
  rw [finish, length_bytes htook.short htook.count,
    s.buffer.finish_feed (by norm_num) (by omega) compress htook.buffer
      (fun bits ↦ (leBytesOf 16 bits).reverse) hwidth]
  rfl

end Sha512

/-! ### The state of RIPEMD-160 -/

namespace Ripemd160

variable (compress : Vector UInt32 5 → List UInt8 → Vector UInt32 5)

structure Took (s : Ripemd160) (msg : List UInt8) : Prop where
  buffer : s.buffer.Holds 64 (feed 64 (· / 64) compress (Kernel.ripemd160Iv, []) msg)
  count : s.bytes.toNat = msg.length
  short : msg.length < 2 ^ 61

theorem start_took : Took compress start [] :=
  ⟨BlockBuffer.start_holds 64 _ rfl compress _, rfl, by norm_num⟩

variable {compress} {s : Ripemd160} {msg : List UInt8}

/-- The check for room refuses exactly the pieces that would take the message to `2 ^ 61` bytes. -/
theorem room_iff (htook : Took compress s msg) {data : List UInt8} (hdata : data.length < 2 ^ 64) :
    ((-1 : UInt64) >>> 3) - s.bytes < data.length.toUInt64 ↔
      2 ^ 61 ≤ msg.length + data.length := by
  have hmost : ((-1 : UInt64) >>> 3).toNat = 2 ^ 61 - 1 := rfl
  have hshort := htook.short
  have hle : s.bytes ≤ (-1 : UInt64) >>> 3 := by
    rw [UInt64.le_iff_toNat_le, hmost, htook.count]
    omega
  rw [UInt64.lt_iff_toNat_lt, UInt64.toNat_sub_of_le _ _ hle, hmost, htook.count,
    toNat_toUInt64_of_lt hdata]
  omega

/-- RIPEMD-160: an update takes its piece behind what has been taken, as long as the length fits its
counter. -/
theorem update_took (htook : Took compress s msg) {data : List UInt8}
    (hshort : msg.length + data.length < 2 ^ 61) :
    ∃ s', s.update compress data = some s' ∧ Took compress s' (msg ++ data) := by
  have hdata : data.length < 2 ^ 64 := by omega
  obtain ⟨buffer, hrun, hholds⟩ :=
    s.buffer.blocks_feed (by norm_num) compress htook.buffer data
  have hupdate : s.update compress data = some ⟨buffer, s.bytes + data.length.toUInt64⟩ := by
    rw [update, if_neg ((room_iff htook hdata).not.mpr hshort.not_ge), hrun]
    rfl
  refine ⟨_, hupdate, hholds, ?_, ?_⟩
  · show (s.bytes + data.length.toUInt64).toNat = _
    rw [UInt64.toNat_add, htook.count, toNat_toUInt64_of_lt hdata, List.length_append]
    omega
  · rwa [List.length_append]

/-- RIPEMD-160: the piece with which the message reaches `2 ^ 61` bytes is refused, since its length
in bits no longer fits one word. -/
theorem update_long (htook : Took compress s msg) {data : List UInt8}
    (hdata : data.length < 2 ^ 64) (hlong : 2 ^ 61 ≤ msg.length + data.length) :
    s.update compress data = none := by
  rw [update, if_pos ((room_iff htook hdata).mpr hlong)]

/-- RIPEMD-160: finishing gives the digest of all that has been taken. -/
theorem finish_took (htook : Took compress s msg) :
    s.finish compress = some (ripemd160Digest compress msg) := by
  have hshort := htook.short
  have hbits : (s.bytes <<< 3).toNat = 8 * msg.length := by
    have hthree : (3 : UInt64).toNat % 64 = 3 := rfl
    rw [UInt64.toNat_shiftLeft, hthree, Nat.shiftLeft_eq, htook.count]
    omega
  rw [finish, Kernel.leBytes64_eq, hbits,
    s.buffer.finish_feed (by norm_num) (by omega) compress htook.buffer (leBytesOf 8)
      (length_leBytesOf 8 _)]
  rfl

end Ripemd160

/-! ### The state of BLAKE2 -/

namespace Blake2

variable {W : Type} (word : HashWord W)
  (block : Vector W 8 → List UInt8 → W → W → Bool → Vector W 8)

/-- The block with its counter as a number. -/
def counted (h : Vector W 8) (part : List UInt8) (count : ℕ) (last : Bool) : Vector W 8 :=
  block h part (word.ofNat count) (word.ofNat (count / 2 ^ word.bits)) last

/-- The two words of the counter of BLAKE2 go on as one number does, if less than a word is added at
a time: the low word takes the sum, the high one its carry, and the compression is given the number.
-/
theorem compress_counter {used : ℕ} (hused : used < 2 ^ word.bits) (h : Vector W 8) (count : ℕ)
    (last : Bool) (part : List UInt8) :
    compress word block used last ⟨h, word.ofNat count, word.ofNat (count / 2 ^ word.bits)⟩ part =
      ⟨counted word block h part (count + used) last, word.ofNat (count + used),
        word.ofNat ((count + used) / 2 ^ word.bits)⟩ := by
  have hpos : 0 < 2 ^ word.bits := Nat.two_pow_pos _
  have hlow : word.add (word.ofNat count) (word.ofNat used) = word.ofNat (count + used) := by
    refine word.injective ?_
    rw [word.toNat_add, word.toNat_ofNat, word.toNat_ofNat, word.toNat_ofNat, ← Nat.add_mod]
  have hhigh : word.add (word.ofNat (count / 2 ^ word.bits)) (word.ofNat
      (if word.toNat (word.ofNat (count + used)) < word.toNat (word.ofNat count) then 1 else 0)) =
        word.ofNat ((count + used) / 2 ^ word.bits) := by
    refine word.injective ?_
    rw [word.toNat_add, word.toNat_ofNat, word.toNat_ofNat, word.toNat_ofNat, word.toNat_ofNat,
      word.toNat_ofNat, ← Nat.add_mod]
    generalize 2 ^ word.bits = base at hused hpos
    have hcount := Nat.div_add_mod count base
    have hbelow := Nat.mod_lt count hpos
    have hsplit : count + used = count % base + used + base * (count / base) := by omega
    have hquotient : (count + used) / base = (count % base + used) / base + count / base := by
      rw [hsplit, Nat.add_mul_div_left _ _ hpos]
    have hrest : (count + used) % base = (count % base + used) % base := by
      rw [hsplit, Nat.add_mul_mod_self_left, Nat.mod_add_mod]
    rw [hquotient, hrest, Nat.add_comm (count / base)]
    rcases Nat.lt_or_ge (count % base + used) base with hfits | hcarry
    · rw [Nat.mod_eq_of_lt hfits, Nat.div_eq_of_lt hfits, if_neg (by omega)]
    · have hwrapped : (count % base + used) % base = count % base + used - base := by
        rw [Nat.mod_eq_sub_mod hcarry, Nat.mod_eq_of_lt (by omega)]
      have hone : (count % base + used) / base = 1 :=
        Nat.div_eq_of_lt_le (by omega) (by omega)
      rw [hwrapped, hone, if_pos (by omega)]
  rw [compress]
  simp only [hlow, hhigh, counted]

section Size

variable {size : ℕ} (hpos : 0 < size)

/-- Whole blocks, from block `i` on. -/
theorem foldl_compress (hsize : size < 2 ^ word.bits) (parts : List (List UInt8))
    (h : Vector W 8) (i : ℕ) :
    parts.foldl (compress word block size false)
        ⟨h, word.ofNat (size * i), word.ofNat (size * i / 2 ^ word.bits)⟩ =
      ⟨(parts.zipIdx i).foldl
        (fun h part ↦ counted word block h part.1 (size * (part.2 + 1)) false) h,
        word.ofNat (size * (i + parts.length)),
        word.ofNat (size * (i + parts.length) / 2 ^ word.bits)⟩ := by
  induction parts generalizing h i with
  | nil => rfl
  | cons part rest ih =>
    rw [List.foldl_cons, compress_counter word block hsize, ← Nat.mul_succ, Nat.succ_eq_add_one, ih,
      List.zipIdx_cons, List.foldl_cons, List.length_cons, Nat.add_assoc, Nat.add_comm 1]

/-- The blocks of a padded message that is not empty, as a stream that keeps its last block back has
them: those that it has let go, and one more of what waits in it, filled up with zeros. -/
theorem blocks_blake2Padded {msg : List UInt8} (hpos : 0 < size) (hmsg : 0 < msg.length) :
    blocks size (Kernel.blake2Padded size msg) =
      taken size (fun length ↦ (length - 1) / size) msg ++
        [kept size (fun length ↦ (length - 1) / size) msg ++ List.replicate
          (size - (kept size (fun length ↦ (length - 1) / size) msg).length) 0] := by
  have hle := Nat.mul_div_le (msg.length - 1) size
  have hlt := Nat.lt_mul_div_succ (msg.length - 1) hpos
  rw [Nat.mul_succ] at hlt
  have hkept : (kept size (fun length ↦ (length - 1) / size) msg).length =
      msg.length - size * ((msg.length - 1) / size) := List.length_drop
  have hfirst : (msg.take (size * ((msg.length - 1) / size))).length =
      size * ((msg.length - 1) / size) := by
    rw [List.length_take, Nat.min_eq_left (by omega)]
  have hzeros : padding size msg.length =
      size - (kept size (fun length ↦ (length - 1) / size) msg).length := by
    refine (eq_padding hpos (by omega) ?_).symm
    have hsum : msg.length + (size - (kept size (fun length ↦ (length - 1) / size) msg).length) =
        size * ((msg.length - 1) / size) + size := by omega
    rw [hsum]
    exact Nat.dvd_add (Nat.dvd_mul_right _ _) dvd_rfl
  have hlast : (kept size (fun length ↦ (length - 1) / size) msg ++ List.replicate
      (size - (kept size (fun length ↦ (length - 1) / size) msg).length) (0 : UInt8)).length =
        size := by
    rw [List.length_append, List.length_replicate]
    omega
  have hsplit : msg = msg.take (size * ((msg.length - 1) / size)) ++
      kept size (fun length ↦ (length - 1) / size) msg := (List.take_append_drop _ _).symm
  have htaken : blocks size (msg.take (size * ((msg.length - 1) / size))) =
      taken size (fun length ↦ (length - 1) / size) msg := by
    rw [blocks, hfirst, Nat.mul_div_cancel_left _ hpos, taken]
    refine List.map_congr_left fun i hmem ↦ ?_
    have hi := List.mem_range.mp hmem
    have hend := Nat.mul_le_mul_left size (Nat.succ_le_of_lt hi)
    rw [Nat.mul_succ] at hend
    rw [List.drop_take, List.take_take, Nat.min_eq_left (by omega)]
  have hpadded : Kernel.blake2Padded size msg = msg.take (size * ((msg.length - 1) / size)) ++
      (kept size (fun length ↦ (length - 1) / size) msg ++ List.replicate
        (size - (kept size (fun length ↦ (length - 1) / size) msg).length) 0) := by
    rw [← List.append_assoc, ← hsplit, Kernel.blake2Padded, hzeros]
  rw [hpadded, blocks_append_of_mul hpos hfirst, blocks_of_length_eq hpos hlast, htaken]

end Size

section Pieces

variable {size : ℕ} (hpos : 0 < size)

/-- The blocks that something follows are compressed. -/
structure Took (size : ℕ) (start : Vector W 8) (s : Blake2 W) (msg : List UInt8) : Prop where
  holds : s.Holds size (feed size (fun length ↦ (length - 1) / size)
    (compress word block size false) (⟨start, word.ofNat 0, word.ofNat 0⟩, []) msg)

theorem start_took (start : Vector W 8) :
    Took word block size start (Blake2.start word start size) [] :=
  ⟨BlockBuffer.start_holds size _ (Nat.zero_div size) _ _⟩

include hpos

/-- A piece of the message that is not empty. Once there is room in the buffer, as much of the piece
as the room allows, and at least a byte of it, is appended to what the buffer holds, inside the
buffer. -/
theorem take_holds {s : Blake2 W} {stream : BlakeChain W × List UInt8}
    (hholds : s.Holds size stream) (hready : stream.2.length ≤ size) {data : List UInt8}
    (hdata : 0 < data.length) :
    ∃ pending,
      0 < min data.length (size - (makeRoom word block size s).used) ∧
      store (makeRoom word block size s).pending (makeRoom word block size s).used
        (data.take (min data.length (size - (makeRoom word block size s).used))) = some pending ∧
      BlockBuffer.Holds size ⟨(makeRoom word block size s).chain, pending,
        (makeRoom word block size s).used +
          min data.length (size - (makeRoom word block size s).used)⟩
        (feed size (fun length ↦ (length - 1) / size) (compress word block size false) stream
          (data.take (min data.length (size - (makeRoom word block size s).used)))) := by
  have hplace := hholds.used
  have hroom {s : Blake2 W} {stream : BlakeChain W × List UInt8} (hholds : s.Holds size stream)
      (hopen : stream.2.length < size) :
      ∃ pending, 0 < min data.length (size - s.used) ∧
        store s.pending s.used (data.take (min data.length (size - s.used))) = some pending ∧
        BlockBuffer.Holds size ⟨s.chain, pending, s.used + min data.length (size - s.used)⟩
          (stream.1, stream.2 ++ data.take (min data.length (size - s.used))) := by
    have hused := hholds.used
    obtain ⟨take, htake⟩ : ∃ take, take = min data.length (size - s.used) := ⟨_, rfl⟩
    have htaken : (data.take take).length = take := by
      rw [List.length_take]
      omega
    have hfits : stream.2.length + (data.take take).length ≤ size := by omega
    obtain ⟨behind, hstore, hlength⟩ := hholds.store hfits
    rw [← htake]
    refine ⟨_, by omega, hstore, hlength, ?_, hholds.chain, behind, rfl⟩
    show s.used + take = (stream.2 ++ data.take take).length
    rw [List.length_append, htaken, hused]
  by_cases hfull : s.used = size
  · have hmade : makeRoom word block size s =
        ⟨compress word block s.used false s.chain s.pending, s.pending, 0⟩ := if_pos hfull
    obtain ⟨behind, hpending⟩ := hholds.waiting
    have hnil : behind = [] := by
      have hlength := hholds.length
      rw [hpending, List.length_append] at hlength
      exact List.eq_nil_of_length_eq_zero (by omega)
    have hwhole : s.pending = stream.2 := by rw [hpending, hnil, List.append_nil]
    have hempty : BlockBuffer.Holds size
        ⟨compress word block s.used false s.chain s.pending, s.pending, 0⟩
        (compress word block size false stream.1 stream.2, []) := by
      refine ⟨hholds.length, rfl, ?_, s.pending, rfl⟩
      show compress word block s.used false s.chain s.pending = _
      rw [hfull, hholds.chain, hwhole]
    obtain ⟨pending, hsome, hstore, hnext⟩ := hroom hempty hpos
    rw [hmade]
    refine ⟨pending, hsome, hstore, ?_⟩
    have hlength : stream.2.length = size := by rw [← hplace, hfull]
    have htaken : (data.take (min data.length (size - 0))).length =
        min data.length size := by
      rw [List.length_take]
      omega
    have hcount : (size + (data.take (min data.length (size - 0))).length - 1) / size =
        ((data.take (min data.length (size - 0))).length - 1) / size + 1 := by
      rw [htaken, Nat.add_sub_assoc (by omega), Nat.add_comm, Nat.add_div_right _ hpos]
    have hnone : (([] ++ data.take (min data.length (size - 0))).length - 1) / size = 0 := by
      rw [List.nil_append, htaken]
      exact Nat.div_eq_of_lt (by omega)
    have hsplit : stream.2 ++ data.take (min data.length (size - 0)) =
        stream.2 ++ data.take (min data.length (size - 0)) := rfl
    rw [feed_of_block hsplit hlength hcount, feed_of_count_eq_zero hnone]
    exact hnext
  · have hmade : makeRoom word block size s = s := if_neg hfull
    have hopen : stream.2.length < size := by omega
    obtain ⟨pending, hsome, hstore, hnext⟩ := hroom hholds hopen
    rw [hmade]
    refine ⟨pending, hsome, hstore, ?_⟩
    have hnone : ((stream.2 ++ data.take (min data.length (size - s.used))).length - 1) / size =
        0 := by
      rw [List.length_append, List.length_take]
      exact Nat.div_eq_of_lt (by omega)
    rw [feed_of_count_eq_zero hnone]
    exact hnext

variable {word block}

/-- An update with any piece, on an object whose buffer holds what a stream keeps. It returns, and
the buffer holds what the stream keeps after the piece: the stream lets a block go only when more
comes behind it. -/
theorem update_holds {s : Blake2 W} {stream : BlakeChain W × List UInt8}
    (hholds : s.Holds size stream) (hready : stream.2.length ≤ size) (data : List UInt8) :
    ∃ s', s.update word block size data = some s' ∧
      s'.Holds size (feed size (fun length ↦ (length - 1) / size)
        (compress word block size false) stream data) := by
  induction hlength : data.length using Nat.strong_induction_on generalizing s stream data with
  | _ length ih =>
    rw [update]
    by_cases hempty : data.length = 0
    · have hnone : ((stream.2 ++ data).length - 1) / size = 0 := by
        rw [List.length_append]
        exact Nat.div_eq_of_lt (by omega)
      rw [if_pos hempty, feed_of_count_eq_zero hnone, List.eq_nil_of_length_eq_zero hempty,
        List.append_nil]
      exact ⟨s, rfl, hholds⟩
    · obtain ⟨pending, hsome, hstore, hnext⟩ :=
        take_holds word block hpos hholds hready (Nat.pos_of_ne_zero hempty)
      have hcuts := cuts_leading hpos
      have hrest := count_feed (compress word block size false) hcuts stream
        (data.take (min data.length (size - (makeRoom word block size s).used)))
      have hsplit := feed_append (compress word block size false) hcuts stream
        (data.take (min data.length (size - (makeRoom word block size s).used)))
        (data.drop (min data.length (size - (makeRoom word block size s).used)))
      rw [List.take_append_drop] at hsplit
      rw [if_neg hempty]
      dsimp only
      rw [dif_pos hsome, hstore, Option.bind_some, hsplit]
      refine ih _ ?_ hnext ?_ _ rfl
      · rw [List.length_drop]
        omega
      · rcases Nat.div_eq_zero_iff.mp hrest with hzero | hlt <;> omega

/-- BLAKE2: an update takes its piece behind what has been taken. -/
theorem update_took {start : Vector W 8} {s : Blake2 W} {msg : List UInt8}
    (htook : Took word block size start s msg) (data : List UInt8) :
    ∃ s', s.update word block size data = some s' ∧
      Took word block size start s' (msg ++ data) := by
  have hcuts := cuts_leading hpos
  have hrest := count_feed (compress word block size false) hcuts
    (⟨start, word.ofNat 0, word.ofNat 0⟩, []) msg
  have hready : (feed size (fun length ↦ (length - 1) / size) (compress word block size false)
      (⟨start, word.ofNat 0, word.ofNat 0⟩, []) msg).2.length ≤ size := by
    rcases Nat.div_eq_zero_iff.mp hrest with hzero | hlt <;> omega
  obtain ⟨s', hrun, hholds⟩ := update_holds hpos htook.holds hready data
  refine ⟨s', hrun, ?_⟩
  rw [← feed_append _ hcuts] at hholds
  exact ⟨hholds⟩

/-- BLAKE2: finishing gives the digest of all that has been taken, if that is not empty. -/
theorem finish_took (hsize : size < 2 ^ word.bits) {start : Vector W 8} {s : Blake2 W}
    {msg : List UInt8} (htook : Took word block size start s msg) (hmsg : 0 < msg.length) :
    s.finish word block size = some (blake2Digest size (counted word block) start msg) := by
  obtain ⟨first, hfirst⟩ : ∃ first, first = taken size (fun length ↦ (length - 1) / size) msg :=
    ⟨_, rfl⟩
  obtain ⟨rest, hrest⟩ : ∃ rest, rest = kept size (fun length ↦ (length - 1) / size) msg :=
    ⟨_, rfl⟩
  have hholds := htook.holds
  have hle := Nat.mul_div_le (msg.length - 1) size
  have hlt := Nat.lt_mul_div_succ (msg.length - 1) hpos
  rw [Nat.mul_succ] at hlt
  have hcount : first.length = (msg.length - 1) / size := by
    rw [hfirst, taken, List.length_map, List.length_range]
  have hlength : size * first.length + rest.length = msg.length := by
    rw [hcount, hrest, kept, List.length_drop]
    omega
  have hwaits : rest.length ≤ size := by rw [hcount] at hlength; omega
  rw [feed, List.nil_append, ← hfirst, ← hrest] at hholds
  have hzeros : rest.length + (List.replicate (size - rest.length) (0 : UInt8)).length ≤ size := by
    rw [List.length_replicate]
    omega
  obtain ⟨behind, hstore, hbuffer⟩ := hholds.store hzeros
  have hnil : behind = [] := by
    change (rest ++ List.replicate (size - rest.length) 0 ++ behind).length = size at hbuffer
    rw [List.length_append, List.length_append, List.length_replicate] at hbuffer
    exact List.eq_nil_of_length_eq_zero (by omega)
  have hused : s.used = rest.length := hholds.used
  have hchain : s.chain = first.foldl (compress word block size false)
      ⟨start, word.ofNat 0, word.ofNat 0⟩ := hholds.chain
  have hzero : (⟨start, word.ofNat 0, word.ofNat 0⟩ : BlakeChain W) =
      ⟨start, word.ofNat (size * 0), word.ofNat (size * 0 / 2 ^ word.bits)⟩ := by
    rw [Nat.mul_zero, Nat.zero_div]
  rw [hnil, List.append_nil, hused] at hstore
  rw [finish, hused, hstore, Option.bind_eq_bind, Option.bind_some, hchain, hzero,
    foldl_compress word block hsize, Nat.zero_add,
    compress_counter word block (hwaits.trans_lt hsize), hlength, blake2Digest,
    blocks_blake2Padded hpos hmsg, ← hfirst, ← hrest, List.length_append, List.length_singleton,
    List.zipIdx_append, List.foldl_append, List.zipIdx_singleton, List.foldl_cons, List.foldl_nil,
    Kernel.blake2Step, if_pos (by rw [Nat.zero_add])]
  refine congrArg (fun h ↦ some (counted word block h _ msg.length true)) ?_
  refine List.foldl_ext _ _ _ fun h part hmem ↦ ?_
  have hindex := List.snd_lt_of_mem_zipIdx hmem
  rw [Kernel.blake2Step, if_neg (by omega)]

end Pieces

end Blake2

end Bc3Miner.Reference
