import Bc3Miner.Consensus.ByteOrder
import Bc3Miner.Kernel.SpongeFraming

/-!
# The framing of the standard hashes

`sha512`, `ripemd160`, `blake2s` and `blake2b` of `src/kernels/bc3hash.cl`, for any compression of a
block (`block`): what matters here is what it is given. Next to each stands the padding of its
specification. The first two are one function with parameters (`strengthen`), and so are the last
two (`blake2`). `hashes_compress_padded` says of these and of `sha3` that what they feed is the
padded message.

A write past the end of a block fails, and the loops over the message go through `fuel`. The counts
of bytes are numbers, as a message below 2 ^ 29 bytes keeps them all in their words.

The padding of a specification is written for whole bytes: the marker, zeros up to where the length
goes, and the length in bits. `Foundations.Cut` makes blocks of it. Fuel above the length is enough
for every loop, and a hash that ran out of it would have no result.
-/

set_option autoImplicit false
set_option relaxedAutoImplicit false

namespace Bc3Miner.Kernel

open Consensus Foundations MessageBlocks

/-! ### SHA-512 and RIPEMD-160 -/

section Strengthen

variable {σ : Type} (size : ℕ) (block : σ → List UInt8 → σ) (msg : List UInt8)

/-- The loop over the blocks that the message fills. -/
def wholeBlocks : ℕ → σ → ℕ → Option (σ × ℕ)
  | 0, _, _ => none
  | fuel + 1, h, done =>
    if size ≤ msg.length - done then
      wholeBlocks fuel (block h ((msg.drop done).take size)) (done + size)
    else some (h, done)

/-- One or two final blocks, with the length in bits from `lengthAt` on. -/
def strengthen (room lengthAt : ℕ) (lengthBytes : UInt64 → List UInt8) (fuel : ℕ) (iv : σ) :
    Option σ := do
  let (h, done) ← wholeBlocks size block msg fuel iv 0
  let rest := msg.length - done
  let blk := List.replicate size 0
  let blk ← store blk 0 (msg.drop done)
  let blk ← store blk rest [0x80]
  let (h, blk) := if room < rest + 1 then (block h blk, List.replicate size 0) else (h, blk)
  let bits := msg.length.toUInt64 <<< 3
  let blk ← store blk lengthAt (lengthBytes bits)
  some (block h blk)

end Strengthen

def sha512Iv : Vector UInt64 8 := #v[0x6a09e667f3bcc908, 0xbb67ae8584caa73b, 0x3c6ef372fe94f82b,
  0xa54ff53a5f1d36f1, 0x510e527fade682d1, 0x9b05688c2b3e6c1f, 0x1f83d9abfb41bd6b,
  0x5be0cd19137e2179]

/-- The bytes of a word, most significant first. -/
def beBytes64 (word : UInt64) : List UInt8 :=
  (List.range 8).map fun i ↦ (word >>> (56 - 8 * i).toUInt64).toUInt8

/-- The bytes of a word, least significant first. -/
def leBytes64 (word : UInt64) : List UInt8 :=
  (List.range 8).map fun i ↦ (word >>> (8 * i).toUInt64).toUInt8

def leBytes32 (word : UInt32) : List UInt8 :=
  (List.range 4).map fun i ↦ (word >>> (8 * i).toUInt32).toUInt8

def sha512 (block : Vector UInt64 8 → List UInt8 → Vector UInt64 8) (fuel : ℕ) (msg : List UInt8) :
    Option (List UInt8) :=
  (strengthen 128 block msg 112 120 beBytes64 fuel sha512Iv).map fun h ↦ h.toList.flatMap beBytes64

def ripemd160Iv : Vector UInt32 5 := #v[0x67452301, 0xefcdab89, 0x98badcfe, 0x10325476, 0xc3d2e1f0]

def ripemd160 (block : Vector UInt32 5 → List UInt8 → Vector UInt32 5) (fuel : ℕ)
    (msg : List UInt8) : Option (List UInt8) :=
  (strengthen 64 block msg 56 56 leBytes64 fuel ripemd160Iv).map fun h ↦ h.toList.flatMap leBytes32

/-! ### BLAKE2 -/

section Blake2

variable {σ : Type} (size : ℕ) (block : σ → List UInt8 → ℕ → Bool → σ) (msg : List UInt8)

/-- The loop over all blocks but the last one. -/
def leadingBlocks : ℕ → σ → ℕ → Option (σ × ℕ)
  | 0, _, _ => none
  | fuel + 1, h, done =>
    if size < msg.length - done then
      leadingBlocks fuel (block h ((msg.drop done).take size) (done + size) false) (done + size)
    else some (h, done)

def blake2 (fuel : ℕ) (iv : σ) : Option σ := do
  let (h, done) ← leadingBlocks size block msg fuel iv 0
  let blk ← store (List.replicate size 0) 0 (msg.drop done)
  some (block h blk msg.length true)

end Blake2

def blake2sIv : Vector UInt32 8 := #v[0x6a09e667, 0xbb67ae85, 0x3c6ef372, 0xa54ff53a, 0x510e527f,
  0x9b05688c, 0x1f83d9ab, 0x5be0cd19]

/-- The word that four bytes make, the first one least significant. -/
def personWord32 (bytes : ℕ → UInt8) : UInt32 :=
  (bytes 0).toUInt32 ||| (bytes 1).toUInt32 <<< 8 ||| (bytes 2).toUInt32 <<< 16 |||
    (bytes 3).toUInt32 <<< 24

def personWord64 (bytes : ℕ → UInt8) : UInt64 :=
  (List.range 8).foldl (fun word i ↦ word ||| (bytes i).toUInt64 <<< (8 * i).toUInt64) 0

/-- `h[i] ^= word`. -/
def xorAt {Word : Type*} [XorOp Word] (h : Vector Word 8) (i : Fin 8) (word : Word) :
    Vector Word 8 :=
  h.set i (h[i] ^^^ word)

/-- The state before the first block: the output's length and the personalization. -/
def blake2sStart (person : ℕ → UInt8) : Vector UInt32 8 :=
  let h := xorAt blake2sIv 0 (0x01010000 + 32)
  let h := xorAt h 6 (personWord32 person)
  xorAt h 7 (personWord32 fun i ↦ person (4 + i))

def blake2s (block : Vector UInt32 8 → List UInt8 → ℕ → Bool → Vector UInt32 8)
    (person : ℕ → UInt8) (fuel : ℕ) (msg : List UInt8) : Option (List UInt8) :=
  (blake2 64 block msg fuel (blake2sStart person)).map fun h ↦ h.toList.flatMap leBytes32

def blake2bStart (person : ℕ → UInt8) : Vector UInt64 8 :=
  let h := xorAt sha512Iv 0 (0x01010000 + 64)
  let h := xorAt h 6 (personWord64 person)
  xorAt h 7 (personWord64 fun i ↦ person (8 + i))

def blake2b (block : Vector UInt64 8 → List UInt8 → ℕ → Bool → Vector UInt64 8)
    (person : ℕ → UInt8) (fuel : ℕ) (msg : List UInt8) : Option (List UInt8) :=
  (blake2 128 block msg fuel (blake2bStart person)).map fun h ↦ h.toList.flatMap leBytes64

/-! ### The paddings of the specifications -/

/-- A bit one, the fewest zeros, and the number of bits in a field of its own. -/
def strengthened (size fieldLength : ℕ) (field : ℕ → List UInt8) (msg : List UInt8) : List UInt8 :=
  msg ++ 0x80 :: List.replicate (padding size (msg.length + 1 + fieldLength)) 0 ++
    field (8 * msg.length)

/-- 128 bits, most significant byte first. -/
def sha512Padded (msg : List UInt8) : List UInt8 :=
  strengthened 128 16 (fun bits ↦ (leBytesOf 16 bits).reverse) msg

/-- 64 bits, least significant byte first. -/
def ripemd160Padded (msg : List UInt8) : List UInt8 := strengthened 64 8 (leBytesOf 8) msg

/-- Zeros up to whole blocks. -/
def blake2Padded (size : ℕ) (msg : List UInt8) : List UInt8 :=
  msg ++ List.replicate (padding size msg.length) 0

/-- Block `i` of `count`: the counter is the number of the message's bytes up to its end, and the
flag is set on the last one only. -/
def blake2Step {σ : Type} (block : σ → List UInt8 → ℕ → Bool → σ) (size length count : ℕ) (h : σ)
    (part : List UInt8 × ℕ) : σ :=
  if part.2 + 1 = count then block h part.1 length true
  else block h part.1 (size * (part.2 + 1)) false

/-! ### Words as bytes -/

/-- A number written least significant byte first, byte by byte. -/
theorem leBytesOf_eq_map (width number : ℕ) :
    leBytesOf width number = (List.range width).map fun i ↦ UInt8.ofNat (number / 256 ^ i) := by
  induction width generalizing number with
  | zero => rfl
  | succ width ih =>
    rw [leBytesOf, ih, List.range_succ_eq_map, List.map_cons, List.map_map, pow_zero, Nat.div_one]
    refine congrArg (UInt8.ofNat number :: ·) (List.map_congr_left fun i _ ↦ ?_)
    rw [Function.comp_apply, Nat.succ_eq_add_one, pow_succ', Nat.div_div_eq_div_mul]

/-- The bytes of a word are those of its number. -/
theorem leBytes64_eq (word : UInt64) : leBytes64 word = leBytesOf 8 word.toNat := by
  rw [leBytesOf_eq_map, leBytes64]
  refine List.map_congr_left fun i hmem ↦ ?_
  have hi := List.mem_range.mp hmem
  have hcount : (8 * i).toUInt64.toNat % 64 = 8 * i := by
    rw [Nat.toUInt64_eq, UInt64.toNat_ofNat']
    omega
  have hbase : (256 : ℕ) = 2 ^ 8 := rfl
  refine UInt8.toNat_inj.mp ?_
  rw [UInt64.toNat_toUInt8, UInt64.toNat_shiftRight, hcount, Nat.shiftRight_eq_div_pow,
    UInt8.toNat_ofNat', hbase, ← pow_mul]

/-- Most significant byte first is least significant first, reversed. -/
theorem beBytes64_eq (word : UInt64) : beBytes64 word = (leBytes64 word).reverse := by
  rw [beBytes64, leBytes64, ← List.map_reverse, List.range_eq_range', List.reverse_range',
    List.map_map, ← List.range_eq_range']
  refine List.map_congr_left fun i hmem ↦ ?_
  have hi := List.mem_range.mp hmem
  have hcount : 56 - 8 * i = 8 * (0 + 8 - 1 - i) := by omega
  rw [Function.comp_apply, hcount]

/-- A number of eight bytes in twice as many. -/
theorem leBytesOf_sixteen {number : ℕ} (hnumber : number < 2 ^ 64) :
    leBytesOf 16 number = leBytesOf 8 number ++ List.replicate 8 0 := by
  have hhigh : ∀ i, 8 ≤ i → UInt8.ofNat (number / 256 ^ i) = 0 := by
    intro i hi
    have hpow : 256 ^ 8 ≤ 256 ^ i := Nat.pow_le_pow_right (by norm_num) hi
    rw [Nat.div_eq_of_lt (hnumber.trans_le hpow)]
    rfl
  rw [leBytesOf_eq_map, leBytesOf_eq_map]
  show ((List.range (8 + 8)).map _ : List UInt8) = _
  rw [List.range_add, List.map_append, List.map_map]
  refine congrArg (List.map _ (List.range 8) ++ ·) ?_
  rw [List.eq_replicate_iff]
  refine ⟨by simp, fun byte hmem ↦ ?_⟩
  obtain ⟨i, -, rfl⟩ := List.mem_map.mp hmem
  exact hhigh (8 + i) (Nat.le_add_right 8 i)

/-! ### SHA-512 and RIPEMD-160 -/

section Strengthen

variable {σ : Type} {size : ℕ} (hpos : 0 < size) (block : σ → List UInt8 → σ) {msg : List UInt8}

include hpos

/-- The loop compresses the whole blocks and comes to the rest. -/
theorem wholeBlocks_spec {fuel done : ℕ} (hfuel : msg.length - done < fuel) (h : σ) :
    wholeBlocks size block msg fuel h done =
      some ((blocks size (msg.drop done)).foldl block h,
        done + size * ((msg.length - done) / size)) := by
  induction fuel generalizing done h with
  | zero => exact absurd hfuel (Nat.not_lt_zero _)
  | succ fuel ih =>
    have hlength : (msg.drop done).length = msg.length - done := List.length_drop
    rw [wholeBlocks]
    by_cases hmore : size ≤ msg.length - done
    · have hshorter : msg.length - (done + size) < fuel := by omega
      have hfirst : blocks size (msg.drop done) =
          (msg.drop done).take size :: blocks size (msg.drop (done + size)) := by
        rw [blocks_of_le hpos (hlength ▸ hmore), List.drop_drop]
      have hleft : msg.length - done = msg.length - (done + size) + size := by omega
      rw [if_pos hmore, ih hshorter, hfirst, List.foldl_cons, hleft, Nat.add_div_right _ hpos,
        Nat.mul_succ, Nat.add_comm (size * _), Nat.add_assoc]
    · rw [if_neg hmore, blocks_of_lt (by omega), Nat.div_eq_of_lt (by omega), Nat.mul_zero,
        Nat.add_zero]
      rfl

omit hpos in
/-- The block buffer when the message has ended: the rest of it, the bit one, and zeros. -/
theorem store_marker {rest : List UInt8} (hlt : rest.length < size) :
    (store (List.replicate size 0) 0 rest).bind (fun blk ↦ store blk rest.length [0x80]) =
      some (rest ++ 0x80 :: List.replicate (size - rest.length - 1) 0) := by
  have hzeros : List.replicate (size - rest.length) (0 : UInt8) =
      [0] ++ List.replicate (size - rest.length - 1) 0 := by
    rw [List.singleton_append, ← List.replicate_succ]
    congr 1
    omega
  have hone : [(0x80 : UInt8)].length = [(0 : UInt8)].length := rfl
  rw [store_replicate hlt.le, Option.bind_some, hzeros, ← List.append_assoc,
    store_append rfl hone, List.append_assoc, List.singleton_append]

omit hpos in
/-- The length at the end of a block that holds zeros from some place on. -/
theorem store_length {before bytes : List UInt8} {lengthAt : ℕ} (hbytes : bytes.length = 8)
    (hbefore : before.length ≤ lengthAt) :
    store (before ++ List.replicate (lengthAt + 8 - before.length) 0) lengthAt bytes =
      some (before ++ List.replicate (lengthAt - before.length) 0 ++ bytes) := by
  have hsplit : List.replicate (lengthAt + 8 - before.length) (0 : UInt8) =
      List.replicate (lengthAt - before.length) 0 ++ List.replicate 8 0 := by
    rw [← List.replicate_add]
    congr 1
    omega
  have hplace : (before ++ List.replicate (lengthAt - before.length) (0 : UInt8)).length =
      lengthAt := by
    rw [List.length_append, List.length_replicate]
    omega
  have height : bytes.length = (List.replicate 8 (0 : UInt8)).length := hbytes
  have hstored := store_append hplace height []
  rwa [List.append_nil, List.append_nil, List.append_assoc, ← hsplit] at hstored

section Tail

variable {room lengthAt : ℕ} {rest bytes : List UInt8} (hplace : room ≤ lengthAt)
  (hsize : lengthAt + 8 = size) (hbytes : bytes.length = 8)

include hplace hsize hbytes

/-- A rest that leaves room for the length makes one block. -/
theorem blocks_tail_one (hrest : rest.length + 1 ≤ room) :
    blocks size (rest ++ 0x80 :: List.replicate (room - rest.length - 1) 0 ++
      (List.replicate (lengthAt - room) 0 ++ bytes)) =
        [rest ++ 0x80 :: List.replicate (lengthAt - rest.length - 1) 0 ++ bytes] := by
  have hlength : (rest ++ 0x80 :: List.replicate (lengthAt - rest.length - 1) 0 ++ bytes).length =
      size := by
    rw [List.length_append, List.length_append, List.length_cons, List.length_replicate, hbytes]
    omega
  have hzeros : lengthAt - rest.length - 1 = room - rest.length - 1 + (lengthAt - room) := by
    omega
  rw [← blocks_of_length_eq hpos hlength, hzeros, List.replicate_add]
  simp only [List.append_assoc, List.cons_append]

/-- One that does not makes a block, and the length stands in another. -/
theorem blocks_tail_two (hrest : rest.length < size) :
    blocks size (rest ++ 0x80 :: List.replicate (size - rest.length - 1 + room) 0 ++
      (List.replicate (lengthAt - room) 0 ++ bytes)) =
        [rest ++ 0x80 :: List.replicate (size - rest.length - 1) 0,
          List.replicate lengthAt 0 ++ bytes] := by
  have hfirst : (rest ++ 0x80 :: List.replicate (size - rest.length - 1) (0 : UInt8)).length =
      size := by
    rw [List.length_append, List.length_cons, List.length_replicate]
    omega
  have hlast : (List.replicate lengthAt (0 : UInt8) ++ bytes).length = size := by
    rw [List.length_append, List.length_replicate, hbytes, hsize]
  have hzeros : room + (lengthAt - room) = lengthAt := by omega
  rw [← blocks_of_length_eq hpos hlast, ← blocks_append hpos hfirst, ← hzeros, List.replicate_add,
    List.replicate_add, hzeros]
  simp only [List.append_assoc, List.cons_append]

end Tail

/-- The blocks that `strengthen` compresses are those of the padded message, in order and each once,
if the length field fits behind the room for the message and is written in eight bytes, and there is
fuel for all of them. -/
theorem strengthen_spec {room lengthAt : ℕ} {lengthBytes : UInt64 → List UInt8}
    (field : ℕ → List UInt8) (hplace : room ≤ lengthAt) (hsize : lengthAt + 8 = size)
    (hbytes : ∀ bits, (lengthBytes bits).length = 8)
    (hfield : field (8 * msg.length) =
      List.replicate (lengthAt - room) (0 : UInt8) ++ lengthBytes (msg.length.toUInt64 <<< 3))
    {fuel : ℕ} (hfuel : msg.length < fuel) (iv : σ) :
    strengthen size block msg room lengthAt lengthBytes fuel iv =
      some ((blocks size (strengthened size (size - room) field msg)).foldl block iv) := by
  set whole := size * (msg.length / size) with hwhole
  set rest := msg.drop whole with hrestdef
  set bytes := lengthBytes (msg.length.toUInt64 <<< 3) with hbytesdef
  have hwidth : bytes.length = 8 := hbytes _
  have hsplit : whole + msg.length % size = msg.length := Nat.div_add_mod _ _
  have hmod : msg.length % size < size := Nat.mod_lt _ hpos
  have hlength : msg.length - whole = rest.length := List.length_drop.symm
  have hrest : rest.length < size := by omega
  have hdvd : size ∣ whole := Nat.dvd_mul_right _ _
  have hloop : wholeBlocks size block msg fuel iv 0 =
      some ((blocks size msg).foldl block iv, whole) := by
    rw [wholeBlocks_spec hpos block (by omega) iv, List.drop_zero, Nat.zero_add, Nat.sub_zero]
  have hpadded : blocks size (strengthened size (size - room) field msg) = blocks size msg ++
      blocks size (rest ++ 0x80 :: List.replicate
        (padding size (msg.length + 1 + (size - room))) 0 ++
          (List.replicate (lengthAt - room) 0 ++ bytes)) := by
    rw [strengthened, hfield, List.append_assoc, blocks_append_leftover hpos, leftover,
      List.append_assoc]
  rw [strengthen, hloop]
  simp only [Option.bind_eq_bind, Option.bind_some]
  rw [hlength, hpadded, List.foldl_append, ← Option.bind_assoc, store_marker hrest,
    Option.bind_some]
  by_cases hfull : room < rest.length + 1
  · have hcount : size - rest.length - 1 + room =
        padding size (msg.length + 1 + (size - room)) := by
      refine eq_padding hpos (by omega) ?_
      have hsum : msg.length + 1 + (size - room) + (size - rest.length - 1 + room) =
          whole + size + size := by omega
      rw [hsum]
      exact Nat.dvd_add (Nat.dvd_add hdvd dvd_rfl) dvd_rfl
    have hstored : store (List.replicate size 0) lengthAt bytes =
        some (List.replicate lengthAt 0 ++ bytes) := by
      have hnone : ([] : List UInt8).length ≤ lengthAt := Nat.zero_le _
      have hstore := store_length hwidth hnone
      rwa [hsize] at hstore
    rw [← hcount, blocks_tail_two hpos hplace hsize hwidth hrest, if_pos hfull]
    simp only [← hbytesdef, hstored, Option.bind_some, List.foldl_cons, List.foldl_nil]
  · have hcount : room - rest.length - 1 = padding size (msg.length + 1 + (size - room)) := by
      refine eq_padding hpos (by omega) ?_
      have hsum : msg.length + 1 + (size - room) + (room - rest.length - 1) =
          whole + size := by omega
      rw [hsum]
      exact Nat.dvd_add hdvd dvd_rfl
    have hstored :
        store (rest ++ 0x80 :: List.replicate (size - rest.length - 1) 0) lengthAt bytes =
          some (rest ++ 0x80 :: List.replicate (lengthAt - rest.length - 1) 0 ++ bytes) := by
      have hbefore : (rest ++ [(0x80 : UInt8)]).length = rest.length + 1 := by
        rw [List.length_append, List.length_singleton]
      have hstore := store_length hwidth (hbefore.trans_le ((not_lt.mp hfull).trans hplace))
      simp only [hbefore, hsize, ← Nat.sub_sub, List.append_assoc, List.singleton_append] at hstore
      rw [hstore, List.append_assoc, List.cons_append]
    rw [← hcount, blocks_tail_one hpos hplace hsize hwidth (not_lt.mp hfull), if_neg hfull]
    simp only [← hbytesdef, hstored, Option.bind_some, List.foldl_cons, List.foldl_nil]

end Strengthen

/-! ### BLAKE2 -/

section Blake2

variable {σ : Type} {size : ℕ} (hpos : 0 < size) (block : σ → List UInt8 → ℕ → Bool → σ)
  {msg : List UInt8}

include hpos

/-- The loop over the leading blocks and the last block behind them, from block `i` on: what they
compress are the remaining blocks of the message with its zeros, if the fuel is enough. -/
theorem leadingBlocks_spec {zeros count : ℕ} (hwhole : msg.length + zeros = size * count)
    (hzeros : zeros < size) {fuel i : ℕ} (hfuel : msg.length - size * i < fuel)
    (hmore : size * i < msg.length) (h : σ) :
    ((leadingBlocks size block msg fuel h (size * i)).bind fun reached ↦
      (store (List.replicate size 0) 0 (msg.drop reached.2)).bind fun blk ↦
        some (block reached.1 blk msg.length true)) =
      some (((blocks size (msg.drop (size * i) ++ List.replicate zeros 0)).zipIdx i).foldl
        (blake2Step block size msg.length count) h) := by
  induction fuel generalizing i h with
  | zero => exact absurd hfuel (Nat.not_lt_zero _)
  | succ fuel ih =>
    have hlength : (msg.drop (size * i)).length = msg.length - size * i := List.length_drop
    have hnext : size * (i + 1) = size * i + size := Nat.mul_succ size i
    rw [leadingBlocks]
    by_cases hlater : size < msg.length - size * i
    · have hfirst : ((msg.drop (size * i)).take size).length = size := by
        rw [List.length_take]
        omega
      have hnot : i + 1 ≠ count := by
        rintro rfl
        omega
      have hparts : blocks size (msg.drop (size * i) ++ List.replicate zeros 0) =
          (msg.drop (size * i)).take size ::
            blocks size (msg.drop (size * (i + 1)) ++ List.replicate zeros 0) := by
        rw [← blocks_append hpos hfirst, ← List.append_assoc, hnext, ← List.drop_drop,
          List.take_append_drop]
      rw [if_pos hlater, ← hnext, ih (by omega) (by omega), hparts, List.zipIdx_cons,
        List.foldl_cons, blake2Step, if_neg hnot]
    · have hlast : i + 1 = count := by
        have hupper : size * i < size * count := by omega
        have hlower : size * count < size * (i + 2) := by
          rw [← hwhole, Nat.mul_add]
          omega
        have hi := Nat.lt_of_mul_lt_mul_left hupper
        have hcount := Nat.lt_of_mul_lt_mul_left hlower
        omega
      have hfill : size - (msg.drop (size * i)).length = zeros := by
        rw [hlength]
        rw [← hlast, hnext] at hwhole
        omega
      have hfits : (msg.drop (size * i)).length ≤ size := by omega
      have hpart : (msg.drop (size * i) ++ List.replicate zeros 0).length = size := by
        rw [List.length_append, List.length_replicate, ← hfill]
        omega
      rw [if_neg hlater, Option.bind_some, store_replicate hfits, hfill,
        blocks_of_length_eq hpos hpart, List.zipIdx_singleton, List.foldl_cons, List.foldl_nil,
        blake2Step, if_pos hlast, Option.bind_some]

omit hpos in
theorem length_blake2Padded (msg : List UInt8) :
    (blake2Padded size msg).length = msg.length + padding size msg.length := by
  rw [blake2Padded, List.length_append, List.length_replicate]

/-- The blocks that `blake2` compresses are those of the padded message. -/
theorem blake2_spec (hmsg : 0 < msg.length) {fuel : ℕ} (hfuel : msg.length < fuel) (iv : σ) :
    blake2 size block msg fuel iv =
      some ((blocks size (blake2Padded size msg)).zipIdx.foldl
        (blake2Step block size msg.length (blocks size (blake2Padded size msg)).length) iv) := by
  obtain ⟨hzeros, count, hwhole⟩ := padding_spec hpos msg.length
  have hcount : (blocks size (blake2Padded size msg)).length = count := by
    rw [length_blocks, length_blake2Padded, hwhole, Nat.mul_div_cancel_left _ hpos]
  have hspec := leadingBlocks_spec hpos block hwhole hzeros (i := 0) (by omega) (by omega) iv
  rw [Nat.mul_zero, List.drop_zero] at hspec
  rw [hcount, blake2Padded, ← hspec]
  rfl

/-- A message that is not empty is cut so that the last block holds a byte of it. -/
theorem last_block_nonempty (hmsg : 0 < msg.length) :
    size * ((blocks size (blake2Padded size msg)).length - 1) < msg.length := by
  obtain ⟨hzeros, count, hwhole⟩ := padding_spec hpos msg.length
  rw [length_blocks, length_blake2Padded, hwhole, Nat.mul_div_cancel_left _ hpos, Nat.mul_sub_one,
    ← hwhole]
  omega

end Blake2

/-! ### The standard hashes -/

theorem toNat_bits {length : ℕ} (hlength : length < 2 ^ 29) :
    (length.toUInt64 <<< 3).toNat = 8 * length := by
  rw [UInt64.toNat_shiftLeft, Nat.toUInt64_eq, UInt64.toNat_ofNat']
  simp only [Nat.shiftLeft_eq, UInt64.toNat_ofNat, Nat.reducePow, Nat.reduceMod]
  omega

/-- A strengthened message fills its blocks. -/
theorem dvd_length_strengthened {size fieldLength : ℕ} (hpos : 0 < size) {field : ℕ → List UInt8}
    (hfield : ∀ bits, (field bits).length = fieldLength) (msg : List UInt8) :
    size ∣ (strengthened size fieldLength field msg).length := by
  obtain ⟨-, hdvd⟩ := padding_spec hpos (msg.length + 1 + fieldLength)
  have hlength : (strengthened size fieldLength field msg).length =
      msg.length + 1 + fieldLength + padding size (msg.length + 1 + fieldLength) := by
    rw [strengthened, List.length_append, List.length_append, List.length_cons,
      List.length_replicate, hfield]
    omega
  rwa [hlength]

theorem length_leBytesOf (width number : ℕ) : (leBytesOf width number).length = width := by
  rw [leBytesOf_eq_map, List.length_map, List.length_range]

section Message

variable {msg : List UInt8} (hlength : msg.length < 2 ^ 29) {fuel : ℕ} (hfuel : msg.length < fuel)

include hlength hfuel

/-- The SHA-512 of the kernel folds its compression over the blocks of the padded message, if enough
of them are allowed. -/
theorem sha512_spec (block : Vector UInt64 8 → List UInt8 → Vector UInt64 8) :
    ∃ parts, Cut 128 (sha512Padded msg) parts ∧
      sha512 block fuel msg = some ((parts.foldl block sha512Iv).toList.flatMap beBytes64) := by
  have hsize : 0 < 128 := by norm_num
  have hbytes (word : UInt64) : (beBytes64 word).length = 8 := by
    rw [beBytes64, List.length_map, List.length_range]
  have hwidth (bits : ℕ) : (leBytesOf 16 bits).reverse.length = 16 := by
    rw [List.length_reverse, length_leBytesOf]
  have hfield : (leBytesOf 16 (8 * msg.length)).reverse =
      List.replicate (120 - 112) (0 : UInt8) ++ beBytes64 (msg.length.toUInt64 <<< 3) := by
    rw [leBytesOf_sixteen (by omega), List.reverse_append, List.reverse_replicate, beBytes64_eq,
      leBytes64_eq, toNat_bits hlength]
  refine ⟨_, cut_blocks hsize (dvd_length_strengthened hsize hwidth msg), ?_⟩
  have hroom : 112 ≤ 120 := by omega
  rw [sha512, strengthen_spec hsize block (fun bits ↦ (leBytesOf 16 bits).reverse) hroom rfl hbytes
    hfield hfuel sha512Iv]
  rfl

/-- The RIPEMD-160 of the kernel folds its compression over the blocks of the padded message, if
enough of them are allowed. -/
theorem ripemd160_spec (block : Vector UInt32 5 → List UInt8 → Vector UInt32 5) :
    ∃ parts, Cut 64 (ripemd160Padded msg) parts ∧
      ripemd160 block fuel msg =
        some ((parts.foldl block ripemd160Iv).toList.flatMap leBytes32) := by
  have hsize : 0 < 64 := by norm_num
  have hbytes (word : UInt64) : (leBytes64 word).length = 8 := by
    rw [leBytes64, List.length_map, List.length_range]
  have hfield : leBytesOf 8 (8 * msg.length) =
      List.replicate (56 - 56) (0 : UInt8) ++ leBytes64 (msg.length.toUInt64 <<< 3) := by
    rw [leBytes64_eq, toNat_bits hlength]
    rfl
  refine ⟨_, cut_blocks hsize (dvd_length_strengthened hsize (length_leBytesOf 8) msg), ?_⟩
  rw [ripemd160, strengthen_spec hsize block (leBytesOf 8) le_rfl rfl hbytes hfield hfuel
    ripemd160Iv]
  rfl

end Message

theorem dvd_length_blake2Padded {size : ℕ} (hpos : 0 < size) (msg : List UInt8) :
    size ∣ (blake2Padded size msg).length := by
  rw [length_blake2Padded]
  exact (padding_spec hpos msg.length).2

/-- For every message below `2 ^ 29` bytes, with fuel for its loops: what `sha512`, `ripemd160`,
`sha3`, `blake2s` and `blake2b` feed to their compression, or to their permutation, is the message
with the padding of the specification, cut into blocks, each once and in order, for any compression
whatever. For SHA-3 the length of the output is such that the rate is made of whole lanes, and for
BLAKE2 the message is not empty, so that its last block is not empty either. -/
theorem hashes_compress_padded {msg : List UInt8} (hlength : msg.length < 2 ^ 29) {fuel : ℕ}
    (hfuel : msg.length < fuel) :
    (∀ block, ∃ parts, Cut 128 (sha512Padded msg) parts ∧
      sha512 block fuel msg = some ((parts.foldl block sha512Iv).toList.flatMap beBytes64)) ∧
    (∀ block, ∃ parts, Cut 64 (ripemd160Padded msg) parts ∧
      ripemd160 block fuel msg = some ((parts.foldl block ripemd160Iv).toList.flatMap leBytes32)) ∧
    (∀ keccakf outlen, 4 ∣ outlen → outlen < 100 → ∃ parts a,
      Cut (200 - 2 * outlen) (sha3Padded (200 - 2 * outlen) msg) parts ∧
      a = parts.foldl (fun a part ↦ keccakf (absorbBlock a part)) (Vector.replicate 25 0) ∧
      sha3State keccakf msg outlen = some a ∧
      sha3 keccakf msg outlen = some ((List.range outlen).map (stateByte a))) ∧
    (0 < msg.length →
      (∀ block person, ∃ parts, Cut 64 (blake2Padded 64 msg) parts ∧
        64 * (parts.length - 1) < msg.length ∧
        blake2s block person fuel msg = some ((parts.zipIdx.foldl
          (blake2Step block 64 msg.length parts.length) (blake2sStart person)).toList.flatMap
            leBytes32)) ∧
      ∀ block person, ∃ parts, Cut 128 (blake2Padded 128 msg) parts ∧
        128 * (parts.length - 1) < msg.length ∧
        blake2b block person fuel msg = some ((parts.zipIdx.foldl
          (blake2Step block 128 msg.length parts.length) (blake2bStart person)).toList.flatMap
            leBytes64)) := by
  refine ⟨sha512_spec hlength hfuel, ripemd160_spec hlength hfuel, ?_, fun hmsg ↦ ⟨?_, ?_⟩⟩
  · intro keccakf outlen hlanes houtlen
    have hstate := sha3State_spec keccakf msg hlanes houtlen
    exact ⟨_, _, cut_blocks (by omega) (dvd_length_sha3Padded (by omega) msg), rfl, hstate,
      sha3_eq keccakf msg houtlen hstate⟩
  · intro block person
    have hsize : 0 < 64 := by norm_num
    refine ⟨_, cut_blocks hsize (dvd_length_blake2Padded hsize msg),
      last_block_nonempty hsize hmsg, ?_⟩
    rw [blake2s, blake2_spec hsize block hmsg hfuel]
    rfl
  · intro block person
    have hsize : 0 < 128 := by norm_num
    refine ⟨_, cut_blocks hsize (dvd_length_blake2Padded hsize msg),
      last_block_nonempty hsize hmsg, ?_⟩
    rw [blake2b, blake2_spec hsize block hmsg hfuel]
    rfl

/-- 112 bytes of SHA-512 leave no room for the length in their block. -/
theorem hashes_compress_padded_at_112 :
    (sha512Padded (List.replicate 112 0x61)).length = 2 * 128 ∧
    (∃ parts, Cut 128 (sha512Padded (List.replicate 112 0x61)) parts ∧
      sha512 (fun h _ ↦ h) 113 (List.replicate 112 0x61) =
        some ((parts.foldl (fun h _ ↦ h) sha512Iv).toList.flatMap beBytes64)) ∧
    ∃ parts, Cut 64 (blake2Padded 64 (List.replicate 112 0x61)) parts ∧
      64 * (parts.length - 1) < 112 ∧
      blake2s (fun h _ _ _ ↦ h) (fun _ ↦ 0) 113 (List.replicate 112 0x61) =
        some ((parts.zipIdx.foldl (blake2Step (fun h _ _ _ ↦ h) 64 112 parts.length)
          (blake2sStart fun _ ↦ 0)).toList.flatMap leBytes32) := by
  obtain ⟨hsha512, -, -, hblake2⟩ := hashes_compress_padded
    (by decide : (List.replicate 112 (0x61 : UInt8)).length < 2 ^ 29)
    (by decide : (List.replicate 112 (0x61 : UInt8)).length < 113)
  exact ⟨by decide +kernel, hsha512 _, (hblake2 (by decide)).1 _ _⟩

/-- An output of one byte makes a rate of 198 bytes, and the last bit of the padding comes to stand
at the end of the last whole lane, six bytes before the end of the rate. -/
theorem sha3_of_one_byte_misplaces_padding :
    ¬ ∀ keccakf outlen, outlen < 100 → ∃ parts a,
      Cut (200 - 2 * outlen) (sha3Padded (200 - 2 * outlen) []) parts ∧
      a = parts.foldl (fun a part ↦ keccakf (absorbBlock a part)) (Vector.replicate 25 0) ∧
      sha3State keccakf [] outlen = some a := by
  intro hall
  obtain ⟨parts, a, hcut, ha, hstate⟩ := hall id 1 (by norm_num)
  rw [hcut.eq_blocks (by norm_num)] at ha
  have hkernel : (sha3State id [] 1).map (fun a ↦ a[24]) = some 0 := by decide +kernel
  have hstandard : ((blocks (200 - 2 * 1) (sha3Padded (200 - 2 * 1) [])).foldl
      (fun a part ↦ id (absorbBlock a part)) (Vector.replicate 25 0))[24] ≠ 0 := by
    decide +kernel
  rw [hstate, Option.map_some, ha] at hkernel
  exact hstandard (Option.some_inj.mp hkernel)

end Bc3Miner.Kernel
