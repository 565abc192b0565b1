import Bc3Miner.Kernel.Compressions
import Bc3Miner.Reference.BlockHash

/-!
# The block hash of the kernel

`bc3_tag`, `bc3hash_pre`, `bc3hash_fin` and `bc3hash80` of `src/kernels/bc3hash.cl`: the block hash
of a header of 80 bytes. Tags and header are written into one buffer, again for every hash, and the
last hash has a buffer of its own. Neither is cleared, so that a thread starts with whatever is in
them; a write past the end fails, and so does a hash that does not fill its output.

The kernel's block hash is that of the reference, whatever the buffers hold
(`bc3hash80_is_bc3hash`).

What the buffers hold is a parameter of the result, so that nothing can be read from a hash before
this one. The primitives of the mix are given to both sides.
-/

set_option autoImplicit false
set_option relaxedAutoImplicit false

namespace Bc3Miner.Kernel

open Consensus Foundations MessageBlocks

/-! ### Tags -/

def charBytes (characters : List Char) : List UInt8 := characters.map fun c ↦ c.toNat.toUInt8

def bc3Domain : List UInt8 := charBytes
  ['B', 'C', '3', 'H', 'a', 's', 'h', '-', 'B', 'l', 'o', 'c', 'k', 'H', 'a', 's',
    'h', '-', 'A', 'l', 'g', 'o', 'r', 'i', 't', 'h', 'm', '/', 'B', 'i', 't', 'c',
    'o', 'i', 'n', 'I', 'I', 'I', '-', 'P', 'o', 'W', '/', '2', '0', '2', '6']

def bc3PersonS : List UInt8 := [0x0a, 0x20, 0xe8, 0x11, 0x61, 0x09, 0x08, 0xba]

def bc3PersonB : List UInt8 := [0x1e, 0x80, 0xf2, 0xfd, 0xdc, 0x58, 0x18, 0xd6, 0xfe, 0x9b, 0x58,
  0x1e, 0x3b, 0xd4, 0x93, 0x0b]

/-- The rows, without the zeros that fill them up. -/
def bc3Suffix : List (List UInt8) := List.map charBytes
  [['/', 'S', 'H', 'A', '3', '-', '5', '1', '2'],
    ['/', 'S', 'H', 'A', '3', '-', '3', '8', '4'],
    ['/', 'S', 'H', 'A', '-', '5', '1', '2'],
    ['/', 'R', 'I', 'P', 'E', 'M', 'D', '-', '1', '6', '0'],
    ['/', 'B', 'L', 'A', 'K', 'E', '2', 's'],
    ['/', 'B', 'L', 'A', 'K', 'E', '2', 'b'],
    ['/', 'S', 'H', 'A', '3', '-', '2', '5', '6']]

def bc3SuffixLen : List ℕ := [9, 9, 8, 11, 8, 8, 9]

/-- The bytes of row `k` that count. -/
def suffixBytes (k : ℕ) : List UInt8 :=
  (List.range (bc3SuffixLen.getD k 0)).map fun i ↦ (bc3Suffix.getD k []).getD i 0

/-- The domain and suffix `k` at the start of a buffer, and the place behind them. -/
def bc3Tag (buf : List UInt8) (k : ℕ) : Option (List UInt8 × ℕ) := do
  let buf ← store buf 0 bc3Domain
  let buf ← store buf 47 (suffixBytes k)
  some (buf, 47 + bc3SuffixLen.getD k 0)

/-! ### The hash -/

/-- An array that a hash writes. -/
def filled (size : ℕ) (bytes : List UInt8) : Option (Vector UInt8 size) :=
  if hsize : bytes.length = size then some ⟨bytes.toArray, hsize⟩ else none

structure Bc3Parts where
  preimage : Vector UInt8 64
  s384 : Vector UInt8 48
  s512 : Vector UInt8 64
  r160 : Vector UInt8 20
  bs : Vector UInt8 32
  bb : Vector UInt8 64

/-- The header behind tag `k`: the buffer, and how much of it is to be hashed. -/
def tagHeader (header : Vector UInt8 80) (msg : List UInt8) (k : ℕ) : Option (List UInt8 × ℕ) := do
  let (msg, n) ← bc3Tag msg k
  let msg ← store msg n header.toList
  some (msg, n + 80)

def bc3hashPre (msg : Vector UInt8 138) (header : Vector UInt8 80) : Option Bc3Parts := do
  let msg ← tagHeader header msg.toList 0
  let preimage ← sha3 keccakf (msg.1.take msg.2) 64
  let msg ← tagHeader header msg.1 1
  let s384 ← sha3 keccakf (msg.1.take msg.2) 48
  let msg ← tagHeader header msg.1 2
  let s512 ← sha512 sha512Block (msg.2 + 1) (msg.1.take msg.2)
  let msg ← tagHeader header msg.1 3
  let r160 ← ripemd160 ripemd160Block (msg.2 + 1) (msg.1.take msg.2)
  let msg ← tagHeader header msg.1 4
  let bs ← blake2s blake2sBlock (fun i ↦ bc3PersonS.getD i 0) (msg.2 + 1) (msg.1.take msg.2)
  let msg ← tagHeader header msg.1 5
  let bb ← blake2b blake2bBlock (fun i ↦ bc3PersonB.getD i 0) (msg.2 + 1) (msg.1.take msg.2)
  some ⟨← filled 64 preimage, ← filled 48 s384, ← filled 64 s512, ← filled 20 r160, ← filled 32 bs,
    ← filled 64 bb⟩

/-- Bytes behind those that are there, `fin[n++] = part[i]` for each. -/
def appendPart (fin : List UInt8 × ℕ) (part : List UInt8) : Option (List UInt8 × ℕ) :=
  (store fin.1 fin.2 part).map fun buf ↦ (buf, fin.2 + part.length)

def bc3hashFin (fin : Vector UInt8 316) (p : Bc3Parts) (mix : Vector UInt8 32) :
    Option (Vector UInt8 32) := do
  let fin ← bc3Tag fin.toList 6
  let (fin, n) ← [p.s384.toList, mix.toList, p.s512.toList, p.r160.toList, p.bs.toList,
    p.bb.toList].foldlM appendPart fin
  let out ← sha3 keccakf (fin.take n) 32
  filled 32 out

def bc3hash80 (p : Reference.Primitives) (msg : Vector UInt8 138) (fin : Vector UInt8 316)
    (header : Vector UInt8 80) : Option Bytes32 := do
  let parts ← bc3hashPre msg header
  let mix ← bc3mix512 p parts.preimage
  bc3hashFin fin parts (← filled 32 mix)

/-! ### The kernel's hashes -/

section Hashes

variable {msg : List UInt8} (hlength : msg.length < 2 ^ 29)

/-- The sponge of the kernel is the SHA-3 of the reference, for a digest of whole lanes that leaves
room in the state. -/
theorem sha3_eq_digest (msg : List UInt8) {outlen : ℕ} (hlanes : 4 ∣ outlen)
    (houtlen : outlen < 100) :
    sha3 keccakf msg outlen = some (Reference.sha3Digest Reference.permute outlen msg) := by
  have hkeccak : keccakf = Reference.permute := funext keccakf_eq_permute
  rw [sha3_eq keccakf msg houtlen (sha3State_spec keccakf msg hlanes houtlen), hkeccak]
  rfl

include hlength

/-- The SHA-512 of the kernel is that of the reference, with as many blocks allowed as the message
has bytes and one. -/
theorem sha512_eq_digest :
    sha512 sha512Block (msg.length + 1) msg =
      some (Reference.sha512Digest Reference.sha512Compress msg) := by
  have hblock : sha512Block = Reference.sha512Compress :=
    funext fun h ↦ funext fun blk ↦ sha512Block_eq_compress h blk
  obtain ⟨parts, hcut, hrun⟩ := sha512_spec hlength (Nat.lt_succ_self _) sha512Block
  rw [hrun, hcut.eq_blocks (by norm_num), hblock]
  rfl

/-- The RIPEMD-160 of the kernel is that of the reference, with as many blocks allowed as the
message has bytes and one. -/
theorem ripemd160_eq_digest :
    ripemd160 ripemd160Block (msg.length + 1) msg =
      some (Reference.ripemd160Digest Reference.ripemd160Compress msg) := by
  have hblock : ripemd160Block = Reference.ripemd160Compress :=
    funext fun chain ↦ funext fun blk ↦ ripemd160Block_eq_compress chain blk
  obtain ⟨parts, hcut, hrun⟩ := ripemd160_spec hlength (Nat.lt_succ_self _) ripemd160Block
  rw [hrun, hcut.eq_blocks (by norm_num), hblock]
  rfl

omit hlength in
/-- The two ways to frame BLAKE2 give the same, for a message that is not empty and two compressions
that agree on the counters up to its length: the kernel with its loop over the blocks, and the
reference with the last block kept back. -/
theorem blake2_eq_digest {σ : Type} {size : ℕ} (hpos : 0 < size)
    {block compress : σ → List UInt8 → ℕ → Bool → σ} (hmsg : 0 < msg.length)
    (hblock : ∀ h blk counter last, counter ≤ msg.length →
      block h blk counter last = compress h blk counter last) (iv : σ) :
    blake2 size block msg (msg.length + 1) iv =
      some (Reference.blake2Digest size compress iv msg) := by
  have hlast := last_block_nonempty hpos hmsg
  rw [blake2_spec hpos block hmsg (Nat.lt_succ_self _), Reference.blake2Digest]
  refine congrArg some (List.foldl_ext _ _ _ fun h part hmem ↦ ?_)
  have hplace := List.snd_lt_of_mem_zipIdx hmem
  by_cases hend : part.2 + 1 = (blocks size (blake2Padded size msg)).length
  · rw [blake2Step, blake2Step, if_pos hend, if_pos hend]
    exact hblock h part.1 msg.length true le_rfl
  · have hbefore : size * (part.2 + 1) ≤
        size * ((blocks size (blake2Padded size msg)).length - 1) :=
      Nat.mul_le_mul_left size (by omega)
    rw [blake2Step, blake2Step, if_neg hend, if_neg hend]
    exact hblock h part.1 _ false (hbefore.trans hlast.le)

/-- The personalized BLAKE2s of the kernel is that of the reference, for a message that is not
empty. -/
theorem blake2s_eq_digest (hmsg : 0 < msg.length) :
    blake2s blake2sBlock (fun i ↦ bc3PersonS.getD i 0) (msg.length + 1) msg =
      some ((Reference.blake2Digest 64 (Reference.Blake2.counted Reference.hashWord32
        Reference.blakeCompress32) Reference.blakeStart32 msg).toList.flatMap leBytes32) := by
  have hstart : blake2sStart (fun i ↦ bc3PersonS.getD i 0) = Reference.blakeStart32 := by
    decide +kernel
  rw [blake2s, hstart, blake2_eq_digest (by norm_num) hmsg (fun h blk counter last hcounter ↦
    blake2sBlock_eq_compress h blk (by omega) last) _]
  rfl

/-- The personalized BLAKE2b of the kernel is that of the reference, for a message that is not
empty. -/
theorem blake2b_eq_digest (hmsg : 0 < msg.length) :
    blake2b blake2bBlock (fun i ↦ bc3PersonB.getD i 0) (msg.length + 1) msg =
      some ((Reference.blake2Digest 128 (Reference.Blake2.counted Reference.hashWord64
        Reference.blakeCompress64) Reference.blakeStart64 msg).toList.flatMap leBytes64) := by
  have hstart : blake2bStart (fun i ↦ bc3PersonB.getD i 0) = Reference.blakeStart64 := by
    decide +kernel
  rw [blake2b, hstart, blake2_eq_digest (by norm_num) hmsg (fun h blk counter last hcounter ↦
    blake2bBlock_eq_compress h blk (by omega) last) _]
  rfl

end Hashes

/-! ### The buffers -/

/-- The suffixes as texts. -/
def suffixes : List String :=
  ["/SHA3-512", "/SHA3-384", "/SHA-512", "/RIPEMD-160", "/BLAKE2s", "/BLAKE2b", "/SHA3-256"]

/-- The tables of the kernel hold the tags of the reference: the domain, the bytes of each suffix
and their number. -/
theorem suffixes_table : ∀ k < 7, ∀ suffix, suffixes[k]? = some suffix →
    Reference.tagged suffix [] = bc3Domain ++ suffixBytes k ∧
      (suffixBytes k).length = bc3SuffixLen.getD k 0 ∧ bc3SuffixLen.getD k 0 ≤ 11 := by
  have hall : ∀ k < 7, ∀ suffix ∈ suffixes[k]?,
      Reference.tagged suffix [] = bc3Domain ++ suffixBytes k ∧
        (suffixBytes k).length = bc3SuffixLen.getD k 0 ∧ bc3SuffixLen.getD k 0 ≤ 11 := by
    decide +kernel
  exact fun k hk suffix hsuffix ↦ hall k hk suffix hsuffix

section Tags

variable {k : ℕ} {suffix : String} (hsuffix : suffixes[k]? = some suffix)

include hsuffix

/-- Row `k` of the tables is the tag of the reference. -/
theorem tag_row : Reference.tagged suffix [] = bc3Domain ++ suffixBytes k ∧
    (suffixBytes k).length = bc3SuffixLen.getD k 0 ∧
      (Reference.tagged suffix []).length = 47 + bc3SuffixLen.getD k 0 ∧
        bc3SuffixLen.getD k 0 ≤ 11 := by
  obtain ⟨hk, -⟩ := List.getElem?_eq_some_iff.mp hsuffix
  obtain ⟨htag, hwidth, hlen⟩ := suffixes_table k hk suffix hsuffix
  have hdomain : bc3Domain.length = 47 := by decide
  refine ⟨htag, hwidth, ?_, hlen⟩
  rw [htag, List.length_append, hdomain, hwidth]

/-- Writing a tag into a buffer with room for it puts the tag of the reference in front and leaves
the rest of the buffer. -/
theorem bc3Tag_eq {buf : List UInt8} (hbuf : 58 ≤ buf.length) :
    bc3Tag buf k = some (Reference.tagged suffix [] ++
      buf.drop (Reference.tagged suffix []).length, (Reference.tagged suffix []).length) := by
  obtain ⟨htag, hwidth, hlength, hlen⟩ := tag_row hsuffix
  have hdomain : bc3Domain.length = 47 := by decide
  have hfirst : store buf 0 bc3Domain = some (bc3Domain ++ buf.drop 47) := by
    rw [store_eq (by omega), List.take_zero, List.nil_append, Nat.zero_add, hdomain]
  have hsecond : store (bc3Domain ++ buf.drop 47) 47 (suffixBytes k) =
      some (Reference.tagged suffix [] ++ buf.drop (Reference.tagged suffix []).length) := by
    rw [store_eq (by rw [List.length_append, List.length_drop]; omega), List.take_left' hdomain,
      ← htag, hlength, hwidth, ← List.drop_drop, List.drop_left' hdomain, List.drop_drop]
  rw [bc3Tag, hfirst]
  simp only [Option.bind_eq_bind, Option.bind_some, hsecond, hlength]

/-- The header is written behind a tag in the message buffer. The buffer keeps its size, the length
that comes back is that of the tag and the header, and that many bytes at its front are the tagged
header of the reference. -/
theorem tagHeader_eq (header : Vector UInt8 80) {msg : List UInt8} (hmsg : msg.length = 138) :
    ∃ msg' : List UInt8, msg'.length = 138 ∧
      tagHeader header msg k = some (msg', (Reference.tagged suffix header.toList).length) ∧
      msg'.take (Reference.tagged suffix header.toList).length =
        Reference.tagged suffix header.toList := by
  obtain ⟨-, -, hlength, hlen⟩ := tag_row hsuffix
  have hheader : header.toList.length = 80 := Vector.length_toList
  have hall : Reference.tagged suffix header.toList =
      Reference.tagged suffix [] ++ header.toList := by
    rw [← Reference.tagged_append, List.nil_append]
  have htagged : (Reference.tagged suffix [] ++ header.toList).length =
      (Reference.tagged suffix []).length + 80 := by
    rw [List.length_append, hheader]
  have hstore : store (Reference.tagged suffix [] ++ msg.drop (Reference.tagged suffix []).length)
      (Reference.tagged suffix []).length header.toList =
        some (Reference.tagged suffix [] ++ header.toList ++
          msg.drop ((Reference.tagged suffix []).length + 80)) := by
    rw [store_eq (by rw [List.length_append, List.length_drop]; omega), List.take_left, hheader,
      ← List.drop_drop, List.drop_left, List.drop_drop]
  rw [hall, htagged]
  refine ⟨Reference.tagged suffix [] ++ header.toList ++
    msg.drop ((Reference.tagged suffix []).length + 80), ?_, ?_, List.take_left' htagged⟩
  · rw [List.length_append, htagged, List.length_drop, hmsg]
    omega
  · rw [tagHeader, bc3Tag_eq hsuffix (by omega)]
    simp only [Option.bind_eq_bind, Option.bind_some, hstore]

end Tags

/-- Parts behind the bytes that are in a buffer. -/
theorem foldlM_appendPart (before : List UInt8) {rest : List UInt8} {parts : List (List UInt8)}
    (hfits : parts.flatten.length ≤ rest.length) :
    parts.foldlM appendPart (before ++ rest, before.length) =
      some (before ++ parts.flatten ++ rest.drop parts.flatten.length,
        (before ++ parts.flatten).length) := by
  induction parts generalizing before rest with
  | nil =>
    rw [List.flatten_nil, List.append_nil]
    rfl
  | cons part later ih =>
    rw [List.flatten_cons, List.length_append] at hfits
    have hfirst : appendPart (before ++ rest, before.length) part =
        some (before ++ part ++ rest.drop part.length, (before ++ part).length) := by
      rw [appendPart, store_eq (by rw [List.length_append]; omega), List.take_left,
        ← List.drop_drop, List.drop_left, List.length_append]
      rfl
    rw [List.foldlM_cons, hfirst]
    refine (ih (before ++ part) (by rw [List.length_drop]; omega)).trans ?_
    have hlength : (part ++ later.flatten).length = part.length + later.flatten.length :=
      List.length_append
    rw [List.flatten_cons, List.drop_drop, ← hlength, List.append_assoc before]

/-! ### The block hash -/

theorem filled_eq {size : ℕ} {bytes : List UInt8} (hsize : bytes.length = size) :
    ∃ array : Vector UInt8 size, filled size bytes = some array ∧ array.toList = bytes :=
  ⟨⟨bytes.toArray, hsize⟩, dif_pos hsize, rfl⟩

/-- The words of a state, with as many bytes each. -/
theorem length_flatMap_words {W : Type} {size width : ℕ} {bytes : W → List UInt8}
    (hbytes : ∀ word, (bytes word).length = width) (words : Vector W size) :
    (words.toList.flatMap bytes).length = width * size := by
  have hall : words.toList.map (fun word ↦ (bytes word).length) = List.replicate size width := by
    rw [List.eq_replicate_iff]
    refine ⟨by rw [List.length_map, Vector.length_toList], fun length hmem ↦ ?_⟩
    obtain ⟨word, -, rfl⟩ := List.mem_map.mp hmem
    exact hbytes word
  rw [List.length_flatMap, hall, List.sum_replicate, smul_eq_mul, Nat.mul_comm]

/-- A step that succeeds. -/
theorem some_bind {α β : Type} (a : α) (next : α → Option β) : (some a >>= next) = next a := rfl

section BlockHash

variable (p : Reference.Primitives) (header : Vector UInt8 80)

/-- The six hashes of a header. -/
structure Bc3Parts.HashesOf (parts : Bc3Parts) (header : List UInt8) : Prop where
  preimage : parts.preimage.toList =
    Reference.sha3Digest Reference.permute 64 (Reference.tagged "/SHA3-512" header)
  rest (mix : List UInt8) :
    [parts.s384.toList, mix, parts.s512.toList, parts.r160.toList, parts.bs.toList,
      parts.bb.toList] = Reference.parts mix header

/-- The first hashes of the kernel are those of the header, whatever the message buffer held before.
-/
theorem bc3hashPre_eq (msg : Vector UInt8 138) :
    ∃ parts, bc3hashPre msg header = some parts ∧ parts.HashesOf header.toList := by
  have hle32 (word : UInt32) : (leBytes32 word).length = 4 := by
    rw [leBytes32, List.length_map, List.length_range]
  have hle64 (word : UInt64) : (leBytes64 word).length = 8 := by
    rw [leBytes64, List.length_map, List.length_range]
  have hbe64 (word : UInt64) : (beBytes64 word).length = 8 := by
    rw [beBytes64, List.length_map, List.length_range]
  have hsha3 (output : ℕ) (message : List UInt8) :
      (Reference.sha3Digest Reference.permute output message).length = output := by
    rw [Reference.sha3Digest, List.length_map, List.length_range]
  have htagged (suffix : String) :
      0 < (Reference.tagged suffix header.toList).length := Reference.State.tagged_pos _ _
  have hshort : ∀ suffix ∈ suffixes, (Reference.tagged suffix header.toList).length < 2 ^ 29 := by
    have hlengths : ∀ suffix ∈ suffixes, suffix.toList.length ≤ 11 := by decide
    intro suffix hmem
    have hsuffix := hlengths suffix hmem
    rw [Reference.length_tagged, Vector.length_toList]
    omega
  have hmsg : msg.toList.length = 138 := Vector.length_toList
  obtain ⟨m0, h0, ht0, hm0⟩ := tagHeader_eq (rfl : suffixes[0]? = some "/SHA3-512") header hmsg
  obtain ⟨m1, h1, ht1, hm1⟩ := tagHeader_eq (rfl : suffixes[1]? = some "/SHA3-384") header h0
  obtain ⟨m2, h2, ht2, hm2⟩ := tagHeader_eq (rfl : suffixes[2]? = some "/SHA-512") header h1
  obtain ⟨m3, h3, ht3, hm3⟩ := tagHeader_eq (rfl : suffixes[3]? = some "/RIPEMD-160") header h2
  obtain ⟨m4, h4, ht4, hm4⟩ := tagHeader_eq (rfl : suffixes[4]? = some "/BLAKE2s") header h3
  obtain ⟨m5, h5, ht5, hm5⟩ := tagHeader_eq (rfl : suffixes[5]? = some "/BLAKE2b") header h4
  obtain ⟨preimage, hf0, hp0⟩ := filled_eq (hsha3 64 (Reference.tagged "/SHA3-512" header.toList))
  obtain ⟨s384, hf1, hp1⟩ := filled_eq (hsha3 48 (Reference.tagged "/SHA3-384" header.toList))
  obtain ⟨s512, hf2, hp2⟩ : ∃ array : Vector UInt8 64, filled 64 (Reference.sha512Digest
      Reference.sha512Compress (Reference.tagged "/SHA-512" header.toList)) = some array ∧ _ :=
    filled_eq (length_flatMap_words hbe64 _)
  obtain ⟨r160, hf3, hp3⟩ : ∃ array : Vector UInt8 20, filled 20 (Reference.ripemd160Digest
      Reference.ripemd160Compress (Reference.tagged "/RIPEMD-160" header.toList)) =
        some array ∧ _ :=
    filled_eq (length_flatMap_words hle32 _)
  obtain ⟨bs, hf4, hp4⟩ := filled_eq (length_flatMap_words hle32 (Reference.blake2Digest 64
    (Reference.Blake2.counted Reference.hashWord32 Reference.blakeCompress32)
      Reference.blakeStart32 (Reference.tagged "/BLAKE2s" header.toList)))
  obtain ⟨bb, hf5, hp5⟩ := filled_eq (length_flatMap_words hle64 (Reference.blake2Digest 128
    (Reference.Blake2.counted Reference.hashWord64 Reference.blakeCompress64)
      Reference.blakeStart64 (Reference.tagged "/BLAKE2b" header.toList)))
  refine ⟨⟨preimage, s384, s512, r160, bs, bb⟩, ?_, hp0, fun mix ↦ ?_⟩
  · have h512 := sha512_eq_digest (hshort "/SHA-512" (by decide))
    have hripemd := ripemd160_eq_digest (hshort "/RIPEMD-160" (by decide))
    have hs := blake2s_eq_digest (hshort "/BLAKE2s" (by decide)) (htagged _)
    have hb := blake2b_eq_digest (hshort "/BLAKE2b" (by decide)) (htagged _)
    simp only [bc3hashPre, some_bind, ht0, hm0,
      sha3_eq_digest _ (by norm_num : 4 ∣ 64) (by norm_num), ht1, hm1,
      sha3_eq_digest _ (by norm_num : 4 ∣ 48) (by norm_num), ht2, hm2, h512, ht3, hm3, hripemd,
      ht4, hm4, hs, ht5, hm5, hb, hf0, hf1, hf2, hf3, hf4, hf5]
  · rw [Reference.parts, hp1, hp2, hp3, hp4, hp5]

/-- The last hash of the kernel is that of the tagged parts of the reference, if the parts it was
given are the hashes of the header: the parts and the tag fill the buffer, whatever it held before.
-/
theorem bc3hashFin_eq (fin : Vector UInt8 316) {parts : Bc3Parts} (mix : Vector UInt8 32)
    {header : List UInt8} (hparts : parts.HashesOf header) :
    ∃ out, bc3hashFin fin parts mix = some out ∧
      out.toList = Reference.sha3Digest Reference.permute 32
        (Reference.tagged "/SHA3-256" (Reference.parts mix.toList header).flatten) := by
  have hsuffix : suffixes[6]? = some "/SHA3-256" := rfl
  have htag : (Reference.tagged "/SHA3-256" []).length = 56 := by decide
  have hfin : fin.toList.length = 316 := Vector.length_toList
  have hlength : [parts.s384.toList, mix.toList, parts.s512.toList, parts.r160.toList,
      parts.bs.toList, parts.bb.toList].flatten.length = 260 := by
    simp only [List.flatten_cons, List.flatten_nil, List.length_append, Vector.length_toList,
      List.length_nil]
  have hfits : [parts.s384.toList, mix.toList, parts.s512.toList, parts.r160.toList,
      parts.bs.toList, parts.bb.toList].flatten.length ≤ (fin.toList.drop 56).length := by
    rw [hlength, List.length_drop, hfin]
  have hwrite := foldlM_appendPart (Reference.tagged "/SHA3-256" []) hfits
  have hsha3 (message : List UInt8) :
      (Reference.sha3Digest Reference.permute 32 message).length = 32 := by
    rw [Reference.sha3Digest, List.length_map, List.length_range]
  obtain ⟨out, hfilled, hout⟩ := filled_eq (hsha3 (Reference.tagged "/SHA3-256"
    (Reference.parts mix.toList header).flatten))
  rw [htag] at hwrite
  refine ⟨out, ?_, hout⟩
  rw [bc3hashFin, bc3Tag_eq hsuffix (by omega), htag]
  simp only [Option.bind_eq_bind, Option.bind_some, hwrite, List.take_left,
    sha3_eq_digest _ (by norm_num : 4 ∣ 32) (by norm_num)]
  rw [hparts.rest, ← Reference.tagged_append, List.nil_append]
  exact hfilled

end BlockHash

/-- Whatever its buffers hold, a thread of the kernel computes the block hash of its header. -/
theorem bc3hash80_eq_blockHash (p : Reference.Primitives) (msg : Vector UInt8 138)
    (fin : Vector UInt8 316) (header : Vector UInt8 80) :
    ∃ hash : Bytes32, bc3hash80 p msg fin header = some hash ∧
      hash.toList = Reference.blockHash p header.toList := by
  obtain ⟨parts, hpre, hparts⟩ := bc3hashPre_eq header msg
  have hpreimage : Reference.toBlock (Reference.sha3Digest Reference.permute 64
      (Reference.tagged "/SHA3-512" header.toList)) = parts.preimage := by
    rw [← hparts.preimage]
    refine Vector.ext fun i hi ↦ ?_
    rw [Reference.toBlock, Vector.getElem_ofFn, List.getD_eq_getElem _ _ (by simpa),
      Vector.getElem_toList]
  have hdigest : (Reference.digest p parts.preimage 0).length = 32 := by
    simp [Reference.digest, Reference.UInt.store]
  obtain ⟨mix, hfilled, hmix⟩ := filled_eq hdigest
  obtain ⟨hash, hfin, hhash⟩ := bc3hashFin_eq fin mix hparts
  refine ⟨hash, ?_, ?_⟩
  · rw [bc3hash80, hpre]
    simp only [Option.bind_eq_bind, Option.bind_some, bc3mix512_eq, hfilled, hfin]
  · rw [hhash, hmix, Reference.blockHash, hpreimage]

/-- For any primitives of the mix, which both are given, for whatever a thread's two buffers hold
and for every header of 80 bytes: the kernel's block hash returns, so no write was past the end of a
buffer, and it is the block hash of the reference. -/
theorem bc3hash80_is_bc3hash (p : Reference.Primitives) (msg : Vector UInt8 138)
    (fin : Vector UInt8 316) (header : Vector UInt8 80) :
    ∃ hash : Bytes32, bc3hash80 p msg fin header = some hash ∧
      Reference.bc3hash p header.toList = some hash.toList := by
  obtain ⟨hash, hrun, hhash⟩ := bc3hash80_eq_blockHash p msg fin header
  have hshort : 58 + header.toList.length < 2 ^ 61 := by
    rw [Vector.length_toList]
    norm_num
  refine ⟨hash, hrun, ?_⟩
  rw [Reference.bc3hash_eq p hshort, hhash]

end Bc3Miner.Kernel
