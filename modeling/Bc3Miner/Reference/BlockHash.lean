import Bc3Miner.Foundations.PieceByPiece
import Bc3Miner.Reference.Compressions
import Bc3Miner.Reference.Mix
import Bc3Miner.Reference.StreamedHashes

/-!
# The block hash

`State`, `Hash` and `bc3hash` of `bc3hash/vendor/bc3/hash.cpp`: six standard hashes of one message,
each behind a tag of its own, the mix of the first of them, and a last hash over the other five and
the mix. The message comes in pieces, and a `Hash` that has finished throws on every further call.

`blockHash` is the hash without a state. Whatever the pieces, `Hash` gives the block hash of the
pieces joined together, as long as `Ripemd160` does not throw on their length, and `bc3hash` gives
it of the message in one piece (`hash_replies`).

`hash_replies` is for any primitives of the mix, any pieces and any calls after the end. The bound
of 2 ^ 61 bytes is that of `Ripemd160`, which has a length of 64 bits.
-/

set_option autoImplicit false
set_option relaxedAutoImplicit false

namespace Bc3Miner.Reference

open Foundations

/-! ### Tags -/

/-- The bytes of a text without other characters than those of ASCII. -/
def asciiBytes (text : String) : List UInt8 := text.toList.map fun c ↦ c.toNat.toUInt8

def domain : List UInt8 := asciiBytes "BC3Hash-BlockHash-Algorithm/BitcoinIII-PoW/2026"

def personS : List UInt8 := [0x0a, 0x20, 0xe8, 0x11, 0x61, 0x09, 0x08, 0xba]

def personB : List UInt8 := [0x1e, 0x80, 0xf2, 0xfd, 0xdc, 0x58, 0x18, 0xd6, 0xfe, 0x9b, 0x58, 0x1e,
  0x3b, 0xd4, 0x93, 0x0b]

/-- The constructor of `Blake2`, for words of `bytes` bytes. -/
def blakeStart {W : Type} (ops : HashRounds.Blake W) (iv : Vector W 8) (parameter : W) (bytes : ℕ)
    (read : List UInt8 → W) (personal : List UInt8) : Vector W 8 :=
  let chain := iv.setIfInBounds 0 (ops.xor (iv.getD 0 ops.zero) parameter)
  let chain := chain.setIfInBounds 6 (ops.xor (chain.getD 6 ops.zero) (read personal))
  chain.setIfInBounds 7 (ops.xor (chain.getD 7 ops.zero) (read (personal.drop bytes)))

def blakeStart32 : Vector UInt32 8 := blakeStart blake32 iv32 (0x01010000 + 8 * 4) 4 read32 personS

def blakeStart64 : Vector UInt64 8 :=
  blakeStart blake64 iv64 (0x01010000 + 8 * 8) 8 (read64 false) personB

section Tag

variable {H : Type} (update : H → List UInt8 → Option H)

def tag (h : H) (suffix : String) : Option H := do
  let h ← update h domain
  update h (asciiBytes suffix)

end Tag

/-! ### The state -/

structure State where
  sha3Of512 : Sha3
  sha3Of384 : Sha3
  sha512 : Sha512
  ripemd : Ripemd160
  blakeS : Blake2 UInt32
  blakeB : Blake2 UInt64

def updateS : Blake2 UInt32 → List UInt8 → Option (Blake2 UInt32) :=
  Blake2.update hashWord32 blakeCompress32 64

def updateB : Blake2 UInt64 → List UInt8 → Option (Blake2 UInt64) :=
  Blake2.update hashWord64 blakeCompress64 128

namespace State

def start : Option State := do
  let sha3Of512 ← Sha3.ofBits 512
  let sha3Of384 ← Sha3.ofBits 384
  let sha3Of512 ← tag (Sha3.update permute) sha3Of512 "/SHA3-512"
  let sha3Of384 ← tag (Sha3.update permute) sha3Of384 "/SHA3-384"
  let sha512 ← tag (Sha512.update sha512Compress) Sha512.start "/SHA-512"
  let ripemd ← tag (Ripemd160.update ripemd160Compress) Ripemd160.start "/RIPEMD-160"
  let blakeS ← tag updateS (Blake2.start hashWord32 blakeStart32 64) "/BLAKE2s"
  let blakeB ← tag updateB (Blake2.start hashWord64 blakeStart64 128) "/BLAKE2b"
  some ⟨sha3Of512, sha3Of384, sha512, ripemd, blakeS, blakeB⟩

def update (s : State) (data : List UInt8) : Option State := do
  let sha3Of512 ← s.sha3Of512.update permute data
  let sha3Of384 ← s.sha3Of384.update permute data
  let sha512 ← s.sha512.update sha512Compress data
  let ripemd ← s.ripemd.update ripemd160Compress data
  let blakeS ← updateS s.blakeS data
  let blakeB ← updateB s.blakeB data
  some ⟨sha3Of512, sha3Of384, sha512, ripemd, blakeS, blakeB⟩

def finish (p : Primitives) (s : State) : Option (List UInt8) := do
  let preimage ← s.sha3Of512.finish permute
  let mix ← mix512 p (toBlock preimage) 0
  let s384 ← s.sha3Of384.finish permute
  let s512 ← s.sha512.finish sha512Compress
  let r160 ← s.ripemd.finish ripemd160Compress
  let bs ← Blake2.finish hashWord32 blakeCompress32 64 s.blakeS
  let bb ← Blake2.finish hashWord64 blakeCompress64 128 s.blakeB
  let final ← Sha3.ofBits 256
  let final ← tag (Sha3.update permute) final "/SHA3-256"
  let final ← [s384, mix, s512, r160, bs.toList.flatMap Kernel.leBytes32,
    bb.toList.flatMap Kernel.leBytes64].foldlM (Sha3.update permute) final
  final.finish permute

end State

/-- The hash of a message in one piece. -/
def bc3hash (p : Primitives) (data : List UInt8) : Option (List UInt8) := do
  let state ← State.start
  let state ← state.update data
  state.finish p

/-- `Hash`: the state and whether it has finished. The length of a piece is a `size_t`. -/
def hash (p : Primitives) : Digester UInt8 State (List UInt8) where
  start := State.start
  update := State.update
  finish := State.finish p

/-! ### The hash without a state -/

def tagged (suffix : String) (msg : List UInt8) : List UInt8 := domain ++ asciiBytes suffix ++ msg

/-- What the last hash is taken of, after its tag. -/
def parts (mix msg : List UInt8) : List (List UInt8) :=
  [sha3Digest permute 48 (tagged "/SHA3-384" msg), mix,
    sha512Digest sha512Compress (tagged "/SHA-512" msg),
    ripemd160Digest ripemd160Compress (tagged "/RIPEMD-160" msg),
    (blake2Digest 64 (Blake2.counted hashWord32 blakeCompress32) blakeStart32
      (tagged "/BLAKE2s" msg)).toList.flatMap Kernel.leBytes32,
    (blake2Digest 128 (Blake2.counted hashWord64 blakeCompress64) blakeStart64
      (tagged "/BLAKE2b" msg)).toList.flatMap Kernel.leBytes64]

def blockHash (p : Primitives) (msg : List UInt8) : List UInt8 :=
  sha3Digest permute 32 (tagged "/SHA3-256" (parts (digest p
    (toBlock (sha3Digest permute 64 (tagged "/SHA3-512" msg))) 0) msg).flatten)

/-! ### The state of a message -/

theorem length_tagged (suffix : String) (msg : List UInt8) :
    (tagged suffix msg).length = 47 + suffix.toList.length + msg.length := by
  have hdomain : domain.length = 47 := by decide
  rw [tagged, List.length_append, List.length_append, hdomain, asciiBytes, List.length_map]

theorem tagged_append (suffix : String) (msg data : List UInt8) :
    tagged suffix (msg ++ data) = tagged suffix msg ++ data := by
  rw [tagged, tagged, List.append_assoc, List.append_assoc, List.append_assoc]

/-- What a class takes of messages below a length, over the messages that its objects have taken. -/
structure Takes {H : Type} (update : H → List UInt8 → Option H) (Took : H → List UInt8 → Prop) :
    Prop where
  update (h : H) (msg data : List UInt8) : Took h msg → msg.length + data.length < 2 ^ 61 →
    ∃ h', update h data = some h' ∧ Took h' (msg ++ data)

/-- The tag is a message of two pieces. -/
theorem Takes.tag {H : Type} {update : H → List UInt8 → Option H} {Took : H → List UInt8 → Prop}
    (htakes : Takes update Took) {h : H} (htook : Took h []) (suffix : String)
    (hsuffix : suffix.toList.length < 2 ^ 60) :
    ∃ h', tag update h suffix = some h' ∧ Took h' (tagged suffix []) := by
  have hdomain : domain.length = 47 := by decide
  have hlength : (asciiBytes suffix).length = suffix.toList.length := List.length_map _
  have hfirst : ([] : List UInt8).length + domain.length < 2 ^ 61 := by
    rw [List.length_nil, hdomain]
    norm_num
  obtain ⟨first, hrun, htook⟩ := htakes.update h [] domain htook hfirst
  rw [List.nil_append] at htook
  have hsecond : domain.length + (asciiBytes suffix).length < 2 ^ 61 := by
    rw [hdomain, hlength]
    omega
  obtain ⟨second, hrun', htook⟩ := htakes.update first domain (asciiBytes suffix) htook hsecond
  refine ⟨second, ?_, ?_⟩
  · rw [Reference.tag, hrun]
    exact hrun'
  · rw [tagged, List.append_nil]
    exact htook

theorem sha3_takes {output : ℕ} (hlanes : 4 ∣ output) (houtput : output < 100) :
    Takes (Sha3.update permute) (Sha3.Took permute output) where
  update _ _ data htook _ := Sha3.update_took hlanes houtput htook data

theorem sha512_takes : Takes (Sha512.update sha512Compress) (Sha512.Took sha512Compress) where
  update _ _ _ htook hshort := Sha512.update_took htook (by omega) (by omega)

theorem ripemd160_takes :
    Takes (Ripemd160.update ripemd160Compress) (Ripemd160.Took ripemd160Compress) where
  update _ _ _ htook hshort := Ripemd160.update_took htook hshort

theorem blakeS_takes : Takes updateS
    (Blake2.Took hashWord32 blakeCompress32 64 blakeStart32) where
  update _ _ data htook _ := Blake2.update_took (by norm_num) htook data

theorem blakeB_takes : Takes updateB
    (Blake2.Took hashWord64 blakeCompress64 128 blakeStart64) where
  update _ _ data htook _ := Blake2.update_took (by norm_num) htook data

namespace State

/-- The six states of a message behind its tags. -/
structure Took (s : State) (msg : List UInt8) : Prop where
  sha3Of512 : Sha3.Took permute 64 s.sha3Of512 (tagged "/SHA3-512" msg)
  sha3Of384 : Sha3.Took permute 48 s.sha3Of384 (tagged "/SHA3-384" msg)
  sha512 : Sha512.Took sha512Compress s.sha512 (tagged "/SHA-512" msg)
  ripemd : Ripemd160.Took ripemd160Compress s.ripemd (tagged "/RIPEMD-160" msg)
  blakeS : Blake2.Took hashWord32 blakeCompress32 64 blakeStart32 s.blakeS (tagged "/BLAKE2s" msg)
  blakeB : Blake2.Took hashWord64 blakeCompress64 128 blakeStart64 s.blakeB (tagged "/BLAKE2b" msg)

/-- A new object has taken the empty message. -/
theorem start_took : ∃ s, start = some s ∧ s.Took [] := by
  have hlength : ∀ suffix ∈ ["/SHA3-512", "/SHA3-384", "/SHA-512", "/RIPEMD-160", "/BLAKE2s",
      "/BLAKE2b"], suffix.toList.length < 2 ^ 60 := by decide
  obtain ⟨a, ha, hnew⟩ := Sha3.ofBits_took permute (Or.inr (Or.inr (Or.inr (Eq.refl 512))))
  obtain ⟨a', ha', h512⟩ :=
    (sha3_takes (by norm_num) (by norm_num)).tag hnew "/SHA3-512" (hlength _ (by decide))
  obtain ⟨b, hb, hnew⟩ := Sha3.ofBits_took permute (Or.inr (Or.inr (Or.inl (Eq.refl 384))))
  obtain ⟨b', hb', h384⟩ :=
    (sha3_takes (by norm_num) (by norm_num)).tag hnew "/SHA3-384" (hlength _ (by decide))
  obtain ⟨c', hc', hsha⟩ :=
    sha512_takes.tag (Sha512.start_took _) "/SHA-512" (hlength _ (by decide))
  obtain ⟨d', hd', hripemd⟩ :=
    ripemd160_takes.tag (Ripemd160.start_took _) "/RIPEMD-160" (hlength _ (by decide))
  obtain ⟨e', he', hs⟩ :=
    blakeS_takes.tag (Blake2.start_took _ _ _) "/BLAKE2s" (hlength _ (by decide))
  obtain ⟨f', hf', hb3⟩ :=
    blakeB_takes.tag (Blake2.start_took _ _ _) "/BLAKE2b" (hlength _ (by decide))
  refine ⟨⟨a', b', c', d', e', f'⟩, ?_, h512, h384, hsha, hripemd, hs, hb3⟩
  rw [start, ha, hb]
  simp only [Option.bind_eq_bind, Option.bind_some, ha', hb', hc', hd', he', hf']

/-- The length of the tag that is the longest. -/
theorem length_longest (msg : List UInt8) :
    (tagged "/RIPEMD-160" msg).length = 58 + msg.length := by
  have hsuffix : ("/RIPEMD-160" : String).toList.length = 11 := by decide
  rw [length_tagged, hsuffix]

theorem length_le_longest {suffix : String} (hsuffix : suffix.toList.length ≤ 11)
    (msg : List UInt8) : (tagged suffix msg).length ≤ 58 + msg.length := by
  rw [length_tagged]
  omega

/-- An update takes its piece behind what has been taken, as long as all of it stays short of the
limit. -/
theorem update_took {s : State} {msg : List UInt8} (htook : s.Took msg) {data : List UInt8}
    (hshort : 58 + msg.length + data.length < 2 ^ 61) :
    ∃ s', s.update data = some s' ∧ s'.Took (msg ++ data) := by
  have hlength : ∀ suffix ∈ ["/SHA3-512", "/SHA3-384", "/SHA-512", "/RIPEMD-160", "/BLAKE2s",
      "/BLAKE2b"], (tagged suffix msg).length + data.length < 2 ^ 61 := by
    intro suffix hmem
    have hsuffix : ∀ suffix ∈ ["/SHA3-512", "/SHA3-384", "/SHA-512", "/RIPEMD-160", "/BLAKE2s",
        "/BLAKE2b"], suffix.toList.length ≤ 11 := by decide
    have hle := length_le_longest (hsuffix suffix hmem) msg
    omega
  obtain ⟨a, ha, h512⟩ := (sha3_takes (by norm_num) (by norm_num)).update _ _ data
    htook.sha3Of512 (hlength _ (by decide))
  obtain ⟨b, hb, h384⟩ := (sha3_takes (by norm_num) (by norm_num)).update _ _ data
    htook.sha3Of384 (hlength _ (by decide))
  obtain ⟨c, hc, hsha⟩ := sha512_takes.update _ _ data htook.sha512 (hlength _ (by decide))
  obtain ⟨d, hd, hripemd⟩ := ripemd160_takes.update _ _ data htook.ripemd (hlength _ (by decide))
  obtain ⟨e, he, hs⟩ := blakeS_takes.update _ _ data htook.blakeS (hlength _ (by decide))
  obtain ⟨f, hf, hb3⟩ := blakeB_takes.update _ _ data htook.blakeB (hlength _ (by decide))
  rw [← tagged_append] at h512 h384 hsha hripemd hs hb3
  refine ⟨⟨a, b, c, d, e, f⟩, ?_, h512, h384, hsha, hripemd, hs, hb3⟩
  rw [update, ha, hb, hc, hd, he, hf]
  rfl

/-- `Ripemd160` is the first to throw. -/
theorem update_long {s : State} {msg : List UInt8} (htook : s.Took msg)
    (hmsg : 58 + msg.length < 2 ^ 61) {data : List UInt8} (hdata : data.length < 2 ^ 64)
    (hlong : 2 ^ 61 ≤ 58 + msg.length + data.length) : s.update data = none := by
  have hbefore : (tagged "/SHA-512" msg).length ≤ 58 + msg.length :=
    length_le_longest (by decide) msg
  obtain ⟨a, ha, -⟩ := Sha3.update_took (by norm_num) (by norm_num) htook.sha3Of512 data
  obtain ⟨b, hb, -⟩ := Sha3.update_took (by norm_num) (by norm_num) htook.sha3Of384 data
  obtain ⟨c, hc, -⟩ := Sha512.update_took htook.sha512 hdata (by omega)
  have hd : s.ripemd.update ripemd160Compress data = none :=
    Ripemd160.update_long htook.ripemd hdata (by rwa [length_longest])
  rw [update, ha, hb, hc, hd]
  rfl

/-- Pieces for a class that takes each of them. -/
theorem foldlM_took {output : ℕ} (hlanes : 4 ∣ output) (houtput : output < 100)
    (pieces : List (List UInt8)) {h : Sha3} {msg : List UInt8}
    (htook : Sha3.Took permute output h msg) :
    ∃ h', pieces.foldlM (Sha3.update permute) h = some h' ∧
      Sha3.Took permute output h' (msg ++ pieces.flatten) := by
  induction pieces generalizing h msg with
  | nil =>
    rw [List.flatten_nil, List.append_nil]
    exact ⟨h, rfl, htook⟩
  | cons piece rest ih =>
    obtain ⟨next, hrun, htook⟩ := Sha3.update_took hlanes houtput htook piece
    obtain ⟨h', hrest, htook⟩ := ih htook
    rw [List.append_assoc] at htook
    refine ⟨h', ?_, htook⟩
    rw [List.foldlM_cons, hrun]
    exact hrest

theorem tagged_pos (suffix : String) (msg : List UInt8) : 0 < (tagged suffix msg).length := by
  rw [length_tagged]
  omega

/-- Finishing gives the hash of all that has been taken. -/
theorem finish_took (p : Primitives) {s : State} {msg : List UInt8} (htook : s.Took msg) :
    s.finish p = some (blockHash p msg) := by
  have h512 := Sha3.finish_took (by norm_num) htook.sha3Of512
  have h384 := Sha3.finish_took (by norm_num) htook.sha3Of384
  have hsha := Sha512.finish_took htook.sha512
  have hripemd := Ripemd160.finish_took htook.ripemd
  have hs := Blake2.finish_took (by norm_num) (by decide) htook.blakeS (tagged_pos _ msg)
  have hb := Blake2.finish_took (by norm_num) (by decide) htook.blakeB (tagged_pos _ msg)
  have hlength : ("/SHA3-256" : String).toList.length < 2 ^ 60 := by decide
  obtain ⟨new, hnew, hstart⟩ := Sha3.ofBits_took permute (Or.inr (Or.inl (Eq.refl 256)))
  obtain ⟨last, htag, hlast⟩ :=
    (sha3_takes (by norm_num) (by norm_num)).tag hstart "/SHA3-256" hlength
  obtain ⟨full, hfold, hfull⟩ := foldlM_took (by norm_num) (by norm_num) (parts (digest p
    (toBlock (sha3Digest permute 64 (tagged "/SHA3-512" msg))) 0) msg) hlast
  rw [← tagged_append, List.nil_append] at hfull
  have hend := Sha3.finish_took (by norm_num) hfull
  rw [finish, h512]
  simp only [Option.bind_eq_bind, Option.bind_some, mix512_eq, h384, hsha, hripemd, hs, hb, hnew,
    htag]
  rw [parts] at hfold
  rw [hfold]
  exact hend

end State

/-! ### Every run -/

/-- The hash of a message in one piece is the block hash. -/
theorem bc3hash_eq (p : Primitives) {data : List UInt8} (hshort : 58 + data.length < 2 ^ 61) :
    bc3hash p data = some (blockHash p data) := by
  obtain ⟨start, hstart, htook⟩ := State.start_took
  have hlength : 58 + ([] : List UInt8).length + data.length < 2 ^ 61 := hshort
  obtain ⟨state, hupdate, htook⟩ := State.update_took htook hlength
  rw [bc3hash, hstart]
  simp only [Option.bind_eq_bind, Option.bind_some, hupdate]
  exact State.finish_took p htook

/-- The longest tag has 58 bytes. -/
theorem hash_computes (p : Primitives) :
    (hash p).Computes (2 ^ 64) (2 ^ 61 - 58) State.Took (blockHash p) where
  start := State.start_took
  update htook _ hshort := State.update_took htook (by omega)
  update_long htook hmsg hdata hlong := State.update_long htook (by omega) hdata (by omega)
  finish htook := State.finish_took p htook

/-- A `Hash` over any primitives of the mix, with any pieces and any calls after `finish`. Where the
pieces together stay below 2 ^ 61 bytes, with the longest tag before them, it takes every piece,
gives the block hash of the pieces joined together, the same that `bc3hash` gives of them in one
piece, and throws on every call after that. Where they do not, it throws on one of the pieces. -/
theorem hash_replies (p : Primitives) (pieces : List (Piece UInt8 (2 ^ 64)))
    (later : List (PieceCall UInt8 (2 ^ 64))) :
    if 58 + (pieces.flatMap Piece.data).length < 2 ^ 61 then
      ∃ result, (hash p).run (pieces.map .update ++ .finish :: later) =
          some (List.replicate pieces.length .done ++ .digest result ::
            List.replicate later.length .refused) ∧
        result = blockHash p (pieces.flatMap Piece.data) ∧
        bc3hash p (pieces.flatMap Piece.data) = some result
    else (hash p).run (pieces.map .update ++ .finish :: later) = none := by
  have hreplies := (hash_computes p).replies (by norm_num) pieces later
  by_cases hshort : 58 + (pieces.flatMap Piece.data).length < 2 ^ 61
  · rw [if_pos hshort]
    rw [if_pos (by omega)] at hreplies
    exact ⟨_, hreplies, rfl, bc3hash_eq p hshort⟩
  · rw [if_neg hshort]
    rw [if_neg (by omega)] at hreplies
    exact hreplies

end Bc3Miner.Reference
