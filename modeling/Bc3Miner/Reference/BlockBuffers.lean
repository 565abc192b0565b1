import Bc3Miner.Foundations.BlockStream
import Mathlib.Data.List.Basic

/-!
# Buffers of one block

The block buffer of the reference's hashes: `blocks` of `bc3hash/vendor/bc3/standard_hashes.cpp`
takes a piece of a message, and `finish` of its `Sha512` and `Ripemd160` the padding with the length
of the message. A write past the end of the buffer fails.

A buffer holds a stream of blocks (`Holds`), and what is behind its used part does not matter. No
write fails, and the pieces go through it as through the stream (`blocks_holds`), up to the padded
message (`finish_holds`).

How much of the buffer is used is kept as a number of 64 bits, as in the source, and the length of
the message in bits as two of them.
-/

set_option autoImplicit false
set_option relaxedAutoImplicit false

namespace Bc3Miner.Reference

open Foundations MessageBlocks BlockStream

variable {σ : Type}

/-- The chain, the array of pending bytes and how many of them are used. -/
structure BlockBuffer (σ : Type) where
  chain : σ
  pending : List UInt8
  used : ℕ

/-- The bytes of a block, as an array. -/
def toBlock (bytes : List UInt8) : Vector UInt8 64 := Vector.ofFn fun i ↦ bytes.getD i 0

/-- The loop over the blocks that stand whole in the data. -/
def wholeBlocks (size : ℕ) (compress : σ → List UInt8 → σ) (chain : σ) (data : List UInt8) :
    σ × List UInt8 :=
  if 0 < size ∧ size ≤ data.length then
    wholeBlocks size compress (compress chain (data.take size)) (data.drop size)
  else (chain, data)
termination_by data.length
decreasing_by
  rw [List.length_drop]
  omega

namespace BlockBuffer

/-- A block that is begun is filled up first. -/
def fillUp (size : ℕ) (compress : σ → List UInt8 → σ) (s : BlockBuffer σ) (data : List UInt8) :
    Option (BlockBuffer σ × List UInt8) :=
  if s.used = 0 then some (s, data)
  else do
    let take := min (size - s.used) data.length
    let pending ← store s.pending s.used (data.take take)
    let used := s.used + take
    if used = size then some (⟨compress s.chain pending, pending, 0⟩, data.drop take)
    else some (⟨s.chain, pending, used⟩, data.drop take)

/-- The blocks that stand whole in the data, and what is left of it. -/
def takeBlocks (size : ℕ) (compress : σ → List UInt8 → σ) (s : BlockBuffer σ) (data : List UInt8) :
    Option (BlockBuffer σ) :=
  let (chain, data) := wholeBlocks size compress s.chain data
  if data.length = 0 then some ⟨chain, s.pending, s.used⟩
  else do
    let pending ← store s.pending 0 data
    some ⟨chain, pending, data.length⟩

def blocks (size : ℕ) (compress : σ → List UInt8 → σ) (s : BlockBuffer σ) (data : List UInt8) :
    Option (BlockBuffer σ) :=
  if data.length = 0 then some s
  else do
    let (s, data) ← s.fillUp size compress data
    s.takeBlocks size compress data

/-- The block that the length ends. -/
def lastBlock (room : ℕ) (compress : σ → List UInt8 → σ) (length : List UInt8)
    (s : BlockBuffer σ) : Option σ := do
  let pending ← store s.pending s.used (List.replicate (room - s.used) 0)
  let pending ← store pending room length
  some (compress s.chain pending)

/-- The bit one, zeros, and the length from place `room` on, in one block or two. -/
def finish (size room : ℕ) (compress : σ → List UInt8 → σ) (length : List UInt8)
    (s : BlockBuffer σ) : Option σ := do
  let pending ← store s.pending s.used [0x80]
  let used := s.used + 1
  if room < used then do
    let pending ← store pending used (List.replicate (size - used) 0)
    lastBlock room compress length ⟨compress s.chain pending, pending, 0⟩
  else lastBlock room compress length ⟨s.chain, pending, used⟩

/-- The chain and the bytes that wait. The bytes behind them are of no matter. -/
structure Holds (size : ℕ) (s : BlockBuffer σ) (stream : σ × List UInt8) : Prop where
  length : s.pending.length = size
  used : s.used = stream.2.length
  chain : s.chain = stream.1
  waiting : ∃ behind, s.pending = stream.2 ++ behind

/-! ### Pieces -/

section Blocks

variable {size : ℕ} (hpos : 0 < size) (compress : σ → List UInt8 → σ)

/-- Bytes written behind those that wait. -/
theorem Holds.store {s : BlockBuffer σ} {stream : σ × List UInt8} (hholds : s.Holds size stream)
    {values : List UInt8} (hfits : stream.2.length + values.length ≤ size) :
    ∃ behind, MessageBlocks.store s.pending s.used values = some (stream.2 ++ values ++ behind) ∧
      (stream.2 ++ values ++ behind).length = size := by
  obtain ⟨behind, hpending⟩ := hholds.waiting
  have hlength := hholds.length
  have hroom : s.used + values.length ≤ s.pending.length := by
    rw [hholds.used, hlength]
    exact hfits
  refine ⟨s.pending.drop (s.used + values.length), ?_, ?_⟩
  · rw [store_eq hroom, hholds.used, hpending, List.take_left]
  · rw [List.length_append, List.length_append, List.length_drop, hlength, hholds.used]
    omega

include hpos

/-- Taking the whole blocks of the input is feeding it to a stream with nothing kept. -/
theorem wholeBlocks_eq_feed (chain : σ) (data : List UInt8) :
    wholeBlocks size compress chain data = feed size (· / size) compress (chain, []) data := by
  induction hlength : data.length using Nat.strong_induction_on generalizing chain data with
  | _ length ih =>
    rw [wholeBlocks]
    by_cases hwhole : size ≤ data.length
    · have hfirst : (data.take size).length = size := by
        rw [List.length_take, Nat.min_eq_left hwhole]
      have hshorter : (data.drop size).length < length := by
        rw [List.length_drop]
        omega
      have hsplit : (chain, ([] : List UInt8)).2 ++ data = data.take size ++ data.drop size := by
        rw [List.nil_append, List.take_append_drop]
      have hcount : (size + (data.drop size).length) / size =
          (data.drop size).length / size + 1 := by
        rw [Nat.add_comm, Nat.add_div_right _ hpos]
      rw [if_pos ⟨hpos, hwhole⟩, ih _ hshorter _ _ rfl, feed_of_block hsplit hfirst hcount]
    · have hnone : ((chain, ([] : List UInt8)).2 ++ data).length / size = 0 :=
        Nat.div_eq_of_lt (by rw [List.nil_append]; omega)
      rw [if_neg fun h ↦ hwhole h.2, feed_of_count_eq_zero hnone]
      rfl

/-- A buffer that nothing waits in. -/
theorem takeBlocks_holds {s : BlockBuffer σ} {chain : σ} (hholds : s.Holds size (chain, []))
    (data : List UInt8) :
    ∃ s', s.takeBlocks size compress data = some s' ∧
      s'.Holds size (feed size (· / size) compress (chain, []) data) := by
  have hchain : s.chain = chain := hholds.chain
  have hused : s.used = 0 := hholds.used
  have hwaits : (feed size (· / size) compress (chain, []) data).2.length < size := by
    have hcount := count_feed compress (cuts_whole hpos) (chain, []) data
    rcases Nat.div_eq_zero_iff.mp hcount with hzero | hlt
    · omega
    · exact hlt
  rw [takeBlocks, wholeBlocks_eq_feed hpos, hchain]
  generalize feed size (· / size) compress (chain, []) data = after at hwaits ⊢
  by_cases hnone : after.2.length = 0
  · have hnil := List.eq_nil_of_length_eq_zero hnone
    refine ⟨⟨after.1, s.pending, s.used⟩, if_pos hnone, hholds.length, ?_, rfl, s.pending, ?_⟩
    · rw [hnone]
      exact hused
    · rw [hnil]
      rfl
  · have hbefore : (chain, ([] : List UInt8)).2.length + after.2.length ≤ size := by
      rw [List.length_nil, Nat.zero_add]
      exact hwaits.le
    obtain ⟨behind, hstore, hlength⟩ := hholds.store hbefore
    rw [hused] at hstore
    refine ⟨⟨after.1, after.2 ++ behind, after.2.length⟩, ?_, hlength, rfl, rfl, behind, rfl⟩
    simp only [if_neg hnone, hstore]
    rfl

/-- A piece goes through the buffer as through the stream. Where it does not fill the block that is
open, the block stays open; otherwise the blocks that are whole go to the chain, and the rest is
kept. -/
theorem blocks_holds {s : BlockBuffer σ} {stream : σ × List UInt8} (hholds : s.Holds size stream)
    (hready : stream.2.length < size) (data : List UInt8) :
    ∃ s', s.blocks size compress data = some s' ∧
      s'.Holds size (feed size (· / size) compress stream data) := by
  obtain ⟨chain, rest⟩ := stream
  have hplace : s.used = rest.length := hholds.used
  have hchain : s.chain = chain := hholds.chain
  rw [blocks, fillUp]
  by_cases hempty : data.length = 0
  · have hnone : ((chain, rest).2 ++ data).length / size = 0 :=
      Nat.div_eq_of_lt (by rw [List.length_append]; omega)
    rw [if_pos hempty, feed_of_count_eq_zero hnone, List.eq_nil_of_length_eq_zero hempty,
      List.append_nil]
    exact ⟨s, rfl, hholds⟩
  rw [if_neg hempty]
  by_cases hused : s.used = 0
  · have hnil : rest = [] := List.eq_nil_of_length_eq_zero (hplace ▸ hused)
    subst hnil
    rw [if_pos hused]
    exact takeBlocks_holds hpos compress hholds data
  rw [if_neg hused, hplace]
  simp only [Option.bind_eq_bind]
  rcases Nat.lt_or_ge (rest.length + data.length) size with hshort | hfull
  · have htake : min (size - rest.length) data.length = data.length := Nat.min_eq_right (by omega)
    have hnone : ((chain, rest).2 ++ data).length / size = 0 :=
      Nat.div_eq_of_lt (by rw [List.length_append]; exact hshort)
    have hdone : wholeBlocks size compress s.chain ([] : List UInt8) = (s.chain, []) := by
      rw [wholeBlocks, if_neg]
      rw [List.length_nil]
      omega
    obtain ⟨behind, hstore, hlength⟩ := hholds.store hshort.le
    rw [hplace] at hstore
    rw [htake, List.take_length, List.drop_length, hstore, Option.bind_some, if_neg hshort.ne,
      Option.bind_some, feed_of_count_eq_zero hnone]
    refine ⟨⟨s.chain, rest ++ data ++ behind, rest.length + data.length⟩, ?_, hlength,
      List.length_append.symm, hchain, behind, rfl⟩
    rw [takeBlocks, hdone]
    rfl
  · have htake : min (size - rest.length) data.length = size - rest.length :=
      Nat.min_eq_left (by omega)
    have hsum : rest.length + (size - rest.length) = size := by
      have hlt : rest.length < size := hready
      omega
    have hvalues : (data.take (size - rest.length)).length = size - rest.length := by
      rw [List.length_take, Nat.min_eq_left (by omega)]
    have hfits : (chain, rest).2.length + (data.take (size - rest.length)).length ≤ size := by
      rw [hvalues, hsum]
    have hblock : (rest ++ data.take (size - rest.length)).length = size := by
      rw [List.length_append, hvalues, hsum]
    have hsplit : (chain, rest).2 ++ data = rest ++ data.take (size - rest.length) ++
        data.drop (size - rest.length) := by
      rw [List.append_assoc, List.take_append_drop]
    have hcount : (size + (data.drop (size - rest.length)).length) / size =
        (data.drop (size - rest.length)).length / size + 1 := by
      rw [Nat.add_comm, Nat.add_div_right _ hpos]
    obtain ⟨behind, hstore, hlength⟩ := hholds.store hfits
    have hbehind : behind = [] := by
      rw [List.length_append, hblock] at hlength
      exact List.eq_nil_of_length_eq_zero (by omega)
    rw [hplace, hbehind, List.append_nil] at hstore
    rw [htake, hstore, Option.bind_some, hsum, if_pos rfl, Option.bind_some, hchain,
      feed_of_block hsplit hblock hcount]
    exact takeBlocks_holds hpos compress ⟨hblock, rfl, rfl, _, rfl⟩ _

/-! ### The end -/

omit hpos in
/-- The last block, if what waits leaves room for the length. It is made of the bytes that wait,
zeros up to the room and the length, whatever the buffer held behind the bytes that wait, and it is
compressed once. -/
theorem lastBlock_eq {room : ℕ} (hroom : room ≤ size) {length : List UInt8}
    (hlength : length.length = size - room) {before behind : List UInt8}
    (hbuffer : (before ++ behind).length = size) (hbefore : before.length ≤ room) (chain : σ) :
    lastBlock room compress length ⟨chain, before ++ behind, before.length⟩ =
      some (compress chain (before ++ List.replicate (room - before.length) 0 ++ length)) := by
  have hplaced : (before ++ List.replicate (room - before.length) (0 : UInt8)).length = room := by
    rw [List.length_append, List.length_replicate]
    omega
  have hsum :
      before.length + (List.replicate (room - before.length) (0 : UInt8)).length = room := by
    rw [← List.length_append, hplaced]
  have hfits : before.length + (List.replicate (room - before.length) (0 : UInt8)).length ≤
      (before ++ behind).length := by
    rw [hsum, hbuffer]
    exact hroom
  have hafter : length.length = ((before ++ behind).drop room).length := by
    rw [List.length_drop, hlength, hbuffer]
  have hstored := store_append hplaced hafter []
  rw [List.append_nil, List.append_nil] at hstored
  rw [lastBlock, store_eq hfits, Option.bind_eq_bind, Option.bind_some, hsum, List.take_left,
    hstored]
  rfl

/-- Finishing a buffer that holds less than a block. The blocks that are compressed are those of the
bytes that wait with the padding behind them: one if the length fits behind the bytes, and two else.
-/
theorem finish_holds {room : ℕ} (hroom : room ≤ size) {s : BlockBuffer σ} {chain : σ}
    {rest : List UInt8} (hholds : s.Holds size (chain, rest)) (hready : rest.length < size)
    {length : List UInt8} (hlength : length.length = size - room) :
    s.finish size room compress length =
      some ((MessageBlocks.blocks size (rest ++ 0x80 :: List.replicate
        (padding size (rest.length + 1 + (size - room))) 0 ++ length)).foldl compress chain) := by
  have hone : (chain, rest).2.length + [(0x80 : UInt8)].length ≤ size := hready
  obtain ⟨behind, hstore, hbuffer⟩ := hholds.store hone
  have hmarked : (rest ++ [(0x80 : UInt8)]).length = rest.length + 1 := List.length_append
  have hchain : s.chain = chain := hholds.chain
  have hused : s.used = rest.length := hholds.used
  have hbehind : rest.length + 1 + behind.length = size := by
    rw [← hmarked, ← List.length_append]
    exact hbuffer
  rw [finish, hstore, hused, hchain, Option.bind_eq_bind, Option.bind_some]
  by_cases htwo : room < rest.length + 1
  · have hzeros : (List.replicate (size - (rest.length + 1)) (0 : UInt8)).length =
        behind.length := by
      rw [List.length_replicate]
      omega
    have hfirst : (rest ++ [0x80] ++ List.replicate (size - (rest.length + 1)) (0 : UInt8)).length =
        size := by
      rw [List.length_append, hmarked, hzeros, hbehind]
    have hstored := store_append hmarked hzeros []
    rw [List.append_nil, List.append_nil] at hstored
    have hcount : size - (rest.length + 1) + room =
        padding size (rest.length + 1 + (size - room)) := by
      refine eq_padding hpos (by omega) ?_
      have hsum : rest.length + 1 + (size - room) + (size - (rest.length + 1) + room) =
          size + size := by omega
      rw [hsum]
      exact Nat.dvd_add dvd_rfl dvd_rfl
    have hsecond : (List.replicate room (0 : UInt8) ++ length).length = size := by
      rw [List.length_append, List.length_replicate, hlength]
      omega
    have hblocks : MessageBlocks.blocks size (rest ++ 0x80 :: List.replicate
        (padding size (rest.length + 1 + (size - room))) 0 ++ length) =
          [rest ++ [0x80] ++ List.replicate (size - (rest.length + 1)) 0,
            List.replicate room 0 ++ length] := by
      rw [← blocks_of_length_eq hpos hsecond, ← blocks_append hpos hfirst, ← hcount,
        List.replicate_add]
      simp only [List.append_assoc, List.cons_append, List.nil_append]
    have hclear : (([] : List UInt8) ++
        (rest ++ [0x80] ++ List.replicate (size - (rest.length + 1)) 0)).length = size := hfirst
    have hend := lastBlock_eq compress hroom hlength hclear (Nat.zero_le room) (compress chain
      (rest ++ [0x80] ++ List.replicate (size - (rest.length + 1)) 0))
    rw [if_pos htwo, hstored, Option.bind_some, hblocks]
    exact hend
  · have hcount : room - (rest.length + 1) = padding size (rest.length + 1 + (size - room)) := by
      refine eq_padding hpos (by omega) ?_
      have hsum : rest.length + 1 + (size - room) + (room - (rest.length + 1)) = size := by omega
      rw [hsum]
    have hwhole : (rest ++ [0x80] ++ List.replicate (room - (rest.length + 1)) (0 : UInt8) ++
        length).length = size := by
      rw [List.length_append, List.length_append, hmarked, List.length_replicate, hlength]
      omega
    have hblocks : MessageBlocks.blocks size (rest ++ 0x80 :: List.replicate
        (padding size (rest.length + 1 + (size - room))) 0 ++ length) =
          [rest ++ [0x80] ++ List.replicate (room - (rest.length + 1)) 0 ++ length] := by
      rw [← blocks_of_length_eq hpos hwhole, ← hcount]
      simp only [List.append_assoc, List.cons_append, List.nil_append]
    have hend := lastBlock_eq compress hroom hlength hbuffer (hmarked.trans_le (not_lt.mp htwo))
      chain
    rw [hmarked] at hend
    rw [if_neg htwo, hblocks]
    exact hend

end Blocks

end BlockBuffer

end Bc3Miner.Reference
