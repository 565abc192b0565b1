import Bc3Miner.Foundations.MessageBlocks

/-!
# Messages that come in pieces

A chain takes a message block by block, and the items that come too early for their block wait. How
many blocks a length lets go is a rule of its own (`Cuts`): every whole block at once
(`cuts_whole`), or all but the last one, which is kept even where it is full (`cuts_leading`).

Whatever the rule, a message and then another one leave the chain and the items that wait of the
two joined together (`feed_append`).

A rule is a function from lengths to counts with two properties: it takes no more than there is, and
what it takes of a length and of more is what it takes of the length and then of the rest with that
more (`Cuts`). Everything after that is about lists: `taken` and `kept` split a message as the rule
says, and a message that is joined to what was kept goes on where the first one stopped.
-/

set_option autoImplicit false
set_option relaxedAutoImplicit false

namespace Bc3Miner.Foundations.BlockStream

open MessageBlocks

variable {α σ : Type*}

/-! ### Rules -/

/-- A rule for the blocks of `size` items: it takes no more than there is, and what it takes of a
length and of more is what it takes of the length and then of the rest with that more. -/
structure Cuts (size : ℕ) (count : ℕ → ℕ) : Prop where
  fits (length : ℕ) : size * count length ≤ length
  split (length more : ℕ) :
    count (length + more) = count length + count (length - size * count length + more)

/-- Every whole block. -/
theorem cuts_whole {size : ℕ} (hpos : 0 < size) : Cuts size (· / size) where
  fits length := Nat.mul_div_le length size
  split length more := by
    have hsplit : length + more = length - size * (length / size) + more +
        size * (length / size) := by
      have hle := Nat.mul_div_le length size
      omega
    show (length + more) / size = length / size + (length - size * (length / size) + more) / size
    rw [hsplit, Nat.add_mul_div_left _ _ hpos, Nat.add_comm (length / size)]

/-- Every whole block that something follows. -/
theorem cuts_leading {size : ℕ} (hpos : 0 < size) : Cuts size fun length ↦ (length - 1) / size where
  fits length := (Nat.mul_div_le (length - 1) size).trans (Nat.sub_le length 1)
  split length more := by
    have hle := Nat.mul_div_le (length - 1) size
    rcases Nat.eq_zero_or_pos length with rfl | hlength
    · simp only [Nat.zero_sub, Nat.zero_div, Nat.mul_zero, Nat.zero_add, Nat.sub_zero]
    · have hsplit : length + more - 1 =
          length - size * ((length - 1) / size) + more - 1 + size * ((length - 1) / size) := by
        omega
      show (length + more - 1) / size =
        (length - 1) / size + (length - size * ((length - 1) / size) + more - 1) / size
      rw [hsplit, Nat.add_mul_div_left _ _ hpos, Nat.add_comm ((length - 1) / size)]

/-! ### Cutting a list -/

/-- The blocks that a list lets go. -/
def taken (size : ℕ) (count : ℕ → ℕ) (items : List α) : List (List α) :=
  (List.range (count items.length)).map fun i ↦ (items.drop (size * i)).take size

/-- The items that wait. -/
def kept (size : ℕ) (count : ℕ → ℕ) (items : List α) : List α :=
  items.drop (size * count items.length)

section Cutting

variable {size : ℕ} {count : ℕ → ℕ} (hcuts : Cuts size count)

include hcuts

/-- What waits lets no block go. -/
theorem Cuts.count_rest (length : ℕ) : count (length - size * count length) = 0 := by
  have hsplit := hcuts.split length 0
  rw [Nat.add_zero, Nat.add_zero] at hsplit
  omega

theorem Cuts.count_kept (items : List α) : count (kept size count items).length = 0 := by
  rw [kept, List.length_drop]
  exact hcuts.count_rest items.length

theorem Cuts.drop_append (items more : List α) :
    (items ++ more).drop (size * count items.length) = kept size count items ++ more := by
  rw [List.drop_append_of_le_length (hcuts.fits items.length), kept]

/-- The blocks of a list, and then those that its rest makes with what follows. -/
theorem Cuts.taken_append (items more : List α) :
    taken size count (items ++ more) =
      taken size count items ++ taken size count (kept size count items ++ more) := by
  have hcount : count (items ++ more).length =
      count items.length + count (kept size count items ++ more).length := by
    rw [List.length_append, hcuts.split, List.length_append, kept, List.length_drop]
  rw [taken, hcount, List.range_add, List.map_append, List.map_map]
  refine congrArg₂ (· ++ ·) (List.map_congr_left fun i hmem ↦ ?_) (List.map_congr_left fun i _ ↦ ?_)
  · have hi := List.mem_range.mp hmem
    have hfits := hcuts.fits items.length
    have hend : size * i + size ≤ items.length := by
      have hle := Nat.mul_le_mul_left size (Nat.succ_le_of_lt hi)
      rw [Nat.mul_succ] at hle
      omega
    rw [List.drop_append_of_le_length (by omega),
      List.take_append_of_le_length (by rw [List.length_drop]; omega)]
  · rw [Function.comp_apply, Nat.mul_add, ← List.drop_drop, hcuts.drop_append]

/-- What is kept of two pieces taken one after the other is what is kept of their join: only the
items kept of the first piece matter for the second. -/
theorem Cuts.kept_append (items more : List α) :
    kept size count (items ++ more) = kept size count (kept size count items ++ more) := by
  have hcount : count (items ++ more).length =
      count items.length + count (kept size count items ++ more).length := by
    rw [List.length_append, hcuts.split, List.length_append, kept, List.length_drop]
  rw [kept, hcount, Nat.mul_add, ← List.drop_drop, hcuts.drop_append, ← kept]

end Cutting

theorem taken_of_count_eq_zero {size : ℕ} {count : ℕ → ℕ} {items : List α}
    (hnone : count items.length = 0) : taken size count items = [] := by
  rw [taken, hnone]
  rfl

theorem kept_of_count_eq_zero {size : ℕ} {count : ℕ → ℕ} {items : List α}
    (hnone : count items.length = 0) : kept size count items = items := by
  rw [kept, hnone, Nat.mul_zero, List.drop_zero]

/-! ### The stream -/

section Stream

variable (size : ℕ) (count : ℕ → ℕ) (step : σ → List α → σ)

/-- A piece of the message: the chain takes the blocks that it completes. -/
def feed (stream : σ × List α) (items : List α) : σ × List α :=
  ((taken size count (stream.2 ++ items)).foldl step stream.1, kept size count (stream.2 ++ items))

variable {size count step} {stream : σ × List α} {items : List α}

/-- A piece that completes no block waits. -/
theorem feed_of_count_eq_zero (hnone : count (stream.2 ++ items).length = 0) :
    feed size count step stream items = (stream.1, stream.2 ++ items) := by
  rw [feed, taken_of_count_eq_zero hnone, kept_of_count_eq_zero hnone]
  rfl

/-- A piece whose first items fill a block up, where the rule lets that block go. -/
theorem feed_of_block {block rest : List α} (hsplit : stream.2 ++ items = block ++ rest)
    (hblock : block.length = size) (hcount : count (size + rest.length) = count rest.length + 1) :
    feed size count step stream items = feed size count step (step stream.1 block, []) rest := by
  have hlength : count (block ++ rest).length = count rest.length + 1 := by
    rw [List.length_append, hblock, hcount]
  have htaken : taken size count (block ++ rest) = block :: taken size count rest := by
    rw [taken, hlength, List.range_succ_eq_map, List.map_cons, List.map_map, Nat.mul_zero,
      List.drop_zero, List.take_left' hblock, taken]
    refine congrArg (block :: ·) (List.map_congr_left fun i _ ↦ ?_)
    rw [Function.comp_apply, Nat.succ_eq_add_one, Nat.mul_succ, Nat.add_comm, ← hblock,
      List.drop_length_add_append]
  have hkept : kept size count (block ++ rest) = kept size count rest := by
    rw [kept, hlength, Nat.mul_succ, Nat.add_comm, ← hblock, List.drop_length_add_append, kept,
      hblock]
  rw [feed, hsplit, htaken, hkept, List.foldl_cons, feed, List.nil_append]

variable (step) (hcuts : Cuts size count)

include hcuts

theorem count_feed (stream : σ × List α) (items : List α) :
    count (feed size count step stream items).2.length = 0 :=
  hcuts.count_kept _

theorem feed_append (stream : σ × List α) (first rest : List α) :
    feed size count step stream (first ++ rest) =
      feed size count step (feed size count step stream first) rest := by
  simp only [feed, ← List.append_assoc, hcuts.taken_append (stream.2 ++ first) rest,
    hcuts.kept_append (stream.2 ++ first) rest, List.foldl_append]

end Stream

end Bc3Miner.Foundations.BlockStream
