import Mathlib.Data.List.GetD
import Mathlib.Data.Nat.ModEq
import Mathlib.Tactic.Common

/-!
# Messages in blocks

A list cut into blocks of one size, and a buffer that a block is written to. A write past the end of
the buffer fails; writes that fit replace what is there (`store_eq`).

`padding` is how many elements fill the last block up.

`Cut` is a cut of a list into pieces of one length, with nothing left, and there is only one
(`Cut.eq_blocks`); a specification that speaks of the blocks of a padded message means that cut.
`blocks_append_leftover` is that nothing is lost between the blocks and the rest.
-/

set_option autoImplicit false
set_option relaxedAutoImplicit false

namespace Bc3Miner.Foundations.MessageBlocks

variable {α : Type*}

/-! ### Blocks -/

/-- The whole blocks of a list, in order. -/
def blocks (size : ℕ) (items : List α) : List (List α) :=
  (List.range (items.length / size)).map fun i ↦ (items.drop (size * i)).take size

variable {size : ℕ} {first rest items : List α}

theorem length_blocks (size : ℕ) (items : List α) :
    (blocks size items).length = items.length / size := by
  rw [blocks, List.length_map, List.length_range]

theorem blocks_nil (size : ℕ) : blocks size ([] : List α) = [] := by
  rw [blocks, List.length_nil, Nat.zero_div]
  rfl

theorem blocks_of_lt (hlt : items.length < size) : blocks size items = [] := by
  rw [blocks, Nat.div_eq_of_lt hlt]
  rfl

/-- The first block, and those of the rest. -/
theorem blocks_append (hpos : 0 < size) (hfirst : first.length = size) (rest : List α) :
    blocks size (first ++ rest) = first :: blocks size rest := by
  have hcount : (first ++ rest).length / size = rest.length / size + 1 := by
    rw [List.length_append, hfirst, Nat.add_comm, Nat.add_div_right _ hpos]
  rw [blocks, hcount, List.range_succ_eq_map, List.map_cons, List.map_map, Nat.mul_zero,
    List.drop_zero, List.take_left' hfirst, blocks]
  refine congrArg (first :: ·) (List.map_congr_left fun i _ ↦ ?_)
  rw [Function.comp_apply, Nat.succ_eq_add_one, Nat.mul_succ, Nat.add_comm, ← hfirst,
    List.drop_length_add_append]

theorem blocks_of_length_eq (hpos : 0 < size) (hitems : items.length = size) :
    blocks size items = [items] := by
  have hsplit := blocks_append hpos hitems ([] : List α)
  rwa [List.append_nil, blocks_nil] at hsplit

/-- Items that fill a block start with it, and the blocks of the rest follow. -/
theorem blocks_of_le (hpos : 0 < size) (hle : size ≤ items.length) :
    blocks size items = items.take size :: blocks size (items.drop size) := by
  have hfirst : (items.take size).length = size := by
    rw [List.length_take, Nat.min_eq_left hle]
  have hsplit := blocks_append hpos hfirst (items.drop size)
  rwa [List.take_append_drop] at hsplit

/-- The blocks of a list of whole blocks and of what follows it. -/
theorem blocks_append_of_mul (hpos : 0 < size) {count : ℕ} (hfirst : first.length = size * count)
    (rest : List α) : blocks size (first ++ rest) = blocks size first ++ blocks size rest := by
  induction count generalizing first with
  | zero =>
    rw [List.length_eq_zero_iff.mp hfirst, blocks_nil]
    rfl
  | succ count ih =>
    have hle : size ≤ first.length := by
      rw [hfirst]
      exact Nat.le_mul_of_pos_right size (Nat.succ_pos count)
    have hhead : (first.take size).length = size := by
      rw [List.length_take, Nat.min_eq_left hle]
    have htail : (first.drop size).length = size * count := by
      rw [List.length_drop, hfirst, Nat.mul_succ, Nat.add_sub_cancel]
    have hsplit : first ++ rest = first.take size ++ (first.drop size ++ rest) := by
      rw [← List.append_assoc, List.take_append_drop]
    rw [hsplit, blocks_append hpos hhead, ih htail, blocks_of_le hpos hle, List.cons_append]

/-- What the whole blocks leave of a list. -/
def leftover (size : ℕ) (items : List α) : List α := items.drop (size * (items.length / size))

theorem leftover_of_lt (hlt : items.length < size) : leftover size items = items := by
  rw [leftover, Nat.div_eq_of_lt hlt, Nat.mul_zero, List.drop_zero]

/-- A block in front changes nothing of what is left over. -/
theorem leftover_append (hpos : 0 < size) (hfirst : first.length = size) (rest : List α) :
    leftover size (first ++ rest) = leftover size rest := by
  have hcount : (first ++ rest).length / size = rest.length / size + 1 := by
    rw [List.length_append, hfirst, Nat.add_comm, Nat.add_div_right _ hpos]
  rw [leftover, hcount, Nat.mul_succ, Nat.add_comm, ← hfirst, List.drop_length_add_append,
    hfirst, leftover]

theorem length_leftover_lt (hpos : 0 < size) (items : List α) :
    (leftover size items).length < size := by
  rw [leftover, List.length_drop, ← Nat.mod_eq_sub_mul_div]
  exact Nat.mod_lt _ hpos

/-- The blocks of a list, and then those that its rest makes with what follows. -/
theorem blocks_append_leftover (hpos : 0 < size) (items more : List α) :
    blocks size (items ++ more) =
      blocks size items ++ blocks size (leftover size items ++ more) := by
  have hle : size * (items.length / size) ≤ items.length := Nat.mul_div_le _ _
  have hfirst : (items.take (size * (items.length / size))).length =
      size * (items.length / size) := by
    rw [List.length_take, Nat.min_eq_left hle]
  have hrest := length_leftover_lt hpos items
  have hitems : blocks size items = blocks size (items.take (size * (items.length / size))) := by
    have hsplit := blocks_append_of_mul hpos hfirst (leftover size items)
    rwa [leftover, List.take_append_drop, ← leftover, blocks_of_lt hrest, List.append_nil] at hsplit
  rw [hitems, ← blocks_append_of_mul hpos hfirst, ← List.append_assoc, leftover,
    List.take_append_drop]

/-- The blocks are blocks of that size and make up the list, item by item. -/
structure Cut (size : ℕ) (items : List α) (parts : List (List α)) : Prop where
  flatten : parts.flatten = items
  length : ∀ part ∈ parts, part.length = size

/-- Items whose number is a multiple of the block size are cut into blocks with nothing left. -/
theorem cut_blocks (hpos : 0 < size) (hitems : size ∣ items.length) :
    Cut size items (blocks size items) := by
  obtain ⟨count, hitems⟩ := hitems
  induction count generalizing items with
  | zero =>
    rw [List.length_eq_zero_iff.mp hitems, blocks_nil]
    exact ⟨rfl, fun part hmem ↦ absurd hmem List.not_mem_nil⟩
  | succ count ih =>
    have hle : size ≤ items.length := by
      rw [hitems]
      exact Nat.le_mul_of_pos_right size (Nat.succ_pos count)
    have htail : (items.drop size).length = size * count := by
      rw [List.length_drop, hitems, Nat.mul_succ, Nat.add_sub_cancel]
    obtain ⟨hflatten, hlength⟩ := ih htail
    rw [blocks_of_le hpos hle]
    refine ⟨?_, fun part hmem ↦ ?_⟩
    · rw [List.flatten_cons, hflatten, List.take_append_drop]
    · rcases List.mem_cons.mp hmem with hfirst | hlater
      · rw [hfirst, List.length_take, Nat.min_eq_left hle]
      · exact hlength part hlater

/-- There is only one way to cut a list. -/
theorem Cut.eq_blocks (hpos : 0 < size) {parts : List (List α)} (hcut : Cut size items parts) :
    parts = blocks size items := by
  obtain ⟨rfl, hlength⟩ := hcut
  induction parts with
  | nil => rw [List.flatten_nil, blocks_nil]
  | cons part rest ih =>
    rw [List.flatten_cons, blocks_append hpos (hlength part List.mem_cons_self),
      ← ih fun other hmem ↦ hlength other (List.mem_cons_of_mem _ hmem)]

/-! ### Padding -/

/-- The least number of items that fills `length` up to whole blocks. -/
def padding (size length : ℕ) : ℕ := (size - length % size) % size

/-- The padding is shorter than a block and fills up the last one. -/
theorem padding_spec (hpos : 0 < size) (length : ℕ) :
    padding size length < size ∧ size ∣ length + padding size length := by
  refine ⟨Nat.mod_lt _ hpos, ?_⟩
  have hsplit := Nat.div_add_mod length size
  have hrest := Nat.mod_lt length hpos
  unfold padding
  rcases Nat.eq_zero_or_pos (length % size) with hzero | hsome
  · rw [hzero, Nat.sub_zero, Nat.mod_self, Nat.add_zero]
    exact Nat.dvd_of_mod_eq_zero hzero
  · rw [Nat.mod_eq_of_lt (by omega)]
    refine ⟨length / size + 1, ?_⟩
    rw [Nat.mul_succ]
    omega

/-- No other number below the size does. -/
theorem eq_padding (hpos : 0 < size) {length count : ℕ} (hlt : count < size)
    (hdvd : size ∣ length + count) : count = padding size length := by
  obtain ⟨hpadding, hwhole⟩ := padding_spec hpos length
  have hmod : length + count ≡ length + padding size length [MOD size] :=
    (Nat.mod_eq_zero_of_dvd hdvd).trans (Nat.mod_eq_zero_of_dvd hwhole).symm
  have hsame := Nat.ModEq.add_left_cancel' length hmod
  rwa [Nat.ModEq, Nat.mod_eq_of_lt hlt, Nat.mod_eq_of_lt hpadding] at hsame

/-! ### The buffer -/

/-- The values written one after the other from a place on, all of them within the buffer. -/
def store (buffer : List α) (place : ℕ) : List α → Option (List α)
  | [] => some buffer
  | value :: rest =>
    if place < buffer.length then store (buffer.set place value) (place + 1) rest else none

/-- Values that fit are written, and the rest of the buffer stays. -/
theorem store_eq {buffer values : List α} {place : ℕ}
    (hfits : place + values.length ≤ buffer.length) :
    store buffer place values =
      some (buffer.take place ++ values ++ buffer.drop (place + values.length)) := by
  induction values generalizing buffer place with
  | nil =>
    rw [store, List.append_nil, List.length_nil, Nat.add_zero, List.take_append_drop]
  | cons value rest ih =>
    rw [List.length_cons] at hfits
    have hplace : place < buffer.length := by omega
    have htake : (buffer.set place value).take (place + 1) = buffer.take place ++ [value] := by
      rw [List.take_add_one, List.take_set_of_le le_rfl, List.getElem?_set_self hplace]
      rfl
    have hdrop : (buffer.set place value).drop (place + 1 + rest.length) =
        buffer.drop (place + (rest.length + 1)) := by
      rw [List.drop_set_of_lt (by omega)]
      congr 1
      omega
    rw [store, if_pos hplace, ih (by rw [List.length_set]; omega), htake, hdrop, List.length_cons,
      List.append_assoc (buffer.take place), List.singleton_append]

/-- Values in place of as many. -/
theorem store_append {before values : List α} {place : ℕ} (hbefore : before.length = place)
    {replaced : List α} (hvalues : values.length = replaced.length) (after : List α) :
    store (before ++ replaced ++ after) place values = some (before ++ values ++ after) := by
  have hfits : place + values.length ≤ (before ++ replaced ++ after).length := by
    rw [List.length_append, List.length_append, hbefore, hvalues]
    exact Nat.le_add_right _ _
  have hplaced : (before ++ replaced).length = place + values.length := by
    rw [List.length_append, hbefore, hvalues]
  rw [store_eq hfits, List.drop_left' hplaced, List.append_assoc before, List.take_left' hbefore]

/-- Values at the front of a cleared buffer. -/
theorem store_replicate {values : List α} (hvalues : values.length ≤ size) (zero : α) :
    store (List.replicate size zero) 0 values =
      some (values ++ List.replicate (size - values.length) zero) := by
  rw [store_eq (by rwa [Nat.zero_add, List.length_replicate]), List.take_zero, List.nil_append,
    Nat.zero_add, List.drop_replicate]

end Bc3Miner.Foundations.MessageBlocks
