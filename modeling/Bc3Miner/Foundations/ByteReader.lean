import Mathlib.Data.List.Basic

/-!
# Reading values off the front of a byte string

A reader takes a value off the front of a byte string, or refuses it. `Reads reader bytes value`
says what a reader makes of an encoding wherever it stands: the value, with exactly those bytes
taken. Encodings that follow one another are read by readers that follow one another (`Reads.bind`),
and a list of encodings by one reader repeated (`Reads.items`); a whole byte string is then read to
its last byte (`Reads.whole`).

A reader that has read an encoding does not look behind it: `Reads` quantifies over whatever
follows. So a round trip is proved format by format, each from the rules for its parts, and never by
unfolding a reader. `Reads.check` is for a condition that the value has to meet.
-/

set_option autoImplicit false
set_option relaxedAutoImplicit false

namespace Bc3Miner.Foundations

/-- A reader takes a value off the front of a byte string. -/
abbrev Reader (α : Type) := StateT (List UInt8) Option α

namespace Reader

/-- The next bytes, so many of them. -/
def bytes (count : ℕ) : Reader (List UInt8) := fun input ↦
  if count ≤ input.length then some (input.take count, input.drop count) else none

/-- The next byte. -/
def byte : Reader UInt8
  | [] => none
  | byte :: rest => some (byte, rest)

/-- Values of one kind that follow one another, so many of them. -/
def items {α : Type} (reader : Reader α) : ℕ → Reader (List α)
  | 0 => pure []
  | count + 1 => do
    let first ← reader
    let rest ← items reader count
    return first :: rest

/-- Go on only if the condition holds. -/
def check (condition : Prop) [Decidable condition] : Reader Unit :=
  if condition then pure () else fun _ ↦ none

end Reader

/-- The reader makes the value of the bytes, whatever follows them. -/
def Reads {α : Type} (reader : Reader α) (encoding : List UInt8) (value : α) : Prop :=
  ∀ rest, reader (encoding ++ rest) = some (value, rest)

namespace Reads

variable {α β : Type} {reader : Reader α} {encoding : List UInt8} {value : α}

/-- A byte string that is one encoding is read to its last byte. -/
theorem whole (hreads : Reads reader encoding value) : reader encoding = some (value, []) := by
  have hread := hreads []
  rwa [List.append_nil] at hread

theorem pure (value : α) : Reads (Pure.pure value : Reader α) [] value := fun _ ↦ rfl

/-- One encoding after the other. -/
theorem bind {next : α → Reader β} {later : List UInt8} {result : β}
    (hfirst : Reads reader encoding value) (hnext : Reads (next value) later result) :
    Reads (reader >>= next) (encoding ++ later) result := by
  intro rest
  show (reader (encoding ++ later ++ rest)).bind (fun found ↦ next found.1 found.2) = _
  rw [List.append_assoc, hfirst (later ++ rest), Option.bind_some]
  exact hnext rest

/-- The last encoding, whose value is then put to use. -/
theorem bind_pure {result : β} {make : α → β} (hfirst : Reads reader encoding value)
    (hresult : make value = result) :
    Reads (reader >>= fun found ↦ Pure.pure (make found)) encoding result := by
  intro rest
  show (reader (encoding ++ rest)).bind (fun found ↦ some (make found.1, found.2)) = _
  rw [hfirst rest, Option.bind_some, hresult]

/-- A reader of `count` bytes reads an encoding of exactly that length and gives it back. -/
theorem bytes {encoding : List UInt8} {count : ℕ} (hcount : encoding.length = count) :
    Reads (Reader.bytes count) encoding encoding := by
  intro rest
  have hle : count ≤ (encoding ++ rest).length := by
    rw [List.length_append]
    omega
  rw [Reader.bytes, if_pos hle, List.take_left' hcount, List.drop_left' hcount]

theorem byte (value : UInt8) : Reads Reader.byte [value] value := fun _ ↦ rfl

/-- A check that holds takes nothing. -/
theorem check {condition : Prop} [Decidable condition] (hcondition : condition) :
    Reads (Reader.check condition) [] () := by
  intro rest
  rw [Reader.check, if_pos hcondition]
  rfl

/-- Encodings that follow one another, each read by the same reader. -/
theorem items (reader : Reader α) (entries : List (List UInt8 × α))
    (hentries : ∀ entry ∈ entries, Reads reader entry.1 entry.2) :
    Reads (Reader.items reader entries.length) (entries.flatMap Prod.fst)
    (entries.map Prod.snd) := by
  induction entries with
  | nil => exact pure []
  | cons entry entries ih =>
    have hfirst := hentries entry List.mem_cons_self
    have hrest := ih fun later hlater ↦ hentries later (List.mem_cons_of_mem _ hlater)
    rw [List.flatMap_cons, List.map_cons, List.length_cons]
    exact hfirst.bind (hrest.bind_pure rfl)

end Reads

end Bc3Miner.Foundations
