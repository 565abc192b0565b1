import Mathlib.Data.List.Basic
import Mathlib.Tactic.Common

/-!
# Objects that take a message piece by piece

An object is given a message in pieces and then finishes, once: from then on it refuses every call.
Its functions have no result where they throw on the message.

An object that computes a digest of its message (`Digester.Computes`), in that some relation between
states and messages goes through its functions, gives that digest whatever the pieces are and
whatever it is called with afterwards, and throws where they are too long (`replies`).

Throwing is no result at all here, and a refusal is a reply: after `finish` an object still answers,
and the answer is that it refuses. `Digester.Computes` asks for a relation `Took` between states and
messages, kept by `update` as long as the message is not too long, and for the digest at the end.
-/

set_option autoImplicit false
set_option relaxedAutoImplicit false

namespace Bc3Miner.Foundations

variable {α State Digest : Type} {most : ℕ}

/-- A piece of a message, of fewer than `most` items. -/
structure Piece (α : Type) (most : ℕ) where
  data : List α
  fits : data.length < most

inductive PieceCall (α : Type) (most : ℕ) where
  | update (piece : Piece α most)
  | finish

/-- What a call comes back with. -/
inductive PieceReply (Digest : Type) where
  | done
  | digest (result : Digest)
  | refused
  deriving DecidableEq

/-- The functions of an object. -/
structure Digester (α State Digest : Type) where
  start : Option State
  update : State → List α → Option State
  finish : State → Option Digest

namespace Digester

/-- An object, and whether it has finished. -/
structure Object (State : Type) where
  state : State
  finished : Bool

variable (digester : Digester α State Digest)

def call (object : Object State) :
    PieceCall α most → Option (Object State × PieceReply Digest)
  | .update piece =>
    if object.finished then some (object, .refused)
    else (digester.update object.state piece.data).map fun state ↦
      ({ object with state := state }, .done)
  | .finish =>
    if object.finished then some (object, .refused)
    else (digester.finish object.state).map fun result ↦
      ({ object with finished := true }, .digest result)

/-- One call after the other. -/
def calls : Object State → List (PieceCall α most) → Option (List (PieceReply Digest))
  | _, [] => some []
  | object, first :: rest => do
    let (object, reply) ← digester.call object first
    let replies ← calls object rest
    some (reply :: replies)

/-- The calls to a new object. -/
def run (list : List (PieceCall α most)) : Option (List (PieceReply Digest)) := do
  let state ← digester.start
  digester.calls ⟨state, false⟩ list

/-- The states of a message: an object takes every piece that keeps the message below the limit and
throws on all others, and it finishes with the digest. -/
structure Computes (most limit : ℕ) (Took : State → List α → Prop) (digest : List α → Digest) :
    Prop where
  start : ∃ state, digester.start = some state ∧ Took state []
  update {state : State} {msg data : List α} : Took state msg → data.length < most →
    msg.length + data.length < limit →
      ∃ state', digester.update state data = some state' ∧ Took state' (msg ++ data)
  update_long {state : State} {msg data : List α} : Took state msg → msg.length < limit →
    data.length < most → limit ≤ msg.length + data.length → digester.update state data = none
  finish {state : State} {msg : List α} : Took state msg →
    digester.finish state = some (digest msg)

/-- After the end every call is refused. -/
theorem calls_finished (state : State) (list : List (PieceCall α most)) :
    digester.calls ⟨state, true⟩ list = some (List.replicate list.length .refused) := by
  induction list with
  | nil => rfl
  | cons first rest ih =>
    have hcall : digester.call ⟨state, true⟩ first = some (⟨state, true⟩, .refused) := by
      cases first <;> rfl
    rw [calls, hcall]
    simp only [Option.bind_eq_bind, Option.bind_some, ih]
    rfl

section Computes

variable {digester} {limit : ℕ} {Took : State → List α → Prop} {digest : List α → Digest}
  (hcomputes : digester.Computes most limit Took digest)

include hcomputes

/-- The pieces that an object takes after a message, and what it does then. As long as all of it
stays below the limit every piece is taken, and the object has taken the pieces joined behind the
message; else one of the pieces makes it throw. -/
theorem Computes.calls_updates {state : State} {msg : List α} (htook : Took state msg)
    (hmsg : msg.length < limit) (pieces : List (Piece α most)) (later : List (PieceCall α most)) :
    if msg.length + (pieces.flatMap Piece.data).length < limit then
      ∃ state', Took state' (msg ++ pieces.flatMap Piece.data) ∧
        digester.calls ⟨state, false⟩ (pieces.map .update ++ later) =
          (digester.calls ⟨state', false⟩ later).map (List.replicate pieces.length .done ++ ·)
    else digester.calls ⟨state, false⟩ (pieces.map .update ++ later) = none := by
  induction pieces generalizing state msg with
  | nil =>
    rw [List.flatMap_nil, List.length_nil, Nat.add_zero, if_pos hmsg, List.append_nil]
    refine ⟨state, htook, ?_⟩
    show digester.calls ⟨state, false⟩ later = _
    rcases digester.calls ⟨state, false⟩ later with _ | replies <;> rfl
  | cons piece rest ih =>
    rw [List.flatMap_cons, List.length_append, List.map_cons, List.cons_append, calls]
    rcases Nat.lt_or_ge (msg.length + piece.data.length) limit with hfits | hlong
    · obtain ⟨next, hupdate, hnext⟩ := hcomputes.update htook piece.fits hfits
      have hcall : digester.call ⟨state, false⟩ (.update piece) = some (⟨next, false⟩, .done) := by
        show (digester.update state piece.data).map _ = _
        rw [hupdate]
        rfl
      have hrest := ih hnext (by rwa [List.length_append])
      rw [List.length_append, Nat.add_assoc] at hrest
      rw [hcall]
      simp only [Option.bind_eq_bind, Option.bind_some]
      by_cases hall : msg.length + (piece.data.length + (rest.flatMap Piece.data).length) < limit
      · rw [if_pos hall] at hrest ⊢
        obtain ⟨state', htook', hcalls⟩ := hrest
        rw [List.append_assoc] at htook'
        refine ⟨state', htook', ?_⟩
        rw [hcalls]
        rcases digester.calls ⟨state', false⟩ later with _ | replies <;> rfl
      · rw [if_neg hall] at hrest ⊢
        rw [hrest]
        rfl
    · have hcall : digester.call ⟨state, false⟩ (.update piece) = none := by
        show (digester.update state piece.data).map _ = _
        rw [hcomputes.update_long htook hmsg piece.fits hlong]
        rfl
      rw [if_neg (by omega), hcall]
      rfl

/-- Let an object compute a digest below a limit. For whatever pieces and whatever calls after
`finish`: below the limit every piece is taken, `finish` gives the digest of the pieces joined, and
every later call is refused; at the limit or above there is no run. -/
theorem Computes.replies (hlimit : 0 < limit) (pieces : List (Piece α most))
    (later : List (PieceCall α most)) :
    digester.run (pieces.map .update ++ .finish :: later) =
      if (pieces.flatMap Piece.data).length < limit then
        some (List.replicate pieces.length .done ++ .digest (digest (pieces.flatMap Piece.data)) ::
          List.replicate later.length .refused)
      else none := by
  obtain ⟨start, hstart, htook⟩ := hcomputes.start
  have hpieces := hcomputes.calls_updates htook hlimit pieces (.finish :: later)
  rw [List.length_nil, Nat.zero_add, List.nil_append] at hpieces
  rw [run, hstart]
  simp only [Option.bind_eq_bind, Option.bind_some]
  by_cases hshort : (pieces.flatMap Piece.data).length < limit
  · rw [if_pos hshort] at hpieces ⊢
    obtain ⟨state, htook, hcalls⟩ := hpieces
    have hfinish : digester.call ⟨state, false⟩ (.finish : PieceCall α most) =
        some (⟨state, true⟩, .digest (digest (pieces.flatMap Piece.data))) := by
      show (digester.finish state).map _ = _
      rw [hcomputes.finish htook]
      rfl
    rw [hcalls, calls, hfinish]
    simp only [Option.bind_eq_bind, Option.bind_some, calls_finished, Option.map_some]
  · rw [if_neg hshort] at hpieces ⊢
    exact hpieces

end Computes

end Digester

end Bc3Miner.Foundations
