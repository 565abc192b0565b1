import Bc3Miner.Foundations.Binary64

/-!
# How many nonces a launch covers

Two mechanisms of the source set the size of a launch: the autotune of `src/gpu_worker.rs`, which
aims for a time per launch in whole waves of the card, and the `HitBudget` of `src/backend/mod.rs`,
which keeps the hits of a launch inside the kernel's buffer.

Neither of the two looks at the other: the size of a launch is the smaller of the one that the
autotune has come to and the chunk of the budget. What the one guarantees is in `LaunchSettling`,
and what the other does over a run in `HitBudgetRun`.
-/

set_option autoImplicit false
set_option relaxedAutoImplicit false

namespace Bc3Miner.Mining

open Foundations

/-! ### The hit budget -/

/-- Nonces that one launch can report. -/
def maxHits : ℕ := 64

/-- Launches with headroom before the budget doubles again. -/
def recoverAfter : ℕ := 64

/-- The limit on a launch, once an overflow has been seen. -/
structure HitBudget where
  limit : Option ℕ := none
  logged : Bool := false
  cleanRuns : ℕ := 0

namespace HitBudget

/-- How many nonces the next launch may cover, of `remaining` left to do. -/
def chunk (budget : HitBudget) (remaining : ℕ) : ℕ :=
  match budget.limit with
  | some limit => min limit remaining
  | none => remaining

/-- The line logged at the first overflow. -/
def overflowMessage (reported limit : ℕ) : String :=
  s!"[gpu] kernel reported {reported} hits but only {maxHits} fit in the buffer - " ++
    s!"{reported - maxHits} nonce(s) dropped. Halving the batch to {limit} nonces per launch. " ++
    "This means the share difficulty is far below what this device needs."

/-- Record a launch over `covered` nonces that reported `reported` hits; a message at the first
overflow only. A limit that `checked_mul` finds too large for a `u32` is lifted. -/
def overflowed (budget : HitBudget) (covered reported : ℕ) : HitBudget × Option String :=
  if reported ≤ maxHits then
    match budget.limit with
    | none => (budget, none)
    | some limit =>
      if reported * 4 ≤ maxHits then
        if recoverAfter ≤ budget.cleanRuns + 1 then
          ({ budget with cleanRuns := 0
                         limit := if limit * 2 < 2 ^ 32 then some (limit * 2) else none }, none)
        else ({ budget with cleanRuns := budget.cleanRuns + 1 }, none)
      else ({ budget with cleanRuns := 0 }, none)
  else
    let limit := max ((budget.chunk covered + 1) / 2) 1
    let halved : HitBudget := { budget with cleanRuns := 0, limit := some limit }
    if budget.logged then (halved, none)
    else ({ halved with logged := true }, some (overflowMessage reported limit))

/-- The budget never asks for more than what is left to do. -/
theorem chunk_le (budget : HitBudget) (remaining : ℕ) : budget.chunk remaining ≤ remaining := by
  unfold chunk
  cases budget.limit with
  | none => exact le_rfl
  | some limit => exact min_le_right _ _

end HitBudget

/-! ### The autotune -/

/-- Fewest and most nonces of a launch, before they are rounded to whole waves. -/
def minBatch : ℕ := 2 ^ 8

def maxBatch : ℕ := 2 ^ 24

/-- The launch size of a worker that has not measured anything yet. -/
def startBatch : ℕ := 2 ^ 8

/-- The time a launch aims for, in nanoseconds. -/
def targetLaunch : ℕ := 400 * 10 ^ 6

/-- A duration in nanoseconds as a double of seconds. -/
def secondsOf (duration : ℕ) : Binary64 :=
  (Binary64.ofNat (duration / 10 ^ 9)).add
    ((Binary64.ofNat (duration % 10 ^ 9)).div (.ofNat (10 ^ 9)))

/-- The duration of a double of seconds, rounded to the nearest nanosecond; the source panics on a
negative or an immeasurable one, which no product of a duration and a positive ratio is. -/
def durationOf : Binary64 → ℕ
  | .finite seconds => Binary64.divideToNearest (seconds.num.toNat * 10 ^ 9) seconds.den
  | _ => 0

/-- A duration times a double. -/
def scaleDuration (duration : ℕ) (factor : Binary64) : ℕ :=
  durationOf (factor.mul (secondsOf duration))

/-- The next batch size: double below half the target time, halve above two and a half times it, in
whole multiples of `granule`, within `low` and `high`. -/
def autotune (batch took target granule low high : ℕ) : ℕ :=
  let granule := max granule 1
  let next :=
    if took < target / 2 ∧ batch < high then min (min (batch * 2) (2 ^ 32 - 1)) high
    else if target * 5 / 2 < took ∧ low < batch then max (batch / 2) low
    else batch
  max (min low high) (min high (max (next / granule) 1 * granule))

end Bc3Miner.Mining
