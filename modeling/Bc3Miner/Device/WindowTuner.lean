import Bc3Miner.Foundations.PartialMachine
import Bc3Miner.Mining.LaunchSize
import Mathlib.Data.List.Infix

/-!
# The window tuner

`src/tuning.rs` without its file: the sizes of the tables of a BC3Hash window (`tableBytes`,
`largestFitting`), and the tuner that measures 16, the largest window that fits, and 16 again, and
says what to do next. The tuner only answers: its driver makes the switches and reports launches.

`Drive` is a driver of one tuner together with what was said between them. A driver makes the switch
it was told to, once, before it reports a launch at that window, and a card that goes straight to a
remembered window is reported ready once. Nothing else is asked of the order of events.

A rate is nonces over nanoseconds as the source adds them up, and the comparisons are in double
precision. What the tuner is told is a `Tuner.launched`, `Tuner.readied` or `Tuner.switched`, and
what it answers an `Action`; the history of a drive is the list of both.
-/

set_option autoImplicit false
set_option relaxedAutoImplicit false

namespace Bc3Miner.Device

open Foundations

/-! ### Windows and their tables -/

/-- Every card starts here. -/
def startWindow : ℕ := 16

/-- The windows tried above `startWindow`, largest first. -/
def bigger : List ℕ := [24, 22, 20, 19, 18]

/-- GPU memory left free beside the tables. -/
def vramSpare : ℕ := 2 ^ 30

/-- The widths of the digits a 256-bit scalar is cut into, least significant first. -/
def digits (window : ℕ) : Option (List ℕ) :=
  if 2 ≤ window ∧ window ≤ 20 then
    some (List.replicate ((256 + window - 1) / window) window)
  else if window = 22 then some (List.replicate 8 21 ++ List.replicate 4 22)
  else if window = 24 then some (List.replicate 8 23 ++ List.replicate 3 24)
  else none

/-- One row of a curve's table: the lowest bit of its digit, its places, and how many hold a
point. -/
structure Row where
  pos : ℕ
  places : ℕ
  points : ℕ
  deriving DecidableEq, Repr

/-- The rows of digits of the given widths, from bit `pos` on. -/
def rowsFrom (pos : ℕ) : List ℕ → List Row
  | [] => []
  | width :: rest =>
    let bits := min width (256 - pos)
    ⟨pos, 2 ^ width - 1, 2 ^ bits - 1⟩ :: rowsFrom (pos + bits) rest

/-- The rows of each curve's table. -/
def rows (window : ℕ) : Option (List Row) := (digits window).map (rowsFrom 0)

/-- The power tables at the start of the buffer, in words of 64 bits. -/
def powerTablesU64 : ℕ := 8 * 256 + 16 * 256 * 2 + 32 * 256 * 4

/-- Size of the GPU tables, zero for a window there is no kernel for. -/
def tableBytes (window : ℕ) : ℕ :=
  match rows window with
  | none => 0
  | some rows => (powerTablesU64 + 4 * (rows.map Row.places).sum * 8) * 8

/-- The largest window above `startWindow` whose tables fit with room to spare. -/
def largestFitting (freeVram : ℕ) : Option ℕ :=
  bigger.find? fun window ↦ tableBytes window + vramSpare ≤ freeVram

theorem largestFitting_mem {freeVram window : ℕ} (hfits : largestFitting freeVram = some window) :
    window ∈ bigger :=
  List.mem_of_find?_eq_some hfits

example : largestFitting (22 * 2 ^ 30) = some 22 := by decide +kernel

/-! ### The tuner -/

/-- How long each window is measured, the warm-up before the first measurement and the settling
after a switch, in nanoseconds. -/
def measure : ℕ := 60 * 10 ^ 9

def warmUp : ℕ := 90 * 10 ^ 9

def settle : ℕ := 30 * 10 ^ 9

/-- The bigger window must be at least this much faster to be kept. -/
def minGain : Binary64 := .round (5 / 1000)

/-- How far the two measurements of the start window may differ for the choice to be remembered. -/
def maxDrift : Binary64 := .round (5 / 100)

/-- A window chosen for a card, and the rates it was chosen on; zero when it was not measured. -/
structure Choice where
  window : ℕ
  startRate : Binary64
  tried : ℕ
  triedRate : Binary64
  deriving DecidableEq, Repr

/-- What the worker should do next. -/
inductive Action
  | wait
  | build (window : ℕ)
  | switch (window : ℕ)
  | done (choice : Choice) (remember : Bool)
  deriving DecidableEq, Repr

/-- Hashes over GPU time, accumulated. -/
structure Rate where
  hashes : ℕ := 0
  busy : ℕ := 0
  deriving DecidableEq, Repr

namespace Rate

def add (rate : Rate) (hashes busy : ℕ) : Rate := ⟨rate.hashes + hashes, rate.busy + busy⟩

def perSecond (rate : Rate) : Binary64 :=
  (Binary64.ofNat rate.hashes).div ((Mining.secondsOf rate.busy).max (.round (1 / 10 ^ 9)))

end Rate

inductive Phase
  | warmUp (mined : ℕ)
  | measureStart (rate : Rate)
  | settle (before : Binary64) (mined : ℕ)
  | measureTarget (before : Binary64) (rate : Rate)
  | settleBack (before tried : Binary64) (mined : ℕ)
  | measureBack (before tried : Binary64) (rate : Rate)
  | returning (choice : Choice) (remember : Bool)
  | recalled (window : ℕ)
  | finished
  deriving DecidableEq, Repr

/-- The tuning of one card, from its first BC3Hash launch. `fallback` holds the smaller windows that
fit, largest first: tried in turn when the card cannot switch to the target. -/
structure Tuner where
  target : ℕ
  fallback : List ℕ
  ready : Bool
  phase : Phase
  deriving DecidableEq, Repr

namespace Tuner

/-- The tuner and its first action; `none` when there is nothing to tune. -/
def start (fitting : Option ℕ) (recalled : Option Choice) : Option (Tuner × Action) :=
  match fitting, recalled with
  | none, _ => none
  | some fitting, some choice =>
    if startWindow < choice.window ∧ choice.window ≤ fitting then
      some (⟨choice.window, [], false, .recalled choice.window⟩, .build choice.window)
    else none
  | some fitting, none =>
    some (⟨fitting, bigger.filter (· < fitting), false, .warmUp 0⟩, .build fitting)

/-- The rate of the start window: the mean of the measurements before and after. -/
def startRate (before after : Binary64) : Binary64 := (before.add after).div (.ofNat 2)

/-- The target is fast enough to be kept. -/
def keeps (before after tried : Binary64) : Bool :=
  ((startRate before after).mul ((Binary64.ofNat 1).add minGain)).lt tried

/-- The choice the three measurements make. -/
def judge (target : ℕ) (before after tried : Binary64) : Choice :=
  ⟨if keeps before after tried then target else startWindow, startRate before after, target, tried⟩

/-- The start window measured alike both times. -/
def steady (before after : Binary64) : Bool :=
  (before.sub after).abs.le ((startRate before after).mul maxDrift)

/-- A launch came back. A launch at a window the phase does not expect counts for nothing. -/
def launched (tuner : Tuner) (window hashes busy : ℕ) : Tuner × Action :=
  match tuner.phase with
  | .warmUp mined =>
    if window = startWindow ∧ tuner.ready = true then
      ({ tuner with
        phase := if Device.warmUp ≤ mined + busy then .measureStart {}
          else .warmUp (mined + busy) },
        .wait)
    else (tuner, .wait)
  | .measureStart rate =>
    if window = startWindow then
      let rate := rate.add hashes busy
      if rate.busy < measure then ({ tuner with phase := .measureStart rate }, .wait)
      else ({ tuner with phase := .settle rate.perSecond 0 }, .switch tuner.target)
    else (tuner, .wait)
  | .settle before mined =>
    if window = tuner.target then
      ({ tuner with
        phase := if Device.settle ≤ mined + busy then .measureTarget before {}
          else .settle before (mined + busy) }, .wait)
    else (tuner, .wait)
  | .measureTarget before rate =>
    if window = tuner.target then
      let rate := rate.add hashes busy
      if rate.busy < measure then ({ tuner with phase := .measureTarget before rate }, .wait)
      else ({ tuner with phase := .settleBack before rate.perSecond 0 }, .switch startWindow)
    else (tuner, .wait)
  | .settleBack before tried mined =>
    if window = startWindow then
      ({ tuner with
        phase := if Device.settle ≤ mined + busy then .measureBack before tried {}
          else .settleBack before tried (mined + busy) }, .wait)
    else (tuner, .wait)
  | .measureBack before tried rate =>
    if window = startWindow then
      let rate := rate.add hashes busy
      if rate.busy < measure then ({ tuner with phase := .measureBack before tried rate }, .wait)
      else
        let choice := judge tuner.target before rate.perSecond tried
        let remember := steady before rate.perSecond
        if keeps before rate.perSecond tried then
          ({ tuner with phase := .returning choice remember }, .switch tuner.target)
        else ({ tuner with phase := .finished }, .done choice remember)
    else (tuner, .wait)
  | .returning .. | .recalled _ | .finished => (tuner, .wait)

/-- The target is ready to switch to. -/
def readied (tuner : Tuner) : Tuner × Action :=
  ({ tuner with ready := true },
    match tuner.phase with
    | .recalled window => .switch window
    | _ => .wait)

/-- A choice that nothing was measured for. -/
def unmeasured (window tried : ℕ) : Choice := ⟨window, .finite 0, tried, .finite 0⟩

/-- A switch failed and ends the tuning at the start window. A target that fails is remembered as
such; the start window failing on the way back is no answer at all. -/
def giveUp (tuner : Tuner) (window : ℕ) : Tuner × Action :=
  ({ tuner with phase := .finished },
    if window ≠ startWindow then .done (unmeasured startWindow window) true
    else .done (unmeasured startWindow tuner.target) false)

/-- The card switched to `window`, or could not. A first switch to the target that fails tries the
next smaller window that fits; any other failure ends the tuning. -/
def switched (tuner : Tuner) (window : ℕ) (ok : Bool) : Tuner × Action :=
  match tuner.phase, ok with
  | .returning choice remember, true =>
    if window = tuner.target then ({ tuner with phase := .finished }, .done choice remember)
    else (tuner, .wait)
  | .recalled _, true => ({ tuner with phase := .finished }, .done (unmeasured window window) false)
  | _, true => (tuner, .wait)
  | .settle before _, false =>
    match tuner.fallback with
    | next :: rest =>
      if window = tuner.target then
        ({ tuner with target := next, fallback := rest, phase := .settle before 0 }, .switch next)
      else giveUp tuner window
    | [] => giveUp tuner window
  | _, false => giveUp tuner window

end Tuner

/-! ### A driver of the tuner -/

/-- What the driver reports. -/
inductive Event
  | ready
  | launched (window hashes busy : ℕ)
  | switched (window : ℕ) (ok : Bool)
  deriving DecidableEq, Repr

/-- What a driver reported and was answered, the newest first. -/
abbrev History := List (Event × Action)

namespace History

/-- How many switches the driver was told to make. -/
def switches (history : History) : ℕ :=
  history.countP fun entry ↦ match entry.2 with
    | .switch _ => true
    | _ => false

/-- The windows that took the place of one whose switch failed, the newest first. -/
def tried (history : History) : List ℕ :=
  history.filterMap fun entry ↦ match entry with
    | (.switched _ false, .switch window) => some window
    | _ => none

/-- The window of the last switch that succeeded. -/
def reached : History → Option ℕ
  | [] => none
  | (.switched window true, _) :: _ => some window
  | _ :: earlier => reached earlier

end History

/-- A tuner, the switch its driver was told to make and has not reported, and what was said. -/
structure Drive where
  tuner : Tuner
  pending : Option ℕ
  history : History
  deriving DecidableEq, Repr

namespace Drive

/-- The drive of a tuner that was just started. -/
def start (tuner : Tuner) : Drive := ⟨tuner, none, []⟩

/-- The driver takes the tuner's answer: a switch it is told to make is pending from now on. -/
def take (drive : Drive) (event : Event) (answer : Tuner × Action) : Drive where
  tuner := answer.1
  pending := match answer.2 with
    | .switch window => some window
    | _ => drive.pending
  history := (event, answer.2) :: drive.history

/-- The card goes straight to a remembered window. -/
def goesStraight (drive : Drive) : Bool :=
  match drive.tuner.phase with
  | .recalled _ => true
  | _ => false

/-- One event of the driver. It reports only switches that it was told to make, each once, no launch
at a window that it has yet to switch to, and not twice that a remembered window is ready. -/
def step (drive : Drive) : Event → Option Drive
  | .ready =>
    if drive.pending.isSome && drive.goesStraight then none
    else some (drive.take .ready drive.tuner.readied)
  | .launched window hashes busy =>
    if drive.pending = some window then none
    else some (drive.take (.launched window hashes busy) (drive.tuner.launched window hashes busy))
  | .switched window ok =>
    if drive.pending = some window then
      some ({ drive with pending := none }.take (.switched window ok)
      (drive.tuner.switched window ok))
    else none

end Drive

end Bc3Miner.Device
