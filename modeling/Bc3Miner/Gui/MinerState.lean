import Mathlib.Logic.Function.Basic

/-!
# The running miner of the GUI

The GUI starts the miner as a child process and keeps its handle in one shared slot, `MinerState`
(`gui/src-tauri/src/main.rs`). `start_mining` looks into the slot in one lock section and stores the
new handle in another; `stop_mining` takes the handle out and kills the child afterwards; and the
task that listens to a child empties the slot when the child has terminated, whichever handle is in
it by then.

Every lock section, spawn and kill is a step of its own, so the steps of any number of calls and of
the tasks of all children can come in any order that the code allows. What finding the binary,
spawning it and killing a child come to is given with the steps. A call with an address that does
not look like one returns before its first lock section, and the lines of the children change
nothing here; both are left out.

A child has terminated here once its task has heard so. One that ends by itself is `live` until
then: neither the slot nor any call can tell it from one that runs.

A step that finds nothing to do is one too: a stop with an empty slot, the end of a child after its
handle is gone. `answer` is the text that a call returns to the window, and `isMining` what the
window shows.
-/

set_option autoImplicit false
set_option relaxedAutoImplicit false

namespace Bc3Miner.Gui

/-! ### The parties -/

/-- What has become of a child process. -/
inductive ChildStatus
  | unborn
  | live
  | killed
  | terminated
  deriving DecidableEq, Repr

/-- Where a call of `start_mining` or `stop_mining` is between its lock sections. -/
inductive CallState (Child : Type*)
  | idle
  | starting
  | storing (child : Child)
  | killing (child : Child)
  deriving DecidableEq

/-- The handle that a call holds. -/
def CallState.hand {Child : Type*} : CallState Child → Option Child
  | .idle | .starting => none
  | .storing child | .killing child => some child

/-- The slot, the children, which of them are listened to, and the calls under way. -/
structure MinerState (Child Call : Type*) where
  slot : Option Child
  status : Child → ChildStatus
  listening : Child → Bool
  calls : Call → CallState Child

/-- Why no child was spawned: there is no binary, or it could not be started. -/
inductive StartError
  | notFound (reason : String)
  | notStarted (reason : String)

/-- What `start_mining` returns then. -/
def StartError.message : StartError → String
  | .notFound reason => "miner binary not found: " ++ reason
  | .notStarted reason => "could not start the miner: " ++ reason

/-- One step of a call, or the end of a child as its task hears of it. What spawn and kill come to
is given with the step. -/
inductive MinerEvent (Child Call : Type*)
  | start (call : Call)
  | spawn (call : Call) (result : Except StartError Child)
  | store (call : Call)
  | stop (call : Call)
  | kill (call : Call) (result : Except String Unit)
  | terminated (child : Child)

namespace MinerState

variable {Child Call : Type*}

/-- The window has just opened. -/
def initial : MinerState Child Call where
  slot := none
  status := fun _ ↦ .unborn
  listening := fun _ ↦ false
  calls := fun _ ↦ .idle

/-! ### The steps -/

section Calls

variable [DecidableEq Child] [DecidableEq Call]

/-- The first lock section of `start_mining`: nothing to do if a miner is running. -/
def startMining (state : MinerState Child Call) (call : Call) : Option (MinerState Child Call) :=
  match state.calls call with
  | .idle =>
    if state.slot.isSome then some state
    else some { state with calls := Function.update state.calls call .starting }
  | _ => none

/-- `start_mining` finds the binary and spawns a child, which is a new one, or fails to. -/
def spawn (state : MinerState Child Call) (call : Call) (result : Except StartError Child) :
    Option (MinerState Child Call) :=
  match state.calls call, result with
  | .starting, .error _ => some { state with calls := Function.update state.calls call .idle }
  | .starting, .ok child =>
    if state.status child = .unborn then
      some { state with
        status := Function.update state.status child .live
        calls := Function.update state.calls call (.storing child) }
    else none
  | _, _ => none

/-- The second lock section of `start_mining`, after which a task listens to the child. -/
def store (state : MinerState Child Call) (call : Call) : Option (MinerState Child Call) :=
  match state.calls call with
  | .storing child =>
    some { state with
      slot := some child
      listening := Function.update state.listening child true
      calls := Function.update state.calls call .idle }
  | _ => none

/-- The lock section of `stop_mining`: the handle is taken out. -/
def stopMining (state : MinerState Child Call) (call : Call) : Option (MinerState Child Call) :=
  match state.calls call with
  | .idle =>
    match state.slot with
    | none => some state
    | some child =>
      some { state with slot := none, calls := Function.update state.calls call (.killing child) }
  | _ => none

/-- A kill that succeeds ends a live child. -/
def afterKill : Except String Unit → ChildStatus → ChildStatus
  | .ok (), .live => .killed
  | _, status => status

/-- Killing a child does not make it unborn. -/
theorem afterKill_ne_unborn (result : Except String Unit) {status : ChildStatus}
    (hstatus : status ≠ .unborn) : afterKill result status ≠ .unborn := by
  unfold afterKill
  split
  · exact fun habsurd ↦ nomatch habsurd
  · exact hstatus

/-- Only a kill that fails leaves a live child live. -/
theorem afterKill_ne_live_iff (result : Except String Unit) (status : ChildStatus) :
    afterKill result status ≠ .live ↔ (∀ reason, result = .error reason → status ≠ .live) := by
  cases result with
  | error reason => exact ⟨fun hdead _ _ ↦ hdead, fun hall ↦ hall reason rfl⟩
  | ok =>
    refine ⟨fun _ reason habsurd ↦ (nomatch habsurd), fun _ ↦ ?_⟩
    cases status <;> exact fun habsurd ↦ nomatch habsurd

/-- `stop_mining` kills the child it has taken, or fails to; the handle is gone either way. -/
def kill (state : MinerState Child Call) (call : Call) (result : Except String Unit) :
    Option (MinerState Child Call) :=
  match state.calls call with
  | .killing child =>
    some { state with
      status := Function.update state.status child (afterKill result (state.status child))
      calls := Function.update state.calls call .idle }
  | _ => none

/-- The task of a child hears that it has terminated, and empties the slot. Until this step the
child counts as live, even where it has ended by itself. -/
def terminate (state : MinerState Child Call) (child : Child) : Option (MinerState Child Call) :=
  if state.listening child then
    some { state with
      slot := none
      status := Function.update state.status child .terminated
      listening := Function.update state.listening child false }
  else none

/-- One step. -/
def step (state : MinerState Child Call) : MinerEvent Child Call → Option (MinerState Child Call)
  | .start call => state.startMining call
  | .spawn call result => state.spawn call result
  | .store call => state.store call
  | .stop call => state.stopMining call
  | .kill call result => state.kill call result
  | .terminated child => state.terminate child

/-! What each step can do. -/

variable {state next : MinerState Child Call} {call : Call}

omit [DecidableEq Child] in
/-- What a start can do at first: nothing, if a child is in the slot, or begin to spawn. -/
theorem startMining_cases (hstep : state.startMining call = some next) :
    state.calls call = .idle ∧
      (next = state ∨
        next = { state with calls := Function.update state.calls call .starting }) := by
  unfold startMining at hstep
  cases hcall : state.calls call with
  | idle =>
    rw [hcall] at hstep
    dsimp only at hstep
    split at hstep
    · exact ⟨rfl, .inl (Option.some.inj hstep).symm⟩
    · exact ⟨rfl, .inr (Option.some.inj hstep).symm⟩
  | starting => rw [hcall] at hstep; cases hstep
  | storing child => rw [hcall] at hstep; cases hstep
  | killing child => rw [hcall] at hstep; cases hstep

/-- What a spawn can come to: an error, after which the call is over, or a live child in the hands
of the call. -/
theorem spawn_cases {result : Except StartError Child}
    (hstep : state.spawn call result = some next) :
    state.calls call = .starting ∧
      ((∃ reason, result = .error reason ∧
          next = { state with calls := Function.update state.calls call .idle }) ∨
        ∃ child, result = .ok child ∧ state.status child = .unborn ∧
          next = { state with
            status := Function.update state.status child .live
            calls := Function.update state.calls call (.storing child) }) := by
  unfold spawn at hstep
  cases hcall : state.calls call with
  | starting =>
    rw [hcall] at hstep
    refine ⟨rfl, ?_⟩
    cases result with
    | error reason => exact .inl ⟨reason, rfl, (Option.some.inj hstep).symm⟩
    | ok child =>
      dsimp only at hstep
      by_cases hunborn : state.status child = .unborn
      · rw [if_pos hunborn] at hstep
        exact .inr ⟨child, rfl, hunborn, (Option.some.inj hstep).symm⟩
      · rw [if_neg hunborn] at hstep
        cases hstep
  | idle => rw [hcall] at hstep; cases hstep
  | storing child => rw [hcall] at hstep; cases hstep
  | killing child => rw [hcall] at hstep; cases hstep

/-- What storing does: the child in hand is put into the slot, and its events are listened to. -/
theorem store_cases (hstep : state.store call = some next) :
    ∃ child, state.calls call = .storing child ∧
      next = { state with
        slot := some child
        listening := Function.update state.listening child true
        calls := Function.update state.calls call .idle } := by
  unfold store at hstep
  cases hcall : state.calls call with
  | storing child =>
    rw [hcall] at hstep
    exact ⟨child, rfl, (Option.some.inj hstep).symm⟩
  | idle => rw [hcall] at hstep; cases hstep
  | starting => rw [hcall] at hstep; cases hstep
  | killing child => rw [hcall] at hstep; cases hstep

omit [DecidableEq Child] in
/-- What a stop can do at first: nothing, if the slot is empty, or take the child out of it. -/
theorem stopMining_cases (hstep : state.stopMining call = some next) :
    state.calls call = .idle ∧
      (next = state ∨ ∃ child, state.slot = some child ∧
        next = { state with
          slot := none
          calls := Function.update state.calls call (.killing child) }) := by
  unfold stopMining at hstep
  cases hcall : state.calls call with
  | idle =>
    rw [hcall] at hstep
    refine ⟨rfl, ?_⟩
    cases hslot : state.slot with
    | none =>
      rw [hslot] at hstep
      exact .inl (Option.some.inj hstep).symm
    | some child =>
      rw [hslot] at hstep
      exact .inr ⟨child, rfl, (Option.some.inj hstep).symm⟩
  | starting => rw [hcall] at hstep; cases hstep
  | storing child => rw [hcall] at hstep; cases hstep
  | killing child => rw [hcall] at hstep; cases hstep

/-- What a kill does: the child in hand has the status after it, and the call is over. -/
theorem kill_cases {result : Except String Unit} (hstep : state.kill call result = some next) :
    ∃ child, state.calls call = .killing child ∧
      next = { state with
        status := Function.update state.status child (afterKill result (state.status child))
        calls := Function.update state.calls call .idle } := by
  unfold kill at hstep
  cases hcall : state.calls call with
  | killing child =>
    rw [hcall] at hstep
    exact ⟨child, rfl, (Option.some.inj hstep).symm⟩
  | idle => rw [hcall] at hstep; cases hstep
  | starting => rw [hcall] at hstep; cases hstep
  | storing child => rw [hcall] at hstep; cases hstep

omit [DecidableEq Call] in
/-- What a `Terminated` event does: the slot is emptied, whichever child it is about, and that child
is terminated. -/
theorem terminate_cases {child : Child} (hstep : state.terminate child = some next) :
    state.listening child = true ∧
      next = { state with
        slot := none
        status := Function.update state.status child .terminated
        listening := Function.update state.listening child false } := by
  unfold terminate at hstep
  by_cases hheard : state.listening child = true
  · rw [if_pos hheard] at hstep
    exact ⟨hheard, (Option.some.inj hstep).symm⟩
  · rw [if_neg hheard] at hstep
    cases hstep

end Calls

/-- What a call returns at the step that ends it. -/
def answer (state : MinerState Child Call) : MinerEvent Child Call → Option (Except String Unit)
  | .start _ => if state.slot.isSome then some (.error "Already mining") else none
  | .spawn _ (.error reason) => some (.error reason.message)
  | .spawn _ (.ok _) => none
  | .store _ => some (.ok ())
  | .stop _ => if state.slot.isSome then none else some (.ok ())
  | .kill _ (.error reason) => some (.error ("could not stop the miner: " ++ reason))
  | .kill _ (.ok ()) => some (.ok ())
  | .terminated _ => none

/-- `is_mining`. -/
def isMining (state : MinerState Child Call) : Bool := state.slot.isSome

end MinerState

end Bc3Miner.Gui
