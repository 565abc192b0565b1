import Bc3Miner.Foundations.PartialMachine
import Bc3Miner.Gui.HandleCustody

/-!
# When the GUI keeps track of its miner

The GUI keeps track of its miner while the handle of every live child is held and no two children
are live. It loses track in three ways: a start that looked into the slot before another one stored
its child, or before a stop had killed the one it took, spawns a second miner; a stop that fails to
kill drops the handle; and the late end of a child empties the slot of its successor. A step keeps
track exactly when it is none of these.

`tracks_iff_careful` is over every order of the steps, and about the states the run goes through,
not only its last. `lateEnd_loses` is a run with the third way, after which two children run at
once; `onceStarted_tracks` is one that keeps track.
-/

set_option autoImplicit false
set_option relaxedAutoImplicit false

namespace Bc3Miner.Gui

open Foundations

namespace MinerState

variable {Child Call : Type*}

/-! ### Keeping track -/

/-- What the GUI is to know: every live child is held, in the slot unless a call has its handle in
its hands, and beside a live child there is no other. -/
structure Tracks (state : MinerState Child Call) : Prop where
  exact : (∀ call, (state.calls call).hand = none) → ∀ child, state.slot = some child ↔
    state.Live child
  kept : ∀ child, state.Live child → Held state.handles child
  one : ∀ child other, state.Live child → state.Live other → child = other

section Start

variable {state : MinerState Child Call}

/-- When no call has anything in its hands, the held child is the one in the slot. -/
theorem Tracks.of_kept (howned : state.Owned)
    (hkept : ∀ child, state.Live child → Held state.handles child)
    (hone : ∀ child other, state.Live child → state.Live other → child = other) : state.Tracks := by
  refine ⟨fun hbare child ↦ ⟨howned.slotLive child, fun hlive ↦ ?_⟩, hkept, hone⟩
  obtain ⟨_ | call, hplace⟩ := hkept child hlive
  · exact hplace
  · have hnone := hbare call
    rw [show (state.calls call).hand = some child from hplace] at hnone
    cases hnone

theorem Tracks.initial : (initial : MinerState Child Call).Tracks :=
  .of_kept .initial (fun _ hlive ↦ nomatch hlive) fun _ _ hlive ↦ nomatch hlive

end Start

/-! ### When the GUI keeps track -/

/-- What the code would have to make sure of: a child is spawned only while the slot is empty and no
call has the handle of a live child in its hands, a live child is killed when that is asked for, and
a child that has terminated finds no handle but its own in the slot. -/
def Careful (state : MinerState Child Call) : MinerEvent Child Call → Prop
  | .spawn _ (.ok _) => state.slot = none ∧
      ∀ call child, (state.calls call).hand = some child → ¬ state.Live child
  | .kill call (.error _) => ∀ child, state.calls call = .killing child → ¬ state.Live child
  | .terminated child => state.slot = none ∨ state.slot = some child
  | _ => True

section Careful

variable {state : MinerState Child Call}

/-- Where the handles and the status of the children are the same, the GUI keeps track as before. -/
theorem Tracks.of_same {next : MinerState Child Call} (hnext : next.Owned) (htracks : state.Tracks)
    (hlive : ∀ child, next.Live child → state.Live child)
    (hhandles : ∀ child, next.Live child → Held state.handles child → Held next.handles child) :
    next.Tracks := by
  refine .of_kept hnext (fun child hchild ↦ ?_) fun child other hchild hother ↦ ?_
  · exact hhandles child hchild (htracks.kept child (hlive child hchild))
  · exact htracks.one child other (hlive child hchild) (hlive other hother)

variable [DecidableEq Child]

/-- A child whose status changes to one that is not live. -/
theorem live_of_update {calls : Call → CallState Child} {slot : Option Child}
    {listening : Child → Bool}
    {child other : Child} {now : ChildStatus} (hnow : now ≠ .live)
    (hlive : Live ⟨slot, Function.update state.status child now, listening, calls⟩ other) :
    other ≠ child ∧ state.Live other := by
  have hstatus : Function.update state.status child now other = .live := hlive
  by_cases hsame : other = child
  · rw [hsame, Function.update_self] at hstatus
    exact absurd hstatus hnow
  · rw [Function.update_of_ne hsame] at hstatus
    exact ⟨hsame, hstatus⟩

variable [DecidableEq Call]

/-- Let the GUI keep track of its miner. After a child has been spawned it still does exactly if the
slot was empty and no call had a live child in its hands: the new child is then the only live one.
-/
theorem spawned_tracks_iff (howned : state.Owned) (htracks : state.Tracks) (call : Call)
    {child : Child}
    (hunborn : state.status child = .unborn) :
    (state.slot = none ∧ ∀ other held, (state.calls other).hand = some held → ¬ state.Live held) ↔
      Tracks { state with
        status := Function.update state.status child .live
        calls := Function.update state.calls call (.storing child) } := by
  have hborn : ∀ other, state.Live other → other ≠ child := by
    rintro other hlive rfl
    rw [show state.status other = .live from hlive] at hunborn
    cases hunborn
  have hnew : Function.update state.status child .live child = .live := Function.update_self ..
  constructor
  · rintro ⟨hempty, hnone⟩
    have hdead : ∀ other, ¬ state.Live other := by
      intro other hlive
      obtain ⟨_ | holder, hplace⟩ := htracks.kept other hlive
      · rw [show state.handles none = none from hempty] at hplace
        cases hplace
      · exact hnone holder other hplace hlive
    have honly : ∀ other, Function.update state.status child .live other = .live →
      other = child := by
      intro other hlive
      by_contra hne
      rw [Function.update_of_ne hne] at hlive
      exact hdead other hlive
    refine .of_kept (howned.spawned call hunborn)
      (fun other hlive ↦ ?_) fun other another hlive hanother ↦ ?_
    · rw [honly other hlive, handles_update_calls]
      exact ⟨some call, Function.update_self ..⟩
    · rw [honly other hlive, honly another hanother]
  · intro hnext
    have hdead : ∀ other, ¬ state.Live other := by
      intro other hlive
      have hstill : Function.update state.status child .live other = .live :=
        (Function.update_of_ne (hborn other hlive) ..).trans hlive
      exact hborn other hlive (hnext.one other child hstill hnew)
    refine ⟨?_, fun other held _ ↦ hdead held⟩
    cases hslot : state.slot with
    | none => rfl
    | some held => exact absurd (howned.slotLive held hslot) (hdead held)

/-- A stored child was in the hands of the call. -/
theorem stored_tracks (howned : state.Owned) (htracks : state.Tracks) {call : Call} {child : Child}
    (hcall : state.calls call = .storing child) :
    Tracks { state with
      slot := some child
      listening := Function.update state.listening child true
      calls := Function.update state.calls call .idle } := by
  obtain ⟨hlive, -⟩ := howned.storingLive call child hcall
  refine htracks.of_same (howned.stored hcall) (fun _ hother ↦ hother) fun other hother _ ↦ ?_
  exact ⟨none, congrArg some (htracks.one child other hlive hother)⟩

omit [DecidableEq Child] in
/-- A child taken out of the slot is in the hands of the call. -/
theorem taken_tracks (howned : state.Owned) (htracks : state.Tracks) (call : Call) {child : Child}
    (hslot : state.slot = some child) :
    Tracks { state with
      slot := none
      calls := Function.update state.calls call (.killing child) } := by
  refine htracks.of_same (howned.taken call hslot) (fun _ hother ↦ hother) fun other hother _ ↦ ?_
  have hsame := htracks.one child other (howned.slotLive child hslot) hother
  rw [handles_update_calls, ← hsame]
  exact ⟨some call, Function.update_self ..⟩

/-- Let the GUI keep track of its miner, and a call be about to kill a child. After the kill nobody
holds the child, so the GUI still keeps track exactly if the child is not live any more. -/
theorem killed_tracks_iff (howned : state.Owned) (htracks : state.Tracks) {call : Call}
    {child : Child}
    (hcall : state.calls call = .killing child) (status : ChildStatus)
    (hstatus : status ≠ .unborn) :
    status ≠ .live ↔
      Tracks { state with
        status := Function.update state.status child status
        calls := Function.update state.calls call .idle } := by
  have hhand : (state.calls call).hand = some child := congrArg CallState.hand hcall
  have hhandles : handles { state with
      status := Function.update state.status child status
      calls := Function.update state.calls call .idle } =
        Function.update state.handles (some call) none := handles_update_calls ..
  constructor
  · intro hdead
    refine htracks.of_same (howned.killed hcall status hstatus)
      (fun other hother ↦ (live_of_update hdead hother).2) fun other hother hheld ↦ ?_
    rw [hhandles, held_update_iff howned.alone]
    refine .inr ⟨hheld, fun hsame ↦ (live_of_update hdead hother).1 ?_⟩
    exact Option.some.inj (hsame.symm.trans hhand)
  · intro hnext hstill
    have hnow : Function.update state.status child status child = .live := by
      rw [Function.update_self]
      exact hstill
    have hheld := hnext.kept child hnow
    rw [hhandles, held_update_iff howned.alone] at hheld
    rcases hheld with hnone | ⟨-, helsewhere⟩
    · cases hnone
    · exact helsewhere hhand

/-- Let the GUI keep track of its miner, and a child end that it listens to. After that the slot is
empty, whichever child was in it, so the GUI still keeps track exactly if it was empty or had this
child. -/
theorem ended_tracks_iff (howned : state.Owned) (htracks : state.Tracks) {child : Child}
    (hheard : state.listening child = true) :
    (state.slot = none ∨ state.slot = some child) ↔
      Tracks { state with
        slot := none
        status := Function.update state.status child .terminated
        listening := Function.update state.listening child false } := by
  have hhandles : handles { state with
      slot := none
      status := Function.update state.status child .terminated
      listening := Function.update state.listening child false } =
        Function.update state.handles none none := handles_update_slot ..
  have hdead : ChildStatus.terminated ≠ .live := fun habsurd ↦ nomatch habsurd
  constructor
  · intro hslot
    refine htracks.of_same (howned.ended hheard)
      (fun other hother ↦ (live_of_update hdead hother).2)
      fun other hother hheld ↦ ?_
    rw [hhandles, held_update_iff howned.alone]
    refine .inr ⟨hheld, fun hsame ↦ (live_of_update hdead hother).1 ?_⟩
    rcases hslot with hempty | hown
    · cases hempty.symm.trans hsame
    · exact Option.some.inj (hsame.symm.trans hown)
  · intro hnext
    cases hslot : state.slot with
    | none => exact .inl rfl
    | some other =>
      right
      by_contra hne
      have hother : other ≠ child := fun heq ↦ hne (congrArg some heq)
      have hlive : Function.update state.status child .terminated other = .live :=
        (Function.update_of_ne hother ..).trans (howned.slotLive other hslot)
      have hheld := hnext.kept other hlive
      rw [hhandles, held_update_iff howned.alone] at hheld
      rcases hheld with hnone | ⟨-, helsewhere⟩
      · cases hnone
      · exact helsewhere hslot

/-- A step from a state in which the GUI keeps track leads to another such state exactly when it is
careful. -/
theorem careful_iff_tracks {event : MinerEvent Child Call} {next : MinerState Child Call}
    (hstep : state.step event = some next) (howned : state.Owned) (htracks : state.Tracks) :
    state.Careful event ↔ next.Tracks := by
  cases event with
  | start call =>
    refine ⟨fun _ ↦ ?_, fun _ ↦ trivial⟩
    obtain ⟨hcall, rfl | rfl⟩ := startMining_cases hstep
    · exact htracks
    · have hbare : (state.calls call).hand = none := congrArg CallState.hand hcall
      refine htracks.of_same (howned.step hstep) (fun _ hother ↦ hother) fun other _ hheld ↦ ?_
      rw [bare_handles hbare rfl]
      exact hheld
  | spawn call result =>
    obtain ⟨hcall, ⟨reason, rfl, rfl⟩ | ⟨child, rfl, hunborn, rfl⟩⟩ := spawn_cases hstep
    · refine ⟨fun _ ↦ ?_, fun _ ↦ trivial⟩
      have hbare : (state.calls call).hand = none := congrArg CallState.hand hcall
      refine htracks.of_same (howned.step hstep) (fun _ hother ↦ hother) fun other _ hheld ↦ ?_
      rw [bare_handles hbare rfl]
      exact hheld
    · exact spawned_tracks_iff howned htracks call hunborn
  | store call =>
    obtain ⟨child, hcall, rfl⟩ := store_cases hstep
    exact ⟨fun _ ↦ stored_tracks howned htracks hcall, fun _ ↦ trivial⟩
  | stop call =>
    refine ⟨fun _ ↦ ?_, fun _ ↦ trivial⟩
    obtain ⟨-, rfl | ⟨child, hslot, rfl⟩⟩ := stopMining_cases hstep
    · exact htracks
    · exact taken_tracks howned htracks call hslot
  | kill call result =>
    obtain ⟨child, hcall, rfl⟩ := kill_cases hstep
    have hborn := howned.born child ⟨some call, congrArg CallState.hand hcall⟩
    have hexact := killed_tracks_iff howned htracks hcall (afterKill result (state.status child))
      (afterKill_ne_unborn result hborn)
    rw [← hexact, afterKill_ne_live_iff]
    cases result with
    | ok => exact ⟨fun _ reason habsurd ↦ (nomatch habsurd), fun _ ↦ trivial⟩
    | error reason =>
      constructor
      · exact fun hcareful _ _ ↦ hcareful child hcall
      · intro hdead other hother
        rw [hcall] at hother
        injection hother with hsame
        rw [← hsame]
        exact hdead reason rfl
  | terminated child =>
    obtain ⟨hheard, rfl⟩ := terminate_cases hstep
    exact ended_tracks_iff howned htracks hheard

end Careful

/-- Between calls a GUI that keeps track answers that it is mining, and refuses another start,
exactly when a miner is live. -/
theorem Tracks.isMining_iff {state : MinerState Child Call} (htracks : state.Tracks)
    (hrest : ∀ call, (state.calls call).hand = none) (call : Call) :
    (state.isMining = true ↔ ∃ child, state.Live child) ∧
      (state.answer (.start call) = some (.error "Already mining") ↔
        ∃ child, state.Live child) := by
  have hslot : state.slot.isSome = true ↔ ∃ child, state.Live child := by
    rw [Option.isSome_iff_exists]
    exact exists_congr fun child ↦ htracks.exact hrest child
  refine ⟨hslot, ?_⟩
  rw [← hslot]
  show (if state.slot.isSome = true then _ else _) = _ ↔ _
  by_cases hsome : state.slot.isSome = true
  · rw [if_pos hsome]
    exact ⟨fun _ ↦ hsome, fun _ ↦ rfl⟩
  · rw [if_neg hsome]
    exact ⟨fun habsurd ↦ (nomatch habsurd), fun habsurd ↦ absurd habsurd hsome⟩

/-! ### Whole runs -/

section Runs

variable [DecidableEq Child] [DecidableEq Call]

/-- Over every order of the steps of starts, stops and the ends of children, from the state in which
nothing was started: the GUI keeps track of its miner in every state of the run exactly when every
step of the run is careful. That a step is careful is said of the state before it. -/
theorem tracks_iff_careful {events : List (MinerEvent Child Call)} {final : MinerState Child Call}
    (hrun : PartialMachine.run step initial events = some final) :
    PartialMachine.EveryStep step Careful (initial : MinerState Child Call) events ↔
      PartialMachine.EveryState step Tracks (initial : MinerState Child Call) events :=
  PartialMachine.everyStep_iff_everyState (fun _ _ _ hstep howned ↦ Owned.step howned hstep)
    (fun _ _ _ hstep howned htracks ↦ careful_iff_tracks hstep howned htracks) hrun Owned.initial
    Tracks.initial

end Runs

/-- A miner is started, stopped and killed, another is started, and only then does the end of the
first one arrive. -/
def lateEnd : List (MinerEvent ℕ Unit) :=
  [.start (), .spawn () (.ok 0), .store (), .stop (), .kill () (.ok ()), .start (),
    .spawn () (.ok 1),
    .store (), .terminated 0]

/-- The second miner runs on and the slot is empty, so that a third is spawned beside it. -/
theorem lateEnd_loses :
    ∃ lost two, PartialMachine.run step (initial : MinerState ℕ Unit) lateEnd = some lost ∧
      lost.slot = none ∧ lost.Live 1 ∧
      PartialMachine.run step lost [.start (), .spawn () (.ok 2), .store ()] = some two ∧
      two.Live 1 ∧ two.Live 2 ∧
      ¬ PartialMachine.EveryState step Tracks (initial : MinerState ℕ Unit) lateEnd := by
  refine ⟨_, _, rfl, rfl, rfl, rfl, rfl, rfl, fun hevery ↦ ?_⟩
  obtain ⟨_ | call, hplace⟩ := (hevery.final rfl).kept 1 rfl
  · cases hplace
  · cases hplace

/-- One miner is started and stopped, and its end arrives. -/
theorem onceStarted_tracks :
    PartialMachine.EveryState step Tracks (initial : MinerState ℕ Unit)
      [.start (), .spawn () (.ok 0), .store (), .stop (), .kill () (.ok ()), .terminated 0] := by
  refine (tracks_iff_careful rfl).mp ?_
  refine .cons rfl trivial (.cons rfl ⟨rfl, fun _ _ hhand ↦ (nomatch hhand)⟩ ?_)
  exact .cons rfl trivial (.cons rfl trivial (.cons rfl trivial (.cons rfl (.inl rfl) trivial)))

end MinerState

end Bc3Miner.Gui
