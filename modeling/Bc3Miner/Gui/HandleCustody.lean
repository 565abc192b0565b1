import Bc3Miner.Foundations.Custody
import Bc3Miner.Gui.MinerState

/-!
# Where the handles of the children are

A handle cannot be copied: it is in the slot, in the hands of one call, or dropped. Every step moves
handles between these places, and `MinerState.Owned` is what holds of the places after any steps.

`Owned` is the invariant: of each handle there is one, the child in the slot is live, a child that a
call is still to store is live and not yet listened to, and only children that were spawned are held
or listened to. Each kind of move has a lemma, and `Owned.step` puts them together.
-/

set_option autoImplicit false
set_option relaxedAutoImplicit false

namespace Bc3Miner.Gui

open Foundations

namespace MinerState

variable {Child Call : Type*}

/-! ### Where the handles are -/

/-- A child that was spawned, has not terminated and has not been killed. -/
def Live (state : MinerState Child Call) (child : Child) : Prop := state.status child = .live

/-- Which handle is where: in the slot, or in the hands of a call. -/
def handles (state : MinerState Child Call) : Option Call → Option Child
  | none => state.slot
  | some call => (state.calls call).hand

/-- Of each handle there is one; the child in the slot is live, and so is one that a call is still
to store, which is not yet listened to; and only children are held and listened to. -/
structure Owned (state : MinerState Child Call) : Prop where
  alone : OneEach state.handles
  born : ∀ child, Held state.handles child → state.status child ≠ .unborn
  slotLive : ∀ child, state.slot = some child → state.Live child
  storingLive : ∀ call child, state.calls call = .storing child →
    state.Live child ∧ state.listening child = false
  heard : ∀ child, state.listening child = true → state.status child ≠ .unborn

section Places

variable {state : MinerState Child Call}

/-- At the start nobody holds a child. -/
theorem Owned.initial : (initial : MinerState Child Call).Owned where
  alone := by
    rintro (_ | call) other child hplace
    · cases hplace
    · cases hplace
  born := by
    rintro child ⟨_ | call, hplace⟩
    · cases hplace
    · cases hplace
  slotLive := fun _ hslot ↦ nomatch hslot
  storingLive := fun _ _ hstoring ↦ nomatch hstoring
  heard := fun _ hheard ↦ nomatch hheard

variable [DecidableEq Call]

/-- A call that goes on changes what is in its hands. -/
theorem handles_update_calls (call : Call) (now : CallState Child) (slot : Option Child)
    (status : Child → ChildStatus) (listening : Child → Bool) :
    handles ⟨slot, status, listening, Function.update state.calls call now⟩ =
      Function.update (handles ⟨slot, status, listening, state.calls⟩) (some call) now.hand := by
  funext place
  cases place with
  | none => exact (Function.update_of_ne (Option.some_ne_none call).symm ..).symm
  | some other =>
    by_cases hsame : other = call
    · subst hsame
      show (Function.update state.calls other now other).hand = _
      rw [Function.update_self, Function.update_self]
    · have hne : some other ≠ some call := fun heq ↦ hsame (Option.some.inj heq)
      show (Function.update state.calls call now other).hand = _
      rw [Function.update_of_ne hsame, Function.update_of_ne hne]
      rfl

/-- The slot is one of the places. -/
theorem handles_update_slot (slot : Option Child) (status : Child → ChildStatus)
    (listening : Child → Bool) :
    handles ⟨slot, status, listening, state.calls⟩ = Function.update state.handles none slot := by
  funext place
  cases place with
  | none =>
    rw [Function.update_self]
    rfl
  | some call =>
    rw [Function.update_of_ne (Option.some_ne_none call)]
    rfl

/-- What a call is still to store after another has gone on is what it was to store before. -/
theorem storing_of_update {call other : Call} {now : CallState Child} {child : Child}
    (hstoring : Function.update state.calls call now other = .storing child)
    (hnow : ∀ stored, now ≠ .storing stored) :
    other ≠ call ∧ state.calls other = .storing child := by
  by_cases hsame : other = call
  · rw [hsame, Function.update_self] at hstoring
    exact absurd hstoring (hnow child)
  · rw [Function.update_of_ne hsame] at hstoring
    exact ⟨hsame, hstoring⟩

end Places

/-! ### What each step does to the handles -/

section Steps

variable {state next : MinerState Child Call}

/-- The handles, and with them the owners, of a state that differs in none. -/
theorem Owned.of_handles (howned : state.Owned) (hhandles : next.handles = state.handles)
    (hstatus : next.status = state.status) (hlistening : next.listening = state.listening)
    (hstoring : ∀ call child, next.calls call = .storing child →
      state.calls call = .storing child) :
    next.Owned where
  alone := by
    rw [hhandles]
    exact howned.alone
  born := by
    rw [hhandles, hstatus]
    exact howned.born
  slotLive := by
    intro child hslot
    have hsame : state.handles none = some child := by
      rw [← hhandles]
      exact hslot
    show next.status child = _
    rw [hstatus]
    exact howned.slotLive child hsame
  storingLive := by
    intro call child hcall
    show next.status child = _ ∧ _
    rw [hstatus, hlistening]
    exact howned.storingLive call child (hstoring call child hcall)
  heard := by
    rw [hlistening, hstatus]
    exact howned.heard

/-- The status of a child that is neither in the slot nor still to be stored may change, as long as
it stays born. -/
theorem Owned.changed [DecidableEq Child] (howned : state.Owned) {child : Child} {now : ChildStatus}
    (hnow : now ≠ .unborn)
    (hslot : state.slot ≠ some child) (hstoring : ∀ call, state.calls call ≠ .storing child) :
    Owned { state with status := Function.update state.status child now } := by
  have hborn : ∀ token, state.status token ≠ .unborn →
      Function.update state.status child now token ≠ .unborn := by
    intro token htoken
    by_cases hsame : token = child
    · rw [hsame, Function.update_self]
      exact hnow
    · rw [Function.update_of_ne hsame]
      exact htoken
  refine ⟨howned.alone, fun token htoken ↦ hborn token (howned.born token htoken), ?_, ?_,
    fun token hheard ↦ hborn token (howned.heard token hheard)⟩
  · intro token htoken
    have hne : token ≠ child := by
      rintro rfl
      exact hslot htoken
    exact (Function.update_of_ne hne ..).trans (howned.slotLive token htoken)
  · intro call token hcall
    have hne : token ≠ child := by
      rintro rfl
      exact hstoring call hcall
    obtain ⟨hlive, hquiet⟩ := howned.storingLive call token hcall
    exact ⟨(Function.update_of_ne hne ..).trans hlive, hquiet⟩

/-- A handle that a call has in its hands is nowhere else. -/
theorem Owned.only_hand (howned : state.Owned) {call : Call} {child : Child}
    (hhand : (state.calls call).hand = some child) {place : Option Call}
    (hplace : state.handles place = some child) : place = some call :=
  howned.alone place (some call) child hplace hhand

variable [DecidableEq Call]

/-- A call that goes on with nothing in its hands and had nothing in them. -/
theorem bare_handles {call : Call} {now : CallState Child}
    (hbefore : (state.calls call).hand = none)
    (hnow : now.hand = none) :
    handles { state with calls := Function.update state.calls call now } = state.handles := by
  rw [handles_update_calls, hnow]
  exact Function.update_eq_self_iff.mpr hbefore.symm

/-- A call with empty hands may move on with empty hands. -/
theorem Owned.bare (howned : state.Owned) {call : Call} {now : CallState Child}
    (hbefore : (state.calls call).hand = none) (hnow : now.hand = none) :
    Owned { state with calls := Function.update state.calls call now } := by
  refine howned.of_handles (bare_handles hbefore hnow) rfl rfl fun other child hstoring ↦ ?_
  refine (storing_of_update hstoring fun stored hstored ↦ ?_).2
  rw [hstored] at hnow
  cases hnow

/-- The handle that a call takes goes from the slot to its hands. -/
theorem Owned.taken (howned : state.Owned) (call : Call) {child : Child}
    (hslot : state.slot = some child) :
    Owned { state with
      slot := none
      calls := Function.update state.calls call (.killing child) } := by
  have hplace : state.handles none = some child := hslot
  have hhandles : handles { state with
      slot := none
      calls := Function.update state.calls call (.killing child) } =
        Function.update (Function.update state.handles none none) (some call) (some child) := by
    rw [handles_update_calls, handles_update_slot]
    rfl
  refine ⟨?_, ?_, ?_, ?_, howned.heard⟩
  · rw [hhandles]
    refine (howned.alone.clear none).update fun token htoken place _ hother ↦ ?_
    obtain rfl : child = token := Option.some.inj htoken
    by_cases hnone : place = none
    · rw [hnone, Function.update_self] at hother
      cases hother
    · rw [Function.update_of_ne hnone] at hother
      exact hnone (howned.alone place none child hother hplace)
  · intro token htoken
    rw [hhandles] at htoken
    rcases (held_update_iff (howned.alone.clear none) _ _ _).mp htoken with hchild | ⟨hheld, -⟩
    · obtain rfl : child = token := Option.some.inj hchild
      exact howned.born child ⟨none, hplace⟩
    · rcases (held_update_iff howned.alone _ _ _).mp hheld with hnone | ⟨hbefore, -⟩
      · cases hnone
      · exact howned.born token hbefore
  · exact fun _ hnone ↦ nomatch hnone
  · intro holder token hstoring
    exact howned.storingLive holder token
      (storing_of_update hstoring fun _ hstored ↦ nomatch hstored).2

/-- A call that lets go of the child it was to kill. -/
theorem Owned.letGo (howned : state.Owned) (call : Call) :
    Owned { state with calls := Function.update state.calls call .idle } := by
  have hhandles : handles { state with calls := Function.update state.calls call .idle } =
      Function.update state.handles (some call) none := handles_update_calls ..
  refine ⟨?_, ?_, howned.slotLive, ?_, howned.heard⟩
  · rw [hhandles]
    exact howned.alone.clear (some call)
  · intro token htoken
    rw [hhandles] at htoken
    rcases (held_update_iff howned.alone _ _ _).mp htoken with hnone | ⟨hheld, -⟩
    · cases hnone
    · exact howned.born token hheld
  · intro holder token hcall
    exact howned.storingLive holder token
      (storing_of_update hcall fun _ hstored ↦ nomatch hstored).2

/-- An emptied slot. -/
theorem Owned.emptied (howned : state.Owned) (listening : Child → Bool)
    (hfewer : ∀ child, listening child = true → state.listening child = true) :
    Owned { state with slot := none, listening := listening } := by
  have hhandles : handles { state with slot := none, listening := listening } =
      Function.update state.handles none none := handles_update_slot ..
  refine ⟨?_, ?_, fun _ hnone ↦ (nomatch hnone), ?_,
    fun token hheard ↦ howned.heard token (hfewer token hheard)⟩
  · rw [hhandles]
    exact howned.alone.clear none
  · intro token htoken
    rw [hhandles] at htoken
    rcases (held_update_iff howned.alone _ _ _).mp htoken with hnone | ⟨hheld, -⟩
    · cases hnone
    · exact howned.born token hheld
  · intro holder token hcall
    obtain ⟨hlive, hquiet⟩ := howned.storingLive holder token hcall
    refine ⟨hlive, ?_⟩
    cases hheard : listening token with
    | false => exact hheard
    | true =>
      rw [hfewer token hheard] at hquiet
      cases hquiet

variable [DecidableEq Child]

/-- A new child is in the hands of the call that spawned it. -/
theorem Owned.spawned (howned : state.Owned) (call : Call) {child : Child}
    (hunborn : state.status child = .unborn) :
    Owned { state with
      status := Function.update state.status child .live
      calls := Function.update state.calls call (.storing child) } := by
  have hother : ∀ other, state.status other ≠ .unborn →
      Function.update state.status child .live other = state.status other := by
    intro other hborn
    refine Function.update_of_ne ?_ ..
    rintro rfl
    exact hborn hunborn
  have hnew : ∀ place, state.handles place ≠ some child :=
    fun place hplace ↦ howned.born child ⟨place, hplace⟩ hunborn
  refine ⟨?_, ?_, ?_, ?_, ?_⟩
  · rw [handles_update_calls]
    refine howned.alone.update fun token htoken place _ ↦ ?_
    obtain rfl : child = token := Option.some.inj htoken
    exact hnew place
  · intro token htoken
    rw [handles_update_calls] at htoken
    rcases (held_update_iff howned.alone _ _ _).mp htoken with hchild | ⟨hheld, -⟩
    · obtain rfl : child = token := Option.some.inj hchild
      show Function.update state.status child .live child ≠ _
      rw [Function.update_self]
      exact fun habsurd ↦ nomatch habsurd
    · have hborn := howned.born token hheld
      show Function.update state.status child .live token ≠ _
      rw [hother token hborn]
      exact hborn
  · intro token hslot
    have hlive := howned.slotLive token hslot
    exact (hother token (howned.born token ⟨none, hslot⟩)).trans hlive
  · intro holder token hstoring
    by_cases hsame : holder = call
    · rw [hsame] at hstoring
      dsimp only at hstoring
      rw [Function.update_self] at hstoring
      obtain rfl : child = token := by
        injection hstoring
      refine ⟨Function.update_self .., ?_⟩
      cases hheard : state.listening child with
      | false => rfl
      | true => exact absurd hunborn (howned.heard child hheard)
    · obtain ⟨hlive, hquiet⟩ :=
        howned.storingLive holder token ((Function.update_of_ne hsame ..).symm.trans hstoring)
      refine ⟨(hother token ?_).trans hlive, hquiet⟩
      rw [show state.status token = .live from hlive]
      exact fun habsurd ↦ nomatch habsurd
  · intro token hheard
    have hborn := howned.heard token hheard
    show Function.update state.status child .live token ≠ _
    rw [hother token hborn]
    exact hborn

/-- The handle that a call stores goes from its hands to the slot. -/
theorem Owned.stored (howned : state.Owned) {call : Call} {child : Child}
    (hcall : state.calls call = .storing child) :
    Owned { state with
      slot := some child
      listening := Function.update state.listening child true
      calls := Function.update state.calls call .idle } := by
  have hhand : state.handles (some call) = some child := congrArg CallState.hand hcall
  obtain ⟨hlive, -⟩ := howned.storingLive call child hcall
  have hhandles : handles { state with
      slot := some child
      listening := Function.update state.listening child true
      calls := Function.update state.calls call .idle } =
        Function.update (Function.update state.handles none (some child)) (some call) none := by
    rw [handles_update_calls, handles_update_slot]
    rfl
  have halone : OneEach (Function.update (Function.update state.handles none (some child))
      (some call) none) := by
    rw [Function.update_comm (Option.some_ne_none call).symm]
    refine (howned.alone.clear (some call)).update fun token htoken place _ hplace ↦ ?_
    obtain rfl : child = token := Option.some.inj htoken
    by_cases hsame : place = some call
    · rw [hsame, Function.update_self] at hplace
      cases hplace
    · rw [Function.update_of_ne hsame] at hplace
      exact hsame (howned.alone place (some call) child hplace hhand)
  refine ⟨?_, ?_, ?_, ?_, ?_⟩
  · rw [hhandles]
    exact halone
  · intro token htoken
    rw [hhandles, Function.update_comm (Option.some_ne_none call).symm] at htoken
    rcases (held_update_iff (howned.alone.clear (some call)) _ _ _).mp htoken with
      hchild | ⟨hheld, -⟩
    · obtain rfl : child = token := Option.some.inj hchild
      exact howned.born child ⟨some call, hhand⟩
    · rcases (held_update_iff howned.alone _ _ _).mp hheld with hnone | ⟨hbefore, -⟩
      · cases hnone
      · exact howned.born token hbefore
  · intro token hslot
    obtain rfl : child = token := Option.some.inj hslot
    exact hlive
  · intro holder token hstoring
    obtain ⟨hother, hbefore⟩ := storing_of_update hstoring fun _ hstored ↦ nomatch hstored
    obtain ⟨htokenLive, hquiet⟩ := howned.storingLive holder token hbefore
    refine ⟨htokenLive, ?_⟩
    have hne : token ≠ child := by
      rintro rfl
      have hplace : state.handles (some holder) = some token := congrArg CallState.hand hbefore
      exact hother (Option.some.inj (howned.alone _ _ token hplace hhand))
    exact (Function.update_of_ne hne ..).trans hquiet
  · intro token hheard
    by_cases hsame : token = child
    · rw [hsame]
      exact howned.born child ⟨some call, hhand⟩
    · exact howned.heard token ((Function.update_of_ne hsame ..).symm.trans hheard)

/-- A call that has killed its child, or failed to, lets go of it. -/
theorem Owned.killed (howned : state.Owned) {call : Call} {child : Child}
    (hcall : state.calls call = .killing child) (status : ChildStatus)
    (hstatus : status ≠ .unborn) :
    Owned { state with
      status := Function.update state.status child status
      calls := Function.update state.calls call .idle } := by
  have hhand : (state.calls call).hand = some child := by
    rw [hcall]
    rfl
  refine (howned.letGo call).changed hstatus ?_ ?_
  · intro hslot
    have hplace : state.handles none = some child := hslot
    cases howned.only_hand hhand hplace
  · intro holder hstoring
    obtain ⟨hother, hbefore⟩ := storing_of_update hstoring fun _ hstored ↦ nomatch hstored
    have hplace : state.handles (some holder) = some child := congrArg CallState.hand hbefore
    exact hother (Option.some.inj (howned.only_hand hhand hplace))

/-- The task of a child that has terminated. -/
theorem Owned.ended (howned : state.Owned) {child : Child} (hheard : state.listening child = true) :
    Owned { state with
      slot := none
      status := Function.update state.status child .terminated
      listening := Function.update state.listening child false } := by
  have hquiet : Function.update state.listening child false child = false := Function.update_self ..
  have hemptied := howned.emptied (Function.update state.listening child false)
    (fun token htoken ↦ by
    by_cases hsame : token = child
    · rw [hsame]
      exact hheard
    · exact (Function.update_of_ne hsame ..).symm.trans htoken)
  refine hemptied.changed (fun habsurd ↦ nomatch habsurd) (fun habsurd ↦ nomatch habsurd) ?_
  intro call hstoring
  have hnot := (howned.storingLive call child hstoring).2
  rw [hheard] at hnot
  cases hnot

/-- Every step keeps one handle of each child, and a child in the slot or about to be stored live.
-/
theorem Owned.step {event : MinerEvent Child Call} (howned : state.Owned)
    (hstep : state.step event = some next) : next.Owned := by
  cases event with
  | start call =>
    obtain ⟨hcall, rfl | rfl⟩ := startMining_cases hstep
    · exact howned
    · exact howned.bare (by rw [hcall]; rfl) rfl
  | spawn call result =>
    obtain ⟨hcall, ⟨-, -, rfl⟩ | ⟨child, -, hunborn, rfl⟩⟩ := spawn_cases hstep
    · exact howned.bare (by rw [hcall]; rfl) rfl
    · exact howned.spawned call hunborn
  | store call =>
    obtain ⟨child, hcall, rfl⟩ := store_cases hstep
    exact howned.stored hcall
  | stop call =>
    obtain ⟨-, rfl | ⟨child, hslot, rfl⟩⟩ := stopMining_cases hstep
    · exact howned
    · exact howned.taken call hslot
  | kill call result =>
    obtain ⟨child, hcall, rfl⟩ := kill_cases hstep
    refine howned.killed hcall _ ?_
    have hborn := howned.born child ⟨some call, congrArg CallState.hand hcall⟩
    exact afterKill_ne_unborn result hborn
  | terminated child =>
    obtain ⟨hheard, rfl⟩ := terminate_cases hstep
    exact howned.ended hheard

end Steps

end MinerState

end Bc3Miner.Gui
