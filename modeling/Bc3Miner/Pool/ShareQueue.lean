import Bc3Miner.Foundations.PartialMachine
import Bc3Miner.Mining.MinerJob
import Mathlib.Logic.Function.Basic

/-!
# The submit queue across pool connections

`run_client` and the submit loop of `session` in `src/stratum.rs`, `Shared::submit` and
`Shared::clear_job` of `src/shared.rs`, and the workers that hand in shares. A worker keeps the job
it took and may hand in a share of it at any moment, also when the connection that brought the job
is long gone; the queue does not say which connection a share belongs to. Here each job and each
share carries the connection's number as well, which nothing in the source can see.

After a session has failed, the client clears the job and drains the queue. A share that comes in
time for the drain is dropped; one that comes later stays for the next session to send (`InTime`).

`faithful_of_inTime` says that the condition is enough for every share to go out on its own
connection, and `late_share_crosses` is a run in which a share comes too late and does not.
-/

set_option autoImplicit false
set_option relaxedAutoImplicit false

namespace Bc3Miner.Pool

open Consensus Foundations Mining

/-- Shares the queue has room for. -/
def submitQueue : ℕ := 4096

/-- What belongs to a connection, by its number. -/
structure OfConnection (Data : Type) where
  connection : ℕ
  data : Data
  deriving DecidableEq

/-- Where the client is: connecting; at the submit loop; reading a line; its session has failed, and
the job is to be cleared; draining the queue; waiting before the next attempt. -/
inductive ClientPlace
  | connecting
  | submitting
  | reading
  | clearing
  | draining
  | sleeping
  deriving DecidableEq, Repr

/-- Is a session under way? -/
def ClientPlace.inSession : ClientPlace → Bool
  | .connecting | .submitting | .reading => true
  | .clearing | .draining | .sleeping => false

/-- The client, the job slot, the jobs that the workers hold, the queue, the shares that went out,
each with the connection it went out on, and how many found the queue full. -/
structure ShareFlow (Worker : Type) where
  place : ClientPlace
  connection : ℕ
  slot : Option (OfConnection MinerJob)
  held : Worker → Option (OfConnection MinerJob)
  queue : List (OfConnection FoundShare)
  sent : List (ℕ × OfConnection FoundShare)
  droppedSubmits : ℕ

/-- A step of the client or of a worker. -/
inductive FlowEvent (Worker : Type)
  | connected
  | sessionFailed
  | sendNext (written : Bool)
  | queueEmpty
  | readLine (published : Option MinerJob)
  | clearJob
  | drainNext
  | drained
  | wake
  | takeJob (worker : Worker)
  | submit (worker : Worker) (algo : PowAlgo) (extranonce2 : List UInt8) (nonce : UInt32)
      (hash : Bytes32)

namespace ShareFlow

variable {Worker : Type}

/-- Before the first attempt to connect. -/
def start : ShareFlow Worker where
  place := .connecting
  connection := 0
  slot := none
  held := fun _ ↦ none
  queue := []
  sent := []
  droppedSubmits := 0

/-- `Shared::submit`: a share that finds the queue full is dropped, and counted. -/
def submit (flow : ShareFlow Worker) (share : OfConnection FoundShare) : ShareFlow Worker :=
  if flow.queue.length < submitQueue then { flow with queue := flow.queue ++ [share] }
  else { flow with droppedSubmits := flow.droppedSubmits + 1 }

/-- One step; `none` where it cannot be taken. A share that could not be written whole is gone all
the same, and the session with it. -/
def step [DecidableEq Worker] (flow : ShareFlow Worker) :
    FlowEvent Worker → Option (ShareFlow Worker)
  | .connected =>
      if flow.place = .connecting then some { flow with place := .submitting } else none
  | .sessionFailed => if flow.place.inSession then some { flow with place := .clearing } else none
  | .sendNext written =>
      match flow.place, flow.queue with
      | .submitting, share :: rest =>
          some { flow with
            queue := rest
            sent := (flow.connection, share) :: flow.sent
            place := if written then .submitting else .clearing }
      | _, _ => none
  | .queueEmpty =>
      if flow.place = .submitting ∧ flow.queue = [] then some { flow with place := .reading }
      else none
  | .readLine published =>
      if flow.place = .reading then
        some { flow with
          slot := (published.map (OfConnection.mk flow.connection)).or flow.slot
          place := .submitting }
      else none
  | .clearJob =>
      if flow.place = .clearing then some { flow with slot := none, place := .draining } else none
  | .drainNext =>
      match flow.place, flow.queue with
      | .draining, _ :: rest => some { flow with queue := rest }
      | _, _ => none
  | .drained =>
      if flow.place = .draining ∧ flow.queue = [] then some { flow with place := .sleeping }
      else none
  | .wake =>
      if flow.place = .sleeping then
        some { flow with place := .connecting, connection := flow.connection + 1 }
      else none
  | .takeJob worker =>
      if flow.slot.isSome then
        some { flow with held := Function.update flow.held worker flow.slot }
      else none
  | .submit worker algo extranonce2 nonce hash =>
      (flow.held worker).map fun job ↦
        flow.submit ⟨job.connection, (submission job.data algo extranonce2 nonce hash).share⟩

/-- Every share that went out belongs to the connection it went out on. -/
def Faithful (flow : ShareFlow Worker) : Prop :=
  ∀ entry ∈ flow.sent, entry.2.connection = entry.1

/-- A share comes in time: in the session of the connection that brought its job, or while the
client clears and drains, or to a queue that is full. -/
def InTime (flow : ShareFlow Worker) : FlowEvent Worker → Prop
  | .submit worker _ _ _ _ => ∀ job, flow.held worker = some job →
      flow.place.inSession = true ∧ job.connection = flow.connection ∨
        flow.place = .clearing ∨ flow.place = .draining ∨ submitQueue ≤ flow.queue.length
  | _ => True

/-! ### What a step keeps -/

/-- In a session the queue holds shares of its own connection only, and between the drain and the
next session it is empty. -/
structure Separate (flow : ShareFlow Worker) : Prop where
  session : flow.place.inSession = true → ∀ share ∈ flow.queue, share.connection = flow.connection
  asleep : flow.place = .sleeping → flow.queue = []
  faithful : flow.Faithful

theorem Separate.start : (start : ShareFlow Worker).Separate where
  session := fun _ _ hmem ↦ absurd hmem List.not_mem_nil
  asleep := fun _ ↦ rfl
  faithful := fun _ hmem ↦ absurd hmem List.not_mem_nil

section Step

variable {flow next : ShareFlow Worker}

theorem not_inSession_of_clearing (hplace : flow.place = .clearing) :
    ¬ flow.place.inSession = true := by
  rw [hplace]
  exact Bool.false_ne_true

theorem not_inSession_of_draining (hplace : flow.place = .draining) :
    ¬ flow.place.inSession = true := by
  rw [hplace]
  exact Bool.false_ne_true

/-- A share that comes in time leaves the queue as it should be. -/
theorem Separate.submit {share : OfConnection FoundShare} (hseparate : flow.Separate)
    (hintime : flow.place.inSession = true ∧ share.connection = flow.connection ∨
      flow.place = .clearing ∨ flow.place = .draining ∨ submitQueue ≤ flow.queue.length) :
    (flow.submit share).Separate := by
  unfold ShareFlow.submit
  by_cases hroom : flow.queue.length < submitQueue
  · rw [if_pos hroom]
    rcases hintime with ⟨hsession, howner⟩ | hclearing | hdraining | hfull
    · refine ⟨fun _ other hmem ↦ ?_, fun hasleep ↦ ?_, hseparate.faithful⟩
      · rcases List.mem_append.mp hmem with hbefore | hnew
        · exact hseparate.session hsession other hbefore
        · rw [List.mem_singleton.mp hnew]
          exact howner
      · have hplace : flow.place = .sleeping := hasleep
        rw [hplace] at hsession
        exact absurd hsession Bool.false_ne_true
    · refine ⟨fun hsession ↦ absurd hsession (not_inSession_of_clearing hclearing),
        fun hasleep ↦ ?_, hseparate.faithful⟩
      exact ClientPlace.noConfusion (hclearing.symm.trans hasleep)
    · refine ⟨fun hsession ↦ absurd hsession (not_inSession_of_draining hdraining),
        fun hasleep ↦ ?_, hseparate.faithful⟩
      exact ClientPlace.noConfusion (hdraining.symm.trans hasleep)
    · exact absurd hroom (not_lt.mpr hfull)
  · rw [if_neg hroom]
    exact ⟨hseparate.session, hseparate.asleep, hseparate.faithful⟩

/-- Let connections be kept apart, and the client be submitting. The oldest share of the queue goes
out on the connection of the session, which is its own, whether the client goes on submitting or the
session ends with it. -/
theorem Separate.sendNext {share : OfConnection FoundShare} {rest : List (OfConnection FoundShare)}
    (hseparate : flow.Separate) (hplace : flow.place = .submitting)
    (hqueue : flow.queue = share :: rest)
    (place : ClientPlace) (hnext : place = .submitting ∨ place = .clearing) :
    Separate { flow with
      queue := rest
      sent := (flow.connection, share) :: flow.sent
      place := place } := by
  have hsession := hseparate.session (by rw [hplace]; rfl)
  rw [hqueue] at hsession
  constructor
  · intro _ other hmem
    exact hsession other (List.mem_cons_of_mem _ hmem)
  · intro hasleep
    have hsleeping : place = .sleeping := hasleep
    rcases hnext with rfl | rfl <;> exact ClientPlace.noConfusion hsleeping
  · intro entry hmem
    rcases List.mem_cons.mp hmem with rfl | hbefore
    · exact hsession share List.mem_cons_self
    · exact hseparate.faithful entry hbefore

/-- Every step at which no share comes too late keeps the connections apart. -/
theorem Separate.step [DecidableEq Worker] {event : FlowEvent Worker}
    (hstep : flow.step event = some next) (hintime : flow.InTime event)
    (hseparate : flow.Separate) :
    next.Separate := by
  unfold ShareFlow.step at hstep
  cases event with
  | connected =>
    rw [Option.ite_none_right_eq_some, Option.some.injEq] at hstep
    obtain ⟨hplace, rfl⟩ := hstep
    have hsession := hseparate.session (by rw [hplace]; rfl)
    exact ⟨fun _ ↦ hsession, fun hasleep ↦ (nomatch hasleep), hseparate.faithful⟩
  | sessionFailed =>
    rw [Option.ite_none_right_eq_some, Option.some.injEq] at hstep
    obtain ⟨-, rfl⟩ := hstep
    exact ⟨fun hfalse ↦ (nomatch hfalse), fun hasleep ↦ (nomatch hasleep), hseparate.faithful⟩
  | sendNext written =>
    cases hplace : flow.place <;> cases hqueue : flow.queue <;>
      simp only [hplace, hqueue, reduceCtorEq, Option.some.injEq] at hstep
    rw [← hstep]
    refine hseparate.sendNext hplace hqueue _ ?_
    cases written with
    | true => exact Or.inl rfl
    | false => exact Or.inr rfl
  | queueEmpty =>
    rw [Option.ite_none_right_eq_some, Option.some.injEq] at hstep
    obtain ⟨⟨-, hqueue⟩, rfl⟩ := hstep
    refine ⟨fun _ share hmem ↦ ?_, fun hasleep ↦ (nomatch hasleep), hseparate.faithful⟩
    rw [show ({ flow with place := ClientPlace.reading } : ShareFlow Worker).queue =
      [] from hqueue] at hmem
    exact absurd hmem List.not_mem_nil
  | readLine published =>
    rw [Option.ite_none_right_eq_some, Option.some.injEq] at hstep
    obtain ⟨hplace, rfl⟩ := hstep
    have hsession := hseparate.session (by rw [hplace]; rfl)
    exact ⟨fun _ ↦ hsession, fun hasleep ↦ (nomatch hasleep), hseparate.faithful⟩
  | clearJob =>
    rw [Option.ite_none_right_eq_some, Option.some.injEq] at hstep
    obtain ⟨-, rfl⟩ := hstep
    exact ⟨fun hfalse ↦ (nomatch hfalse), fun hasleep ↦ (nomatch hasleep), hseparate.faithful⟩
  | drainNext =>
    cases hplace : flow.place <;> cases hqueue : flow.queue <;>
      simp only [hplace, hqueue, reduceCtorEq, Option.some.injEq] at hstep
    rw [← hstep]
    exact ⟨fun hfalse ↦ (nomatch hfalse), fun hasleep ↦ (nomatch hasleep), hseparate.faithful⟩
  | drained =>
    rw [Option.ite_none_right_eq_some, Option.some.injEq] at hstep
    obtain ⟨⟨-, hqueue⟩, rfl⟩ := hstep
    exact ⟨fun hfalse ↦ (nomatch hfalse), fun _ ↦ hqueue, hseparate.faithful⟩
  | wake =>
    rw [Option.ite_none_right_eq_some, Option.some.injEq] at hstep
    obtain ⟨hplace, rfl⟩ := hstep
    have hempty := hseparate.asleep hplace
    refine ⟨fun _ share hmem ↦ ?_, fun hasleep ↦ (nomatch hasleep), hseparate.faithful⟩
    have hnone : share ∈ flow.queue := hmem
    rw [hempty] at hnone
    exact absurd hnone List.not_mem_nil
  | takeJob worker =>
    rw [Option.ite_none_right_eq_some, Option.some.injEq] at hstep
    obtain ⟨-, rfl⟩ := hstep
    exact ⟨hseparate.session, hseparate.asleep, hseparate.faithful⟩
  | submit worker algo extranonce2 nonce hash =>
    rw [Option.map_eq_some_iff] at hstep
    obtain ⟨job, hheld, rfl⟩ := hstep
    exact hseparate.submit (hintime job hheld)

end Step

/-! ### Whole runs -/

section Runs

variable [DecidableEq Worker]

/-- The submit queue from one connection to the next. Take any run of the client, the submit loop
and the workers from the start, their steps in any order. As long as every share is handed in during
the session of the connection that brought its job, while the client clears and drains, or to a
queue that is full (`InTime`), every share that goes out goes out on the connection that it belongs
to. The condition is one on the steps: it says of a hand-in how far the client has come by then, and
nothing of what is sent later. -/
theorem faithful_of_inTime (events : List (FlowEvent Worker)) (final : ShareFlow Worker)
    (hrun : PartialMachine.run step start events = some final)
    (hintime : PartialMachine.EveryStep step InTime start events) : final.Faithful := by
  have hseparate : final.Separate :=
    PartialMachine.invariant_of_run_of_everyStep
      (fun _ _ _ hstep hcondition ↦ Separate.step hstep hcondition) hrun hintime Separate.start
  exact hseparate.faithful

end Runs

/-- A connection that brings a job, which the one worker takes, and fails. -/
def jobThenFailure : List (FlowEvent Unit) :=
  [.connected, .queueEmpty, .readLine (some (bareJob 0x1d00ffff (Vector.replicate 32 0xff))),
    .takeJob (), .queueEmpty, .sessionFailed]

/-- The worker hands in a share of the job that it holds. -/
def handIn (nonce : UInt32) : FlowEvent Unit :=
    .submit () .bc3Hash [0, 0, 0, 0] nonce (Vector.replicate 32 0)

/-- A share handed in before the drain, the next connection, and a share of its job. -/
def handedInInTime : List (FlowEvent Unit) :=
  jobThenFailure ++ [handIn 1, .clearJob, .drainNext, .drained, .wake] ++ jobThenFailure.take 4 ++
    [handIn 2, .sendNext true]

/-- A share handed in before the drain, then the next connection and a share of its job: one share
is sent, on the connection it belongs to. -/
theorem faithful_of_inTime_drained :
    ∃ final, PartialMachine.run step start handedInInTime = some final ∧
      final.sent.length = 1 ∧ final.Faithful := by
  refine ⟨_, rfl, rfl, faithful_of_inTime handedInInTime _ rfl ?_⟩
  refine .cons rfl trivial (.cons rfl trivial
    (.cons rfl trivial (.cons rfl trivial (.cons rfl trivial
    (.cons rfl trivial (.cons rfl ?_ (.cons rfl trivial (.cons rfl trivial (.cons rfl trivial
      (.cons rfl trivial (.cons rfl trivial (.cons rfl trivial (.cons rfl trivial (.cons rfl trivial
        (.cons rfl ?_ (.cons rfl trivial trivial))))))))))))))))
  · intro job _
    exact Or.inr (Or.inl rfl)
  · rintro _ ⟨⟩
    exact Or.inl ⟨rfl, rfl⟩

/-- A share handed in after the drain goes out on the next connection. -/
theorem late_share_crosses :
    ∃ final, PartialMachine.run step start (jobThenFailure ++
        [.clearJob, .drained, handIn 1, .wake, .connected, .sendNext true]) = some final ∧
      ¬ final.Faithful := by
  refine ⟨_, rfl, fun hfaithful ↦ ?_⟩
  exact absurd (hfaithful _ List.mem_cons_self) (by decide)

end ShareFlow

end Bc3Miner.Pool
