import Bc3Miner.Foundations.PartialMachine
import Mathlib.Logic.Function.Basic

/-!
# The job slot, its generation and those who wait

`publish_job`, `clear_job`, `nudge`, `wait_for_job` and `wait_for_job_after` of `src/shared.rs`,
each lock section and each atomic access one step. The three ways to bump the generation are not
alike: `publish_job` and `nudge` bump it inside the lock and notify outside, `clear_job` bumps it
outside the lock and notifies nobody.

One thread publishes and clears; any number of threads nudge and wait. A thread in a wait takes the
lock and looks (`checking`), and goes to sleep with the generation it looked at. A thread that
bumped the generation and has yet to notify remembers the generation it made, so that a notify was
issued after a look exactly when its generation is above the one looked at.

`Board.Coherent` is what every step keeps. For a waiter it means that the job in its hand belongs to
the generation that came with it, and that no bump it has not seen goes without a notify.

`job_and_generation_stay_coherent` is over every interleaving with any number of threads, and jobs
of any type. That `clear_job` notifies nobody does no harm: it leaves no job to find, so nobody who
sleeps could end the wait.
-/

set_option autoImplicit false
set_option relaxedAutoImplicit false

namespace Bc3Miner.Sharing

open Foundations

/-- What a thread waits for: any job, or one after generation `seen`. -/
inductive Call
  | any
  | after (seen : ℕ)
  deriving DecidableEq, Repr

/-- The job that ends a wait, if the slot and the generation are such that it ends. -/
def Call.found {Job : Type*} (call : Call) (slot : Option Job) (generation : ℕ) : Option Job :=
  match call with
  | .any => slot
  | .after seen => if generation ≠ seen then slot else none

/-- Where a thread is: outside the board, about to notify, about to look, or asleep since it
looked. -/
inductive ThreadState
  | idle
  | notifying (bumped : ℕ)
  | checking (call : Call)
  | asleep (call : Call) (lookedAt : ℕ)
  deriving DecidableEq, Repr

/-- Where the thread that publishes is: outside, about to notify, or about to bump after a clear. -/
inductive StratumState
  | idle
  | notifying (bumped : ℕ)
  | clearing
  deriving DecidableEq, Repr

/-- The job slot, the generation, where everybody is, and what every wait has returned so far. -/
structure Board (Job Thread : Type*) where
  slot : Option Job
  generation : ℕ
  stratum : StratumState
  threads : Thread → ThreadState
  handed : List (Thread × ℕ × Job)

/-- A step of one of the parties. -/
inductive BoardEvent (Job Thread : Type*)
  | publish (job : Job)
  | notify
  | clear
  | bump
  | nudge (thread : Thread)
  | notifyAll (thread : Thread)
  | wait (thread : Thread) (call : Call)
  | look (thread : Thread)
  | wakeSpuriously (thread : Thread)

namespace Board

variable {Job Thread : Type*} [DecidableEq Thread]

/-- Before the first job. -/
def start : Board Job Thread where
  slot := none
  generation := 0
  stratum := .idle
  threads := fun _ ↦ .idle
  handed := []

/-- Whoever is asleep on the condition variable looks again. -/
def woken (threads : Thread → ThreadState) (thread : Thread) : ThreadState :=
  match threads thread with
  | .asleep call _ => .checking call
  | state => state

/-- The lock section of `publish_job`. -/
def publish (board : Board Job Thread) (job : Job) : Board Job Thread :=
  { board with
    slot := some job
    generation := board.generation + 1
    stratum := .notifying (board.generation + 1) }

/-- The lock section of `nudge`, which leaves a slot without a job alone. -/
def nudge (board : Board Job Thread) (thread : Thread) : Board Job Thread :=
  match board.slot with
  | none => board
  | some _ =>
    { board with
      generation := board.generation + 1
      threads := Function.update board.threads thread (.notifying (board.generation + 1)) }

/-- The lock section of a wait: take the job, or go to sleep. -/
def look (board : Board Job Thread) (thread : Thread) (call : Call) : Board Job Thread :=
  match call.found board.slot board.generation with
  | some job =>
    { board with
      threads := Function.update board.threads thread .idle
      handed := (thread, board.generation, job) :: board.handed }
  | none =>
    { board with
      threads := Function.update board.threads thread (.asleep call board.generation) }

/-- One step of one party; `none` when the party is elsewhere. -/
def step (board : Board Job Thread) : BoardEvent Job Thread → Option (Board Job Thread)
  | .publish job => if board.stratum = .idle then some (board.publish job) else none
  | .notify =>
    match board.stratum with
    | .notifying _ => some { board with stratum := .idle, threads := woken board.threads }
    | _ => none
  | .clear =>
    if board.stratum = .idle then some { board with slot := none, stratum := .clearing } else none
  | .bump =>
    if board.stratum = .clearing then
      some { board with generation := board.generation + 1, stratum := .idle }
    else none
  | .nudge thread => if board.threads thread = .idle then some (board.nudge thread) else none
  | .notifyAll thread =>
    match board.threads thread with
    | .notifying _ =>
      some { board with threads := Function.update (woken board.threads) thread .idle }
    | _ => none
  | .wait thread call =>
    if board.threads thread = .idle then
      some { board with threads := Function.update board.threads thread (.checking call) }
    else none
  | .look thread =>
    match board.threads thread with
    | .checking call => some (board.look thread call)
    | _ => none
  | .wakeSpuriously thread =>
    match board.threads thread with
    | .asleep call _ =>
      some { board with threads := Function.update board.threads thread (.checking call) }
    | _ => none

/-! ### What a step leaves alone -/

/-- A nudge leaves the job alone and only moves the generation on. -/
theorem nudge_frame (board : Board Job Thread) (thread : Thread) :
    (board.nudge thread).slot = board.slot ∧ (board.nudge thread).stratum = board.stratum ∧
      (board.nudge thread).handed = board.handed ∧
      board.generation ≤ (board.nudge thread).generation := by
  unfold nudge
  split
  · exact ⟨rfl, rfl, rfl, Nat.le_refl _⟩
  · exact ⟨rfl, rfl, rfl, Nat.le_succ _⟩

/-- A look at the board changes only what has been handed out. -/
theorem look_frame (board : Board Job Thread) (thread : Thread) (call : Call) :
    (board.look thread call).slot = board.slot ∧ (board.look thread call).stratum = board.stratum ∧
      board.handed ⊆ (board.look thread call).handed ∧
      (board.look thread call).generation = board.generation := by
  unfold look
  split
  · exact ⟨rfl, rfl, fun _ hentry ↦ List.mem_cons_of_mem _ hentry, rfl⟩
  · exact ⟨rfl, rfl, fun _ hentry ↦ hentry, rfl⟩

/-- The generation never falls, and what was handed out stays handed out. -/
theorem step_grows {board next : Board Job Thread} {event : BoardEvent Job Thread}
    (hstep : board.step event = some next) :
    board.generation ≤ next.generation ∧ board.handed ⊆ next.handed := by
  cases event with
  | publish job =>
    simp only [step] at hstep
    split_ifs at hstep
    obtain rfl := Option.some.inj hstep
    exact ⟨Nat.le_succ _, fun _ hentry ↦ hentry⟩
  | notify =>
    simp only [step] at hstep
    split at hstep
    · obtain rfl := Option.some.inj hstep
      exact ⟨Nat.le_refl _, fun _ hentry ↦ hentry⟩
    · cases hstep
  | clear =>
    simp only [step] at hstep
    split_ifs at hstep
    obtain rfl := Option.some.inj hstep
    exact ⟨Nat.le_refl _, fun _ hentry ↦ hentry⟩
  | bump =>
    simp only [step] at hstep
    split_ifs at hstep
    obtain rfl := Option.some.inj hstep
    exact ⟨Nat.le_succ _, fun _ hentry ↦ hentry⟩
  | nudge thread =>
    simp only [step] at hstep
    split_ifs at hstep
    obtain rfl := Option.some.inj hstep
    obtain ⟨-, -, hhanded, hgeneration⟩ := board.nudge_frame thread
    exact ⟨hgeneration, hhanded ▸ fun _ hentry ↦ hentry⟩
  | notifyAll thread =>
    simp only [step] at hstep
    split at hstep
    · obtain rfl := Option.some.inj hstep
      exact ⟨Nat.le_refl _, fun _ hentry ↦ hentry⟩
    · cases hstep
  | wait thread call =>
    simp only [step] at hstep
    split_ifs at hstep
    obtain rfl := Option.some.inj hstep
    exact ⟨Nat.le_refl _, fun _ hentry ↦ hentry⟩
  | look thread =>
    simp only [step] at hstep
    split at hstep
    · rename_i call hchecking
      obtain rfl := Option.some.inj hstep
      obtain ⟨-, -, hhanded, hgeneration⟩ := board.look_frame thread call
      exact ⟨Nat.le_of_eq hgeneration.symm, hhanded⟩
    · cases hstep
  | wakeSpuriously thread =>
    simp only [step] at hstep
    split at hstep
    · obtain rfl := Option.some.inj hstep
      exact ⟨Nat.le_refl _, fun _ hentry ↦ hentry⟩
    · cases hstep

/-- The events of a thread that nudges or waits. -/
inductive ByThread (thread : Thread) : BoardEvent Job Thread → Prop
  | nudge : ByThread thread (.nudge thread)
  | notifyAll : ByThread thread (.notifyAll thread)
  | wait (call : Call) : ByThread thread (.wait thread call)
  | look : ByThread thread (.look thread)
  | wakeSpuriously : ByThread thread (.wakeSpuriously thread)

/-- A thread that nudges or waits touches neither the slot nor the thread that publishes. -/
theorem ByThread.step_frame {thread : Thread} {event : BoardEvent Job Thread}
    (hthread : ByThread thread event) {board next : Board Job Thread}
    (hstep : board.step event = some next) :
    next.slot = board.slot ∧ next.stratum = board.stratum := by
  cases hthread with
  | nudge =>
    simp only [step] at hstep
    split_ifs at hstep
    obtain rfl := Option.some.inj hstep
    exact ⟨(board.nudge_frame thread).1, (board.nudge_frame thread).2.1⟩
  | notifyAll =>
    simp only [step] at hstep
    split at hstep
    · obtain rfl := Option.some.inj hstep
      exact ⟨rfl, rfl⟩
    · cases hstep
  | wait call =>
    simp only [step] at hstep
    split_ifs at hstep
    obtain rfl := Option.some.inj hstep
    exact ⟨rfl, rfl⟩
  | look =>
    simp only [step] at hstep
    split at hstep
    · rename_i call hchecking
      obtain rfl := Option.some.inj hstep
      exact ⟨(board.look_frame thread call).1, (board.look_frame thread call).2.1⟩
    · cases hstep
  | wakeSpuriously =>
    simp only [step] at hstep
    split at hstep
    · obtain rfl := Option.some.inj hstep
      exact ⟨rfl, rfl⟩
    · cases hstep

/-- A nudge that does not bump found the slot empty. -/
theorem slot_of_nudge {board next : Board Job Thread} {thread : Thread}
    (hstep : board.step (.nudge thread) = some next)
    (hsame : next.generation = board.generation) : board.slot = none := by
  simp only [step] at hstep
  split_ifs at hstep
  obtain rfl := Option.some.inj hstep
  cases hslot : board.slot with
  | none => rfl
  | some job =>
    simp only [nudge, hslot] at hsame
    exact absurd hsame (Nat.succ_ne_self _)

/-! ### The invariant -/

/-- A notify that is outstanding, and was issued after somebody looked at this generation. -/
def Outstanding (board : Board Job Thread) (lookedAt : ℕ) : Prop :=
  (∃ bumped, board.stratum = .notifying bumped ∧ lookedAt < bumped) ∨
    ∃ thread bumped, board.threads thread = .notifying bumped ∧ lookedAt < bumped

/-- A job that was handed out stays in the slot as long as its generation does, or the slot was
cleared and the bump of that is still to come. -/
def Held (board : Board Job Thread) (generation : ℕ) (job : Job) : Prop :=
  board.generation = generation →
    board.slot = some job ∨ board.slot = none ∧ board.stratum = .clearing

/-- What every step keeps. -/
structure Coherent (board : Board Job Thread) : Prop where
  cleared : board.stratum = .clearing → board.slot = none
  past : ∀ entry ∈ board.handed, entry.2.1 ≤ board.generation
  held : ∀ entry ∈ board.handed, board.Held entry.2.1 entry.2.2
  looked : ∀ thread call lookedAt, board.threads thread = .asleep call lookedAt →
    lookedAt ≤ board.generation
  owed : ∀ thread call lookedAt, board.threads thread = .asleep call lookedAt →
    (call.found board.slot board.generation).isSome = true → board.Outstanding lookedAt

omit [DecidableEq Thread] in
/-- The empty board is coherent. -/
theorem Coherent.start : (Board.start : Board Job Thread).Coherent where
  cleared := fun hclearing ↦ nomatch hclearing
  past := fun _ hentry ↦ absurd hentry List.not_mem_nil
  held := fun _ hentry ↦ absurd hentry List.not_mem_nil
  looked := fun _ _ _ hasleep ↦ nomatch hasleep
  owed := fun _ _ _ hasleep ↦ nomatch hasleep

/-- An empty slot ends no wait. -/
theorem found_none (call : Call) (generation : ℕ) :
    call.found (none : Option Job) generation = none := by
  cases call with
  | any => rfl
  | after seen => exact ite_self _

/-- What ends a wait is the job in the slot. -/
theorem found_eq_some {call : Call} {slot : Option Job} {generation : ℕ} {job : Job}
    (hfound : call.found slot generation = some job) : slot = some job := by
  cases call with
  | any => exact hfound
  | after seen =>
    simp only [Call.found] at hfound
    split_ifs at hfound
    exact hfound

omit [DecidableEq Thread] in
/-- Nobody is asleep among those just woken. -/
theorem woken_ne_asleep (threads : Thread → ThreadState) (thread : Thread) (call : Call)
    (lookedAt : ℕ) : woken threads thread ≠ .asleep call lookedAt := by
  unfold woken
  split
  · exact fun hasleep ↦ nomatch hasleep
  · rename_i hawake
    exact fun hasleep ↦ hawake call lookedAt hasleep

omit [DecidableEq Thread] in
/-- A bump leaves every pair that was handed out behind. -/
theorem Coherent.held_of_bump {board : Board Job Thread} (hcoherent : board.Coherent)
    (next : Board Job Thread)
    (hgeneration : next.generation = board.generation + 1) (hhanded : next.handed = board.handed) :
    (∀ entry ∈ next.handed, entry.2.1 ≤ next.generation) ∧
      ∀ entry ∈ next.handed, next.Held entry.2.1 entry.2.2 := by
  rw [hhanded, hgeneration]
  refine ⟨fun entry hentry ↦ Nat.le_succ_of_le (hcoherent.past entry hentry), ?_⟩
  intro entry hentry heq
  have hpast := hcoherent.past entry hentry
  rw [hgeneration] at heq
  exact absurd (heq ▸ hpast) (Nat.not_succ_le_self _)

omit [DecidableEq Thread] in
/-- Publishing a job keeps the board coherent. -/
theorem Coherent.publish {board : Board Job Thread} (hcoherent : board.Coherent) (job : Job) :
    (board.publish job).Coherent := by
  obtain ⟨hpast, hheld⟩ := hcoherent.held_of_bump (board.publish job) rfl rfl
  refine ⟨fun hclearing ↦ (nomatch hclearing), hpast, hheld, ?_, ?_⟩
  · intro thread call lookedAt hasleep
    exact Nat.le_succ_of_le (hcoherent.looked thread call lookedAt hasleep)
  · intro thread call lookedAt hasleep _
    have hlooked := hcoherent.looked thread call lookedAt hasleep
    exact .inl ⟨board.generation + 1, rfl, Nat.lt_succ_of_le hlooked⟩

/-- A thread that moves on, and is not put to sleep, leaves the others as they are. -/
theorem asleep_of_update {threads : Thread → ThreadState} {thread other : Thread}
    {state : ThreadState} {call : Call} {lookedAt : ℕ}
    (hawake : ∀ call lookedAt, state ≠ .asleep call lookedAt)
    (hasleep : Function.update threads thread state other = .asleep call lookedAt) :
    other ≠ thread ∧ threads other = .asleep call lookedAt := by
  by_cases hother : other = thread
  · rw [hother, Function.update_self] at hasleep
    exact absurd hasleep (hawake call lookedAt)
  · rw [Function.update_of_ne hother] at hasleep
    exact ⟨hother, hasleep⟩

/-- A nudge keeps the board coherent. -/
theorem Coherent.nudge {board : Board Job Thread} (hcoherent : board.Coherent) (thread : Thread) :
    (board.nudge thread).Coherent := by
  cases hslot : board.slot with
  | none =>
    have hsame : board.nudge thread = board := by simp only [Board.nudge, hslot]
    rw [hsame]
    exact hcoherent
  | some job =>
    have hnext : board.nudge thread = { board with
        generation := board.generation + 1
        threads := Function.update board.threads thread (.notifying (board.generation + 1)) } := by
      simp only [Board.nudge, hslot]
    rw [hnext]
    have hawake : ∀ call lookedAt,
        ThreadState.notifying (board.generation + 1) ≠ .asleep call lookedAt :=
      fun _ _ heq ↦ nomatch heq
    obtain ⟨hpast, hheld⟩ := hcoherent.held_of_bump { board with
      generation := board.generation + 1
      threads := Function.update board.threads thread (.notifying (board.generation + 1)) } rfl rfl
    refine ⟨hcoherent.cleared, hpast, hheld, ?_, ?_⟩
    · intro other call lookedAt hasleep
      have hother := (asleep_of_update hawake hasleep).2
      exact Nat.le_succ_of_le (hcoherent.looked other call lookedAt hother)
    · intro other call lookedAt hasleep _
      have hother := (asleep_of_update hawake hasleep).2
      have hlooked := hcoherent.looked other call lookedAt hother
      exact .inr ⟨thread, board.generation + 1, Function.update_self .., Nat.lt_succ_of_le hlooked⟩

omit [DecidableEq Thread] in
/-- A step after which nobody is asleep keeps a board coherent, if it leaves the job, the generation
and what was handed out as they were, and moves the stratum thread neither into clearing nor out of
it: nothing is owed to anybody. -/
theorem Coherent.of_awake {board next : Board Job Thread} (hcoherent : board.Coherent)
    (hslot : next.slot = board.slot) (hgeneration : next.generation = board.generation)
    (hhanded : next.handed = board.handed) (hcleared : next.stratum = .clearing ↔
      board.stratum = .clearing)
    (hawake : ∀ thread call lookedAt, next.threads thread ≠ .asleep call lookedAt) :
    next.Coherent where
  cleared := fun hclearing ↦ by
    rw [hslot]
    exact hcoherent.cleared (hcleared.mp hclearing)
  past := by
    rw [hhanded, hgeneration]
    exact hcoherent.past
  held := by
    unfold Held
    rw [hhanded, hgeneration, hslot, hcleared]
    exact hcoherent.held
  looked := fun thread call lookedAt hasleep ↦ absurd hasleep (hawake thread call lookedAt)
  owed := fun thread call lookedAt hasleep ↦ absurd hasleep (hawake thread call lookedAt)

/-- A thread that looked in vain sleeps with what it looked at, and the others as before. -/
theorem look_asleep {threads : Thread → ThreadState} {thread other : Thread} {call otherCall : Call}
    {generation lookedAt : ℕ}
    (hasleep : Function.update threads thread (.asleep call generation) other =
      .asleep otherCall lookedAt) :
    (other = thread ∧ otherCall = call ∧ lookedAt = generation) ∨
      threads other = .asleep otherCall lookedAt := by
  by_cases hother : other = thread
  · rw [hother, Function.update_self] at hasleep
    obtain ⟨rfl, rfl⟩ := ThreadState.asleep.inj hasleep
    exact .inl ⟨hother, rfl, rfl⟩
  · rw [Function.update_of_ne hother] at hasleep
    exact .inr hasleep

/-- A thread that has no notify to make, and that moves anywhere but into sleep, keeps a board
coherent: it owes nobody a wake-up, and nobody owes it one. -/
theorem Coherent.move {board : Board Job Thread} (hcoherent : board.Coherent) {thread : Thread}
    (hquiet : ∀ bumped, board.threads thread ≠ .notifying bumped) (state : ThreadState)
    (hawake : ∀ call lookedAt, state ≠ .asleep call lookedAt) :
    Coherent { board with threads := Function.update board.threads thread state } where
  cleared := hcoherent.cleared
  past := hcoherent.past
  held := hcoherent.held
  looked := fun other call lookedAt hasleep ↦
    hcoherent.looked other call lookedAt (asleep_of_update hawake hasleep).2
  owed := fun other call lookedAt hasleep hfound ↦ by
    have hother := (asleep_of_update hawake hasleep).2
    rcases hcoherent.owed other call lookedAt hother hfound with
      hstratum | ⟨notifier, bumped, hat, hlt⟩
    · exact .inl hstratum
    · have hne : notifier ≠ thread := by
        rintro rfl
        exact hquiet bumped hat
      exact .inr ⟨notifier, bumped, (Function.update_of_ne hne ..).trans hat, hlt⟩

/-- A look by a thread that is checking keeps the board coherent. -/
theorem Coherent.look {board : Board Job Thread} (hcoherent : board.Coherent) {thread : Thread}
    {call : Call} (hchecking : board.threads thread = .checking call) :
    (board.look thread call).Coherent := by
  have hquiet : ∀ bumped, board.threads thread ≠ .notifying bumped := by
    rw [hchecking]
    exact fun _ heq ↦ nomatch heq
  cases hfound : call.found board.slot board.generation with
  | some job =>
    have hnext : board.look thread call = { board with
        threads := Function.update board.threads thread .idle
        handed := (thread, board.generation, job) :: board.handed } := by
      simp only [Board.look, hfound]
    rw [hnext]
    have hmoved := hcoherent.move hquiet .idle (fun _ _ heq ↦ nomatch heq)
    refine ⟨hmoved.cleared, ?_, ?_, hmoved.looked, hmoved.owed⟩
    · intro entry hentry
      rcases List.mem_cons.mp hentry with rfl | hearlier
      · exact Nat.le_refl _
      · exact hcoherent.past entry hearlier
    · intro entry hentry
      rcases List.mem_cons.mp hentry with rfl | hearlier
      · exact fun _ ↦ .inl (found_eq_some hfound)
      · exact hcoherent.held entry hearlier
  | none =>
    have hnext : board.look thread call = { board with
        threads := Function.update board.threads thread (.asleep call board.generation) } := by
      simp only [Board.look, hfound]
    rw [hnext]
    refine ⟨hcoherent.cleared, hcoherent.past, hcoherent.held, ?_, ?_⟩
    · intro other otherCall lookedAt hasleep
      rcases look_asleep hasleep with ⟨-, -, rfl⟩ | hother
      · exact Nat.le_refl _
      · exact hcoherent.looked other otherCall lookedAt hother
    · intro other otherCall lookedAt hasleep hwakes
      rcases look_asleep hasleep with ⟨-, rfl, -⟩ | hother
      · rw [hfound] at hwakes
        cases hwakes
      · rcases hcoherent.owed other otherCall lookedAt hother hwakes with
          hstratum | ⟨notifier, bumped, hat, hlt⟩
        · exact .inl hstratum
        · have hne : notifier ≠ thread := by
            rintro rfl
            exact hquiet bumped hat
          exact .inr ⟨notifier, bumped, (Function.update_of_ne hne ..).trans hat, hlt⟩

/-- Every step keeps the board coherent. -/
theorem Coherent.step {board next : Board Job Thread} (hcoherent : board.Coherent)
    {event : BoardEvent Job Thread} (hstep : board.step event = some next) : next.Coherent := by
  cases event with
  | publish job =>
    simp only [Board.step] at hstep
    split_ifs at hstep
    obtain rfl := Option.some.inj hstep
    exact hcoherent.publish job
  | notify =>
    simp only [Board.step] at hstep
    split at hstep
    · rename_i bumped hstratum
      obtain rfl := Option.some.inj hstep
      exact hcoherent.of_awake rfl rfl rfl (by simp [hstratum]) (woken_ne_asleep board.threads)
    · cases hstep
  | clear =>
    simp only [Board.step] at hstep
    split_ifs at hstep
    obtain rfl := Option.some.inj hstep
    refine ⟨fun _ ↦ rfl, hcoherent.past, fun _ _ _ ↦ .inr ⟨rfl, rfl⟩, hcoherent.looked, ?_⟩
    intro thread call lookedAt _ hfound
    rw [found_none] at hfound
    cases hfound
  | bump =>
    simp only [Board.step] at hstep
    split_ifs at hstep with hclearing
    obtain rfl := Option.some.inj hstep
    have hslot := hcoherent.cleared hclearing
    obtain ⟨hpast, hheld⟩ := hcoherent.held_of_bump
      { board with generation := board.generation + 1, stratum := .idle } rfl rfl
    refine ⟨fun hnever ↦ StratumState.noConfusion hnever, hpast, hheld, ?_, ?_⟩
    · intro thread call lookedAt hasleep
      exact Nat.le_succ_of_le (hcoherent.looked thread call lookedAt hasleep)
    · intro thread call lookedAt _ hfound
      rw [hslot, found_none] at hfound
      cases hfound
  | nudge thread =>
    simp only [Board.step] at hstep
    split_ifs at hstep
    obtain rfl := Option.some.inj hstep
    exact hcoherent.nudge thread
  | notifyAll thread =>
    simp only [Board.step] at hstep
    split at hstep
    · obtain rfl := Option.some.inj hstep
      refine hcoherent.of_awake rfl rfl rfl Iff.rfl fun other call lookedAt hasleep ↦ ?_
      have hother := (asleep_of_update (by simp) hasleep).2
      exact woken_ne_asleep board.threads other call lookedAt hother
    · cases hstep
  | wait thread call =>
    simp only [Board.step] at hstep
    split_ifs at hstep with hidle
    obtain rfl := Option.some.inj hstep
    exact hcoherent.move (by simp [hidle]) (.checking call) (fun _ _ heq ↦ nomatch heq)
  | look thread =>
    simp only [Board.step] at hstep
    split at hstep
    · rename_i call hchecking
      obtain rfl := Option.some.inj hstep
      exact hcoherent.look hchecking
    · cases hstep
  | wakeSpuriously thread =>
    simp only [Board.step] at hstep
    split at hstep
    · rename_i call lookedAt hasleep
      obtain rfl := Option.some.inj hstep
      exact hcoherent.move (by simp [hasleep]) (.checking call) (fun _ _ heq ↦ nomatch heq)
    · cases hstep

/-- Every reachable board is coherent. -/
theorem Coherent.of_run {events : List (BoardEvent Job Thread)} {board : Board Job Thread}
    (hrun : PartialMachine.run Board.step Board.start events = some board) : board.Coherent :=
  PartialMachine.invariant_of_run (fun _ _ _ hstep hcoherent ↦ hcoherent.step hstep) hrun .start

/-- The job slot and its generation, in every interleaving of one thread that publishes and clears
with any number that nudge and wait. A thread that was handed a job and reads the generation it was
handed with finds that job in the slot, or the slot cleared and the bump of that still to come. And
a thread that sleeps although its wait could end is owed a notify that was issued after it looked,
so it does not sleep on. -/
theorem job_and_generation_stay_coherent {events : List (BoardEvent Job Thread)}
    {board : Board Job Thread} (hrun : PartialMachine.run step start events = some board) :
    (∀ thread generation job, (thread, generation, job) ∈ board.handed →
      board.generation = generation →
        board.slot = some job ∨ board.slot = none ∧ board.stratum = .clearing) ∧
    ∀ thread call lookedAt, board.threads thread = .asleep call lookedAt →
      (call.found board.slot board.generation).isSome = true → board.Outstanding lookedAt :=
  have hcoherent := Coherent.of_run hrun
  ⟨fun thread generation job hhanded ↦ hcoherent.held (thread, generation, job) hhanded,
    hcoherent.owed⟩

/-- A thread mines job 7, sits it out and sleeps; a card nudges, and has yet to notify. -/
def sleeperAndNudge : List (BoardEvent ℕ (Fin 2)) :=
  [.publish 7, .notify, .wait 0 .any, .look 0, .wait 0 (.after 1), .look 0, .nudge 1]

/-- The sleeper is owed that notify, and what it was handed is still in the slot if the generation
is. -/
theorem sleeperAndNudge_owed :
    ∃ board, PartialMachine.run step start sleeperAndNudge = some board ∧
      (board.generation = 1 → board.slot = some 7 ∨ board.slot = none ∧ board.stratum = .clearing) ∧
      board.threads 0 = .asleep (.after 1) 1 ∧ board.Outstanding 1 := by
  obtain ⟨board, hrun⟩ : ∃ board, PartialMachine.run step start sleeperAndNudge = some board :=
    ⟨_, rfl⟩
  have hboard := Option.some.inj hrun
  obtain ⟨hheld, howed⟩ := job_and_generation_stay_coherent hrun
  refine ⟨board, hrun, hheld 0 1 7 ?_, ?_, howed 0 (.after 1) 1 ?_ ?_⟩
  · rw [← hboard]
    exact List.mem_cons_self
  · rw [← hboard]
    rfl
  · rw [← hboard]
    rfl
  · rw [← hboard]
    rfl

end Board

end Bc3Miner.Sharing
