import Bc3Miner.Mining.MinerJob
import Bc3Miner.Sharing.JobBoard

/-!
# The hand-over between GPUs and stand-in threads

The CPU threads that stand in for the GPUs mine a job only while no GPU takes it. They judge by a
count of the claims on the job's proof of work and by which of the claiming cards the stall check
has set aside, read one after the other and outside every lock, while GPUs raise and drop claims,
the stall check goes over the cards, and the pool's jobs come and go.

`HandOver` models `GpuCapability::set`, `gpus_mine`, `stalled_claims`, `check_gpu_stalls`,
`capability_changed` and `note_pow` of `src/shared.rs` and the loop of `run_worker` of
`src/worker.rs`, each lock section and each atomic access one step, over the `Board` of the job
slot. Dropping a `GpuCapability` releases every proof of work in turn. Announcements read the same
variables and change none; they are left out.

A step that is not open to a party is none of the machine, so an interleaving is a list of steps
that the machine accepts. What is general about the steps is in `HandOverAccounts`, what keeps the
stand-ins awake in `PendingNudges` and `WakeUps`.

Not modelled here: what the workers mine, and the clock beyond the readings that the steps go by.
-/

set_option autoImplicit false
set_option relaxedAutoImplicit false

namespace Bc3Miner.Sharing

open Foundations Consensus Mining

/-! ### The parties -/

/-- Who nudges or waits: the worker of each GPU, the stall check, and the stand-in threads. -/
inductive Party (gpus : ℕ) (StandIn : Type*)
  | gpu (slot : Fin gpus)
  | stalls
  | standIn (thread : StandIn)
  deriving DecidableEq

/-- The claims of a card, a bit per proof of work. -/
abbrev Claims := PowAlgo → Bool

/-- Where a GPU worker is in `GpuCapability::set`. -/
inductive ClaimState
  | idle
  | claiming (algo : PowAlgo)
  | masking (algo : PowAlgo) (capable : Bool)
  | counting (algo : PowAlgo) (capable : Bool)
  | asking (algo : PowAlgo)
  | nudging
  deriving DecidableEq, Repr

/-- What the stall check found for one card. -/
inductive GpuStall
  | stalled (slot idleSecs : ℕ)
  | resumed (slot : ℕ)
  deriving DecidableEq, Repr

/-- What a pass of the stall check was called with, has read before the cards, and has found so
far. -/
structure StallScan where
  now : ℕ
  limit : ℕ
  algo : Option PowAlgo
  hasJob : Bool
  jobSince : ℕ
  changes : List GpuStall
  deriving DecidableEq, Repr

/-- Where the stall check is in `check_gpu_stalls`. -/
inductive StallState
  | idle
  | readingJob (now limit : ℕ) (algo : Option PowAlgo)
  | readingSince (now limit : ℕ) (algo : Option PowAlgo) (hasJob : Bool)
  | readingClaims (scan : StallScan) (slot : ℕ)
  | readingStamp (scan : StallScan) (slot : ℕ) (claims : Claims)
  | readingStalled (scan : StallScan) (slot : ℕ) (claims : Claims) (stamp : ℕ)
  | restoring (scan : StallScan) (slot : ℕ) (claims : Claims)
  | readingClaimedAt (scan : StallScan) (slot stamp : ℕ)
  | settingAside (scan : StallScan) (slot last : ℕ)
  | asking (algo : PowAlgo)
  | nudging

/-- Where the stratum thread is in `publish_job` before its lock section. -/
inductive PublishState
  | idle
  | noting (job : MinerJob)
  | posting (job : MinerJob)
  deriving DecidableEq

/-- Why a stand-in waits: not for anything it sat out, for a job it left to the GPUs, or for another
reason to sit one out. -/
inductive SatOut
  | none
  | judged (generation : ℕ) (job : MinerJob)
  | other (generation : ℕ)
  deriving DecidableEq

/-- What a stand-in calls to wait. -/
def SatOut.call : SatOut → Call
  | .none => .any
  | .judged generation _ | .other generation => .after generation

/-- Where a stand-in thread is in `run_worker`: before its wait, in it, judging whether the GPUs
mine the job, card by card, or mining. -/
inductive StandInState
  | ready (sat : SatOut)
  | waiting (sat : SatOut)
  | judging (generation : ℕ) (job : MinerJob)
  | scanning (generation : ℕ) (job : MinerJob) (capable slot stalledClaims : ℕ)
  | scanningClaims (generation : ℕ) (job : MinerJob) (capable slot stalledClaims : ℕ)
  | mining (generation : ℕ) (job : MinerJob)
  deriving DecidableEq

/-- Everything the hand-over goes by. -/
structure HandOver (gpus : ℕ) (StandIn : Type*) where
  board : Board MinerJob (Party gpus StandIn)
  currentAlgo : Option PowAlgo
  jobSince : ℕ
  capable : PowAlgo → ℕ
  claims : Fin gpus → Claims
  claimedAt : Fin gpus → ℕ
  stalled : Fin gpus → ℕ
  stamp : Fin gpus → ℕ
  held : Fin gpus → Claims
  claim : Fin gpus → ClaimState
  stall : StallState
  publish : PublishState
  standIn : StandIn → StandInState

/-- A step of one of the parties. Clock readings come with the event. -/
inductive HandOverEvent (gpus : ℕ) (StandIn : Type*)
  | set (slot : Fin gpus) (algo : PowAlgo) (capable : Bool)
  | claim (slot : Fin gpus) (now : ℕ)
  | claimNotify (slot : Fin gpus)
  | launched (slot : Fin gpus) (now : ℕ)
  | check (now limit : ℕ)
  | stall
  | stallNotify
  | publish (job : MinerJob)
  | notePow
  | post (now : ℕ)
  | notify
  | clear
  | bump
  | call (thread : StandIn)
  | look (thread : StandIn)
  | wake (thread : StandIn)
  | judge (thread : StandIn)
  | leave (thread : StandIn) (exhausted : Bool)

namespace HandOver

variable {gpus : ℕ} {StandIn : Type*} [DecidableEq StandIn]

/-- Before the first job and the first card. -/
def start : HandOver gpus StandIn where
  board := Board.start
  currentAlgo := none
  jobSince := 0
  capable := fun _ ↦ 0
  claims := fun _ _ ↦ false
  claimedAt := fun _ ↦ 0
  stalled := fun _ ↦ 0
  stamp := fun _ ↦ 0
  held := fun _ _ ↦ false
  claim := fun _ ↦ .idle
  stall := .idle
  publish := .idle
  standIn := fun _ ↦ .ready .none

/-! ### A GPU worker -/

/-- `GpuCapability::set` is called: nothing to do if the claim stands as it is, else the claim time
or the mask is next. A worker claims what its backend has a kernel for. -/
def set (state : HandOver gpus StandIn) (slot : Fin gpus) (algo : PowAlgo) (capable : Bool) :
    Option (HandOver gpus StandIn) :=
  if state.claim slot = .idle ∧ state.board.threads (.gpu slot) = .idle ∧
      (capable = true → kernelSupports algo = true) then
    if state.held slot algo = capable then some state
    else
      some { state with
        held := Function.update state.held slot (Function.update (state.held slot) algo capable)
        claim := Function.update state.claim slot
          (if capable then .claiming algo else .masking algo false) }
  else none

/-- The next step of a `set` that was called, up to the nudge. -/
def claimStep (state : HandOver gpus StandIn) (slot : Fin gpus) (now : ℕ) :
    Option (HandOver gpus StandIn) :=
  match state.claim slot with
  | .idle => none
  | .claiming algo =>
    some { state with
      claimedAt := Function.update state.claimedAt slot now
      claim := Function.update state.claim slot (.masking algo true) }
  | .masking algo capable =>
    some { state with
      claims := Function.update state.claims slot
        (Function.update (state.claims slot) algo capable)
      claim := Function.update state.claim slot (.counting algo capable) }
  | .counting algo capable =>
    some { state with
      capable := Function.update state.capable algo
        (if capable then state.capable algo + 1 else state.capable algo - 1)
      claim := Function.update state.claim slot (.asking algo) }
  | .asking algo =>
    some { state with
      claim := Function.update state.claim slot
        (if state.currentAlgo = some algo then .nudging else .idle) }
  | .nudging =>
    (state.board.step (.nudge (.gpu slot))).map fun board ↦
      { state with board := board, claim := Function.update state.claim slot .idle }

/-! ### The stall check -/

/-- The pass is over: if it found anything, the current proof of work is asked for. -/
def scanned (scan : StallScan) : StallState :=
  match scan.changes, scan.algo with
  | _ :: _, some algo => .asking algo
  | _, _ => .idle

/-- What the stall check does about a card once it has read its claims, its last launch and since
when it is set aside. -/
def stallVerdict (scan : StallScan) (slot : ℕ) (claims : Claims) (stamp since : ℕ) : StallState :=
  if since ≠ 0 then
    if since < stamp ∨ PowAlgo.all.all (fun algo ↦ !claims algo) = true then
      .restoring scan slot claims
    else .readingClaims scan (slot + 1)
  else
    match scan.algo with
    | none => .readingClaims scan (slot + 1)
    | some algo =>
      if scan.hasJob = false ∨ claims algo = false then .readingClaims scan (slot + 1)
      else .readingClaimedAt scan slot stamp

/-- The next step of a pass, up to the nudge. -/
def stallStep (state : HandOver gpus StandIn) : Option (HandOver gpus StandIn) :=
  match state.stall with
  | .idle => none
  | .readingJob now limit algo =>
    some { state with stall := .readingSince now limit algo state.board.slot.isSome }
  | .readingSince now limit algo hasJob =>
    some { state with stall := .readingClaims ⟨now, limit, algo, hasJob, state.jobSince, []⟩ 0 }
  | .readingClaims scan slot =>
    if hslot : slot < gpus then
      some { state with stall := .readingStamp scan slot (state.claims ⟨slot, hslot⟩) }
    else some { state with stall := scanned scan }
  | .readingStamp scan slot claims =>
    if hslot : slot < gpus then
      some { state with stall := .readingStalled scan slot claims (state.stamp ⟨slot, hslot⟩) }
    else none
  | .readingStalled scan slot claims stamp =>
    if hslot : slot < gpus then
      some { state with
        stall := stallVerdict scan slot claims stamp (state.stalled ⟨slot, hslot⟩) }
    else none
  | .restoring scan slot claims =>
    if hslot : slot < gpus then
      let changes := if PowAlgo.all.all (fun algo ↦ !claims algo) = true then scan.changes
        else scan.changes ++ [.resumed slot]
      some { state with
        stalled := Function.update state.stalled ⟨slot, hslot⟩ 0
        stall := .readingClaims { scan with changes := changes } (slot + 1) }
    else none
  | .readingClaimedAt scan slot stamp =>
    if hslot : slot < gpus then
      let last := max (max stamp (state.claimedAt ⟨slot, hslot⟩)) scan.jobSince
      some { state with
        stall := if scan.limit < scan.now - last then .settingAside scan slot last
          else .readingClaims scan (slot + 1) }
    else none
  | .settingAside scan slot last =>
    if hslot : slot < gpus then
      let changes := scan.changes ++ [.stalled slot ((scan.now - last) / 10 ^ 6)]
      some { state with
        stalled := Function.update state.stalled ⟨slot, hslot⟩ (max scan.now 1)
        stall := .readingClaims { scan with changes := changes } (slot + 1) }
    else none
  | .asking algo =>
    some { state with stall := if state.currentAlgo = some algo then .nudging else .idle }
  | .nudging =>
    (state.board.step (.nudge .stalls)).map fun board ↦
      { state with board := board, stall := .idle }

/-! ### The stratum thread -/

/-- `publish_job` notes the proof of work before its lock section. -/
def notePow (state : HandOver gpus StandIn) : Option (HandOver gpus StandIn) :=
  match state.publish with
  | .noting job => some { state with currentAlgo := some job.algo, publish := .posting job }
  | _ => none

/-- The lock section of `publish_job`; a first job after none starts the run of jobs. -/
def post (state : HandOver gpus StandIn) (now : ℕ) : Option (HandOver gpus StandIn) :=
  match state.publish with
  | .posting job =>
    (state.board.step (.publish job)).map fun board ↦
      { state with
        board := board
        jobSince := if state.board.slot.isNone then now else state.jobSince
        publish := .idle }
  | _ => none

/-! ### A stand-in thread -/

/-- The next read of `gpus_mine`, or its verdict once every card is read. -/
def judgeStep (state : HandOver gpus StandIn) : StandInState → Option StandInState
  | .judging generation job => some (.scanning generation job (state.capable job.algo) 0 0)
  | .scanning generation job capable slot stalledClaims =>
    if hslot : slot < gpus then
      if state.stalled ⟨slot, hslot⟩ ≠ 0 then
        some (.scanningClaims generation job capable slot stalledClaims)
      else some (.scanning generation job capable (slot + 1) stalledClaims)
    else if stalledClaims < capable then some (.ready (.judged generation job))
    else some (.mining generation job)
  | .scanningClaims generation job capable slot stalledClaims =>
    if hslot : slot < gpus then
      let counted := if state.claims ⟨slot, hslot⟩ job.algo then stalledClaims + 1
      else stalledClaims
      some (.scanning generation job capable (slot + 1) counted)
    else none
  | _ => none

/-- A stand-in looks at the board; a job it finds is judged next. -/
def lookStep (state : HandOver gpus StandIn) (thread : StandIn) : Option (HandOver gpus StandIn) :=
  match state.standIn thread, state.board.threads (.standIn thread) with
  | .waiting sat, .checking call =>
    (state.board.step (.look (.standIn thread))).map fun board ↦
      { state with
        board := board
        standIn := Function.update state.standIn thread
          (match call.found state.board.slot state.board.generation with
            | some job => .judging state.board.generation job
            | none => .waiting sat) }
  | _, _ => none

/-- One step of one party. -/
def step (state : HandOver gpus StandIn) :
    HandOverEvent gpus StandIn → Option (HandOver gpus StandIn)
  | .set slot algo capable => state.set slot algo capable
  | .claim slot now => state.claimStep slot now
  | .claimNotify slot => (state.board.step (.notifyAll (.gpu slot))).map fun board ↦
      { state with board := board }
  | .launched slot now => some { state with stamp := Function.update state.stamp slot now }
  | .check now limit =>
    if state.stall matches .idle ∧ state.board.threads .stalls = .idle then
      some { state with stall := .readingJob now limit state.currentAlgo }
    else none
  | .stall => state.stallStep
  | .stallNotify => (state.board.step (.notifyAll .stalls)).map fun board ↦
      { state with board := board }
  | .publish job =>
    if state.publish = .idle ∧ state.board.stratum = .idle then
      some { state with publish := .noting job }
    else none
  | .notePow => state.notePow
  | .post now => state.post now
  | .notify => (state.board.step .notify).map fun board ↦ { state with board := board }
  | .clear =>
    if state.publish = .idle then
      (state.board.step .clear).map fun board ↦ { state with board := board }
    else none
  | .bump => (state.board.step .bump).map fun board ↦ { state with board := board }
  | .call thread =>
    match state.standIn thread with
    | .ready sat => (state.board.step (.wait (.standIn thread) sat.call)).map fun board ↦
        { state with
          board := board
          standIn := Function.update state.standIn thread (.waiting sat) }
    | _ => none
  | .look thread => state.lookStep thread
  | .wake thread => (state.board.step (.wakeSpuriously (.standIn thread))).map fun board ↦
      { state with board := board }
  | .judge thread => (state.judgeStep (state.standIn thread)).map fun next ↦
      { state with standIn := Function.update state.standIn thread next }
  | .leave thread exhausted =>
    match state.standIn thread with
    | .mining generation _ =>
      if exhausted then
        some { state with
          standIn := Function.update state.standIn thread (.ready (.other generation)) }
      else if state.board.generation ≠ generation then
        some { state with standIn := Function.update state.standIn thread (.ready .none) }
      else none
    | _ => none

/-! ### What a step leaves alone -/

/-- The events that change the record of a stand-in. -/
def ofStandIn : HandOverEvent gpus StandIn → Bool
  | .call _ | .look _ | .judge _ | .leave _ _ => true
  | _ => false

/-- A step that leaves the stand-ins' records alone, and moves on the board as the board allows or
not at all. -/
def Elsewhere (state next : HandOver gpus StandIn) : Prop :=
  next.standIn = state.standIn ∧
    (next.board = state.board ∨ ∃ event, state.board.step event = some next.board)

theorem Elsewhere.of_some {state reached next : HandOver gpus StandIn}
    (hstep : some reached = some next) (hstandIn : reached.standIn = state.standIn)
    (hboard : reached.board = state.board) : state.Elsewhere next := by
  rw [← Option.some.inj hstep]
  exact ⟨hstandIn, .inl hboard⟩

/-- A step of the thread that claims concerns no stand-in. -/
theorem elsewhere_of_claimStep {state next : HandOver gpus StandIn} {slot : Fin gpus} {now : ℕ}
    (hstep : state.claimStep slot now = some next) : state.Elsewhere next := by
  unfold HandOver.claimStep at hstep
  split at hstep
  · cases hstep
  · exact .of_some hstep rfl rfl
  · exact .of_some hstep rfl rfl
  · exact .of_some hstep rfl rfl
  · exact .of_some hstep rfl rfl
  · obtain ⟨board, hboard, rfl⟩ := Option.map_eq_some_iff.mp hstep
    exact ⟨rfl, .inr ⟨_, hboard⟩⟩

/-- A step of the stall check concerns no stand-in. -/
theorem elsewhere_of_stallStep {state next : HandOver gpus StandIn}
    (hstep : state.stallStep = some next) : state.Elsewhere next := by
  unfold HandOver.stallStep at hstep
  split at hstep
  · cases hstep
  · exact .of_some hstep rfl rfl
  · exact .of_some hstep rfl rfl
  · split_ifs at hstep
    · exact .of_some hstep rfl rfl
    · exact .of_some hstep rfl rfl
  · split_ifs at hstep
    exact .of_some hstep rfl rfl
  · split_ifs at hstep
    exact .of_some hstep rfl rfl
  · split at hstep
    · exact .of_some hstep rfl rfl
    · cases hstep
  · split at hstep
    · exact .of_some hstep rfl rfl
    · cases hstep
  · split at hstep
    · exact .of_some hstep rfl rfl
    · cases hstep
  · exact .of_some hstep rfl rfl
  · obtain ⟨board, hboard, rfl⟩ := Option.map_eq_some_iff.mp hstep
    exact ⟨rfl, .inr ⟨_, hboard⟩⟩

/-- Every event of another party concerns no stand-in. -/
theorem elsewhere_of_step {state next : HandOver gpus StandIn} {event : HandOverEvent gpus StandIn}
    (hstep : state.step event = some next) (hevent : ofStandIn event = false) :
    state.Elsewhere next := by
  cases event with
  | call thread => cases hevent
  | look thread => cases hevent
  | judge thread => cases hevent
  | leave thread exhausted => cases hevent
  | set slot algo capable =>
    simp only [HandOver.step, HandOver.set] at hstep
    split_ifs at hstep
    · exact .of_some hstep rfl rfl
    · exact .of_some hstep rfl rfl
    · exact .of_some hstep rfl rfl
  | claim slot now => exact elsewhere_of_claimStep hstep
  | launched slot now => exact .of_some hstep rfl rfl
  | check now limit =>
    simp only [HandOver.step] at hstep
    split_ifs at hstep
    exact .of_some hstep rfl rfl
  | stall => exact elsewhere_of_stallStep hstep
  | publish job =>
    simp only [HandOver.step] at hstep
    split_ifs at hstep
    exact .of_some hstep rfl rfl
  | notePow =>
    simp only [HandOver.step, HandOver.notePow] at hstep
    split at hstep
    · exact .of_some hstep rfl rfl
    · cases hstep
  | post now =>
    simp only [HandOver.step, HandOver.post] at hstep
    split at hstep
    · obtain ⟨board, hboard, rfl⟩ := Option.map_eq_some_iff.mp hstep
      exact ⟨rfl, .inr ⟨_, hboard⟩⟩
    · cases hstep
  | clear =>
    simp only [HandOver.step] at hstep
    split_ifs at hstep
    obtain ⟨board, hboard, rfl⟩ := Option.map_eq_some_iff.mp hstep
    exact ⟨rfl, .inr ⟨_, hboard⟩⟩
  | _ =>
    obtain ⟨board, hboard, rfl⟩ := Option.map_eq_some_iff.mp hstep
    exact ⟨rfl, .inr ⟨_, hboard⟩⟩

/-- A hand-over moves on its board as the board allows, or not at all. -/
theorem board_of_step {state next : HandOver gpus StandIn} {event : HandOverEvent gpus StandIn}
    (hstep : state.step event = some next) :
    next.board = state.board ∨ ∃ boardEvent, state.board.step boardEvent = some next.board := by
  cases event with
  | call thread =>
    simp only [HandOver.step] at hstep
    split at hstep
    · obtain ⟨board, hboard, rfl⟩ := Option.map_eq_some_iff.mp hstep
      exact .inr ⟨_, hboard⟩
    · cases hstep
  | look thread =>
    simp only [HandOver.step, HandOver.lookStep] at hstep
    split at hstep
    · obtain ⟨board, hboard, rfl⟩ := Option.map_eq_some_iff.mp hstep
      exact .inr ⟨_, hboard⟩
    · cases hstep
  | judge thread =>
    obtain ⟨standIn, -, rfl⟩ := Option.map_eq_some_iff.mp hstep
    exact .inl rfl
  | leave thread exhausted =>
    simp only [HandOver.step] at hstep
    split at hstep
    · split_ifs at hstep
      · obtain rfl := Option.some.inj hstep
        exact .inl rfl
      · obtain rfl := Option.some.inj hstep
        exact .inl rfl
    · cases hstep
  | _ => exact (elsewhere_of_step hstep rfl).2

/-- The generation of the board never goes back, and no job that was handed out is forgotten. -/
theorem board_grows {state next : HandOver gpus StandIn} {event : HandOverEvent gpus StandIn}
    (hstep : state.step event = some next) :
    state.board.generation ≤ next.board.generation ∧ state.board.handed ⊆ next.board.handed := by
  rcases board_of_step hstep with hsame | ⟨boardEvent, hboard⟩
  · rw [hsame]
    exact ⟨Nat.le_refl _, fun _ hentry ↦ hentry⟩
  · exact Board.step_grows hboard

end HandOver

end Bc3Miner.Sharing
