import Bc3Miner.Sharing.HandOverAccounts

/-!
# What is pending in a hand-over

Whoever changes a claim or a stall mark nudges afterwards. So at every moment either one of the
parties has a nudge, a publication or the bump of a clear ahead of it (`HandOver.Pending`), or the
step just taken changed no claim and set no card aside (`HandOver.Calm`). A worker or a stall check
that finds on its way that no nudge is needed is no exception: the proof of work has changed under
it, so a publication or a clear is on its way instead (`HandOver.Accounted.moved_on`).

`Accounted.calm` is the result: a step from a state with its accounts in order is calm, or leaves
something pending. What it takes to be pending is listed by party (`StallOwes`, `Pending`).
-/

set_option autoImplicit false
set_option relaxedAutoImplicit false

namespace Bc3Miner.Sharing

open Foundations Consensus Mining

/-! ### What is still to come -/

/-- The stall check has set a card aside on BC3Hash, and has yet to nudge for it. -/
def StallOwes : StallState → Prop
  | .readingClaims scan _ | .readingStamp scan _ _ | .readingStalled scan _ _ _
  | .restoring scan _ _ | .readingClaimedAt scan _ _ | .settingAside scan _ _ =>
    scan.algo = some .bc3Hash ∧ scan.changes ≠ []
  | .asking algo => algo = .bc3Hash
  | .nudging => True
  | _ => False

namespace HandOver

variable {gpus : ℕ} {StandIn : Type*}

/-- A party is on its way to a bump of the generation. -/
inductive Pending [DecidableEq StandIn] (state : HandOver gpus StandIn) : Prop
  | claim (slot : Fin gpus) (hclaim : state.claim slot ≠ .idle)
  | stall (howes : StallOwes state.stall)
  | posting (job : MinerJob) (hposting : state.publish = .posting job)
  | clearing (hclearing : state.board.stratum = .clearing)

/-- A BC3Hash job is in the slot, or was until the clear whose bump is to come. -/
def Here (state : HandOver gpus StandIn) : Prop :=
  (∃ job, state.board.slot = some job ∧ job.algo = .bc3Hash) ∨ state.board.stratum = .clearing

variable [DecidableEq StandIn]

/-- What a step that leaves the generation alone does to what a stand-in goes by: it takes back
nothing that is pending, and unless something is pending afterwards it changes no claim and sets no
card aside. -/
structure Calm (state next : HandOver gpus StandIn) : Prop where
  pending : state.Pending → next.Pending
  claims : ¬next.Pending → ∀ slot, next.claims slot .bc3Hash = state.claims slot .bc3Hash
  stalled : ¬next.Pending → ∀ slot, state.stalled slot = 0 → next.stalled slot = 0

/-- A worker that was sent somewhere in `set` is on its way. -/
theorem Pending.of_claim {next : HandOver gpus StandIn} {claim : Fin gpus → ClaimState}
    {slot : Fin gpus} {claimNext : ClaimState}
    (hclaim : next.claim = Function.update claim slot claimNext) (hnext : claimNext ≠ .idle) :
    next.Pending := by
  refine .claim slot ?_
  rw [hclaim, Function.update_self]
  exact hnext

theorem Calm.of_pending {state next : HandOver gpus StandIn} (hpending : next.Pending) :
    Calm state next :=
  ⟨fun _ ↦ hpending, fun hnot ↦ absurd hpending hnot, fun hnot ↦ absurd hpending hnot⟩

/-- A step that leaves the cards, the stall check and the publication alone, and clears nothing. -/
theorem Calm.of_frame {state next : HandOver gpus StandIn} (hclaim : next.claim = state.claim)
    (hclaims : next.claims = state.claims) (hstalled : next.stalled = state.stalled)
    (hstall : next.stall = state.stall)
    (hpublish : ∀ job, state.publish = .posting job → next.publish = .posting job)
    (hstratum : state.board.stratum = .clearing → next.board.stratum = .clearing) :
    Calm state next where
  pending := by
    intro hpending
    rcases hpending with ⟨slot, hat⟩ | howes | ⟨job, hposting⟩ | hclearing
    · exact .claim slot (hclaim ▸ hat)
    · exact .stall (hstall ▸ howes)
    · exact .posting job (hpublish job hposting)
    · exact .clearing (hstratum hclearing)
  claims := fun _ slot ↦ by rw [hclaims]
  stalled := fun _ slot hzero ↦ by rw [hstalled, hzero]

/-- A step of the stall check that sets no card aside and forgets none it has set aside. -/
theorem Calm.withStall (state : HandOver gpus StandIn) {stall : StallState}
    (howes : StallOwes state.stall → StallOwes stall) {stalled : Fin gpus → ℕ}
    (hstalled : ∀ slot, state.stalled slot = 0 → stalled slot = 0) :
    Calm state { state with stall := stall, stalled := stalled } where
  pending := by
    intro hpending
    rcases hpending with ⟨slot, hat⟩ | hstall | ⟨job, hposting⟩ | hclearing
    · exact .claim slot hat
    · exact .stall (howes hstall)
    · exact .posting job hposting
    · exact .clearing hclearing
  claims := fun _ _ ↦ rfl
  stalled := fun _ ↦ hstalled

/-- If the proof of work changed under a BC3Hash job, another job is about to be posted or the slot
has just been cleared. -/
theorem Accounted.moved_on {state : HandOver gpus StandIn} (haccounted : state.Accounted)
    (hhere : state.Here) (halgo : state.currentAlgo ≠ some .bc3Hash) :
    (∃ job, state.publish = .posting job) ∨ state.board.stratum = .clearing := by
  rcases hhere with ⟨job, hslot, hbc3⟩ | hclearing
  · by_cases hposting : ∃ other, state.publish = .posting other
    · exact .inl hposting
    · have hcurrent : state.currentAlgo = some job.algo :=
        haccounted.posted (fun other hother ↦ hposting ⟨other, hother⟩) job hslot
      rw [hbc3] at hcurrent
      exact absurd hcurrent halgo
  · exact .inr hclearing

omit [DecidableEq StandIn] in
/-- A nudge that bumps nothing while a BC3Hash job is here met a clear. -/
theorem Here.clearing_of_nudge [DecidableEq StandIn] {state : HandOver gpus StandIn}
    (hhere : state.Here)
    {thread : Party gpus StandIn} {board : Board MinerJob (Party gpus StandIn)}
    (hstep : state.board.step (.nudge thread) = some board)
    (hsame : board.generation = state.board.generation) : board.stratum = .clearing := by
  have hempty : state.board.slot = none := Board.slot_of_nudge hstep hsame
  have hstratum : board.stratum = state.board.stratum := (Board.ByThread.nudge.step_frame hstep).2
  rcases hhere with ⟨job, hslot, -⟩ | hclearing
  · rw [hempty] at hslot
    cases hslot
  · exact hstratum.trans hclearing

/-! ### Every step is calm or bumps -/

/-- A call of `set` is calm, whichever claim it makes or gives back. -/
theorem calm_of_set {state next : HandOver gpus StandIn} {slot : Fin gpus} {algo : PowAlgo}
    {capable : Bool} (hstep : state.set slot algo capable = some next) : Calm state next := by
  simp only [HandOver.set] at hstep
  split_ifs at hstep with hready hheld
  · obtain rfl := Option.some.inj hstep
    exact .of_frame rfl rfl rfl rfl (fun _ hposting ↦ hposting) (fun hclearing ↦ hclearing)
  · obtain rfl := Option.some.inj hstep
    refine .of_pending (.of_claim rfl fun hidle ↦ ?_)
    cases hidle
  · obtain rfl := Option.some.inj hstep
    refine .of_pending (.of_claim rfl fun hidle ↦ ?_)
    cases hidle

/-- A worker in `set` is on its way to a nudge; where it finds that none is needed, somebody else
is. -/
theorem Accounted.calm_of_claimStep {state next : HandOver gpus StandIn}
    (haccounted : state.Accounted) (hhere : state.Here) {slot : Fin gpus} {now : ℕ}
    (hstep : state.claimStep slot now = some next)
    (hsame : next.board.generation = state.board.generation) : Calm state next := by
  have hstaged := (haccounted.slots slot).staged
  unfold HandOver.claimStep at hstep
  split at hstep
  · cases hstep
  · obtain rfl := Option.some.inj hstep
    exact .of_pending (.of_claim rfl fun hidle ↦ nomatch hidle)
  · obtain rfl := Option.some.inj hstep
    exact .of_pending (.of_claim rfl fun hidle ↦ nomatch hidle)
  · obtain rfl := Option.some.inj hstep
    exact .of_pending (.of_claim rfl fun hidle ↦ nomatch hidle)
  · rename_i algo hasking
    rw [hasking] at hstaged
    obtain ⟨rfl, -⟩ := hstaged
    obtain rfl := Option.some.inj hstep
    by_cases halgo : state.currentAlgo = some .bc3Hash
    · rw [if_pos halgo]
      exact .of_pending (.of_claim rfl fun hidle ↦ nomatch hidle)
    · rcases haccounted.moved_on hhere halgo with ⟨job, hposting⟩ | hclearing
      · exact .of_pending (.posting job hposting)
      · exact .of_pending (.clearing hclearing)
  · obtain ⟨board, hboard, rfl⟩ := Option.map_eq_some_iff.mp hstep
    exact .of_pending (.clearing (hhere.clearing_of_nudge hboard hsame))

/-- What has been found stays found to the end of the pass. -/
theorem stallOwes_scanned {scan : StallScan} (halgo : scan.algo = some .bc3Hash)
    (hchanges : scan.changes ≠ []) : StallOwes (scanned scan) := by
  unfold scanned
  rw [halgo]
  cases hlist : scan.changes with
  | nil => exact absurd hlist hchanges
  | cons change rest => rfl

/-- A check on BC3Hash that has changed claims still owes its nudge, whatever its verdict on the
next card. -/
theorem stallOwes_stallVerdict {scan : StallScan} (halgo : scan.algo = some .bc3Hash)
    (hchanges : scan.changes ≠ []) (slot : ℕ) (claims : Claims) (stamp since : ℕ) :
    StallOwes (stallVerdict scan slot claims stamp since) := by
  have howed : scan.algo = some .bc3Hash ∧ scan.changes ≠ [] := ⟨halgo, hchanges⟩
  unfold stallVerdict
  split_ifs
  · exact howed
  · exact howed
  · split
    · exact howed
    · split_ifs
      · exact howed
      · exact howed

/-- A step of the stall check that does not move the generation is calm. -/
theorem Accounted.calm_of_stallStep {state next : HandOver gpus StandIn}
    (haccounted : state.Accounted) (hhere : state.Here) (hstep : state.stallStep = some next)
    (hsame : next.board.generation = state.board.generation) : Calm state next := by
  have hstall := haccounted.stall
  unfold HandOver.stallStep at hstep
  split at hstep
  · cases hstep
  · rename_i hat
    obtain rfl := Option.some.inj hstep
    refine .withStall state (fun howes ↦ ?_) (fun _ hzero ↦ hzero)
    rw [hat] at howes
    exact howes
  · rename_i hat
    obtain rfl := Option.some.inj hstep
    refine .withStall state (fun howes ↦ ?_) (fun _ hzero ↦ hzero)
    rw [hat] at howes
    exact howes.elim
  · rename_i hat
    split_ifs at hstep with hslot
    · obtain rfl := Option.some.inj hstep
      refine .withStall state (fun howes ↦ ?_) (fun _ hzero ↦ hzero)
      rw [hat] at howes
      exact howes
    · obtain rfl := Option.some.inj hstep
      refine .withStall state (fun howes ↦ ?_) (fun _ hzero ↦ hzero)
      rw [hat] at howes
      exact stallOwes_scanned howes.1 howes.2
  · rename_i hat
    split_ifs at hstep
    obtain rfl := Option.some.inj hstep
    refine .withStall state (fun howes ↦ ?_) (fun _ hzero ↦ hzero)
    rw [hat] at howes
    exact howes
  · rename_i hat
    split_ifs at hstep
    obtain rfl := Option.some.inj hstep
    refine .withStall state (fun howes ↦ ?_) (fun _ hzero ↦ hzero)
    rw [hat] at howes
    exact stallOwes_stallVerdict howes.1 howes.2 _ _ _ _
  · rename_i scan slot claims hat
    split at hstep
    · rename_i hslot
      obtain rfl := Option.some.inj hstep
      refine .withStall state (fun howes ↦ ?_) (fun other hzero ↦ ?_)
      · rw [hat] at howes
        refine ⟨howes.1, ?_⟩
        show (if PowAlgo.all.all (fun algo ↦ !claims algo) = true then scan.changes
          else scan.changes ++ [.resumed slot]) ≠ []
        split_ifs
        · exact howes.2
        · exact List.append_ne_nil_of_left_ne_nil howes.2 _
      · by_cases hother : other = ⟨slot, hslot⟩
        · rw [hother, Function.update_self]
        · rw [Function.update_of_ne hother]
          exact hzero
    · cases hstep
  · rename_i hat
    split at hstep
    · obtain rfl := Option.some.inj hstep
      refine .withStall state (fun howes ↦ ?_) (fun _ hzero ↦ hzero)
      rw [hat] at howes
      split_ifs
      · exact howes
      · exact howes
    · cases hstep
  · rename_i scan slot last hat
    rw [hat] at hstall
    split at hstep
    · obtain rfl := Option.some.inj hstep
      refine .of_pending (.stall ⟨hstall, ?_⟩)
      exact List.append_ne_nil_of_right_ne_nil _ (List.cons_ne_nil _ _)
    · cases hstep
  · rename_i algo hat
    obtain rfl := Option.some.inj hstep
    by_cases hcurrent : state.currentAlgo = some algo
    · refine .of_pending (.stall ?_)
      rw [if_pos hcurrent]
      trivial
    · by_cases hbc3 : algo = .bc3Hash
      · rw [hbc3] at hcurrent
        rcases haccounted.moved_on hhere hcurrent with ⟨job, hposting⟩ | hclearing
        · exact .of_pending (.posting job hposting)
        · exact .of_pending (.clearing hclearing)
      · refine .withStall state (fun howes ↦ ?_) (fun _ hzero ↦ hzero)
        rw [hat] at howes
        exact absurd howes hbc3
  · obtain ⟨board, hboard, rfl⟩ := Option.map_eq_some_iff.mp hstep
    exact .of_pending (.clearing (hhere.clearing_of_nudge hboard hsame))

/-- What the stratum thread does to the board alone, which is to notify, to clear the job or to move
the generation on, is calm if the generation is the same after it: no claim and no card is touched,
and a job that is cleared leaves something pending. -/
theorem calm_of_stratum {state : HandOver gpus StandIn}
    {event : BoardEvent MinerJob (Party gpus StandIn)} {board : Board MinerJob (Party gpus StandIn)}
    (hevent : event = .notify ∨ event = .clear ∨ event = .bump)
    (hstep : state.board.step event = some board)
    (hsame : board.generation = state.board.generation) :
    Calm state { state with board := board } := by
  rcases hevent with rfl | rfl | rfl
  · simp only [Board.step] at hstep
    split at hstep
    · rename_i bumped hnotifying
      obtain rfl := Option.some.inj hstep
      refine .of_frame rfl rfl rfl rfl (fun _ hposting ↦ hposting) (fun hclearing ↦ ?_)
      rw [hnotifying] at hclearing
      cases hclearing
    · cases hstep
  · simp only [Board.step] at hstep
    split_ifs at hstep
    obtain rfl := Option.some.inj hstep
    exact .of_pending (.clearing rfl)
  · simp only [Board.step] at hstep
    split_ifs at hstep
    obtain rfl := Option.some.inj hstep
    exact absurd hsame (Nat.succ_ne_self _)

/-- A step of the board by a thread that nudges or waits, and of a stand-in's own record. -/
theorem calm_of_byThread {state : HandOver gpus StandIn} {thread : Party gpus StandIn}
    {event : BoardEvent MinerJob (Party gpus StandIn)} {board : Board MinerJob (Party gpus StandIn)}
    (hthread : Board.ByThread thread event) (hstep : state.board.step event = some board)
    (standIn : StandIn → StandInState) :
    Calm state { state with board := board, standIn := standIn } := by
  refine .of_frame rfl rfl rfl rfl (fun _ hposting ↦ hposting) (fun hclearing ↦ ?_)
  exact (hthread.step_frame hstep).2.trans hclearing

/-- Every step that leaves the generation alone, while a BC3Hash job is here, is calm. -/
theorem Accounted.calm {state next : HandOver gpus StandIn} (haccounted : state.Accounted)
    (hhere : state.Here) {event : HandOverEvent gpus StandIn} (hstep : state.step event = some next)
    (hsame : next.board.generation = state.board.generation) : Calm state next := by
  have hidle (standIn : StandIn → StandInState) : Calm state { state with standIn := standIn } :=
    .of_frame rfl rfl rfl rfl (fun _ hposting ↦ hposting) (fun hclearing ↦ hclearing)
  cases event with
  | set slot algo capable => exact calm_of_set hstep
  | claim slot now => exact haccounted.calm_of_claimStep hhere hstep hsame
  | claimNotify slot =>
    obtain ⟨board, hboard, rfl⟩ := Option.map_eq_some_iff.mp hstep
    exact calm_of_byThread .notifyAll hboard state.standIn
  | launched slot now =>
    obtain rfl := Option.some.inj hstep
    exact .of_frame rfl rfl rfl rfl (fun _ hposting ↦ hposting) (fun hclearing ↦ hclearing)
  | check now limit =>
    simp only [HandOver.step] at hstep
    split_ifs at hstep with hready
    obtain rfl := Option.some.inj hstep
    refine .withStall state (fun howes ↦ ?_) (fun _ hzero ↦ hzero)
    cases hstall : state.stall with
    | idle =>
      rw [hstall] at howes
      exact howes
    | _ =>
      rw [hstall] at hready
      exact absurd hready.1 Bool.false_ne_true
  | stall => exact haccounted.calm_of_stallStep hhere hstep hsame
  | stallNotify =>
    obtain ⟨board, hboard, rfl⟩ := Option.map_eq_some_iff.mp hstep
    exact calm_of_byThread .notifyAll hboard state.standIn
  | publish job =>
    simp only [HandOver.step] at hstep
    split_ifs at hstep with hready
    obtain rfl := Option.some.inj hstep
    refine .of_frame rfl rfl rfl rfl (fun other hposting ↦ ?_) (fun hclearing ↦ hclearing)
    rw [hready.1] at hposting
    cases hposting
  | notePow =>
    simp only [HandOver.step, HandOver.notePow] at hstep
    split at hstep
    · rename_i job hnoting
      obtain rfl := Option.some.inj hstep
      exact .of_pending (.posting job rfl)
    · cases hstep
  | post now =>
    simp only [HandOver.step, HandOver.post] at hstep
    split at hstep
    · obtain ⟨board, hboard, rfl⟩ := Option.map_eq_some_iff.mp hstep
      simp only [Board.step] at hboard
      split_ifs at hboard
      obtain rfl := Option.some.inj hboard
      exact absurd hsame (Nat.succ_ne_self _)
    · cases hstep
  | notify =>
    obtain ⟨board, hboard, rfl⟩ := Option.map_eq_some_iff.mp hstep
    exact calm_of_stratum (.inl rfl) hboard hsame
  | clear =>
    simp only [HandOver.step] at hstep
    split_ifs at hstep
    obtain ⟨board, hboard, rfl⟩ := Option.map_eq_some_iff.mp hstep
    exact calm_of_stratum (.inr (.inl rfl)) hboard hsame
  | bump =>
    obtain ⟨board, hboard, rfl⟩ := Option.map_eq_some_iff.mp hstep
    exact calm_of_stratum (.inr (.inr rfl)) hboard hsame
  | call thread =>
    simp only [HandOver.step] at hstep
    split at hstep
    · obtain ⟨board, hboard, rfl⟩ := Option.map_eq_some_iff.mp hstep
      exact calm_of_byThread (.wait _) hboard _
    · cases hstep
  | look thread =>
    simp only [HandOver.step, lookStep] at hstep
    split at hstep
    · obtain ⟨board, hboard, rfl⟩ := Option.map_eq_some_iff.mp hstep
      exact calm_of_byThread .look hboard _
    · cases hstep
  | wake thread =>
    obtain ⟨board, hboard, rfl⟩ := Option.map_eq_some_iff.mp hstep
    exact calm_of_byThread .wakeSpuriously hboard state.standIn
  | judge thread =>
    obtain ⟨standIn, -, rfl⟩ := Option.map_eq_some_iff.mp hstep
    exact hidle _
  | leave thread exhausted =>
    simp only [HandOver.step] at hstep
    split at hstep
    · split_ifs at hstep
      · obtain rfl := Option.some.inj hstep
        exact hidle _
      · obtain rfl := Option.some.inj hstep
        exact hidle _
    · cases hstep

end HandOver

end Bc3Miner.Sharing
