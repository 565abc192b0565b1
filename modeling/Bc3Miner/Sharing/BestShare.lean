import Bc3Miner.Foundations.FirstGreatest
import Bc3Miner.Foundations.Latest
import Bc3Miner.Foundations.TotalMachine
import Bc3Miner.Mining.MinerJob
import Mathlib.Data.List.Induction

/-!
# The best share

`record_share`, `best_share` and `note_pow` of `src/shared.rs`. All they keep is behind one lock, so
each call is one step. A difficulty is any positive value of a linear order.

A share counts when its proof of work is the current one, or while there is none: before the first
job every share counts, and what was recorded then stays until the proof of work changes for the
first time.

`best_share_is_of_the_current_pow` is over every order of publications and shares and says it of the
events themselves: since when the proof of work is the current one, and which shares came since.
`shareBeforeTheJob_counts` is a share from before the first job that stays the best.

Not modelled here: the counters of accepted and rejected shares, which nothing compares.
-/

set_option autoImplicit false
set_option relaxedAutoImplicit false

namespace Bc3Miner.Sharing

open Consensus Foundations Mining

variable {Difficulty : Type}

/-- A share that is recorded: the proof of work it was found for, its difficulty, the nBits of its
job, whether it is a block, and when it is recorded. -/
structure FoundDifficulty (Difficulty : Type) [LinearOrder Difficulty] [Zero Difficulty] where
  algo : PowAlgo
  difficulty : {value : Difficulty // 0 < value}
  bits : UInt32
  isBlock : Bool
  now : ℕ

/-- The best share of a proof of work. -/
structure BestShare (Difficulty : Type) where
  difficulty : Difficulty
  networkDifficulty : Binary64
  found : ℕ
  deriving DecidableEq

/-- The current proof of work with its best share, and the blocks that were found. -/
structure PowRecord (Difficulty : Type) where
  algo : Option PowAlgo
  best : Option (BestShare Difficulty)
  blocks : ℕ
  deriving DecidableEq

/-- A call that changes the record. -/
inductive PowEvent (Difficulty : Type) [LinearOrder Difficulty] [Zero Difficulty]
  | publish (job : MinerJob)
  | record (share : FoundDifficulty Difficulty)

/-- A share as the best one, with the network difficulty of its own job. -/
def FoundDifficulty.asBest [LinearOrder Difficulty] [Zero Difficulty]
    (share : FoundDifficulty Difficulty) : BestShare Difficulty where
  difficulty := share.difficulty
  networkDifficulty := difficultyOfBits share.bits
  found := share.now

namespace PowRecord

/-- `Shared::note_pow`. -/
def notePow (pow : PowRecord Difficulty) (algo : PowAlgo) : PowRecord Difficulty :=
  if pow.algo = some algo then pow
  else { pow with algo := some algo, best := if pow.algo.isSome then none else pow.best }

theorem notePow_of_same {pow : PowRecord Difficulty} {algo : PowAlgo}
    (halgo : pow.algo = some algo) :
    pow.notePow algo = pow := by
  unfold notePow
  rw [if_pos halgo]

/-- After a proof of work is noted it is the current one. -/
theorem notePow_algo (pow : PowRecord Difficulty) (algo : PowAlgo) :
    (pow.notePow algo).algo = some algo := by
  unfold notePow
  by_cases halgo : pow.algo = some algo
  · rw [if_pos halgo]
    exact halgo
  · rw [if_neg halgo]

/-- Noting a proof of work forgets no block. -/
theorem notePow_blocks (pow : PowRecord Difficulty) (algo : PowAlgo) :
    (pow.notePow algo).blocks = pow.blocks := by
  unfold notePow
  by_cases halgo : pow.algo = some algo
  · rw [if_pos halgo]
  · rw [if_neg halgo]

/-- A proof of work that becomes the current one starts over, unless it is the first. -/
theorem notePow_best {pow : PowRecord Difficulty} {algo : PowAlgo} (hother : pow.algo ≠ some algo) :
    (pow.notePow algo).best = if pow.algo = none then pow.best else none := by
  unfold notePow
  rw [if_neg hother]
  cases pow.algo with
  | none => rfl
  | some current => rfl

variable [LinearOrder Difficulty] [Zero Difficulty]

/-- `Shared::record_share`. -/
def recordShare (pow : PowRecord Difficulty) (share : FoundDifficulty Difficulty) :
    PowRecord Difficulty :=
  if pow.algo.any (· ≠ share.algo) then pow
  else
    { pow with
      blocks := if share.isBlock then pow.blocks + 1 else pow.blocks
      best :=
        if (pow.best.map BestShare.difficulty).getD 0 < share.difficulty then some share.asBest
        else pow.best }

/-- `Shared::publish_job` notes the job's proof of work. -/
def step (pow : PowRecord Difficulty) : PowEvent Difficulty → PowRecord Difficulty
  | .publish job => pow.notePow job.algo
  | .record share => pow.recordShare share

def start : PowRecord Difficulty := ⟨none, none, 0⟩

def run (events : List (PowEvent Difficulty)) : PowRecord Difficulty :=
  TotalMachine.run step start events

end PowRecord

/-! ### What the events say -/

section Events

variable [LinearOrder Difficulty] [Zero Difficulty]

/-- The proof of work that a publication makes the current one. -/
def PowEvent.algo? : PowEvent Difficulty → Option PowAlgo
  | .publish job => some job.algo
  | .record _ => none

def PowEvent.share? : PowEvent Difficulty → Option (FoundDifficulty Difficulty)
  | .publish _ => none
  | .record share => some share

/-- The shares that were recorded, in order. -/
def sharesOf (events : List (PowEvent Difficulty)) : List (FoundDifficulty Difficulty) :=
  events.filterMap PowEvent.share?

/-- Those of one proof of work. -/
def sharesFor (algo : PowAlgo) (events : List (PowEvent Difficulty)) :
    List (FoundDifficulty Difficulty) :=
  (sharesOf events).filter (·.algo = algo)

/-- The best share is the first of greatest difficulty among these; none of no shares. -/
def IsBestOf (shares : List (FoundDifficulty Difficulty)) (best : Option (BestShare Difficulty)) :
    Prop :=
  ∃ first, FirstGreatest (fun share ↦ share.difficulty.val) shares first ∧
    best = first.map FoundDifficulty.asBest

end Events

namespace PowRecord

variable [LinearOrder Difficulty] [Zero Difficulty]

/-! ### One step -/

section Step

variable {pow : PowRecord Difficulty} {shares : List (FoundDifficulty Difficulty)}

/-- A share of another proof of work changes nothing. -/
theorem recordShare_of_other {share : FoundDifficulty Difficulty} {algo : PowAlgo}
    (halgo : pow.algo = some algo) (hother : algo ≠ share.algo) : pow.recordShare share = pow := by
  unfold recordShare
  rw [halgo, Option.any_some, if_pos (decide_eq_true hother)]

/-- A share that counts, which is one of the current proof of work or one before any is known: the
proof of work stays, its block is counted if it is one, and the best of the shares before it and it
is the best one now. -/
theorem recordShare_of_counted {share : FoundDifficulty Difficulty}
    (hcounted : pow.algo.any (· ≠ share.algo) = false) :
    (pow.recordShare share).algo = pow.algo ∧
      (pow.recordShare share).blocks = pow.blocks + share.isBlock.toNat ∧
      ∀ shares, IsBestOf shares pow.best →
        IsBestOf (shares ++ [share]) (pow.recordShare share).best := by
  unfold recordShare
  rw [hcounted, if_neg Bool.false_ne_true]
  refine ⟨rfl, ?_, ?_⟩
  · cases share.isBlock with
    | false => rfl
    | true => rfl
  · rintro shares ⟨first, hfirst, hbest⟩
    refine ⟨_, hfirst.keepGreater _ share, ?_⟩
    show (if (pow.best.map BestShare.difficulty).getD 0 < share.difficulty.val
      then some share.asBest else pow.best) = _
    rw [hbest]
    cases first with
    | none => exact if_pos share.difficulty.property
    | some other =>
      unfold keepGreater
      rw [Option.all_some]
      by_cases hgreater : other.difficulty.val < share.difficulty.val
      · rw [if_pos (decide_eq_true hgreater)]
        exact if_pos hgreater
      · rw [if_neg (mt of_decide_eq_true hgreater)]
        exact if_neg hgreater

end Step

/-! ### Runs -/

theorem run_concat (events : List (PowEvent Difficulty)) (event : PowEvent Difficulty) :
    run (events ++ [event]) = (run events).step event :=
  TotalMachine.run_concat _ _ _ _

/-- The current proof of work is that of the job published last. -/
theorem run_algo (events : List (PowEvent Difficulty)) :
    (run events).algo = latest PowEvent.algo? events := by
  induction events using List.reverseRecOn with
  | nil => rfl
  | append_singleton events event ih =>
    rw [run_concat, latest_append, latest_singleton, ← ih]
    cases event with
    | publish job => exact notePow_algo _ job.algo
    | record share =>
      show ((run events).recordShare share).algo = (run events).algo
      cases hcounted : (run events).algo.any (· ≠ share.algo) with
      | false => exact (recordShare_of_counted hcounted).1
      | true =>
        unfold recordShare
        rw [hcounted, if_pos rfl]

/-- One more event adds the share it records, if it records one. -/
theorem sharesOf_concat (events : List (PowEvent Difficulty)) (event : PowEvent Difficulty) :
    sharesOf (events ++ [event]) = sharesOf events ++ event.share?.toList := by
  unfold sharesOf
  rw [List.filterMap_append]
  cases event with
  | publish job => rfl
  | record share => rfl

/-- Before the first job every share counts. -/
theorem best_of_noJob {events : List (PowEvent Difficulty)}
    (hnone : latest PowEvent.algo? events = none) :
    IsBestOf (sharesOf events) (run events).best := by
  induction events using List.reverseRecOn with
  | nil => exact ⟨none, rfl, rfl⟩
  | append_singleton events event ih =>
    rw [latest_append, latest_singleton, Option.or_eq_none_iff] at hnone
    obtain ⟨hevent, hearlier⟩ := hnone
    rw [run_concat, sharesOf_concat]
    cases event with
    | publish job => exact absurd hevent (Option.some_ne_none _)
    | record share =>
      have hcounted : (run events).algo.any (· ≠ share.algo) = false := by
        rw [run_algo, hearlier]
        rfl
      exact (recordShare_of_counted hcounted).2.2 _ (ih hearlier)

/-- Let a proof of work be the current one and no job of another come after. It stays the current
one, and the best share is the best of those that counted before and those of this proof of work
that came after. -/
theorem best_of_sameAlgo {algo : PowAlgo} {shares : List (FoundDifficulty Difficulty)}
    {before after : List (PowEvent Difficulty)} (halgo : (run before).algo = some algo)
    (hbest : IsBestOf shares (run before).best)
    (hsame : ∀ job, PowEvent.publish job ∈ after → job.algo = algo) :
    (run (before ++ after)).algo = some algo ∧
      IsBestOf (shares ++ sharesFor algo after) (run (before ++ after)).best := by
  induction after using List.reverseRecOn with
  | nil =>
    rw [List.append_nil]
    refine ⟨halgo, ?_⟩
    rw [sharesFor, sharesOf, List.filterMap_nil, List.filter_nil, List.append_nil]
    exact hbest
  | append_singleton after event ih =>
    obtain ⟨hcurrent, hearlier⟩ := ih fun job hmem ↦ hsame job (List.mem_append_left _ hmem)
    rw [← List.append_assoc, run_concat, sharesFor, sharesOf_concat, List.filter_append,
      ← sharesFor, ← List.append_assoc]
    cases event with
    | publish job =>
      have hjob : job.algo = algo := hsame job (List.mem_append_right _ List.mem_cons_self)
      have hstays : (run (before ++ after)).step (.publish job) = run (before ++ after) :=
        notePow_of_same (hcurrent.trans (congrArg some hjob.symm))
      rw [hstays]
      refine ⟨hcurrent, ?_⟩
      rw [show (PowEvent.publish job : PowEvent Difficulty).share?.toList = [] from rfl,
        List.filter_nil, List.append_nil]
      exact hearlier
    | record share =>
      rw [show (PowEvent.record share).share?.toList = [share] from rfl]
      by_cases hshare : share.algo = algo
      · have hcounted : (run (before ++ after)).algo.any (· ≠ share.algo) = false := by
          rw [hcurrent, Option.any_some, hshare]
          exact decide_eq_false (not_not_intro rfl)
        obtain ⟨hkept, -, hcompared⟩ := recordShare_of_counted hcounted
        rw [List.filter_singleton, decide_eq_true hshare]
        exact ⟨hkept.trans hcurrent, hcompared _ hearlier⟩
      · have hstays : (run (before ++ after)).step (.record share) = run (before ++ after) :=
          recordShare_of_other hcurrent (Ne.symm hshare)
        rw [hstays, List.filter_singleton, decide_eq_false hshare]
        refine ⟨hcurrent, ?_⟩
        rw [Bool.cond_false, List.append_nil]
        exact hearlier

/-- A block share is counted when its proof of work is the current one, or there is none. -/
theorem blocks_record (events : List (PowEvent Difficulty)) (share : FoundDifficulty Difficulty) :
    (run (events ++ [.record share])).blocks = (run events).blocks +
      if share.isBlock = true ∧ (latest PowEvent.algo? events = none ∨
        latest PowEvent.algo? events = some share.algo) then 1 else 0 := by
  rw [run_concat, ← run_algo]
  show ((run events).recordShare share).blocks = _
  cases halgo : (run events).algo with
  | none =>
    have hcounted : (run events).algo.any (· ≠ share.algo) = false := by
      rw [halgo]
      rfl
    rw [(recordShare_of_counted hcounted).2.1]
    cases share.isBlock with
    | false => simp
    | true => simp
  | some algo =>
    by_cases hshare : algo = share.algo
    · have hcounted : (run events).algo.any (· ≠ share.algo) = false := by
        rw [halgo, Option.any_some, hshare]
        exact decide_eq_false (not_not_intro rfl)
      rw [(recordShare_of_counted hcounted).2.1, hshare]
      cases share.isBlock with
      | false => simp
      | true => simp
    · rw [recordShare_of_other halgo hshare]
      simp [hshare]

/-- In every order of publications and shares, the best share is the first of greatest difficulty
among those of the current proof of work since it became current, the blocks are those of shares
that count, and a share of another proof of work changes nothing. Shares from before the first job
count whatever their proof of work, until it changes for the first time. -/
theorem best_share_is_of_the_current_pow (events : List (PowEvent Difficulty)) :
    (latest PowEvent.algo? events = none → IsBestOf (sharesOf events) (run events).best) ∧
    (∀ before job after, events = before ++ .publish job :: after →
      latest PowEvent.algo? before ≠ some job.algo →
      (∀ other, PowEvent.publish other ∈ after → other.algo = job.algo) →
      IsBestOf ((if latest PowEvent.algo? before = none then sharesOf before else []) ++
        sharesFor job.algo after) (run events).best) ∧
    (run ([] : List (PowEvent Difficulty))).blocks = 0 ∧
    (∀ job, (run (events ++ [.publish job])).blocks = (run events).blocks) ∧
    (∀ share, (run (events ++ [.record share])).blocks = (run events).blocks +
      if share.isBlock = true ∧ (latest PowEvent.algo? events = none ∨
        latest PowEvent.algo? events = some share.algo) then 1 else 0) ∧
    ∀ share algo, latest PowEvent.algo? events = some algo → algo ≠ share.algo →
      run (events ++ [.record share]) = run events := by
  refine ⟨best_of_noJob, ?_, rfl, ?_, blocks_record events, ?_⟩
  · intro before job after hsplit hother hsame
    have hturn : run (before ++ [.publish job]) = (run before).notePow job.algo := run_concat _ _
    have hbest : IsBestOf (if latest PowEvent.algo? before = none then sharesOf before else [])
        (run (before ++ [.publish job])).best := by
      have hfresh : (run before).algo ≠ some job.algo := by
        rw [run_algo]
        exact hother
      rw [hturn, notePow_best hfresh, run_algo]
      by_cases hnone : latest PowEvent.algo? before = none
      · rw [if_pos hnone, if_pos hnone]
        exact best_of_noJob hnone
      · rw [if_neg hnone, if_neg hnone]
        exact ⟨none, rfl, rfl⟩
    have hcurrent : (run (before ++ [.publish job])).algo = some job.algo := by
      rw [hturn]
      exact notePow_algo _ _
    rw [hsplit, List.append_cons]
    exact (best_of_sameAlgo hcurrent hbest hsame).2
  · intro job
    rw [run_concat]
    exact notePow_blocks _ _
  · intro share algo halgo hother
    rw [run_concat]
    exact recordShare_of_other ((run_algo events).trans halgo) hother

/-- A SHA3-256t block share before the first job, and then a BC3Hash job. -/
def shareBeforeTheJob : List (PowEvent ℕ) :=
  [.record ⟨.sha3t, ⟨5, by decide⟩, 0x1d00ffff, true, 0⟩,
    .publish (bareJob 0x1d00ffff (Vector.replicate 32 0))]

/-- The share is the best one though none of BC3Hash was recorded, and its block was counted. -/
theorem shareBeforeTheJob_counts :
    (run shareBeforeTheJob).algo = some .bc3Hash ∧
      ¬ IsBestOf (sharesFor .bc3Hash shareBeforeTheJob) (run shareBeforeTheJob).best ∧
      (run shareBeforeTheJob).blocks = 1 := by
  refine ⟨rfl, ?_, rfl⟩
  rintro ⟨first, hfirst, hbest⟩
  cases first with
  | none => exact absurd hbest (Option.some_ne_none _)
  | some share =>
    obtain ⟨before, after, hsplit, -⟩ := hfirst
    exact absurd hsplit.symm (List.append_ne_nil_of_right_ne_nil _ (List.cons_ne_nil _ _))

end PowRecord

end Bc3Miner.Sharing
