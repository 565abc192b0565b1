import Bc3Miner.Foundations.Settling
import Bc3Miner.Mining.LaunchAccounting
import Mathlib.Data.Real.Basic
import Mathlib.Tactic.Linarith

/-!
# The launch size settles

`mine_job` rounds the launch size and its limits to whole waves of the card, and every launch that
comes back lets `autotune` double it, halve it or leave it. `InRange` is what all of these keep: a
positive number of whole waves within the limits. On a card whose launches take a constant plus a
constant for every nonce, a doubling is never followed by a halving nor a halving by a doubling, and
so the size settles.

`launch_size_settles` puts these together. The arithmetic is that of the source, in words of 32 bits
with saturation and in nanoseconds; that a double is never followed by a half is an inequality
between the time of a launch and of one twice as long (`keepsDirection`). A constant that is not
that of a card, or a time that varies, is outside the second part; the first part holds whatever the
times are. `launch_size_settles_steady` is a card of constant speed.
-/

set_option autoImplicit false
set_option relaxedAutoImplicit false

namespace Bc3Miner.Mining

open Consensus Foundations

/-! ### Whole waves within the limits -/

/-- The wave of the card, as the worker takes it. -/
def wave (granule : UInt32) : ℕ := max granule.toNat 1

/-- The limits that `mine_job` derives from the wave. -/
def lowBatch (granule : UInt32) : ℕ := max minBatch (wave granule) / wave granule * wave granule

def highBatch (granule : UInt32) : ℕ := max maxBatch (lowBatch granule)

/-- The launch size a job starts with. -/
def jobBatch (granule : UInt32) (batch : ℕ) : ℕ :=
  max (max (lowBatch granule) (min (highBatch granule) batch) / wave granule) 1 * wave granule

/-- A positive number of whole waves within the limits. -/
structure InRange (granule : UInt32) (batch : ℕ) : Prop where
  whole : wave granule ∣ batch
  pos : 0 < batch
  low : lowBatch granule ≤ batch
  high : batch ≤ highBatch granule

theorem wave_pos (granule : UInt32) : 0 < wave granule := lt_max_of_lt_right Nat.one_pos

theorem wave_le_lowBatch (granule : UInt32) : wave granule ≤ lowBatch granule := by
  have hone : 1 ≤ max minBatch (wave granule) / wave granule :=
    (Nat.one_le_div_iff (wave_pos granule)).mpr (le_max_right _ _)
  exact Nat.le_mul_of_pos_left _ hone

theorem highBatch_lt (granule : UInt32) : highBatch granule < 2 ^ 32 := by
  have hwave : wave granule < 2 ^ 32 := max_lt granule.toNat_lt (by decide)
  have hlow : lowBatch granule < 2 ^ 32 :=
    (Nat.div_mul_le_self _ _).trans_lt (max_lt (by decide) hwave)
  exact max_lt (by decide) hlow

/-- Rounding down to whole waves stays above a limit that is a number of whole waves. -/
theorem le_roundDown {granule : UInt32} {next : ℕ} (hlow : lowBatch granule ≤ next) :
    lowBatch granule ≤ next / wave granule * wave granule := by
  have hdvd : wave granule ∣ lowBatch granule := Nat.dvd_mul_left _ _
  rw [← Nat.div_mul_cancel hdvd]
  exact Nat.mul_le_mul_right _ (Nat.div_le_div_right hlow)

/-- A size between the limits is rounded down to whole waves and stays between them. -/
theorem inRange_roundDown {granule : UInt32} {next : ℕ} (hlow : lowBatch granule ≤ next)
    (hhigh : next ≤ highBatch granule) : InRange granule (next / wave granule * wave granule) := by
  have hle := le_roundDown hlow
  exact ⟨Nat.dvd_mul_left _ _,
    (wave_pos granule).trans_le ((wave_le_lowBatch granule).trans hle), hle,
    (Nat.div_mul_le_self _ _).trans hhigh⟩

theorem one_le_div_wave {granule : UInt32} {next : ℕ} (hlow : lowBatch granule ≤ next) :
    1 ≤ next / wave granule :=
  (Nat.one_le_div_iff (wave_pos granule)).mpr ((wave_le_lowBatch granule).trans hlow)

/-- The size a job starts with is in range, whatever the size was. -/
theorem inRange_jobBatch (granule : UInt32)
    (batch : ℕ) : InRange granule (jobBatch granule batch) := by
  have hlow : lowBatch granule ≤ max (lowBatch granule) (min (highBatch granule) batch) :=
    le_max_left _ _
  have hhigh : max (lowBatch granule) (min (highBatch granule) batch) ≤ highBatch granule :=
    max_le (le_max_right _ _) (min_le_left _ _)
  rw [jobBatch, max_eq_left (one_le_div_wave hlow)]
  exact inRange_roundDown hlow hhigh

/-! ### One launch -/

/-- The size `autotune` aims for, before it is rounded to whole waves. -/
def aim (granule : UInt32) (batch took target : ℕ) : ℕ :=
  if took < target / 2 ∧ batch < highBatch granule then
    min (min (batch * 2) (2 ^ 32 - 1)) (highBatch granule)
  else if target * 5 / 2 < took ∧ lowBatch granule < batch then max (batch / 2) (lowBatch granule)
  else batch

/-- The autotune under the limits of a wave. -/
def tuned (granule : UInt32) (batch took target : ℕ) : ℕ :=
  autotune batch took target (wave granule) (lowBatch granule) (highBatch granule)

section Autotune

variable {granule : UInt32} {batch : ℕ} (took target : ℕ)

/-- The size aimed for stays between the smallest and the greatest multiple of the granule. -/
theorem aim_bounds (hbatch : InRange granule batch) :
    lowBatch granule ≤ aim granule batch took target ∧
      aim granule batch took target ≤ highBatch granule := by
  have hhigh := hbatch.high
  have hlow := hbatch.low
  have hword := highBatch_lt granule
  unfold aim
  split_ifs with hdouble hhalve
  · refine ⟨le_min (le_min ?_ ?_) ?_, min_le_right _ _⟩ <;> omega
  · exact ⟨le_max_right _ _, max_le (by omega) (by omega)⟩
  · exact ⟨hlow, hhigh⟩

/-- In range, the autotune rounds what it aims for down to whole waves. -/
theorem tuned_eq (hbatch : InRange granule batch) :
    tuned granule batch took target =
      aim granule batch took target / wave granule * wave granule := by
  obtain ⟨hlow, hhigh⟩ := aim_bounds took target hbatch
  have hrange := inRange_roundDown hlow hhigh
  have hwave : max (wave granule) 1 = wave granule := max_eq_left (wave_pos granule)
  show max (min (lowBatch granule) (highBatch granule)) (min (highBatch granule)
    (max (aim granule batch took target / max (wave granule) 1) 1 * max (wave granule) 1)) = _
  rw [hwave, max_eq_left (one_le_div_wave hlow), min_eq_left (hlow.trans hhigh),
    min_eq_right hrange.high, max_eq_right hrange.low]

theorem inRange_tuned (hbatch : InRange granule batch) :
    InRange granule (tuned granule batch took target) := by
  obtain ⟨hlow, hhigh⟩ := aim_bounds took target hbatch
  rw [tuned_eq took target hbatch]
  exact inRange_roundDown hlow hhigh

/-- The size grows only after a launch below half the target time, and at most to twice. -/
theorem tuned_le (hbatch : InRange granule batch) :
    (target / 2 ≤ took → tuned granule batch took target ≤ batch) ∧
      tuned granule batch took target ≤ 2 * batch := by
  have hround : tuned granule batch took target ≤ aim granule batch took target := by
    rw [tuned_eq took target hbatch]
    exact Nat.div_mul_le_self _ _
  have hlow := hbatch.low
  refine ⟨fun hslow ↦ hround.trans ?_, hround.trans ?_⟩
  · unfold aim
    rw [if_neg fun hdouble ↦ absurd hdouble.1 (Nat.not_lt.mpr hslow)]
    split_ifs with hhalve
    · exact max_le (Nat.div_le_self _ _) hlow
    · exact le_rfl
  · unfold aim
    split_ifs with hdouble hhalve
    · exact (min_le_left _ _).trans ((min_le_left _ _).trans (Nat.mul_comm _ _).le)
    · exact max_le (by omega) (by omega)
    · omega

/-- The size shrinks only after a launch above two and a half times the target time, and at most to
a third: one of three waves is halved to one. -/
theorem le_tuned (hbatch : InRange granule batch) :
    (took ≤ target * 5 / 2 → batch ≤ tuned granule batch took target) ∧
      batch ≤ 3 * tuned granule batch took target := by
  obtain ⟨waves, hwaves⟩ := hbatch.whole
  have hpos := wave_pos granule
  have hhigh := hbatch.high
  have hword := highBatch_lt granule
  have hfixed {next : ℕ} (hle : batch ≤ next) : batch ≤ next / wave granule * wave granule := by
    rw [← Nat.div_mul_cancel hbatch.whole]
    exact Nat.mul_le_mul_right _ (Nat.div_le_div_right hle)
  have hgrow : took ≤ target * 5 / 2 → batch ≤ tuned granule batch took target := by
    intro hquick
    rw [tuned_eq took target hbatch]
    apply hfixed
    unfold aim
    split_ifs with hdouble hhalve
    · refine le_min (le_min ?_ ?_) ?_ <;> omega
    · exact absurd hhalve.1 (Nat.not_lt.mpr hquick)
    · exact le_rfl
  refine ⟨hgrow, ?_⟩
  by_cases hquick : took ≤ target * 5 / 2
  · have hle := hgrow hquick
    omega
  · have hhalf : batch / 2 ≤ aim granule batch took target := by
      unfold aim
      split_ifs with hdouble hhalve
      · refine le_min (le_min ?_ ?_) ?_ <;> omega
      · exact le_max_left _ _
      · exact Nat.div_le_self _ _
    have hone := one_le_div_wave (aim_bounds took target hbatch).1
    have hdiv : waves / 2 ≤ aim granule batch took target / wave granule := by
      refine (Nat.le_div_iff_mul_le hpos).mpr (le_trans ?_ hhalf)
      rw [hwaves, Nat.le_div_iff_mul_le (by decide : 0 < 2)]
      calc waves / 2 * wave granule * 2 = wave granule * (waves / 2 * 2) := by ring
        _ ≤ wave granule * waves := Nat.mul_le_mul_left _ (Nat.div_mul_le_self _ _)
    rw [tuned_eq took target hbatch]
    calc batch = wave granule * waves := hwaves
      _ ≤ wave granule * (3 * (aim granule batch took target / wave granule)) :=
          Nat.mul_le_mul_left _ (by omega)
      _ = 3 * (aim granule batch took target / wave granule * wave granule) := by ring

end Autotune

/-! ### A job -/

/-- What the autotune reads and writes of a worker and its job. -/
structure Sizes where
  batch : ℕ
  granule : ℕ
  low : ℕ
  high : ℕ
  deriving DecidableEq, Repr

def sizesOf (worker : Worker) (run : JobRun) : Sizes :=
  ⟨worker.batch, run.granule, run.minBatch, run.maxBatch⟩

/-- The sizes after a launch of which a full one would have taken so long. -/
def Sizes.tune (sizes : Sizes) (took : ℕ) : Sizes :=
  { sizes with batch := autotune sizes.batch took targetLaunch sizes.granule sizes.low sizes.high }

section Loop

variable {sha256d : List UInt8 → Bytes32} {verify : PowFn}

/-- A device error changes no launch size. -/
theorem sizesOf_deviceError {worker worker' : Worker} {run run' : JobRun} {restart : Cursor}
    {outcome : Outcome} (herror : deviceError worker run restart = (outcome, worker', run')) :
    sizesOf worker' run' = sizesOf worker run := by
  obtain ⟨_, _, hspec, -⟩ := deviceError_spec worker run restart
  rw [hspec] at herror
  cases herror
  rfl

/-- An enqueue changes no launch size, whether it is accepted or not. -/
theorem sizesOf_enqueued {worker worker' : Worker} {run run' : JobRun} {taken : Region}
    {header : En2Header} {restart : Cursor} {result : Option ℕ} {outcome : Outcome}
    (henqueued : enqueued worker run taken header restart result = (outcome, worker', run')) :
    sizesOf worker' run' = sizesOf worker run := by
  cases result with
  | some queued =>
    cases henqueued
    rfl
  | none => exact sizesOf_deviceError henqueued

/-- Queueing launches leaves the sizes alone. -/
theorem sizesOf_topUp {worker worker' : Worker} {run run' : JobRun} {answers rest : List Answer}
    {outcome : Outcome}
    (htop : topUp sha256d worker run answers = (outcome, worker', run', rest)) :
    sizesOf worker' run' = sizesOf worker run := by
  induction worker, run, answers using topUp.induct sha256d with
  | case1 worker run moved answers hfull =>
    rw [topUp, if_pos hfull] at htop
    cases htop
    rfl
  | case2 worker run answers hroom =>
    rw [topUp, if_neg hroom, if_pos rfl] at htop
    cases htop
    rfl
  | case3 worker run moved answers hroom hmoved hfits =>
    rw [topUp, if_neg hroom, if_neg hmoved, if_pos hfits] at htop
    cases htop
    rfl
  | case4 worker run moved hroom hmoved hfits most restart taken cursor htake worker₁ header run₁
      result answers worker₂ run₂ henqueued ih =>
    rw [topUp, if_neg hroom, if_neg hmoved, if_neg hfits] at htop
    simp only [most] at htake
    simp only [htake] at htop
    rw [henqueued] at htop
    have hkept := sizesOf_enqueued henqueued
    exact (ih htop).trans hkept
  | case5 worker run moved hroom hmoved hfits most restart taken cursor htake worker₁ header run₁
      result answers outcome' worker₂ run₂ hnotDone henqueued =>
    rw [topUp, if_neg hroom, if_neg hmoved, if_neg hfits] at htop
    simp only [most] at htake
    simp only [htake] at htop
    rw [henqueued] at htop
    have hkept := sizesOf_enqueued henqueued
    cases outcome' with
    | done => exact absurd rfl hnotDone
    | gone =>
      cases htop
      exact hkept
    | waiting =>
      cases htop
      exact hkept
  | case6 worker run moved hroom hmoved hfits most taken cursor htake answers hnone =>
    rw [topUp, if_neg hroom, if_neg hmoved, if_neg hfits] at htop
    simp only [most] at htake
    simp only [htake] at htop
    rcases answers with _ | ⟨_ | _ | _, _⟩
    · cases htop
      rfl
    · cases htop
      rfl
    · exact absurd rfl (hnone _ _)
    · cases htop
      rfl
  | case7 worker run answers hnone =>
    rw [topUp] at htop
    · cases htop
      rfl
    · exact hnone

variable (verify) in
/-- Finishing a launch tunes the batch by what a full launch would have taken. -/
theorem sizesOf_finish (worker : Worker) (run : JobRun) (done : InFlight) (scan : Scan) (now : ℕ) :
    ∃ took, sizesOf (finish verify worker run done scan now).1
    (finish verify worker run done scan now).2 =
      (sizesOf worker run).tune took :=
  ⟨_, rfl⟩

/-- Queueing behind a running launch leaves the sizes alone, too. -/
theorem sizesOf_topUpBehind {worker worker' : Worker} {run run' : JobRun}
    {answers rest : List Answer} {outcome : Outcome}
    (hbehind : topUpBehind sha256d worker run answers = (outcome, worker', run', rest)) :
    sizesOf worker' run' = sizesOf worker run := by
  unfold topUpBehind at hbehind
  by_cases hdeep : 1 < run.depth
  · rw [if_pos hdeep] at hbehind
    exact sizesOf_topUp hbehind
  · rw [if_neg hdeep] at hbehind
    cases hbehind
    rfl

/-- A property of the launch sizes that the autotune keeps, however long a launch took, holds at the
end of every run of the launch loop that it held at the start of: nothing else in the loop changes a
size. -/
theorem pump_keeps_sizes {property : Sizes → Prop}
    (htune : ∀ sizes took, property sizes → property (sizes.tune took)) {fuel : ℕ}
    {worker worker' : Worker} {run run' : JobRun} {answers rest : List Answer}
    {ended : Option JobEnd} (hstart : property (sizesOf worker run))
    (hpump : pump sha256d verify fuel worker run answers = (ended, worker', run', rest)) :
    property (sizesOf worker' run') := by
  induction fuel generalizing worker run answers with
  | zero =>
    cases hpump
    exact hstart
  | succ fuel ih =>
    have hturned := turned sha256d verify worker run answers
    rw [pump] at hpump
    generalize turn sha256d verify worker run answers = result at hturned hpump
    have htopUp : ∀ {outcome : Outcome} {worker₁ : Worker} {run₁ : JobRun} {rest : List Answer},
        topUp sha256d worker run answers = (outcome, worker₁, run₁, rest) →
        property (sizesOf worker₁ run₁) := by
      intro outcome worker₁ run₁ rest htop
      rw [sizesOf_topUp htop]
      exact hstart
    cases hturned with
    | queueing top | goneQueueing top | idle top empty | collecting top unanswered =>
      cases hpump
      have hfirst := htopUp top
      exact hfirst
    | goneFailed top oldest error =>
      cases hpump
      have hfirst := htopUp top
      rw [sizesOf_deviceError error]
      exact hfirst
    | failed top oldest error =>
      have hfirst := htopUp top
      refine ih ?_ hpump
      rw [sizesOf_deviceError error]
      exact hfirst
    | queueingBehind top oldest behind | goneBehind top oldest behind =>
      cases hpump
      have hfirst := htopUp top
      rw [sizesOf_topUpBehind behind]
      exact hfirst
    | @finished worker₁ worker₂ run₁ run₂ done inflight answers₁ rest scan now top oldest behind =>
      obtain ⟨took, htook⟩ := sizesOf_finish verify worker₂ run₂ done scan now
      have hfirst := htopUp top
      refine ih ?_ hpump
      rw [htook, sizesOf_topUpBehind behind]
      exact htune _ took hfirst

variable (sha256d verify) in
/-- Whatever launch size a worker brings from the job before, it mines in whole waves within the
limits of the card's present wave. -/
theorem inRange_mineJob (worker : Worker) (job : MinerJob) (algo : PowAlgo) (depth window : ℕ)
    (granule : UInt32) (answers : List Answer) :
    InRange granule
      (mineJob sha256d verify worker job algo depth granule.toNat window answers).2.1.batch := by
  have htune : ∀ (sizes : Sizes) (took : ℕ),
      (∃ batch, InRange granule batch ∧
        sizes = ⟨batch, wave granule, lowBatch granule, highBatch granule⟩) →
      ∃ batch, InRange granule batch ∧
        sizes.tune took = ⟨batch, wave granule, lowBatch granule, highBatch granule⟩ := by
    rintro sizes took ⟨batch, hbatch, rfl⟩
    exact ⟨_, inRange_tuned took targetLaunch hbatch, rfl⟩
  rcases hpump : pump sha256d verify (answers.length + 1)
    (startRun worker job algo depth granule.toNat window).1
    (startRun worker job algo depth granule.toNat window).2 answers with
      ⟨ended, worker', run', rest⟩
  obtain ⟨batch, hbatch, hsizes⟩ := pump_keeps_sizes htune
    ⟨jobBatch granule worker.batch, inRange_jobBatch granule worker.batch, rfl⟩ hpump
  have hsame : worker'.batch = batch := congrArg Sizes.batch hsizes
  simp only [mineJob, hpump]
  cases ended <;> exact hsame ▸ hbatch

end Loop

/-! ### A card with a constant speed -/

/-- A card whose launches take a constant plus a constant for every nonce, as a clock of whole
nanoseconds shows it. -/
structure ConstantSpeed where
  took : ℕ → ℕ
  perLaunch : ℝ
  perNonce : ℝ
  perLaunch_nonneg : 0 ≤ perLaunch
  perNonce_nonneg : 0 ≤ perNonce
  close : ∀ batch, |(took batch : ℝ) - (perLaunch + perNonce * batch)| ≤ 1

namespace ConstantSpeed

variable (card : ConstantSpeed)

/-- What the autotune makes of a launch size on the card. -/
def next (granule : UInt32) (batch : ℕ) : ℕ := tuned granule batch (card.took batch) targetLaunch

/-- A launch of at most so many times the size takes at most so many times as long, but for the
rounding of both times. -/
theorem took_le_mul {first second : ℕ} {factor : ℕ} (hfactor : 1 ≤ factor)
    (hsize : second ≤ factor * first) : card.took second ≤ factor * (card.took first + 1) + 1 := by
  have hfirst := abs_le.mp (card.close first)
  have hsecond := abs_le.mp (card.close second)
  have hfactor' : (1 : ℝ) ≤ factor := by exact_mod_cast hfactor
  have hsize' : (second : ℝ) ≤ factor * first := by exact_mod_cast hsize
  have hnonces : card.perNonce * second ≤ factor * (card.perNonce * first) := by
    calc card.perNonce * second ≤ card.perNonce * (factor * first) :=
          mul_le_mul_of_nonneg_left hsize' card.perNonce_nonneg
      _ = factor * (card.perNonce * first) := by ring
  have hlaunch : card.perLaunch ≤ factor * card.perLaunch :=
    le_mul_of_one_le_left card.perLaunch_nonneg hfactor'
  have hexact : card.perLaunch + card.perNonce * first ≤ card.took first + 1 := by
    linarith [hfirst.1]
  have htimes : factor * (card.perLaunch + card.perNonce * first) ≤
    factor * ((card.took first : ℝ) + 1) :=
    mul_le_mul_of_nonneg_left hexact (by linarith)
  have hreal : (card.took second : ℝ) ≤ factor * ((card.took first : ℝ) + 1) + 1 := by
    have hsum : factor * (card.perLaunch + card.perNonce * first) =
      factor * card.perLaunch + factor * (card.perNonce * first) := by ring
    linarith [hsecond.2]
  exact_mod_cast hreal

/-- The autotune never turns on such a card: what was doubled does not take two and a half times the
target time, and what was halved, to a third at most, does not take less than half of it. -/
theorem keepsDirection {granule : UInt32} {batch : ℕ} (hbatch : InRange granule batch) :
    KeepsDirection (card.next granule) batch := by
  have hnext := inRange_tuned (card.took batch) targetLaunch hbatch
  constructor
  · intro hgrew
    have hquick : card.took batch < targetLaunch / 2 := by
      by_contra hslow
      exact absurd ((tuned_le (card.took batch) targetLaunch hbatch).1 (not_lt.mp hslow))
        (not_le.mpr hgrew)
    have htook := card.took_le_mul (by decide : 1 ≤ 2)
      (tuned_le (card.took batch) targetLaunch hbatch).2
    have htarget : 2 * (targetLaunch / 2 + 1) + 1 ≤ targetLaunch * 5 / 2 := by decide
    have hagain : card.took (tuned granule batch (card.took batch) targetLaunch) ≤
        targetLaunch * 5 / 2 := by omega
    exact (le_tuned _ targetLaunch hnext).1 hagain
  · intro hshrank
    have hslow : targetLaunch * 5 / 2 < card.took batch := by
      by_contra hquick
      exact absurd ((le_tuned (card.took batch) targetLaunch hbatch).1 (not_lt.mp hquick))
        (not_le.mpr hshrank)
    have htook := card.took_le_mul (by decide : 1 ≤ 3)
      (le_tuned (card.took batch) targetLaunch hbatch).2
    have htarget : 3 * (targetLaunch / 2 + 1) + 1 ≤ targetLaunch * 5 / 2 := by decide
    have hagain : targetLaunch / 2 ≤
        card.took (tuned granule batch (card.took batch) targetLaunch) := by omega
    exact (tuned_le _ targetLaunch hnext).1 hagain

/-- Every size of the orbit is in range. -/
theorem inRange_orbit {granule : UInt32} {start : ℕ} (hstart : InRange granule start) (n : ℕ) :
    InRange granule ((card.next granule)^[n] start) := by
  induction n with
  | zero => exact hstart
  | succ n ih =>
    rw [Function.iterate_succ_apply']
    exact inRange_tuned _ targetLaunch ih

end ConstantSpeed

/-- The launch size of a card of any granule. It is a positive number of whole waves within the
limits of the card's present wave: when a job starts, whatever the size was before, after every
launch, however long it took, and whenever `mine_job` returns or waits. And on a card whose launches
take a constant and a constant for each nonce, the autotune takes the size one way only, up or down,
to a size that stays. -/
theorem launch_size_settles (granule : UInt32) :
    (∀ batch, InRange granule (jobBatch granule batch)) ∧
    (∀ batch took target, InRange granule batch →
      InRange granule (tuned granule batch took target)) ∧
    (∀ sha256d verify worker job algo depth window answers, InRange granule
      (mineJob sha256d verify worker job algo depth granule.toNat window answers).2.1.batch) ∧
    ∀ (card : ConstantSpeed) (batch : ℕ),
      let size := fun n ↦ (card.next granule)^[n] (jobBatch granule batch)
      (∀ n, InRange granule (size n)) ∧ (Monotone size ∨ Antitone size) ∧
        ∃ n, ∀ later, n ≤ later → size later = size n := by
  refine ⟨inRange_jobBatch granule, fun batch took target hbatch ↦ inRange_tuned took target hbatch,
    fun sha256d verify worker job algo depth window answers ↦
      inRange_mineJob sha256d verify worker job algo depth window granule answers, ?_⟩
  intro card batch size
  have hrange : ∀ n, InRange granule (size n) := card.inRange_orbit (inRange_jobBatch granule batch)
  have hbound : ∀ n, size n ≤ highBatch granule := fun n ↦ (hrange n).high
  exact ⟨hrange, orbit_settles hbound fun n ↦ card.keepsDirection (hrange n)⟩

/-- A card that takes 300 microseconds for a launch and 40 nanoseconds for a nonce. -/
def ConstantSpeed.steady : ConstantSpeed where
  took batch := 300000 + 40 * batch
  perLaunch := 300000
  perNonce := 40
  perLaunch_nonneg := by norm_num
  perNonce_nonneg := by norm_num
  close batch := by simp

/-- On it, in waves of 46080 nonces, the size that a worker starts with settles. -/
theorem launch_size_settles_steady :
    let size := fun n ↦ (ConstantSpeed.steady.next 46080)^[n] (jobBatch 46080 startBatch)
    (∀ n, InRange 46080 (size n)) ∧ (Monotone size ∨ Antitone size) ∧
      ∃ n, ∀ later, n ≤ later → size later = size n :=
  (launch_size_settles 46080).2.2.2 ConstantSpeed.steady startBatch

end Bc3Miner.Mining
