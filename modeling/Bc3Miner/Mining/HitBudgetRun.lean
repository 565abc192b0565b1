import Bc3Miner.Foundations.EndlessRun
import Bc3Miner.Mining.LaunchSize
import Bc3Miner.Mining.MinerJob

/-!
# The hit budget does not oscillate

The `HitBudget` halves the launch size after a launch whose hits did not fit the buffer, and doubles
it after `recoverAfter` launches with headroom. Here it runs in a loop with the launches: sizes are
taken from it up to two deep, and every launch is reported back, in order, with the hits that a
launch of its size has. While a launch is being reported, the next may already be queued behind the
one in flight.

Such a run has two phases. At first every launch overflows (`Sinking`): the size falls with every
report. From the first launch that did not overflow on none does any more (`Recovering`): the size
in use is doubled only after a launch of that very size had headroom, so a launch of twice the size
fits as well.

`hitBudget_recovers` is for every endless run of the loop and every function from sizes to hits that
hits can have (`HitCounts`). The proof is a potential: while the run sinks, each overflow takes some
of it away, and once it recovers there is no way back.
-/

set_option autoImplicit false
set_option relaxedAutoImplicit false

namespace Bc3Miner.Mining

open Foundations

/-! ### Reports to the budget -/

namespace HitBudget

variable (budget : HitBudget) (covered : ℕ) {reported : ℕ}

/-- A report of a launch that fitted: the limit stays, with one clean launch more, none, or where
there is no limit as many as before; or it is doubled, after enough clean launches. -/
theorem overflowed_of_fits (hfits : reported ≤ maxHits) :
    ((budget.overflowed covered reported).1.limit = budget.limit ∧
      ((budget.overflowed covered reported).1.cleanRuns = budget.cleanRuns ∧ budget.limit = none ∨
        (budget.overflowed covered reported).1.cleanRuns = budget.cleanRuns + 1 ∧
          reported * 4 ≤ maxHits ∨
        (budget.overflowed covered reported).1.cleanRuns = 0)) ∨
    ∃ limit, budget.limit = some limit ∧ reported * 4 ≤ maxHits ∧
      recoverAfter ≤ budget.cleanRuns + 1 ∧
      (budget.overflowed covered reported).1.cleanRuns = 0 ∧
      (budget.overflowed covered reported).1.limit =
        if limit * 2 < 2 ^ 32 then some (limit * 2) else none := by
  unfold overflowed
  rw [if_pos hfits]
  cases hlimit : budget.limit with
  | none => exact Or.inl ⟨hlimit, Or.inl ⟨rfl, rfl⟩⟩
  | some limit =>
    dsimp only
    by_cases hroom : reported * 4 ≤ maxHits
    · rw [if_pos hroom]
      by_cases henough : recoverAfter ≤ budget.cleanRuns + 1
      · rw [if_pos henough]
        exact Or.inr ⟨limit, rfl, hroom, henough, rfl, rfl⟩
      · rw [if_neg henough]
        exact Or.inl ⟨rfl, Or.inr (Or.inl ⟨rfl, hroom⟩)⟩
    · rw [if_neg hroom]
      exact Or.inl ⟨rfl, Or.inr (Or.inr rfl)⟩

/-- A report of a launch that overflowed halves the limit, and the clean launches are counted
anew. -/
theorem overflowed_of_lost (hlost : maxHits < reported) :
    (budget.overflowed covered reported).1.cleanRuns = 0 ∧
      (budget.overflowed covered reported).1.limit =
      some (max ((budget.chunk covered + 1) / 2) 1) := by
  unfold overflowed
  rw [if_neg (not_le.mpr hlost)]
  dsimp only
  by_cases hlogged : budget.logged = true
  · rw [if_pos hlogged]
    exact ⟨rfl, rfl⟩
  · rw [if_neg hlogged]
    exact ⟨rfl, rfl⟩

/-- The limit is never zero. -/
def Positive : Prop := ∀ limit, budget.limit = some limit → 1 ≤ limit

variable {budget}

/-- An overflow leaves a positive limit, whatever was reported. -/
theorem Positive.overflowed (hpositive : budget.Positive) (reported : ℕ) :
    (budget.overflowed covered reported).1.Positive := by
  intro limit hlimit
  rcases le_or_gt reported maxHits with hfits | hlost
  · rcases budget.overflowed_of_fits covered hfits with ⟨hsame, -⟩ | ⟨old, hold, -, -, -, hnew⟩
    · exact hpositive limit (hsame ▸ hlimit)
    · have hone := hpositive old hold
      rw [hnew] at hlimit
      split_ifs at hlimit
      obtain rfl := Option.some.inj hlimit
      omega
  · obtain ⟨-, hnew⟩ := budget.overflowed_of_lost covered hlost
    obtain rfl := Option.some.inj (hnew.symm.trans hlimit)
    exact le_max_right _ _

/-- While something remains a launch covers at least one nonce. -/
theorem Positive.one_le_chunk (hpositive : budget.Positive) {remaining : ℕ}
    (hremaining : 1 ≤ remaining) :
    1 ≤ budget.chunk remaining := by
  unfold chunk
  cases hlimit : budget.limit with
  | none => exact hremaining
  | some limit => exact le_min (hpositive limit hlimit) hremaining

/-- Doubling the limit, or lifting it, at most doubles the size of a batch below `2 ^ 32`. -/
theorem chunk_doubled {next : HitBudget} {limit remaining : ℕ} (hlimit : budget.limit = some limit)
    (hnext : next.limit = if limit * 2 < 2 ^ 32 then some (limit * 2) else none)
    (hremaining : remaining < 2 ^ 32) : next.chunk remaining ≤ 2 * budget.chunk remaining := by
  unfold chunk
  rw [hlimit, hnext]
  split_ifs with hword
  · show min (limit * 2) remaining ≤ 2 * min limit remaining
    omega
  · show remaining ≤ 2 * min limit remaining
    omega

theorem chunk_congr {next : HitBudget} (hlimit : next.limit = budget.limit) (remaining : ℕ) :
    next.chunk remaining = budget.chunk remaining := by
  unfold chunk
  rw [hlimit]

end HitBudget

/-! ### The loop of launches and reports -/

/-- The budget, the launches in flight, oldest first, and the one that came back and is not
reported. -/
structure LaunchLoop where
  budget : HitBudget := {}
  inflight : List ℕ := []
  collected : Option ℕ := none

/-- What the worker does next. -/
inductive LaunchEvent
  | queue
  | collect
  | report
  deriving DecidableEq, Repr

namespace LaunchLoop

section Loop

variable (batch : ℕ) (hits : ℕ → ℕ)

/-- One step: the sizes come from the budget, and a launch is reported with its own size and the
hits of a launch of that size. -/
def step (loop : LaunchLoop) : LaunchEvent → Option LaunchLoop
  | .queue =>
    if loop.inflight.length < queueDepth then
      some { loop with inflight := loop.inflight ++ [max (loop.budget.chunk batch) 1] }
    else none
  | .collect =>
    match loop.collected, loop.inflight with
    | none, size :: inflight => some { loop with inflight, collected := some size }
    | _, _ => none
  | .report =>
    match loop.collected with
    | some size =>
      some { loop with budget := (loop.budget.overflowed size (hits size)).1, collected := none }
    | none => none

/-- The event reports a launch of the size. -/
def Reports (loop : LaunchLoop) (event : LaunchEvent) (size : ℕ) : Prop :=
  event = .report ∧ loop.collected = some size

/-- The launches that are not reported yet, oldest first. -/
def outstanding (loop : LaunchLoop) : List ℕ := loop.collected.toList ++ loop.inflight

variable {batch hits}

/-- What a step does to the budget and to the launches that are not reported: queueing adds one of
the size in use, collecting takes the oldest out of the queue, and reporting takes it out of the
outstanding ones and tells the budget its hits. -/
theorem step_cases {loop next : LaunchLoop} {event : LaunchEvent}
    (hstep : step batch hits loop event = some next) :
    (event = .queue ∧ loop.inflight.length < queueDepth ∧ next.budget = loop.budget ∧
      next.outstanding = loop.outstanding ++ [max (loop.budget.chunk batch) 1] ∧
      next.inflight.length = loop.inflight.length + 1) ∨
    (event = .collect ∧ next.budget = loop.budget ∧ next.outstanding = loop.outstanding ∧
      next.inflight.length ≤ loop.inflight.length) ∨
    ∃ size, loop.Reports event size ∧ loop.outstanding = size :: next.outstanding ∧
      next.budget = (loop.budget.overflowed size (hits size)).1 ∧
      next.inflight = loop.inflight := by
  cases event with
  | queue =>
    simp only [step] at hstep
    split_ifs at hstep with hroom
    obtain rfl := Option.some.inj hstep
    refine Or.inl ⟨rfl, hroom, rfl, (List.append_assoc _ _ _).symm, ?_⟩
    rw [List.length_append, List.length_singleton]
  | collect =>
    simp only [step] at hstep
    split at hstep
    · rename_i size inflight hcollected hinflight
      obtain rfl := Option.some.inj hstep
      refine Or.inr (Or.inl ⟨rfl, rfl, ?_, ?_⟩)
      · rw [outstanding, outstanding, hcollected, hinflight]
        rfl
      · rw [hinflight]
        exact Nat.le_succ _
    · cases hstep
  | report =>
    simp only [step] at hstep
    split at hstep
    · rename_i size hcollected
      obtain rfl := Option.some.inj hstep
      refine Or.inr (Or.inr ⟨size, ⟨rfl, hcollected⟩, ?_, rfl, rfl⟩)
      rw [outstanding, hcollected]
      rfl
    · cases hstep

end Loop

/-! ### The two phases -/

section Phases

variable (batch : ℕ) (hits : ℕ → ℕ)

/-- What holds in every run: the limit is not zero, and launches are in flight up to the depth. -/
structure Regular (loop : LaunchLoop) : Prop where
  positive : loop.budget.Positive
  depth : loop.inflight.length ≤ queueDepth

/-- Every launch so far overflowed: the sizes fall from launch to launch, and no launch was
clean. -/
structure Sinking (loop : LaunchLoop) : Prop extends Regular loop where
  clean : loop.budget.cleanRuns = 0
  limit : ∀ limit, loop.budget.limit = some limit → limit ≤ batch
  falling : loop.outstanding.Pairwise (· ≥ ·)
  above : ∀ size ∈ loop.outstanding, loop.budget.chunk batch ≤ size
  below : ∀ size ∈ loop.outstanding, size ≤ batch

/-- No launch overflows any more: those not reported fit, and so does the size in use, which had
headroom itself as soon as more clean launches are counted than launches of another size can be
among them. -/
structure Recovering (loop : LaunchLoop) : Prop extends Regular loop where
  fits : ∀ size ∈ loop.outstanding, hits size ≤ maxHits
  next : hits (loop.budget.chunk batch) ≤ maxHits
  tested : hits (loop.budget.chunk batch) * 4 ≤ maxHits ∨
    loop.budget.cleanRuns + loop.outstanding.countP (· ≠ loop.budget.chunk batch) ≤ queueDepth + 1

/-- How often a sinking loop can still overflow. -/
def potential (loop : LaunchLoop) : ℕ :=
  if loop.budget.chunk batch ≤ 1 then loop.outstanding.countP (1 < ·)
  else 4 * loop.budget.chunk batch

variable {batch hits}

/-- At most the launches in flight and a collected one are outstanding. -/
theorem Regular.length_outstanding {loop : LaunchLoop} (hregular : loop.Regular) :
    loop.outstanding.length ≤ queueDepth + 1 := by
  have hcollected : loop.collected.toList.length ≤ 1 := by
    cases loop.collected <;> simp
  have hdepth := hregular.depth
  rw [outstanding, List.length_append]
  omega

/-- Every event keeps the loop regular. -/
theorem Regular.step {loop next : LaunchLoop} {event : LaunchEvent} (hregular : loop.Regular)
    (hstep : step batch hits loop event = some next) : next.Regular := by
  rcases step_cases hstep with ⟨-, hroom, hbudget, -, hlength⟩ | ⟨-, hbudget, -, hlength⟩ |
    ⟨size, -, -, hbudget, hinflight⟩
  · refine ⟨hbudget ▸ hregular.positive, ?_⟩
    omega
  · exact ⟨hbudget ▸ hregular.positive, hlength.trans hregular.depth⟩
  · refine ⟨?_, hinflight ▸ hregular.depth⟩
    rw [hbudget]
    exact hregular.positive.overflowed size (hits size)

/-- The size a launch is queued with. -/
theorem Regular.queued {loop : LaunchLoop} (hregular : loop.Regular) (hbatch : 1 ≤ batch) :
    max (loop.budget.chunk batch) 1 = loop.budget.chunk batch :=
  max_eq_left (hregular.positive.one_le_chunk hbatch)

/-- The hit counts a device can have: more nonces have no fewer hits, no nonce two, and twice the
nonces at most twice the hits. -/
structure HitCounts (hits : ℕ → ℕ) : Prop where
  mono : Monotone hits
  le_self : ∀ count, hits count ≤ count
  double : ∀ count, hits (2 * count) ≤ 2 * hits count

/-- A loop that recovers goes on recovering, and no launch it reports overflows. The limit is
doubled only after so many clean launches in a row that the size in use was among them. -/
theorem Recovering.step {loop next : LaunchLoop} {event : LaunchEvent} (hhits : HitCounts hits)
    (hbatch : 1 ≤ batch) (hword : batch < 2 ^ 32) (hrecovering : loop.Recovering batch hits)
    (hstep : LaunchLoop.step batch hits loop event = some next) :
    next.Recovering batch hits ∧ ¬ ∃ size, loop.Reports event size ∧ maxHits < hits size := by
  have hregular := hrecovering.toRegular.step hstep
  rcases step_cases hstep with
    ⟨rfl, -, hbudget, houtstanding, -⟩ | ⟨rfl, hbudget, houtstanding, -⟩ |
    ⟨size, hreports, houtstanding, hbudget, -⟩
  · rw [hrecovering.toRegular.queued hbatch] at houtstanding
    refine ⟨⟨hregular, ?_, ?_, ?_⟩, ?_⟩
    · rw [houtstanding]
      intro size hsize
      rcases List.mem_append.mp hsize with hold | hnew
      · exact hrecovering.fits size hold
      · rw [List.mem_singleton.mp hnew]
        exact hrecovering.next
    · rw [hbudget]
      exact hrecovering.next
    · rw [hbudget, houtstanding, List.countP_append, List.countP_singleton]
      simpa using hrecovering.tested
    · rintro ⟨_, ⟨hreport, -⟩, -⟩
      cases hreport
  · refine ⟨⟨hregular, houtstanding ▸ hrecovering.fits, hbudget ▸ hrecovering.next, ?_⟩, ?_⟩
    · rw [hbudget, houtstanding]
      exact hrecovering.tested
    · rintro ⟨_, ⟨hreport, -⟩, -⟩
      cases hreport
  · have hsize : hits size ≤ maxHits := hrecovering.fits size (by rw [houtstanding]; simp)
    have hrest : ∀ later ∈ next.outstanding, hits later ≤ maxHits := fun later hlater ↦
      hrecovering.fits later (by rw [houtstanding]; exact List.mem_cons_of_mem _ hlater)
    have hcount : next.outstanding.length ≤ queueDepth := by
      have hlength := hrecovering.toRegular.length_outstanding
      rw [houtstanding, List.length_cons] at hlength
      omega
    refine ⟨?_, ?_⟩
    · have hcountP (size : ℕ) : next.outstanding.countP (· ≠ size) ≤ queueDepth :=
        List.countP_le_length.trans hcount
      rcases loop.budget.overflowed_of_fits size hsize with
        ⟨hlimit, hclean⟩ | ⟨limit, hlimit, hroom, henough, hclean, hnext⟩
      · rw [← hbudget] at hlimit hclean
        have hchunk := HitBudget.chunk_congr hlimit batch
        refine ⟨hregular, hrest, by rw [hchunk]; exact hrecovering.next, ?_⟩
        rw [hchunk]
        rcases hrecovering.tested with htested | huntested
        · exact Or.inl htested
        · rw [houtstanding, List.countP_cons] at huntested
          rcases hclean with ⟨hclean, -⟩ | ⟨hclean, hroom⟩ | hclean
          · right
            rw [hclean]
            omega
          · by_cases hsame : size = loop.budget.chunk batch
            · rw [← hsame]
              exact Or.inl hroom
            · right
              rw [if_pos (decide_eq_true hsame)] at huntested
              rw [hclean]
              omega
          · right
            rw [hclean]
            have := hcountP (loop.budget.chunk batch)
            omega
      · rw [← hbudget] at hclean hnext
        have htested : hits (loop.budget.chunk batch) * 4 ≤ maxHits := by
          rcases hrecovering.tested with htested | huntested
          · exact htested
          · have hfew : loop.budget.cleanRuns ≤ queueDepth + 1 := by omega
            exact absurd (henough.trans (Nat.succ_le_succ hfew)) (by decide)
        have hdouble : hits (next.budget.chunk batch) ≤ maxHits := by
          calc hits (next.budget.chunk batch) ≤ hits (2 * loop.budget.chunk batch) :=
                hhits.mono (HitBudget.chunk_doubled hlimit hnext hword)
            _ ≤ 2 * hits (loop.budget.chunk batch) := hhits.double _
            _ ≤ maxHits := by omega
        refine ⟨hregular, hrest, hdouble, Or.inr ?_⟩
        rw [hclean]
        have := hcountP (next.budget.chunk batch)
        omega
    · rintro ⟨other, ⟨-, hother⟩, hlost⟩
      obtain rfl := Option.some.inj (hreports.2.symm.trans hother)
      exact absurd hsize (not_le.mpr hlost)

/-- The first launch that does not overflow: none after it does. -/
theorem Sinking.recovering {loop : LaunchLoop} {event : LaunchEvent} {size : ℕ}
    (hhits : HitCounts hits)
    (hsinking : loop.Sinking batch) (hreports : loop.Reports event size)
    (hfits : hits size ≤ maxHits) :
    loop.Recovering batch hits := by
  have hfirst : loop.outstanding = size :: loop.inflight := by
    rw [outstanding, hreports.2]
    rfl
  have hfalling := hsinking.falling
  rw [hfirst, List.pairwise_cons] at hfalling
  have habove : loop.budget.chunk batch ≤ size :=
    hsinking.above size (by rw [hfirst]; exact List.mem_cons_self)
  refine ⟨hsinking.toRegular, ?_, (hhits.mono habove).trans hfits, Or.inr ?_⟩
  · rw [hfirst]
    intro later hlater
    rcases List.mem_cons.mp hlater with rfl | hbehind
    · exact hfits
    · exact (hhits.mono (hfalling.1 later hbehind)).trans hfits
  · rw [hsinking.clean, Nat.zero_add]
    exact List.countP_le_length.trans hsinking.toRegular.length_outstanding

/-- While the loop sinks, every launch that is reported with too many hits was at least as large as
the size in use. The report therefore halves that size, rounded up and not below one, whatever
launches are still in flight. -/
theorem Sinking.halved {loop : LaunchLoop} {size : ℕ} (hsinking : loop.Sinking batch)
    (hbatch : 1 ≤ batch)
    (hsize : size ∈ loop.outstanding) (hlost : maxHits < hits size) :
    (loop.budget.overflowed size (hits size)).1.limit =
        some (max ((loop.budget.chunk batch + 1) / 2) 1) ∧
      (loop.budget.overflowed size (hits size)).1.chunk batch =
        max ((loop.budget.chunk batch + 1) / 2) 1 := by
  have hsame : loop.budget.chunk size = loop.budget.chunk batch := by
    have habove := hsinking.above size hsize
    have hbelow := hsinking.below size hsize
    unfold HitBudget.chunk at habove ⊢
    cases hlimit : loop.budget.limit with
    | none =>
      rw [hlimit] at habove
      exact le_antisymm hbelow habove
    | some limit =>
      have hle := hsinking.limit limit hlimit
      rw [hlimit] at habove
      show min limit size = min limit batch
      have hcut : min limit batch ≤ size := habove
      omega
  have hlimit := (loop.budget.overflowed_of_lost size hlost).2
  rw [hsame] at hlimit
  refine ⟨hlimit, ?_⟩
  have hchunk := loop.budget.chunk_le batch
  rw [HitBudget.chunk, hlimit]
  show min (max ((loop.budget.chunk batch + 1) / 2) 1) batch = _
  omega

/-- Every step of a loop that sinks leaves it sinking, with no more launches left that can overflow
and with fewer after an overflow, or brings it to recover: a launch has been reported that fitted.
-/
theorem Sinking.step {loop next : LaunchLoop} {event : LaunchEvent} (hhits : HitCounts hits)
    (hbatch : 1 ≤ batch) (hword : batch < 2 ^ 32) (hsinking : loop.Sinking batch)
    (hstep : LaunchLoop.step batch hits loop event = some next) :
    next.Sinking batch ∧ next.potential batch ≤ loop.potential batch ∧
        ((∃ size, loop.Reports event size ∧ maxHits < hits size) →
          next.potential batch < loop.potential batch) ∨
      next.Recovering batch hits := by
  have hregular := hsinking.toRegular.step hstep
  have hone := hsinking.positive.one_le_chunk hbatch
  rcases step_cases hstep with
    ⟨rfl, -, hbudget, houtstanding, -⟩ | ⟨rfl, hbudget, houtstanding, -⟩ |
    ⟨size, hreports, houtstanding, hbudget, -⟩
  · rw [hsinking.toRegular.queued hbatch] at houtstanding
    refine Or.inl ⟨⟨hregular, hbudget ▸ hsinking.clean, hbudget ▸ hsinking.limit, ?_, ?_, ?_⟩, ?_,
      ?_⟩
    · rw [houtstanding, List.pairwise_append]
      refine ⟨hsinking.falling, List.pairwise_singleton _ _, fun old hold new hnew ↦ ?_⟩
      rw [List.mem_singleton.mp hnew]
      exact hsinking.above old hold
    · rw [houtstanding, hbudget]
      intro size hsize
      rcases List.mem_append.mp hsize with hold | hnew
      · exact hsinking.above size hold
      · rw [List.mem_singleton.mp hnew]
    · rw [houtstanding]
      intro size hsize
      rcases List.mem_append.mp hsize with hold | hnew
      · exact hsinking.below size hold
      · rw [List.mem_singleton.mp hnew]
        exact loop.budget.chunk_le batch
    · unfold potential
      rw [hbudget, houtstanding, List.countP_append, List.countP_singleton]
      split_ifs with hsmall hlarge
      · rw [decide_eq_true_eq] at hlarge
        omega
      · exact le_rfl
      · exact le_rfl
    · rintro ⟨_, ⟨hreport, -⟩, -⟩
      cases hreport
  · refine Or.inl ⟨⟨hregular, hbudget ▸ hsinking.clean, hbudget ▸ hsinking.limit,
      houtstanding ▸ hsinking.falling, ?_, houtstanding ▸ hsinking.below⟩, ?_, ?_⟩
    · rw [houtstanding, hbudget]
      exact hsinking.above
    · unfold potential
      rw [hbudget, houtstanding]
    · rintro ⟨_, ⟨hreport, -⟩, -⟩
      cases hreport
  · rcases le_or_gt (hits size) maxHits with hfits | hlost
    · exact Or.inr ((hsinking.recovering hhits hreports hfits).step hhits hbatch hword hstep).1
    have hmem : size ∈ loop.outstanding := by
      rw [houtstanding]
      exact List.mem_cons_self
    have hrest {later : ℕ} (hlater : later ∈ next.outstanding) : later ∈ loop.outstanding := by
      rw [houtstanding]
      exact List.mem_cons_of_mem _ hlater
    obtain ⟨hlimit, hchunk⟩ := hsinking.halved hbatch hmem hlost
    have hclean := (loop.budget.overflowed_of_lost size hlost).1
    rw [← hbudget] at hlimit hchunk hclean
    have hle := loop.budget.chunk_le batch
    have hlower : next.budget.chunk batch ≤ loop.budget.chunk batch := by
      rw [hchunk]
      omega
    have hfalls : next.potential batch < loop.potential batch := by
      have hlength := hsinking.toRegular.length_outstanding
      have hcount : next.outstanding.countP (1 < ·) ≤ queueDepth := by
        rw [houtstanding, List.length_cons] at hlength
        exact List.countP_le_length.trans (Nat.le_of_succ_le_succ hlength)
      have hdepth : queueDepth < 4 * 2 := by decide
      have hlarge : 1 < size := by
        have hself := hhits.le_self size
        have hroom : 1 < maxHits := by decide
        omega
      unfold potential
      rw [houtstanding, List.countP_cons, if_pos (decide_eq_true hlarge), hchunk]
      split_ifs <;> omega
    refine Or.inl ⟨⟨hregular, hclean, ?_, ?_, ?_, ?_⟩, hfalls.le, fun _ ↦ hfalls⟩
    · intro limit hsome
      obtain rfl := Option.some.inj (hlimit.symm.trans hsome)
      omega
    · have hfalling := hsinking.falling
      rw [houtstanding, List.pairwise_cons] at hfalling
      exact hfalling.2
    · exact fun later hlater ↦ hlower.trans (hsinking.above later (hrest hlater))
    · exact fun later hlater ↦ hsinking.below later (hrest hlater)

/-- A loop that has done nothing sinks, as far as anyone knows. -/
theorem sinking_start (batch : ℕ) : ({} : LaunchLoop).Sinking batch where
  positive := nofun
  depth := Nat.zero_le _
  clean := rfl
  limit := nofun
  falling := .nil
  above := nofun
  below := nofun

/-- The hit budget does not oscillate. Let the batch be a positive number of 32 bits, and the hits
of a launch grow with its size as hits do (`HitCounts`), but let them be anything beyond that. In
every endless run of the loop the size in use is between one and the batch and the limit never zero;
after a launch that did not overflow the hit buffer none does; and only finitely many launches
overflow at all. -/
theorem hitBudget_recovers (hhits : HitCounts hits) (hbatch : 1 ≤ batch) (hword : batch < 2 ^ 32)
    (run : EndlessRun (LaunchLoop.step batch hits) {}) :
    (∀ n, 1 ≤ (run.state n).budget.chunk batch ∧ (run.state n).budget.chunk batch ≤ batch ∧
      (run.state n).budget.limit ≠ some 0) ∧
    (∀ n later first second, (run.state n).Reports (run.event n) first → hits first ≤ maxHits →
      n < later → (run.state later).Reports (run.event later) second → hits second ≤ maxHits) ∧
    {n | ∃ size, (run.state n).Reports (run.event n) size ∧ maxHits < hits size}.Finite := by
  have hkeep : ∀ loop event next, LaunchLoop.step batch hits loop event = some next →
      loop.Sinking batch ∨ loop.Recovering batch hits →
      next.Sinking batch ∨ next.Recovering batch hits := by
    intro loop event next hstep hphase
    rcases hphase with hsinking | hrecovering
    · rcases hsinking.step hhits hbatch hword hstep with hnext | hnext
      · exact Or.inl hnext.1
      · exact Or.inr hnext
    · exact Or.inr (hrecovering.step hhits hbatch hword hstep).1
  have hphase := run.invariant hkeep (Or.inl (sinking_start batch))
  refine ⟨fun n ↦ ?_, ?_, ?_⟩
  · have hpositive : (run.state n).budget.Positive := by
      rcases hphase n with hsinking | hrecovering
      · exact hsinking.positive
      · exact hrecovering.positive
    refine ⟨hpositive.one_le_chunk hbatch, (run.state n).budget.chunk_le batch, fun hzero ↦ ?_⟩
    exact absurd (hpositive 0 hzero) (by decide)
  · intro n later first second hfirst hfits hlater hsecond
    have hrecovering : (run.state n).Recovering batch hits := by
      rcases hphase n with hsinking | hrecovering
      · exact hsinking.recovering hhits hfirst hfits
      · exact hrecovering
    have hstays : (run.state later).Recovering batch hits :=
      run.invariant_from (fun _ _ _ hstep hnow ↦ (hnow.step hhits hbatch hword hstep).1) hrecovering
        hlater.le
    by_contra hlost
    exact (hstays.step hhits hbatch hword (run.steps later)).2 ⟨second, hsecond, not_le.mp hlost⟩
  · exact run.finite_of_potential
      (fun _ _ _ hstep hsinking ↦ hsinking.step hhits hbatch hword hstep)
      (fun _ _ _ hstep hrecovering ↦ hrecovering.step hhits hbatch hword hstep)
        (sinking_start batch)

end Phases

/-! ### A run that overflows four times -/

section OneByOne

variable (batch : ℕ) (hits : ℕ → ℕ)

/-- The budget after so many launches, one at a time. -/
def budgetAfter : ℕ → HitBudget
  | 0 => {}
  | count + 1 =>
    let size := max ((budgetAfter count).chunk batch) 1
    ((budgetAfter count).overflowed size (hits size)).1

/-- Launches one at a time: queue, collect, report. -/
def oneByOneState (n : ℕ) : LaunchLoop :=
  let budget := budgetAfter batch hits (n / 3)
  let size := max (budget.chunk batch) 1
  if n % 3 = 0 then { budget } else if n % 3 = 1 then { budget, inflight := [size] }
  else { budget, collected := some size }

def oneByOne : EndlessRun (step batch hits) {} where
  state := oneByOneState batch hits
  event n := if n % 3 = 0 then .queue else if n % 3 = 1 then .collect else .report
  begins := rfl
  steps n := by
    have hcases : n % 3 = 0 ∨ n % 3 = 1 ∨ n % 3 = 2 := by omega
    unfold oneByOneState
    rcases hcases with hturn | hturn | hturn
    · have hnext : (n + 1) % 3 = 1 := by omega
      have hcount : (n + 1) / 3 = n / 3 := by omega
      rw [hturn, hnext, hcount]
      rfl
    · have hnext : (n + 1) % 3 = 2 := by omega
      have hcount : (n + 1) / 3 = n / 3 := by omega
      rw [hturn, hnext, hcount]
      rfl
    · have hnext : (n + 1) % 3 = 0 := by omega
      have hcount : (n + 1) / 3 = n / 3 + 1 := by omega
      rw [hturn, hnext, hcount]
      rfl

end OneByOne

/-- A batch of a thousand nonces of which every one is a hit: the first launch overflows, and only
finitely many do. -/
theorem hitBudget_recovers_of_thousand :
    ((oneByOne 1000 id).state 2).Reports ((oneByOne 1000 id).event 2) 1000 ∧
      (∀ n, 1 ≤ ((oneByOne 1000 id).state n).budget.chunk 1000) ∧
      {n | ∃ size, ((oneByOne 1000 id).state n).Reports ((oneByOne 1000 id).event n) size ∧
        maxHits < id size}.Finite := by
  have hhits : HitCounts id := ⟨monotone_id, fun _ ↦ le_rfl, fun _ ↦ le_rfl⟩
  obtain ⟨hsizes, -, hfinite⟩ := hitBudget_recovers hhits (by decide) (by decide) (oneByOne 1000 id)
  exact ⟨⟨rfl, rfl⟩, fun n ↦ (hsizes n).1, hfinite⟩

end LaunchLoop

end Bc3Miner.Mining
