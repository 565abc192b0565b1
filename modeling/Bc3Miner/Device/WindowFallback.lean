import Bc3Miner.Device.JobLoop

/-!
# What a window that fails costs the card

The job loop handles a BC3Hash job by making the switches its tuning asks for and by having the
kernel at the window wanted. A switch that fails takes the card back to 16, so after the switches
the card is where it is wanted or wanted at 16 (`Card.Settled.makeSwitches`). A card that was opened
again is the one case left: its tuning may want a bigger window, and a load that fails there leaves
it without a kernel. Every BC3Hash job is mined exactly when no such load fails.

`run_mined_iff` is for every run of the job loop in an environment whose start window always loads.
`reopenedRun_sits_out` is a card that was opened again after a bigger window had been chosen, on
which that window does not load: it sits out a BC3Hash job that it could mine at 16.
-/

set_option autoImplicit false
set_option relaxedAutoImplicit false

namespace Bc3Miner.Device

open Foundations Consensus

namespace Card

variable {env : Env}

/-! ### Making the switches -/

/-- A card between two jobs, so far without a load that failed for good. -/
structure Settled (env : Env) (card : Card) : Prop where
  suits : Suits card.tune card.window
  unfailed : card.failed = none
  unreferenced : env.cpuUnavailable.isSome = true →
    card.window = none ∧ card.tune.switchTo = none

theorem Settled.opened (env : Env) (slot : ℕ) : Settled env (Card.opened slot) :=
  ⟨.new slot, rfl, fun _ ↦ ⟨rfl, rfl⟩⟩

/-- Making a switch, or finding the card there: what it answers is where the kernel is. -/
theorem switchOnce_eq (env : Env) (card : Card) (window : ℕ) :
    ∃ ok attempts slotBc3, card.switchOnce env window =
      { card with
        tune := ({ card.tune with switchTo := none }.switched window ok).1
        window := if ok then some window else none
        attempts := attempts
        slotBc3 := slotBc3 } := by
  unfold switchOnce switchBc3
  by_cases hthere : card.window = some window
  · simp only [if_pos hthere]
    exact ⟨true, card.attempts, card.slotBc3, by simp [← hthere]⟩
  · simp only [if_neg hthere, load]
    exact ⟨_, _, _, rfl⟩

theorem rounds_of_tuner {card : Card} {tuner : Tuner} (htuner : card.tune.tuner = some tuner) :
    card.rounds = tuner.fallback.length + 1 := by
  simp only [rounds, htuner]

theorem rounds_pos (card : Card) : 0 < card.rounds := by
  unfold rounds
  split <;> omega

/-- A switch that leaves another one to be made leaves fewer rounds. -/
theorem rounds_switched {tune : Tune} {tuner : Tuner} (htuner : tune.tuner = some tuner)
    {window smaller : ℕ} {ok : Bool}
    (hpending : ({ tune with switchTo := none }.switched window ok).1.switchTo = some smaller)
    {next : Tuner}
    (hnext : ({ tune with switchTo := none }.switched window ok).1.tuner = some next) :
    next.fallback.length + 1 = tuner.fallback.length := by
  simp only [Tune.switched, htuner] at hpending hnext
  rcases Tune.act_cases _ (tuner.switched window ok).2 with
    ⟨-, hswitch, -⟩ | ⟨asked, hanswer, -, -⟩
  · rw [hswitch] at hpending
    cases hpending
  · obtain rfl := Option.some.inj (Tune.act_tuner hnext)
    exact (Tuner.switched_switch hanswer).2

/-- A card that is settled and has a switch to make is settled after it, whether it worked or not.
Unless another switch follows, the card is then at the window it is wanted at, or it is wanted at
the start window; and if one follows, there is a round less to go. -/
theorem Settled.switchOnce {card : Card} (hsettled : card.Settled env) {window : ℕ}
    (hswitch : card.tune.switchTo = some window) :
    (card.switchOnce env window).Settled env ∧
      ((card.switchOnce env window).tune.switchTo = none →
        (card.switchOnce env window).window = some (card.switchOnce env window).tune.want ∨
          (card.switchOnce env window).tune.want = startWindow) ∧
      ((card.switchOnce env window).tune.switchTo ≠ none →
        (card.switchOnce env window).rounds + 1 ≤ card.rounds) := by
  obtain ⟨ok, attempts, slotBc3, hcard⟩ := switchOnce_eq env card window
  obtain ⟨hsuits, hstart⟩ := hsettled.suits.switched hswitch ok
  have hreferenced : env.cpuUnavailable.isSome = false := by
    rw [Bool.eq_false_iff]
    intro hunavailable
    rw [(hsettled.unreferenced hunavailable).2] at hswitch
    cases hswitch
  rw [hcard]
  refine ⟨⟨hsuits, hsettled.unfailed, fun hunavailable ↦ ?_⟩, fun hnone ↦ ?_, fun hpending ↦ ?_⟩
  · rw [hreferenced] at hunavailable
    cases hunavailable
  · cases ok with
    | true =>
      rcases hsuits.there hnone with hthere | hlost
      · exact .inl hthere
      · cases hlost
    | false => exact .inr (hstart rfl hnone)
  · obtain ⟨smaller, hsmaller⟩ := Option.ne_none_iff_exists'.mp hpending
    obtain ⟨tuner, htuner⟩ := hsettled.suits.tuner_of_pending hswitch
    obtain ⟨next, hnext⟩ := hsuits.tuner_of_pending hsmaller
    have hfewer := rounds_switched htuner hsmaller hnext
    rw [rounds_of_tuner htuner, ← hfewer]
    exact (congrArg (· + 1) (rounds_of_tuner hnext)).le

/-- Nothing to make, nothing changed. -/
theorem makeSwitches_of_none {card : Card} (hswitch : card.tune.switchTo = none) (fuel : ℕ) :
    card.makeSwitches env fuel = card := by
  cases fuel with
  | zero => rfl
  | succ fuel => simp only [Card.makeSwitches, hswitch]

/-- The rounds are enough: the switches are made, the card is settled, and if there was one to make
the card is where it is wanted, or wanted at the start window. -/
theorem Settled.makeSwitches {fuel : ℕ} {card : Card} (hsettled : card.Settled env)
    (hfuel : card.rounds ≤ fuel) :
    (card.makeSwitches env fuel).Settled env ∧
      (card.makeSwitches env fuel).tune.switchTo = none ∧
      (card.tune.switchTo ≠ none →
        (card.makeSwitches env fuel).window = some (card.makeSwitches env fuel).tune.want ∨
          (card.makeSwitches env fuel).tune.want = startWindow) := by
  induction fuel generalizing card with
  | zero =>
    have hpos := card.rounds_pos
    omega
  | succ fuel ih =>
    cases hswitch : card.tune.switchTo with
    | none =>
      rw [makeSwitches_of_none hswitch]
      exact ⟨hsettled, hswitch, fun hpending ↦ absurd rfl hpending⟩
    | some window =>
      have hnext : card.makeSwitches env (fuel + 1) =
          (card.switchOnce env window).makeSwitches env fuel := by
        simp only [Card.makeSwitches, hswitch]
      obtain ⟨honce, hdone, hrounds⟩ := hsettled.switchOnce hswitch
      rw [hnext]
      cases hpending : (card.switchOnce env window).tune.switchTo with
      | none =>
        rw [makeSwitches_of_none hpending]
        exact ⟨honce, hpending, fun _ ↦ hdone hpending⟩
      | some smaller =>
        have hsome : (card.switchOnce env window).tune.switchTo ≠ none := by simp [hpending]
        have hfewer := hrounds hsome
        obtain ⟨hfinal, hmade, hwhere⟩ := ih honce (by omega)
        exact ⟨hfinal, hmade, fun _ ↦ hwhere hsome⟩

/-- Making the switches touches neither the jobs so far nor whether the worker runs. -/
theorem makeSwitches_frame (fuel : ℕ) (card : Card) :
    (card.makeSwitches env fuel).outcomes = card.outcomes ∧
      (card.makeSwitches env fuel).reopens = card.reopens := by
  induction fuel generalizing card with
  | zero => exact ⟨rfl, rfl⟩
  | succ fuel ih =>
    cases hswitch : card.tune.switchTo with
    | none => rw [makeSwitches_of_none hswitch]; exact ⟨rfl, rfl⟩
    | some window =>
      obtain ⟨ok, attempts, slotBc3, hcard⟩ := switchOnce_eq env card window
      obtain ⟨houtcomes, hreopens⟩ := ih (card.switchOnce env window)
      simp only [Card.makeSwitches, hswitch]
      rw [houtcomes, hreopens, hcard]
      exact ⟨rfl, rfl⟩

/-! ### Having the kernel ready -/

/-- The condition under which the kernel is ready for a BC3Hash job: the CPU reference can be used,
and if the card has no kernel and no switch to make, as when it was opened again, and its tuning
wants another window than the start window, then that window loads. -/
def Loads (env : Env) (card : Card) (met : Met) : Prop :=
  met.algo = .bc3Hash → env.cpuUnavailable = none ∧
    (card.window = none → card.tune.switchTo = none → card.tune.want ≠ startWindow →
      env.loads card.attempts card.tune.want = true)

/-- Let a card be settled with no switch to make. Preparing the window it is wanted at gives it a
kernel exactly if it stands there already, or if the CPU reference can be used and the window loads;
and then it is settled again. -/
theorem Settled.prepareBc3 {card : Card} (hsettled : card.Settled env)
    (hswitch : card.tune.switchTo = none) :
    ((card.prepareBc3 env card.tune.want).window.isSome = true ↔
      card.window = some card.tune.want ∨
        env.cpuUnavailable = none ∧ env.loads card.attempts card.tune.want = true) ∧
    ((card.prepareBc3 env card.tune.want).window.isSome = true →
      (card.prepareBc3 env card.tune.want).Settled env) := by
  obtain ⟨hsuits, hunfailed, hunreferenced⟩ := hsettled
  by_cases hthere : card.window = some card.tune.want
  · have hready : card.prepareBc3 env card.tune.want = { card with slotBc3 := card.tune.want } := by
      simp only [Card.prepareBc3, if_pos hthere]
    rw [hready]
    exact ⟨by simp [hthere], fun _ ↦ ⟨hsuits, hunfailed, hunreferenced⟩⟩
  · have hlost : card.window = none := (hsuits.there hswitch).resolve_left hthere
    have hfresh : ¬ card.failed = some card.tune.want := by simp [hunfailed]
    cases hreference : env.cpuUnavailable with
    | some why =>
      simp [Card.prepareBc3, hfresh, hreference, hlost]
    | none =>
      cases hloads : env.loads card.attempts card.tune.want with
      | false => simp [Card.prepareBc3, hthere, hfresh, hreference, hloads, load]
      | true =>
        simp only [Card.prepareBc3, if_neg hthere, if_neg hfresh, hreference, load, hloads]
        exact ⟨by simp, fun _ ↦ ⟨hsuits.loaded hswitch, rfl, by simp [hreference]⟩⟩

/-- On a settled card, with a start window that always loads, the condition on a BC3Hash job says
what is left to load after the switches: the card stands at the window it is wanted at, or the CPU
reference can be used and that window loads. -/
theorem Settled.loads_iff {card : Card} (hsettled : card.Settled env)
    (hstart : ∀ attempt, env.loads attempt startWindow = true) {met : Met}
    (halgo : met.algo = .bc3Hash) :
    (card.makeSwitches env card.rounds).window =
        some (card.makeSwitches env card.rounds).tune.want ∨
      env.cpuUnavailable = none ∧
        env.loads (card.makeSwitches env card.rounds).attempts
          (card.makeSwitches env card.rounds).tune.want = true ↔
    Loads env card met := by
  obtain ⟨hmadeSettled, hmade, hwhere⟩ := hsettled.makeSwitches le_rfl
  cases hreference : env.cpuUnavailable with
  | some why =>
    have hlost := (hmadeSettled.unreferenced (by simp [hreference])).1
    simp [Loads, halgo, hreference, hlost]
  | none =>
    by_cases hswitch : card.tune.switchTo = none
    · rw [makeSwitches_of_none hswitch]
      rcases hsettled.suits.there hswitch with hthere | hlost
      · simp [Loads, hreference, hthere]
      · by_cases hwant : card.tune.want = startWindow
        · simp [Loads, hreference, hwant, hstart]
        · simp [Loads, halgo, hreference, hlost, hswitch, hwant]
    · rcases hwhere hswitch with hthere | hwant
      · simp [Loads, hreference, hthere, hswitch]
      · simp [Loads, hreference, hwant, hswitch, hstart]

/-- Let a card be settled and the start window load whenever it is tried. Once a BC3Hash job has
been prepared, the card has a kernel exactly if the condition `Loads` holds of the job, and then it
is settled again. -/
theorem Settled.prepare {card : Card} (hsettled : card.Settled env)
    (hstart : ∀ attempt, env.loads attempt startWindow = true) {met : Met}
    (halgo : met.algo = .bc3Hash) :
    ((card.prepare env met.algo met.around).window.isSome = true ↔ Loads env card met) ∧
      ((card.prepare env met.algo met.around).window.isSome = true →
        (card.prepare env met.algo met.around).Settled env) := by
  obtain ⟨hmadeSettled, hmade, -⟩ := hsettled.makeSwitches le_rfl
  obtain ⟨hready, hkept⟩ := hmadeSettled.prepareBc3 hmade
  have hprepare : card.prepare env met.algo met.around =
      { (card.makeSwitches env card.rounds).prepareBc3 env
          (card.makeSwitches env card.rounds).tune.want with
        tune := (Tune.begin ((card.makeSwitches env card.rounds).prepareBc3 env
            (card.makeSwitches env card.rounds).tune.want).tune
          { met.around with
            byHand := false
            cardWindow := ((card.makeSwitches env card.rounds).prepareBc3 env
              (card.makeSwitches env card.rounds).tune.want).window }).1 } := by
    simp [Card.prepare, halgo, kernelSupports, Tune.wanted]
  rw [hprepare]
  refine ⟨hready.trans (hsettled.loads_iff hstart halgo), fun hsome ↦ ?_⟩
  obtain ⟨hsuits, hunfailed, hunreferenced⟩ := hkept hsome
  refine ⟨hsuits.begin _, hunfailed, fun hunavailable ↦ ?_⟩
  rw [(hunreferenced hunavailable).1] at hsome
  cases hsome

/-! ### Jobs mined and jobs sat out -/

/-- A BC3Hash job was handled as it should be: the card has a kernel and mines it. -/
def Mines (outcome : Outcome) : Prop :=
  outcome.algo = .bc3Hash → outcome.window.isSome = true ∧ outcome.mined = true

/-- What a turn of the loop records. -/
def outcomeOf (env : Env) (card : Card) (met : Met) : Outcome :=
  ⟨met.algo, (card.prepare env met.algo met.around).window,
    (card.prepare env met.algo met.around).supports env met.algo⟩

theorem supports_iff (card : Card) (algo : PowAlgo) :
    card.supports env algo = true ↔ algo = .bc3Hash ∧ card.window.isSome = true := by
  cases algo <;> simp [supports, kernelSupports, PowAlgo.hashFn]

/-- Preparing the kernel records no outcome. -/
theorem prepareBc3_outcomes (card : Card) (want : ℕ) :
    (card.prepareBc3 env want).outcomes = card.outcomes := by
  unfold prepareBc3
  split_ifs
  · rfl
  · rfl
  · rfl
  · simp only [load]
    split_ifs <;> rfl

/-- Preparing for a job records no outcome. -/
theorem prepare_outcomes (card : Card) (algo : PowAlgo) (around : Surroundings) :
    (card.prepare env algo around).outcomes = card.outcomes := by
  unfold prepare
  split_ifs
  · exact (prepareBc3_outcomes _ _).trans (makeSwitches_frame _ card).1
  · rfl

theorem launched_outcomes (card : Card) (returned : List Returned) :
    (card.launched returned).outcomes = card.outcomes := by
  unfold launched
  split <;> rfl

/-- Finishing a job records no outcome. -/
theorem finish_outcomes (card : Card) (ending : Ending) :
    (card.finish env ending).outcomes = card.outcomes := by
  cases ending with
  | changed => rfl
  | exhausted => rfl
  | gone opensAgain =>
    simp only [finish, reopen]
    split_ifs <;> rfl

theorem mineJob_outcomes (card : Card) (met : Met) :
    (card.mineJob env met).outcomes = card.outcomes :=
  (finish_outcomes _ _).trans (launched_outcomes card met.returned)

/-- A turn of the loop records one job. -/
theorem step_outcomes {card next : Card} {met : Met} (hstep : card.step env met = some next) :
    next.outcomes = outcomeOf env card met :: card.outcomes := by
  have hhandled : (card.handle env met).outcomes = outcomeOf env card met :: card.outcomes := by
    simp only [handle, prepare_outcomes, outcomeOf]
  simp only [step] at hstep
  split_ifs at hstep with hstopped hmined
  · obtain rfl := Option.some.inj hstep
    exact (mineJob_outcomes _ met).trans hhandled
  · obtain rfl := Option.some.inj hstep
    exact hhandled

/-- What was recorded stays recorded. -/
theorem outcomes_suffix {card final : Card} {mets : List Met}
    (hrun : PartialMachine.run (step env) card mets = some final) :
    card.outcomes <:+ final.outcomes := by
  induction mets generalizing card with
  | nil =>
    obtain rfl := Option.some.inj hrun
    exact List.suffix_rfl
  | cons met rest ih =>
    obtain ⟨next, hstep, hrest⟩ := (PartialMachine.run_cons_eq_some _).mp hrun
    have hone : card.outcomes <:+ next.outcomes := by
      rw [step_outcomes hstep]
      exact List.suffix_cons _ _
    exact hone.trans (ih hrest)

/-- What has been launched and returned does not unsettle a card. -/
theorem Settled.launched {card : Card} (hsettled : card.Settled env) (returned : List Returned) :
    (card.launched returned).Settled env := by
  cases hwindow : card.window with
  | none =>
    have hsame : card.launched returned = card := by simp only [Card.launched, hwindow]
    rw [hsame]
    exact hsettled
  | some window =>
    have hreferenced : env.cpuUnavailable.isSome = true → False := fun hunavailable ↦ by
      rw [(hsettled.unreferenced hunavailable).1] at hwindow
      cases hwindow
    have hsuits : ∀ tune, Suits tune (some window) → Suits (returned.foldl
        (fun tune launch ↦ (tune.launched launch.compiling window launch.hashes launch.busy).1)
        tune) (some window) := by
      induction returned with
      | nil => exact fun _ hsuits ↦ hsuits
      | cons launch rest ih =>
        exact fun tune hsuits ↦ ih _ (hsuits.launched launch.compiling launch.hashes launch.busy)
    simp only [Card.launched, hwindow]
    have hstart := hsettled.suits
    rw [hwindow] at hstart
    exact ⟨hsuits _ hstart, hsettled.unfailed, fun hunavailable ↦ (hreferenced hunavailable).elim⟩

/-- However a job ends, a settled card stays settled, if the reference for its self-test is
available. -/
theorem Settled.finish {card : Card} (hsettled : card.Settled env)
    (hreference : env.cpuUnavailable = none) (ending : Ending) :
    (card.finish env ending).Settled env := by
  have hnever : env.cpuUnavailable.isSome = true → False := by simp [hreference]
  cases ending with
  | changed => exact hsettled
  | exhausted => exact hsettled
  | gone opensAgain =>
    simp only [Card.finish, reopen]
    split_ifs
    · exact ⟨hsettled.suits, hsettled.unfailed, fun hunavailable ↦ (hnever hunavailable).elim⟩
    · exact ⟨hsettled.suits.lost, rfl, fun hunavailable ↦ (hnever hunavailable).elim⟩
    · exact ⟨hsettled.suits.lost, hsettled.unfailed, fun hunavailable ↦ (hnever hunavailable).elim⟩

/-- Mining a job keeps the card settled. -/
theorem Settled.mineJob {card : Card} (hsettled : card.Settled env)
    (hreference : env.cpuUnavailable = none) (met : Met) : (card.mineJob env met).Settled env := by
  obtain ⟨hsuits, hunfailed, hunreferenced⟩ := hsettled.launched met.returned
  have hspent : Settled env { card.launched met.returned with
      reopens := if met.returned = [] then (card.launched met.returned).reopens else 0 } :=
    ⟨hsuits, hunfailed, hunreferenced⟩
  exact hspent.finish hreference met.ending

/-- One turn of the loop from a settled card: the job is handled well exactly under the condition,
and then the card is settled for the next. -/
theorem Settled.step {card next : Card} (hsettled : card.Settled env)
    (hstart : ∀ attempt, env.loads attempt startWindow = true) {met : Met}
    (hstep : card.step env met = some next) :
    (Mines (outcomeOf env card met) ↔ Loads env card met) ∧
      (Mines (outcomeOf env card met) → next.Settled env) := by
  have hnext : (if (card.handle env met).supports env met.algo = true then
      (card.handle env met).mineJob env met else card.handle env met) = next := by
    unfold Card.step at hstep
    split at hstep
    · cases hstep
    · exact Option.some.inj hstep
  by_cases halgo : met.algo = .bc3Hash
  · obtain ⟨hready, hkept⟩ := hsettled.prepare hstart halgo
    have hmines : Mines (outcomeOf env card met) ↔
        (card.prepare env met.algo met.around).window.isSome = true := by
      simp [Mines, outcomeOf, supports_iff, halgo]
    refine ⟨hmines.trans hready, fun hgood ↦ ?_⟩
    have hsome := hmines.mp hgood
    obtain ⟨hsuits, hunfailed, hunreferenced⟩ := hkept hsome
    have hhandled : (card.handle env met).Settled env := ⟨hsuits, hunfailed, hunreferenced⟩
    have hsupports : (card.handle env met).supports env met.algo = true :=
      (supports_iff _ _).mpr ⟨halgo, hsome⟩
    rw [← hnext, if_pos hsupports]
    exact hhandled.mineJob (hready.mp hsome halgo).1 met
  · have hprepare : card.prepare env met.algo met.around = card := by
      simp [Card.prepare, halgo]
    have hidle : (card.handle env met).supports env met.algo = false := by
      rw [Bool.eq_false_iff, ne_eq, supports_iff]
      exact fun hboth ↦ halgo hboth.1
    obtain ⟨hsuits, hunfailed, hunreferenced⟩ := hsettled
    refine ⟨⟨fun _ hbc3 ↦ absurd hbc3 halgo, fun _ hbc3 ↦ absurd hbc3 halgo⟩, fun _ ↦ ?_⟩
    rw [← hnext, if_neg (by simp [hidle])]
    simp only [handle, hprepare]
    exact ⟨hsuits, hunfailed, hunreferenced⟩

/-- Along a run from a settled card, every BC3Hash job is mined exactly when the condition holds at
every turn. -/
theorem Settled.run {card final : Card} (hsettled : card.Settled env)
    (hstart : ∀ attempt, env.loads attempt startWindow = true) {mets : List Met}
    (hrun : PartialMachine.run (Card.step env) card mets = some final) :
    (∀ outcome ∈ final.outcomes, Mines outcome) ↔
      (∀ outcome ∈ card.outcomes, Mines outcome) ∧
        PartialMachine.EveryStep (Card.step env) (Loads env) card mets := by
  induction mets generalizing card with
  | nil =>
    obtain rfl := Option.some.inj hrun
    simp [PartialMachine.EveryStep]
  | cons met rest ih =>
    obtain ⟨next, hstep, hrest⟩ := (PartialMachine.run_cons_eq_some _).mp hrun
    obtain ⟨hmines, hkept⟩ := hsettled.step hstart hstep
    have houtcomes := step_outcomes hstep
    constructor
    · intro hall
      have hgood : Mines (outcomeOf env card met) := by
        refine hall _ ((outcomes_suffix hrest).subset ?_)
        rw [houtcomes]
        exact List.mem_cons_self
      obtain ⟨hbefore, hafter⟩ := (ih (hkept hgood) hrest).mp hall
      rw [houtcomes] at hbefore
      refine ⟨fun outcome hmem ↦ hbefore outcome (List.mem_cons_of_mem _ hmem), hmines.mp hgood, ?_⟩
      intro next' hstep'
      rw [Option.some.inj (hstep'.symm.trans hstep)]
      exact hafter
    · rintro ⟨hbefore, hloads, hafter⟩
      have hgood := hmines.mpr hloads
      refine (ih (hkept hgood) hrest).mpr ⟨?_, hafter next hstep⟩
      rw [houtcomes]
      intro outcome hmem
      rcases List.mem_cons.mp hmem with rfl | hearlier
      · exact hgood
      · exact hbefore outcome hearlier

/-- What a window that fails costs a card, over every run of the job loop. Assume that the start
window loads whenever it is tried. Then every BC3Hash job is mined, with a kernel ready for it,
exactly when the CPU reference can be used and no window that the tuning wants fails to load on a
card without a kernel (`Loads`). Switches may fail as often as they like. -/
theorem run_mined_iff (env : Env) (hstart : ∀ attempt, env.loads attempt startWindow = true)
    {slot : ℕ} {mets : List Met} {final : Card}
    (hrun : PartialMachine.run (Card.step env) (Card.opened slot) mets = some final) :
    (∀ outcome ∈ final.outcomes, Mines outcome) ↔
      PartialMachine.EveryStep (Card.step env) (Loads env) (Card.opened slot) mets := by
  have hiff := (Settled.opened env slot).run hstart hrun
  simpa [Card.opened] using hiff

/-! ### A card that is opened again -/

/-- What there is to read on a card that chose 20 before. -/
def chose20 : Surroundings where
  byHand := false
  cardWindow := none
  name := "NVIDIA GeForce RTX 4090"
  memory := some (2 ^ 34, 2 ^ 34)
  driver := none
  recallChoice := fun _ ↦ some (Tuner.unmeasured 20 20)
  compilesAhead := false

/-- A BC3Hash job whose launches come back, and which ends as given. -/
def bc3Job (ending : Ending) : Met := ⟨.bc3Hash, chose20, [⟨false, 10 ^ 6, 10 ^ 9⟩], ending⟩

/-- Mining at 16, at 20 after the switch, and on when the device was opened again. -/
def reopenedRun : List Met := [bc3Job .changed, bc3Job (.gone true), bc3Job .changed]

/-- Window 20 loads at the switch; at the third load, after the reopening, as `again` says. -/
def envOf (again : Bool) : Env where
  cpuUnavailable := none
  bc3hash := fun _ ↦ Vector.replicate 32 0
  loads := fun attempt window ↦ window == startWindow || attempt == 1 || again

/-- A card that loads window 20 again after it was opened again mines all three jobs. -/
theorem reopenedRun_loads_again :
    ∃ final, PartialMachine.run (Card.step (envOf true)) (Card.opened 0) reopenedRun = some final ∧
      final.outcomes.length = 3 ∧ ∀ outcome ∈ final.outcomes, Mines outcome := by
  have hran : (PartialMachine.run (Card.step (envOf true)) (Card.opened 0) reopenedRun).map
      (fun final ↦ final.outcomes.length) = some 3 := by
    decide +kernel
  obtain ⟨final, hrun, hlength⟩ := Option.map_eq_some_iff.mp hran
  have hloads : ∀ attempt window, (envOf true).loads attempt window = true := by simp [envOf]
  refine ⟨final, hrun, hlength, ?_⟩
  refine (run_mined_iff (envOf true) (fun attempt ↦ hloads attempt startWindow) hrun).mpr ?_
  exact .of_forall (fun card _ _ ↦ ⟨rfl, fun _ _ _ ↦ hloads card.attempts card.tune.want⟩) _ _

/-- A card that does not is left without a kernel, and sits the third job out, though window 16
would load. -/
theorem reopenedRun_sits_out :
    (∀ attempt, (envOf false).loads attempt startWindow = true) ∧
    ∃ final, PartialMachine.run (Card.step (envOf false)) (Card.opened 0) reopenedRun = some final ∧
      ⟨.bc3Hash, none, false⟩ ∈ final.outcomes ∧ ¬ Mines ⟨.bc3Hash, none, false⟩ := by
  have hran : (PartialMachine.run (Card.step (envOf false)) (Card.opened 0) reopenedRun).map
      Card.outcomes = some
        [⟨.bc3Hash, none, false⟩, ⟨.bc3Hash, some 20, true⟩, ⟨.bc3Hash, some 16, true⟩] := by
    decide +kernel
  obtain ⟨final, hrun, houtcomes⟩ := Option.map_eq_some_iff.mp hran
  refine ⟨fun attempt ↦ by simp [envOf], final, hrun, ?_, ?_⟩
  · rw [houtcomes]
    exact List.mem_cons_self
  · intro hmines
    cases (hmines rfl).2

end Card

end Bc3Miner.Device
