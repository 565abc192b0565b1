import Bc3Miner.Sharing.HandOver
import Mathlib.Data.Fintype.Card

/-!
# Claims, counts and the current proof of work

What holds of a hand-over apart from the stand-ins: a GPU claims only BC3Hash, its claim is counted
unless its worker is between the mask and the count, the job in the slot is of the current proof of
work unless a job is about to be posted, and the stall check sets aside only cards that claim
BC3Hash (`HandOver.Accounted`).

`Accounted.step` is that every step keeps this, party by party, and `Accounted.capable_eq` reads the
count off the claims where no worker is on its way.
-/

set_option autoImplicit false
set_option relaxedAutoImplicit false

namespace Bc3Miner.Sharing

open Foundations Consensus Mining

/-! ### One card -/

/-- A card's claim as `gpu_capable` counts it: the mask, or what it was before while the count is
still to follow. -/
def counts (claims : Claims) : ClaimState → Bool
  | .counting _ capable => !capable
  | _ => claims .bc3Hash

/-- Where a worker is in `set`, its own record of the claim and the card's mask agree. -/
def Staged (held claims : Claims) : ClaimState → Prop
  | .idle | .nudging => claims .bc3Hash = held .bc3Hash
  | .asking algo => algo = .bc3Hash ∧ claims .bc3Hash = held .bc3Hash
  | .claiming algo => algo = .bc3Hash ∧ held .bc3Hash = true ∧ claims .bc3Hash = false
  | .masking algo capable =>
    algo = .bc3Hash ∧ held .bc3Hash = capable ∧ claims .bc3Hash = !capable
  | .counting algo capable => algo = .bc3Hash ∧ held .bc3Hash = capable ∧ claims .bc3Hash = capable

/-- A card whose worker claims nothing but BC3Hash. -/
structure SlotOk (held claims : Claims) (claim : ClaimState) : Prop where
  heldOnly : ∀ algo, held algo = true → algo = .bc3Hash
  claimsOnly : ∀ algo, claims algo = true → algo = .bc3Hash
  staged : Staged held claims claim

/-- What the stall check holds in its hands: claims are on BC3Hash, and so is what it sets aside. -/
def StallOk : StallState → Prop
  | .readingStamp _ _ claims | .readingStalled _ _ claims _ | .restoring _ _ claims =>
    ∀ algo, claims algo = true → algo = .bc3Hash
  | .readingClaimedAt scan _ _ | .settingAside scan _ _ => scan.algo = some .bc3Hash
  | _ => True

namespace HandOver

variable {gpus : ℕ} {StandIn : Type*}

/-- How many claims on BC3Hash there are by the masks. -/
def claimed (state : HandOver gpus StandIn) : ℕ :=
  (Finset.univ.filter fun slot ↦ state.claims slot .bc3Hash = true).card

/-- What every step keeps, apart from the stand-ins. -/
structure Accounted [DecidableEq StandIn] (state : HandOver gpus StandIn) : Prop where
  board : state.board.Coherent
  exclusive : state.publish ≠ .idle → state.board.stratum = .idle
  posting : ∀ job, state.publish = .posting job → state.currentAlgo = some job.algo
  posted : (∀ job, state.publish ≠ .posting job) →
    ∀ job, state.board.slot = some job → state.currentAlgo = some job.algo
  slots : ∀ slot, SlotOk (state.held slot) (state.claims slot) (state.claim slot)
  counted : state.capable .bc3Hash =
    (Finset.univ.filter fun slot ↦ counts (state.claims slot) (state.claim slot) = true).card
  stall : StallOk state.stall

variable [DecidableEq StandIn]

/-- At the start there are no claims to account for. -/
theorem Accounted.start : (HandOver.start : HandOver gpus StandIn).Accounted where
  board := .start
  exclusive := fun hpublish ↦ absurd rfl hpublish
  posting := fun _ hposting ↦ nomatch hposting
  posted := fun _ _ hslot ↦ nomatch hslot
  slots := fun _ ↦ ⟨fun _ hheld ↦ (nomatch hheld), fun _ hclaims ↦ (nomatch hclaims), rfl⟩
  counted := by simp [HandOver.start, counts]
  stall := trivial

/-- With no worker between the mask and the count, the count is the number of claims. -/
theorem Accounted.capable_eq {state : HandOver gpus StandIn} (haccounted : state.Accounted)
    (hidle : ∀ slot, state.claim slot = .idle) : state.capable .bc3Hash = state.claimed := by
  rw [haccounted.counted, claimed]
  simp only [hidle, counts]

/-- A step of the board by a thread that nudges or waits changes nothing else that is accounted
for. -/
theorem Accounted.byThread {state : HandOver gpus StandIn} (haccounted : state.Accounted)
    {thread : Party gpus StandIn} {event : BoardEvent MinerJob (Party gpus StandIn)}
    (hthread : Board.ByThread thread event) {board : Board MinerJob (Party gpus StandIn)}
    (hstep : state.board.step event = some board) :
    Accounted { state with board := board } := by
  obtain ⟨hslot, hstratum⟩ := hthread.step_frame hstep
  refine ⟨haccounted.board.step hstep, ?_, haccounted.posting, ?_, haccounted.slots,
    haccounted.counted, haccounted.stall⟩
  · intro hpublish
    exact hstratum.trans (haccounted.exclusive hpublish)
  · intro hposting job hjob
    exact haccounted.posted hposting job (hslot.symm.trans hjob)

/-- A step of the stall check outside the board. -/
theorem Accounted.withStall {state : HandOver gpus StandIn} (haccounted : state.Accounted)
    {stall : StallState} (hstall : StallOk stall) (stalled : Fin gpus → ℕ) :
    Accounted { state with stall := stall, stalled := stalled } :=
  ⟨haccounted.board, haccounted.exclusive, haccounted.posting, haccounted.posted, haccounted.slots,
    haccounted.counted, hstall⟩

/-- One card's worker moves: the others are as they were. -/
theorem slotOk_update {held claims : Fin gpus → Claims} {claim : Fin gpus → ClaimState}
    (hslots : ∀ slot, SlotOk (held slot) (claims slot) (claim slot)) (slot : Fin gpus)
    {heldNext claimsNext : Claims} {claimNext : ClaimState}
    (hnext : SlotOk heldNext claimsNext claimNext) (other : Fin gpus) :
    SlotOk (Function.update held slot heldNext other) (Function.update claims slot claimsNext other)
      (Function.update claim slot claimNext other) := by
  by_cases hother : other = slot
  · subst hother
    simpa only [Function.update_self] using hnext
  · simpa only [Function.update_of_ne hother] using hslots other

/-- A worker that moves on in a call of `set` keeps the accounts, if what it holds, what it claims
and where it is fit together, and if its claim counts for as much as before. -/
theorem Accounted.withSlot {state : HandOver gpus StandIn} (haccounted : state.Accounted)
    (slot : Fin gpus) {heldNext claimsNext : Claims} {claimNext : ClaimState}
    (hnext : SlotOk heldNext claimsNext claimNext)
    (hcounts : counts claimsNext claimNext = counts (state.claims slot) (state.claim slot))
    (claimedAt : Fin gpus → ℕ) :
    Accounted { state with
      held := Function.update state.held slot heldNext
      claims := Function.update state.claims slot claimsNext
      claim := Function.update state.claim slot claimNext
      claimedAt := claimedAt } := by
  refine ⟨haccounted.board, haccounted.exclusive, haccounted.posting, haccounted.posted,
    slotOk_update haccounted.slots slot hnext, ?_, haccounted.stall⟩
  have hsame : ∀ other, counts (Function.update state.claims slot claimsNext other)
      (Function.update state.claim slot claimNext other) =
        counts (state.claims other) (state.claim other) := by
    intro other
    by_cases hother : other = slot
    · subst hother
      simpa only [Function.update_self] using hcounts
    · simp only [Function.update_of_ne hother]
  simp only [hsame]
  exact haccounted.counted

/-! ### A GPU worker -/

/-- Setting a claim keeps the accounts. -/
theorem Accounted.set {state next : HandOver gpus StandIn} (haccounted : state.Accounted)
    {slot : Fin gpus} {algo : PowAlgo} {capable : Bool}
    (hstep : state.set slot algo capable = some next) : next.Accounted := by
  unfold HandOver.set at hstep
  by_cases hready : state.claim slot = .idle ∧ state.board.threads (.gpu slot) = .idle ∧
      (capable = true → kernelSupports algo = true)
  swap
  · rw [if_neg hready] at hstep
    cases hstep
  rw [if_pos hready] at hstep
  by_cases hheld : state.held slot algo = capable
  · rw [if_pos hheld] at hstep
    obtain rfl := Option.some.inj hstep
    exact haccounted
  · rw [if_neg hheld] at hstep
    obtain rfl := Option.some.inj hstep
    obtain ⟨hidle, -, hkernel⟩ := hready
    obtain ⟨hheldOnly, hclaimsOnly, hstaged⟩ := haccounted.slots slot
    rw [hidle] at hstaged
    have halgo : algo = .bc3Hash := by
      cases capable with
      | true => cases algo <;> first | rfl | cases hkernel rfl
      | false => exact hheldOnly algo (Bool.eq_true_of_not_eq_false hheld)
    subst halgo
    have hclaims : state.claims slot .bc3Hash = !capable :=
      hstaged.trans (Bool.eq_not_of_ne hheld)
    have hnext : SlotOk (Function.update (state.held slot) .bc3Hash capable) (state.claims slot)
        (if capable then .claiming .bc3Hash else .masking .bc3Hash false) := by
      refine ⟨fun other hother ↦ ?_, hclaimsOnly, ?_⟩
      · by_cases hbc3 : other = .bc3Hash
        · exact hbc3
        · rw [Function.update_of_ne hbc3] at hother
          exact hheldOnly other hother
      · cases capable with
        | true => exact ⟨rfl, Function.update_self .., hclaims⟩
        | false => exact ⟨rfl, Function.update_self .., hclaims⟩
    have hcounts : counts (state.claims slot)
        (if capable then .claiming .bc3Hash else .masking .bc3Hash false) =
          counts (state.claims slot) (state.claim slot) := by
      rw [hidle]
      cases capable <;> rfl
    have hmoved := haccounted.withSlot slot hnext hcounts state.claimedAt
    rw [Function.update_eq_self] at hmoved
    exact hmoved

/-- A worker that has changed its mask and is about to count keeps the accounts when it does: the
count goes up by one for a claim and down by one for a release, and is then that of the masks. -/
theorem Accounted.count {state : HandOver gpus StandIn} (haccounted : state.Accounted)
    {slot : Fin gpus} {capable : Bool} (hcounting : state.claim slot = .counting .bc3Hash capable) :
    Accounted { state with
      capable := Function.update state.capable .bc3Hash
        (if capable then state.capable .bc3Hash + 1 else state.capable .bc3Hash - 1)
      claim := Function.update state.claim slot (.asking .bc3Hash) } := by
  obtain ⟨hheldOnly, hclaimsOnly, hstaged⟩ := haccounted.slots slot
  rw [hcounting] at hstaged
  obtain ⟨-, hheld, hclaims⟩ := hstaged
  have hnext : SlotOk (state.held slot) (state.claims slot) (.asking .bc3Hash) :=
    ⟨hheldOnly, hclaimsOnly, rfl, hclaims.trans hheld.symm⟩
  have hslots := slotOk_update haccounted.slots slot hnext
  rw [Function.update_eq_self, Function.update_eq_self] at hslots
  refine ⟨haccounted.board, haccounted.exclusive, haccounted.posting, haccounted.posted, hslots, ?_,
    haccounted.stall⟩
  have hafter : ∀ other, counts (state.claims other)
      (Function.update state.claim slot (.asking .bc3Hash) other) =
        if other = slot then capable else counts (state.claims other) (state.claim other) := by
    intro other
    by_cases hother : other = slot
    · subst hother
      rw [Function.update_self, if_pos rfl]
      exact hclaims
    · rw [Function.update_of_ne hother, if_neg hother]
  simp only [Function.update_self, hafter]
  rw [haccounted.counted]
  have hbefore : counts (state.claims slot) (state.claim slot) = !capable := by
    rw [hcounting]
    rfl
  cases capable with
  | true =>
    have hinsert : (Finset.univ.filter fun other ↦ (if other = slot then true
        else counts (state.claims other) (state.claim other)) = true) =
        insert slot (Finset.univ.filter fun other ↦
          counts (state.claims other) (state.claim other) = true) := by
      ext other
      by_cases hother : other = slot <;> simp [hother]
    rw [hinsert, Finset.card_insert_of_notMem (by simp [hbefore]), if_pos rfl]
  | false =>
    have herase : (Finset.univ.filter fun other ↦ (if other = slot then false
        else counts (state.claims other) (state.claim other)) = true) =
        (Finset.univ.filter fun other ↦
          counts (state.claims other) (state.claim other) = true).erase slot := by
      ext other
      by_cases hother : other = slot <;> simp [hother]
    rw [herase, Finset.card_erase_of_mem (by simp [hbefore])]
    simp

/-- A step of the thread that claims keeps the accounts. -/
theorem Accounted.claimStep {state next : HandOver gpus StandIn} (haccounted : state.Accounted)
    {slot : Fin gpus} {now : ℕ} (hstep : state.claimStep slot now = some next) :
    next.Accounted := by
  obtain ⟨hheldOnly, hclaimsOnly, hstaged⟩ := haccounted.slots slot
  unfold HandOver.claimStep at hstep
  split at hstep
  · cases hstep
  · rename_i algo hclaim
    obtain rfl := Option.some.inj hstep
    rw [hclaim] at hstaged
    obtain ⟨rfl, hheld, hclaims⟩ := hstaged
    have hnext : SlotOk (state.held slot) (state.claims slot) (.masking .bc3Hash true) :=
      ⟨hheldOnly, hclaimsOnly, rfl, hheld, hclaims⟩
    have hmoved := haccounted.withSlot slot hnext (by rw [hclaim]; rfl)
      (Function.update state.claimedAt slot now)
    rw [Function.update_eq_self, Function.update_eq_self] at hmoved
    exact hmoved
  · rename_i algo capable hclaim
    obtain rfl := Option.some.inj hstep
    rw [hclaim] at hstaged
    obtain ⟨rfl, hheld, hclaims⟩ := hstaged
    have hnext : SlotOk (state.held slot)
        (Function.update (state.claims slot) .bc3Hash capable) (.counting .bc3Hash capable) := by
      refine ⟨hheldOnly, fun other hother ↦ ?_, rfl, hheld, Function.update_self ..⟩
      by_cases hbc3 : other = .bc3Hash
      · exact hbc3
      · rw [Function.update_of_ne hbc3] at hother
        exact hclaimsOnly other hother
    have hmoved := haccounted.withSlot slot hnext (by rw [hclaim]; exact hclaims.symm)
      state.claimedAt
    rw [Function.update_eq_self] at hmoved
    exact hmoved
  · rename_i algo capable hclaim
    obtain rfl := Option.some.inj hstep
    rw [hclaim] at hstaged
    obtain ⟨rfl, -, -⟩ := hstaged
    exact haccounted.count hclaim
  · rename_i algo hclaim
    obtain rfl := Option.some.inj hstep
    rw [hclaim] at hstaged
    obtain ⟨-, hclaims⟩ := hstaged
    have hnext : SlotOk (state.held slot) (state.claims slot)
        (if state.currentAlgo = some algo then .nudging else .idle) := by
      refine ⟨hheldOnly, hclaimsOnly, ?_⟩
      split_ifs
      · exact hclaims
      · exact hclaims
    have hmoved := haccounted.withSlot slot hnext (by rw [hclaim]; split_ifs <;> rfl)
      state.claimedAt
    rw [Function.update_eq_self, Function.update_eq_self] at hmoved
    exact hmoved
  · rename_i hclaim
    obtain ⟨board, hboard, rfl⟩ := Option.map_eq_some_iff.mp hstep
    rw [hclaim] at hstaged
    have hnext : SlotOk (state.held slot) (state.claims slot) .idle :=
      ⟨hheldOnly, hclaimsOnly, hstaged⟩
    have hmoved := (haccounted.byThread .nudge hboard).withSlot slot hnext (by rw [hclaim]; rfl)
      state.claimedAt
    rw [Function.update_eq_self, Function.update_eq_self] at hmoved
    exact hmoved

/-! ### The stall check -/

theorem stallOk_scanned (scan : StallScan) : StallOk (scanned scan) := by
  unfold scanned
  split
  · trivial
  · trivial

/-- The verdict on a card whose claims are on BC3Hash is about BC3Hash. -/
theorem stallOk_stallVerdict {claims : Claims}
    (hclaims : ∀ algo, claims algo = true → algo = .bc3Hash)
    (scan : StallScan) (slot stamp since : ℕ) :
    StallOk (stallVerdict scan slot claims stamp since) := by
  unfold stallVerdict
  split_ifs
  · exact hclaims
  · trivial
  · split
    · trivial
    · rename_i algo halgo
      split_ifs with hskip
      · trivial
      · have hclaimed : claims algo = true := by
          by_contra hnot
          exact hskip (.inr (Bool.eq_false_of_not_eq_true hnot))
        exact halgo.trans (congrArg some (hclaims algo hclaimed))

/-- A step of the stall check keeps the accounts. -/
theorem Accounted.stallStep {state next : HandOver gpus StandIn} (haccounted : state.Accounted)
    (hstep : state.stallStep = some next) : next.Accounted := by
  have hstall := haccounted.stall
  unfold HandOver.stallStep at hstep
  split at hstep
  · cases hstep
  · obtain rfl := Option.some.inj hstep
    refine haccounted.withStall ?_ state.stalled
    trivial
  · obtain rfl := Option.some.inj hstep
    refine haccounted.withStall ?_ state.stalled
    trivial
  · split_ifs at hstep with hslot
    · obtain rfl := Option.some.inj hstep
      refine haccounted.withStall ?_ state.stalled
      exact (haccounted.slots ⟨_, hslot⟩).claimsOnly
    · obtain rfl := Option.some.inj hstep
      exact haccounted.withStall (stallOk_scanned _) state.stalled
  · rename_i hreading
    rw [hreading] at hstall
    split_ifs at hstep
    obtain rfl := Option.some.inj hstep
    refine haccounted.withStall ?_ state.stalled
    exact hstall
  · rename_i hreading
    rw [hreading] at hstall
    split_ifs at hstep
    obtain rfl := Option.some.inj hstep
    exact haccounted.withStall (stallOk_stallVerdict hstall ..) state.stalled
  · split at hstep
    · obtain rfl := Option.some.inj hstep
      refine haccounted.withStall ?_ _
      trivial
    · cases hstep
  · rename_i hreading
    rw [hreading] at hstall
    split at hstep
    · obtain rfl := Option.some.inj hstep
      refine haccounted.withStall ?_ state.stalled
      split_ifs
      · exact hstall
      · trivial
    · cases hstep
  · split at hstep
    · obtain rfl := Option.some.inj hstep
      refine haccounted.withStall ?_ _
      trivial
    · cases hstep
  · obtain rfl := Option.some.inj hstep
    refine haccounted.withStall ?_ state.stalled
    split_ifs
    · trivial
    · trivial
  · obtain ⟨board, hboard, rfl⟩ := Option.map_eq_some_iff.mp hstep
    refine (haccounted.byThread .nudge hboard).withStall ?_ state.stalled
    trivial

/-! ### The stratum thread -/

/-- Noting the proof of work of a job keeps the accounts. -/
theorem Accounted.notePow {state next : HandOver gpus StandIn} (haccounted : state.Accounted)
    (hstep : state.notePow = some next) : next.Accounted := by
  unfold HandOver.notePow at hstep
  split at hstep
  · rename_i job hnoting
    obtain rfl := Option.some.inj hstep
    have hidle : state.board.stratum = .idle :=
      haccounted.exclusive (by rw [hnoting]; exact fun heq ↦ nomatch heq)
    refine ⟨haccounted.board, fun _ ↦ hidle, ?_, ?_, haccounted.slots, haccounted.counted,
      haccounted.stall⟩
    · intro other hother
      rw [PublishState.posting.inj hother]
    · exact fun hposting ↦ absurd rfl (hposting job)
  · cases hstep

/-- Posting a job keeps the accounts. -/
theorem Accounted.post {state next : HandOver gpus StandIn} (haccounted : state.Accounted)
    {now : ℕ} (hstep : state.post now = some next) : next.Accounted := by
  unfold HandOver.post at hstep
  split at hstep
  · rename_i job hposting
    obtain ⟨board, hboard, rfl⟩ := Option.map_eq_some_iff.mp hstep
    have hcoherent := haccounted.board.step hboard
    simp only [Board.step] at hboard
    split_ifs at hboard
    obtain rfl := Option.some.inj hboard
    refine ⟨hcoherent, fun hpublish ↦ absurd rfl hpublish, ?_, ?_, haccounted.slots,
      haccounted.counted, haccounted.stall⟩
    · intro _ hnever
      cases hnever
    · intro _ other hslot
      rw [← Option.some.inj hslot]
      exact haccounted.posting job hposting
  · cases hstep

/-- What the stratum thread does after a publication, or to clear the slot, leaves a job that stays
in the slot as it is. -/
theorem Accounted.stratum {state : HandOver gpus StandIn} (haccounted : state.Accounted)
    {event : BoardEvent MinerJob (Party gpus StandIn)} {board : Board MinerJob (Party gpus StandIn)}
    (hstep : state.board.step event = some board)
    (hexclusive : state.publish ≠ .idle → board.stratum = .idle)
    (hslot : ∀ job, board.slot = some job → state.board.slot = some job) :
    Accounted { state with board := board } :=
  ⟨haccounted.board.step hstep, hexclusive, haccounted.posting,
    fun hposting job hjob ↦ haccounted.posted hposting job (hslot job hjob), haccounted.slots,
    haccounted.counted, haccounted.stall⟩

/-! ### Every step -/

/-- What a stand-in does to its own record is not accounted for here. -/
theorem Accounted.withStandIn {state : HandOver gpus StandIn} (haccounted : state.Accounted)
    (standIn : StandIn → StandInState) : Accounted { state with standIn := standIn } :=
  ⟨haccounted.board, haccounted.exclusive, haccounted.posting, haccounted.posted, haccounted.slots,
    haccounted.counted, haccounted.stall⟩

/-- Waking the waiting threads keeps the accounts. -/
theorem Accounted.notify {state : HandOver gpus StandIn} (haccounted : state.Accounted)
    {board : Board MinerJob (Party gpus StandIn)} (hstep : state.board.step .notify = some board) :
    Accounted { state with board := board } := by
  have hnext := hstep
  simp only [Board.step] at hnext
  split at hnext
  · obtain rfl := Option.some.inj hnext
    exact haccounted.stratum hstep (fun _ ↦ rfl) (fun _ hslot ↦ hslot)
  · cases hnext

/-- Clearing the job keeps the accounts, if none is being published. -/
theorem Accounted.clear {state : HandOver gpus StandIn} (haccounted : state.Accounted)
    (hpublish : state.publish = .idle)
    {board : Board MinerJob (Party gpus StandIn)} (hstep : state.board.step .clear = some board) :
    Accounted { state with board := board } := by
  have hnext := hstep
  simp only [Board.step] at hnext
  split_ifs at hnext
  obtain rfl := Option.some.inj hnext
  refine haccounted.stratum hstep (absurd hpublish) fun _ hslot ↦ ?_
  cases hslot

/-- Moving the generation on keeps the accounts. -/
theorem Accounted.bump {state : HandOver gpus StandIn} (haccounted : state.Accounted)
    {board : Board MinerJob (Party gpus StandIn)} (hstep : state.board.step .bump = some board) :
    Accounted { state with board := board } := by
  have hnext := hstep
  simp only [Board.step] at hnext
  split_ifs at hnext
  obtain rfl := Option.some.inj hnext
  exact haccounted.stratum hstep (fun _ ↦ rfl) (fun _ hslot ↦ hslot)

/-- Every step keeps the accounts. -/
theorem Accounted.step {state next : HandOver gpus StandIn} (haccounted : state.Accounted)
    {event : HandOverEvent gpus StandIn} (hstep : state.step event = some next) :
    next.Accounted := by
  cases event with
  | set slot algo capable => exact haccounted.set hstep
  | claim slot now => exact haccounted.claimStep hstep
  | claimNotify slot =>
    obtain ⟨board, hboard, rfl⟩ := Option.map_eq_some_iff.mp hstep
    exact haccounted.byThread .notifyAll hboard
  | launched slot now =>
    obtain rfl := Option.some.inj hstep
    exact ⟨haccounted.board, haccounted.exclusive, haccounted.posting, haccounted.posted,
      haccounted.slots, haccounted.counted, haccounted.stall⟩
  | check now limit =>
    simp only [HandOver.step] at hstep
    split_ifs at hstep
    obtain rfl := Option.some.inj hstep
    refine haccounted.withStall ?_ state.stalled
    trivial
  | stall => exact haccounted.stallStep hstep
  | stallNotify =>
    obtain ⟨board, hboard, rfl⟩ := Option.map_eq_some_iff.mp hstep
    exact haccounted.byThread .notifyAll hboard
  | publish job =>
    simp only [HandOver.step] at hstep
    split_ifs at hstep with hready
    obtain rfl := Option.some.inj hstep
    refine ⟨haccounted.board, fun _ ↦ hready.2, fun _ hnever ↦ ?_, fun _ ↦ ?_,
      haccounted.slots, haccounted.counted, haccounted.stall⟩
    · cases hnever
    · refine haccounted.posted ?_
      rw [hready.1]
      intro _ hidle
      cases hidle
  | notePow => exact haccounted.notePow hstep
  | post now => exact haccounted.post hstep
  | notify =>
    obtain ⟨board, hboard, rfl⟩ := Option.map_eq_some_iff.mp hstep
    exact haccounted.notify hboard
  | clear =>
    simp only [HandOver.step] at hstep
    split_ifs at hstep with hpublish
    obtain ⟨board, hboard, rfl⟩ := Option.map_eq_some_iff.mp hstep
    exact haccounted.clear hpublish hboard
  | bump =>
    obtain ⟨board, hboard, rfl⟩ := Option.map_eq_some_iff.mp hstep
    exact haccounted.bump hboard
  | call thread =>
    simp only [HandOver.step] at hstep
    split at hstep
    · obtain ⟨board, hboard, rfl⟩ := Option.map_eq_some_iff.mp hstep
      exact (haccounted.byThread (.wait _) hboard).withStandIn _
    · cases hstep
  | look thread =>
    simp only [HandOver.step, lookStep] at hstep
    split at hstep
    · obtain ⟨board, hboard, rfl⟩ := Option.map_eq_some_iff.mp hstep
      exact (haccounted.byThread .look hboard).withStandIn _
    · cases hstep
  | wake thread =>
    obtain ⟨board, hboard, rfl⟩ := Option.map_eq_some_iff.mp hstep
    exact haccounted.byThread .wakeSpuriously hboard
  | judge thread =>
    obtain ⟨standIn, -, rfl⟩ := Option.map_eq_some_iff.mp hstep
    exact haccounted.withStandIn _
  | leave thread exhausted =>
    simp only [HandOver.step] at hstep
    split at hstep
    · split_ifs at hstep
      · obtain rfl := Option.some.inj hstep
        exact haccounted.withStandIn _
      · obtain rfl := Option.some.inj hstep
        exact haccounted.withStandIn _
    · cases hstep

end HandOver

end Bc3Miner.Sharing
