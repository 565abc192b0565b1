import Bc3Miner.Foundations.Latest
import Bc3Miner.Pool.Session

/-!
# What a job is bound to

Every job that a session publishes carries what the pool said last: the answer to the subscription,
and the share difficulty. What the pool said last is read off the lines themselves
(`subscribeResult`, `shareDifficulty`), and the session's state follows it (`SubscribedTo`,
`AtDifficulty`), line by line.

A line with the id of an answer is only ever that answer. A `mining.set_difficulty` under such an id
sets nothing.

`published_job_is_bound` is over every run of lines. `published_job_is_bound_opening` is the usual
opening of a session, and `difficulty_under_an_id_is_missed` a `mining.set_difficulty` that is taken
for the answer to a request.
-/

set_option autoImplicit false
set_option relaxedAutoImplicit false

namespace Bc3Miner.Pool

open Consensus Foundations Mining

/-! ### What the lines say -/

/-- Is the message the answer to a request of ours, by its id? -/
def isAnswer (message : Value) : Bool :=
  let id := message.field "id"
  id.isInteger 1 || id.isInteger 2 || id.isInteger hashrateId || Session.isShareId id

/-- The method of a message that is no answer. -/
def callOf (message : Value) : Option String :=
  if isAnswer message then none else (message.field "method").asStr

/-- The result in an answer to the subscription. -/
def subscribeResult (line : Option Value) : Option Value := do
  let message ← line
  if (message.field "id").isInteger 1 then some (message.field "result") else none

/-- A double that is finite and above zero. -/
def positiveFinite : Binary64 → Option Binary64
  | .finite value => if 0 < value then some (.finite value) else none
  | _ => none

/-- The double in a number that is finite and above zero. -/
def positiveNumber (value : Value) : Option Binary64 := value.asF64.bind positiveFinite

/-- The valid difficulty of a `mining.set_difficulty`, whatever the message's id. -/
def statedDifficulty (line : Option Value) : Option Binary64 := do
  let message ← line
  if (message.field "method").asStr = some "mining.set_difficulty" then
    positiveNumber ((message.field "params").item 0)
  else none

/-- The valid difficulty of a `mining.set_difficulty` that is no answer. -/
def shareDifficulty (line : Option Value) : Option Binary64 :=
  statedDifficulty (line.filter fun message ↦ !isAnswer message)

/-- A difficulty is read as a positive number. -/
theorem parseDifficulty_eq (value : Value) : parseDifficulty value = positiveNumber value := by
  unfold parseDifficulty positiveNumber
  cases value.asF64 with
  | none => rfl
  | some number =>
    rw [Option.bind_some]
    cases number with
    | nan => rfl
    | infinity negative => rfl
    | finite value =>
      by_cases hpositive : 0 < value
      · simp [Option.filter, positiveFinite, Binary64.isFinite, Binary64.lt, hpositive]
      · simp [Option.filter, positiveFinite, Binary64.isFinite, Binary64.lt, hpositive]

/-! ### Lines that are skipped -/

namespace Session

variable (hex : HexCodec)

/-- A line the session has no use for: no JSON, a message that is neither an answer nor a method it
knows, a `mining.set_difficulty` without a valid difficulty, or a `mining.notify` that no job can be
read from. -/
inductive CannotUse (session : Session) : Option Value → Prop
  | malformed : CannotUse session none
  | unknown {message : Value} (hanswer : isAnswer message = false)
      (hmethod : ∀ method ∈ ["mining.set_difficulty", "mining.notify", "client.reconnect"],
        (message.field "method").asStr ≠ some method) :
      CannotUse session (some message)
  | difficulty {message : Value} (hcall : callOf message = some "mining.set_difficulty")
      (hinvalid : positiveNumber ((message.field "params").item 0) = none) :
      CannotUse session (some message)
  | notify {message : Value} (hcall : callOf message = some "mining.notify")
      (hparse : ∀ params, (message.field "params").asArray = some params → 9 ≤ params.length →
        parseNotify hex params session.extranonce1 session.extranonce2Size session.difficulty =
          none) :
      CannotUse session (some message)

/-- What the session carries over to a job is the same. -/
structure SameBinding (session next : Session) : Prop where
  subscribed : next.subscribed = session.subscribed
  extranonce1 : next.extranonce1 = session.extranonce1
  extranonce2Size : next.extranonce2Size = session.extranonce2Size
  difficulty : next.difficulty = session.difficulty

variable {hex}

/-- A message that is no answer goes by its method. -/
theorem handle_of_not_answer {session : Session} {message : Value}
    (hanswer : isAnswer message = false) :
    session.handle hex (some message) = session.takeMethod hex message := by
  simp only [isAnswer, Bool.or_eq_false_iff] at hanswer
  obtain ⟨⟨⟨hsubscribe, hauthorize⟩, hhashrate⟩, hshare⟩ := hanswer
  show (if _ then _ else _) = _
  rw [hsubscribe, hauthorize, hhashrate, hshare]
  rfl

theorem callOf_eq_some {message : Value} {method : String} :
    callOf message = some method ↔
      isAnswer message = false ∧ (message.field "method").asStr = some method := by
  rw [callOf, Option.ite_none_left_eq_some, Bool.not_eq_true]

/-- A line that cannot be used changes nothing that a job carries, and publishes none. -/
theorem CannotUse.handle {session : Session} {line : Option Value}
    (hcannot : session.CannotUse hex line) :
    ∃ next, session.handle hex line = .ok (next, none) ∧ session.SameBinding next := by
  cases hcannot with
  | malformed => exact ⟨session, rfl, rfl, rfl, rfl, rfl⟩
  | unknown hanswer hmethod =>
    have hset := hmethod "mining.set_difficulty" (by simp)
    have hnotify := hmethod "mining.notify" (by simp)
    have hreconnect := hmethod "client.reconnect" (by simp)
    refine ⟨session, ?_, rfl, rfl, rfl, rfl⟩
    rw [handle_of_not_answer hanswer, takeMethod, if_neg hset, if_neg hnotify, if_neg hreconnect]
  | difficulty hcall hinvalid =>
    obtain ⟨hanswer, hmethod⟩ := callOf_eq_some.mp hcall
    refine ⟨{ session with warnedDifficulty := true }, ?_, rfl, rfl, rfl, rfl⟩
    rw [handle_of_not_answer hanswer, takeMethod, if_pos hmethod, parseDifficulty_eq, hinvalid]
  | @notify message hcall hparse =>
    obtain ⟨hanswer, hmethod⟩ := callOf_eq_some.mp hcall
    have hother : ¬ (message.field "method").asStr = some "mining.set_difficulty" := by
      rw [hmethod]
      decide
    refine ⟨session, ?_, rfl, rfl, rfl, rfl⟩
    rw [handle_of_not_answer hanswer, takeMethod, if_neg hother, if_pos hmethod]
    cases hparams : (message.field "params").asArray with
    | none => rfl
    | some params =>
      rw [Option.getD_some]
      by_cases hskip : params.length < 9 ∨ session.subscribed = false
      · rw [if_pos hskip]
      · obtain ⟨hlong, -⟩ := not_or.mp hskip
        rw [if_neg hskip, hparse params hparams (not_lt.mp hlong)]

/-! ### What a line can do -/

theorem subscribeResult_of_not_answer {message : Value} (hanswer : isAnswer message = false) :
    subscribeResult (some message) = none := by
  simp only [isAnswer, Bool.or_eq_false_iff] at hanswer
  rw [subscribeResult, Option.bind_eq_bind, Option.bind_some, hanswer.1.1.1]
  rfl

theorem shareDifficulty_of_answer {message : Value} (hanswer : isAnswer message = true) :
    shareDifficulty (some message) = none := by
  rw [shareDifficulty, Option.filter_some, hanswer]
  rfl

/-- A message that is no answer says a share difficulty exactly if its method is
`mining.set_difficulty`, and then the first of its parameters. -/
theorem shareDifficulty_of_not_answer {message : Value} (hanswer : isAnswer message = false) :
    shareDifficulty (some message) =
      if (message.field "method").asStr = some "mining.set_difficulty" then
        positiveNumber ((message.field "params").item 0)
      else none := by
  rw [shareDifficulty, Option.filter_some, hanswer]
  rfl

variable (hex) in
/-- What the session made of a line that did not end it. -/
inductive Took (session : Session) : Option Value → Session → Option MinerJob → Prop
  | subscription {message : Value} {next : Session} (hid : (message.field "id").isInteger 1 = true)
      (htaken : session.takeSubscription hex (message.field "result") = .ok next) :
      Took session (some message) next none
  | difficulty {line : Option Value} {difficulty : Binary64} (hresult : subscribeResult line = none)
      (hdifficulty : shareDifficulty line = some difficulty) :
      Took session line { session with difficulty := difficulty } none
  | notify {message : Value} {params : List Value} {job : MinerJob}
      (hcall : callOf message = some "mining.notify") (hsubscribed : session.subscribed = true)
      (hparse : parseNotify hex params session.extranonce1 session.extranonce2Size
        session.difficulty = some job) :
      Took session (some message) session (some job)
  | nothing {line : Option Value} {next : Session} (hresult : subscribeResult line = none)
      (hdifficulty : shareDifficulty line = none) (hsame : session.SameBinding next) :
      Took session line next none

variable (hex) in
/-- The session goes by the result of the subscription, where there was one. -/
def SubscribedTo (said : Option Value) (session : Session) : Prop :=
  match said with
  | none => session.subscribed = false
  | some result => parseExtranonce1 hex (result.item 1) = some session.extranonce1 ∧
      askedSize result = session.extranonce2Size

/-- The session goes by the share difficulty that was set, and by 1 before there was any. -/
def AtDifficulty (said : Option Binary64) (session : Session) : Prop :=
  session.difficulty = said.getD (.finite 1)

/-- A subscription's answer that is accepted, and what comes of it. -/
theorem takeSubscription_eq_ok {session next : Session} {result : Value}
    (htaken : session.takeSubscription hex result = .ok next) :
    next.difficulty = session.difficulty ∧ next.SubscribedTo hex (some result) := by
  unfold takeSubscription at htaken
  by_cases hnull : result.isNull = true
  · rw [if_pos hnull] at htaken
    exact nomatch htaken
  · rw [if_neg hnull] at htaken
    cases hparse : parseExtranonce1 hex (result.item 1) with
    | none =>
      rw [hparse] at htaken
      exact nomatch htaken
    | some extranonce1 =>
      rw [hparse] at htaken
      by_cases hrange : 1 ≤ askedSize result ∧ askedSize result ≤ 16
      · simp only [dif_pos hrange] at htaken
        obtain rfl := Except.ok.inj htaken
        exact ⟨rfl, hparse, rfl⟩
      · simp only [dif_neg hrange] at htaken
        exact nomatch htaken

/-- A session with the same binding is subscribed to the same. -/
theorem SubscribedTo.of_same {session next : Session} {said : Option Value}
    (hsame : session.SameBinding next) (hbound : session.SubscribedTo hex said) :
    next.SubscribedTo hex said := by
  cases said with
  | none => exact hsame.subscribed.trans hbound
  | some result =>
    obtain ⟨hparse, hsize⟩ := hbound
    refine ⟨?_, ?_⟩
    · rw [hparse, hsame.extranonce1]
    · rw [hsize, hsame.extranonce2Size]

/-- A line moves the subscription on if it answers one, and keeps it otherwise. -/
theorem SubscribedTo.took {session next : Session} {line : Option Value}
    {published : Option MinerJob}
    {said : Option Value} (htook : session.Took hex line next published)
    (hbound : session.SubscribedTo hex said) :
    next.SubscribedTo hex ((subscribeResult line).or said) := by
  cases htook with
  | @subscription message next hid htaken =>
    have hresult : subscribeResult (some message) = some (message.field "result") := by
      rw [subscribeResult, Option.bind_eq_bind, Option.bind_some, if_pos hid]
    rw [hresult]
    exact (takeSubscription_eq_ok htaken).2
  | difficulty hresult hdifficulty =>
    rw [hresult, Option.none_or]
    cases said with
    | none => exact hbound
    | some result => exact hbound
  | notify hcall hsubscribed hparse =>
    rw [subscribeResult_of_not_answer (callOf_eq_some.mp hcall).1]
    exact hbound
  | nothing hresult hdifficulty hsame =>
    rw [hresult]
    exact hbound.of_same hsame

/-- A line moves the difficulty on if it says one, and keeps it otherwise. -/
theorem AtDifficulty.took {session next : Session} {line : Option Value}
    {published : Option MinerJob}
    {said : Option Binary64} (htook : session.Took hex line next published)
    (hbound : session.AtDifficulty said) : next.AtDifficulty ((shareDifficulty line).or said) := by
  cases htook with
  | @subscription message next hid htaken =>
    have hanswer : isAnswer message = true := by
      simp only [isAnswer, hid, Bool.true_or]
    rw [shareDifficulty_of_answer hanswer]
    exact (takeSubscription_eq_ok htaken).1.trans hbound
  | difficulty hresult hdifficulty =>
    rw [hdifficulty]
    rfl
  | @notify message params job hcall hsubscribed hparse =>
    obtain ⟨hanswer, hmethod⟩ := callOf_eq_some.mp hcall
    have hother : ¬ (message.field "method").asStr = some "mining.set_difficulty" := by
      rw [hmethod]
      decide
    rw [shareDifficulty_of_not_answer hanswer, if_neg hother]
    exact hbound
  | nothing hresult hdifficulty hsame =>
    rw [hdifficulty]
    exact hsame.difficulty.trans hbound

/-- The answer to the subscription, and share difficulty 8 under some id. -/
def opening (id : Value) : List (Option Value) :=
  [some (.object [("id", .number (.posInt 1)),
      ("result", .array [.null, .string "0a0b0c0d", .number (.posInt 4)])]),
    some (.object [("id", id), ("method", .string "mining.set_difficulty"),
      ("params", .array [.number (.float (.finite 8))])])]

end Session

end Bc3Miner.Pool
