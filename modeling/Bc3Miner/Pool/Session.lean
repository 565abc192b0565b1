import Bc3Miner.Foundations.Hex
import Bc3Miner.Foundations.PartialMachine
import Bc3Miner.Mining.MinerJob
import Bc3Miner.Pool.Json

/-!
# A stratum session

The message loop of `session` in `src/stratum.rs` with `parse_difficulty`, `parse_extranonce1` and
`parse_notify`: what a line from the pool does to the state of the connection, and which job, if
any, goes to `Shared::publish_job`. A line comes here as what `serde_json::from_str` made of it.

An answer to a request of ours is told by its id alone, before its method is looked at: 1 is the
answer to the subscription, 2 to the authorization, 4 to a reported hashrate, and every integer from
100 up to a share. Whatever else such a line says is passed over.

Every error of the source that ends a session is a constructor of `SessionError`, with its text
(`SessionError.message`). The library that decodes hex is a parameter.

Not modelled here: the requests that the session sends, beyond the ids that their answers have, and
the lines it logs.
-/

set_option autoImplicit false
set_option relaxedAutoImplicit false

namespace Bc3Miner.Pool

open Consensus Foundations Mining

/-! ### What a message carries -/

variable (hex : HexCodec)

/-- Longest extranonce1 that is taken. -/
def maxExtranonce1 : ℕ := 32

/-- An extranonce1 that is taken. -/
abbrev Extranonce1 := {bytes : List UInt8 // bytes.length ≤ maxExtranonce1}

/-- A size of extranonce2 that is taken. -/
abbrev Extranonce2Size := {size : ℕ // 1 ≤ size ∧ size ≤ 16}

/-- The id of the messages that report the hashrate. -/
def hashrateId : UInt64 := 4

/-- The share difficulty in a `mining.set_difficulty`: a finite number above zero, or none. -/
def parseDifficulty (value : Value) : Option Binary64 :=
  value.asF64.filter fun difficulty ↦ difficulty.isFinite && Binary64.lt (.finite 0) difficulty

/-- The extranonce1 in a `mining.subscribe` result. Empty is legal. -/
def parseExtranonce1 (value : Value) : Option Extranonce1 := do
  let text ← value.asStr
  let bytes ← hex.decode text.toList
  if hbound : bytes.length ≤ maxExtranonce1 then some ⟨bytes, hbound⟩ else none

/-- Bytes that must be 32. -/
def asBytes32 (bytes : List UInt8) : Option Bytes32 :=
  if hlength : bytes.length = 32 then some ⟨bytes.toArray, by rw [List.size_toArray, hlength]⟩
  else none

/-- A parameter that is hex. -/
def hexParam (params : List Value) (index : ℕ) : Option (List UInt8) := do
  let text ← (params.getD index .null).asStr
  hex.decode text.toList

/-- A parameter that `u32::from_str_radix` reads in base 16. -/
def u32Param (params : List Value) (index : ℕ) : Option UInt32 := do
  let text ← (params.getD index .null).asStr
  let number ← parseHex (2 ^ 32) text.toList
  return UInt32.ofNat number

/-- The merkle branch: 32 bytes of hex a step. -/
def merkleSteps (params : List Value) (index : ℕ) : Option (List Bytes32) := do
  let steps ← (params.getD index .null).asArray
  steps.mapM fun step ↦ (hex.decode (step.asStr.getD "").toList).bind asBytes32

/-- The job of a `mining.notify`, from nine parameters or more and the state of the connection. The
version bits decide the PoW; the height is only shown. -/
def parseNotify (params : List Value) (extranonce1 : List UInt8) (extranonce2Size : ℕ)
    (difficulty : Binary64) : Option MinerJob := do
  let prevSwab ← (hexParam hex params 1).bind asBytes32
  let coinb1 ← hexParam hex params 2
  let version ← u32Param params 5
  let steps ← merkleSteps hex params 4
  let jobId ← (params.getD 0 .null).asStr
  let coinb2 ← hexParam hex params 3
  let bits ← u32Param params 6
  let ntime ← u32Param params 7
  return {
    jobId := jobId
    extranonce1 := extranonce1
    extranonce2Size := extranonce2Size
    coinb1 := coinb1
    coinb2 := coinb2
    merkleSteps := steps
    version := version
    prevHash := swab32 prevSwab
    bits := bits
    ntime := ntime
    shareTarget := targetForDifficulty difficulty
    height := bip34Height coinb1
    algo := PowAlgo.forVersion version }

/-! ### How a session ends -/

/-- What a line from the pool can end the session with. -/
inductive SessionError
  | subscribeRejected
  | unusableExtranonce1 (value : Value)
  | extranonce2Of (size : ℕ)
  | authorize
  | reconnectRequested

/-- The text of an error, given how a value is written. -/
def SessionError.message (display : Value → String) : SessionError → String
  | .subscribeRejected => "subscribe rejected"
  | .unusableExtranonce1 value => "pool sent an unusable extranonce1: " ++ display value
  | .extranonce2Of size => "pool asked for an extranonce2 of " ++ toString size ++ " bytes"
  | .authorize => "authorize"
  | .reconnectRequested => "reconnect requested"

/-! ### The message loop -/

/-- What a session keeps between lines: the state of the connection, and what the pool made of the
authorization, of the reported hashrate and of the shares. -/
structure Session where
  extranonce1 : Extranonce1
  subscribed : Bool
  extranonce2Size : Extranonce2Size
  difficulty : Binary64
  warnedDifficulty : Bool
  authorized : Bool
  hashrateRefused : Bool
  accepted : ℕ
  rejected : ℕ
  stale : ℕ

namespace Session

/-- Before the first line. -/
def start : Session where
  extranonce1 := ⟨[], Nat.zero_le _⟩
  subscribed := false
  extranonce2Size := ⟨4, by decide⟩
  difficulty := .finite 1
  warnedDifficulty := false
  authorized := false
  hashrateRefused := false
  accepted := 0
  rejected := 0
  stale := 0

/-- The size of extranonce2 that a subscription's result asks for. -/
def askedSize (result : Value) : ℕ := ((result.item 2).asU64.map UInt64.toNat).getD 4

/-- The answer to the subscription. -/
def takeSubscription (session : Session) (result : Value) : Except SessionError Session :=
  if result.isNull then .error .subscribeRejected
  else
    match parseExtranonce1 hex (result.item 1) with
    | none => .error (.unusableExtranonce1 (result.item 1))
    | some extranonce1 =>
        if hrange : 1 ≤ askedSize result ∧ askedSize result ≤ 16 then
          .ok { session with
            extranonce1 := extranonce1
            subscribed := true
            extranonce2Size := ⟨askedSize result, hrange⟩ }
        else .error (.extranonce2Of (askedSize result))

/-- The answer to the authorization. -/
def takeAuthorization (session : Session) (result : Value) : Except SessionError Session :=
  if result.isBool true then .ok { session with authorized := true } else .error .authorize

/-- The answer to a reported hashrate; one refusal is enough. -/
def takeHashrateAnswer (session : Session) (message : Value) : Session :=
  if !(message.field "error").isNull || (message.field "result").isBool false then
    { session with hashrateRefused := true }
  else session

/-- A reject with code 21. -/
def isStale (error : Value) : Bool := (error.item 0).isInteger 21

/-- The answer to a share. -/
def takeShareAnswer (session : Session) (message : Value) : Session :=
  if (message.field "result").isBool true then { session with accepted := session.accepted + 1 }
  else
    { session with
      rejected := session.rejected + 1
      stale := session.stale + (isStale (message.field "error")).toNat }

/-- Is the id one of a share that was sent? -/
def isShareId (id : Value) : Bool := id.asU64.any (100 ≤ ·)

/-- A message that is no answer: the state after it, and the job that is published. -/
def takeMethod (session : Session) (message : Value) :
    Except SessionError (Session × Option MinerJob) :=
  let method := (message.field "method").asStr
  if method = some "mining.set_difficulty" then
    match parseDifficulty ((message.field "params").item 0) with
    | some difficulty => .ok ({ session with difficulty := difficulty }, none)
    | none => .ok ({ session with warnedDifficulty := true }, none)
  else if method = some "mining.notify" then
    let params := (message.field "params").asArray.getD []
    if params.length < 9 ∨ session.subscribed = false then .ok (session, none)
    else
      .ok (session,
        parseNotify hex params session.extranonce1 session.extranonce2Size session.difficulty)
  else if method = some "client.reconnect" then .error .reconnectRequested
  else .ok (session, none)

/-- A line from the pool: the state after it, and the job that is published. What is no JSON is
skipped. -/
def handle (session : Session) : Option Value → Except SessionError (Session × Option MinerJob)
  | none => .ok (session, none)
  | some message =>
      let id := message.field "id"
      if id.isInteger 1 then
        (session.takeSubscription hex (message.field "result")).map fun next ↦ (next, none)
      else if id.isInteger 2 then
        (session.takeAuthorization (message.field "result")).map fun next ↦ (next, none)
      else if id.isInteger hashrateId then .ok (session.takeHashrateAnswer message, none)
      else if isShareId id then .ok (session.takeShareAnswer message, none)
      else session.takeMethod hex message

/-- The session goes on to the next line, unless this one ended it. -/
def step (session : Session) (line : Option Value) : Option Session :=
  (session.handle hex line).toOption.map Prod.fst

end Session

end Bc3Miner.Pool
