import Bc3Miner.Consensus.ByteOrder
import Bc3Miner.Foundations.Hex
import Bc3Miner.Foundations.Utf8
import Bc3Miner.Mining.MinerJob

/-!
# The fixed template of solve mode

`src/solve.rs` up to the block: a published job file becomes a template, the template a job for the
workers, and a share of that job a header and a block.

The JSON reader, the decoder of UTF-8 with replacement characters and the double SHA-256 come from
outside and are parameters. So are the library for hex and the words in which the libraries say what
is wrong with a text (`Libraries`).

A file is refused with the text of the source, each error with its field and what was found there;
the order of the checks is the source's, so the first thing wrong is the one reported.
`JobFile.Decoded` is what is known of a file that was accepted.
-/

set_option autoImplicit false
set_option relaxedAutoImplicit false

namespace Bc3Miner.Solve

open Consensus Foundations Mining

/-! ### The job file -/

/-- An output of the coinbase as the file has it. A text in memory is shorter than the address
space. -/
structure Payout where
  scriptPubKey : String
  satoshis : UInt64
  fits : scriptPubKey.length < 2 ^ 64

/-- The job file as published; the fields of it that are not read are left out here as well. -/
structure JobFile where
  network : Option String
  height : UInt32
  nVersion : String
  hashPrevBlock : String
  nTime : UInt32
  nBits : String
  scriptSigData : String
  payouts : List Payout
  fits : payouts.length < 2 ^ 64

/-- The template, decoded: the header fields and the coinbase around the extranonce. -/
structure Template where
  network : Option String
  height : UInt32
  version : UInt32
  prevHash : Bytes32
  time : UInt32
  bits : UInt32
  coinb1 : List UInt8
  coinb2 : List UInt8
  scriptSigText : String
  outputs : ℕ
  payoutTotal : UInt64

/-- Extranonce bytes in the scriptSig: one part for the process, one that the workers roll. -/
def extranonce1Size : ℕ := 4

def extranonce2Size : ℕ := 4

/-- Consensus limits on a coinbase scriptSig. -/
def minScriptSig : ℕ := 2

def maxScriptSig : ℕ := 100

/-! ### Numbers and bytes in the file -/

/-- The characters Unicode counts as white space. -/
def isWhitespace (character : Char) : Bool :=
  let code := character.toNat
  (9 ≤ code && code ≤ 13) || code == 0x20 || code == 0x85 || code == 0xa0 || code == 0x1680 ||
    (0x2000 ≤ code && code ≤ 0x200a) || code == 0x2028 || code == 0x2029 || code == 0x202f ||
    code == 0x205f || code == 0x3000

/-- A text without the white space around it. -/
def trim (text : String) : List Char :=
  ((text.toList.dropWhile isWhitespace).reverse.dropWhile isWhitespace).reverse

/-- Decimal digits read onto a number, as long as it stays below the bound. -/
def decimalNumber (bound : ℕ) : List Char → ℕ → Option ℕ
  | [], number => some number
  | digit :: rest, number =>
    if '0' ≤ digit ∧ digit ≤ '9' then
      let next := number * 10 + (digit.toNat - '0'.toNat)
      if next < bound then decimalNumber bound rest next else none
    else none

/-- A number below the bound, as an unsigned integer is parsed in base 10. -/
def parseDecimal (bound : ℕ) : List Char → Option ℕ
  | [] => none
  | '+' :: [] => none
  | '+' :: rest => decimalNumber bound rest 0
  | text => decimalNumber bound text 0

/-- What the libraries do: the bytes of a text that is hex, how a text is shown, and what is wrong
with one that is no number or not hex. -/
structure Libraries where
  hex : HexCodec
  debug : List Char → String
  notANumber : List Char → String
  notHex : List Char → String

section Parsing

variable (libraries : Libraries)

/-- The number of a text without the white space around it: in hex after `0x` or `0X`, else
decimal. -/
def numberOf : List Char → Option ℕ
  | '0' :: 'x' :: hex | '0' :: 'X' :: hex => parseHex (2 ^ 32) hex
  | text => parseDecimal (2 ^ 32) text

def parseU32 (field text : String) : Except String UInt32 :=
  let trimmed := trim text
  match numberOf trimmed with
  | some number => .ok (UInt32.ofNat number)
  | none =>
    let shown := libraries.debug trimmed
    let why := libraries.notANumber trimmed
    .error s!"{field}: {shown} is not a number ({why})"

def unhex (field text : String) : Except String (List UInt8) :=
  let trimmed := trim text
  match libraries.hex.decode trimmed with
  | some bytes => .ok bytes
  | none =>
    let why := libraries.notHex trimmed
    .error s!"{field}: not hex ({why})"

/-- Bitcoin's `CompactSize`, at the end of some bytes. -/
def pushVarint (out : List UInt8) (number : ℕ) : List UInt8 :=
  if number ≤ 0xfc then out ++ [UInt8.ofNat number]
  else if number ≤ 0xffff then out ++ 0xfd :: leBytesOf 2 number
  else if number ≤ 0xffffffff then out ++ 0xfe :: leBytesOf 4 number
  else out ++ 0xff :: leBytesOf 8 number

/-- The low byte of a number, then those of what is left, until nothing is. -/
def numberBytes (number : ℕ) : List UInt8 :=
  if number = 0 then [] else UInt8.ofNat number :: numberBytes (number / 256)
decreasing_by exact Nat.div_lt_self (by omega) (by omega)

/-- The minimal script number of a height: a set top bit would make it negative. -/
def scriptNumber (height : ℕ) : List UInt8 :=
  let bytes := numberBytes height
  if (bytes.getLastD 0) &&& 0x80 ≠ 0 then bytes ++ [0] else bytes

/-- The height as the coinbase has to begin with it: a script number, pushed. -/
def bip34Height (height : UInt32) : Except String (List UInt8) :=
  if height ≤ 16 then .error s!"height {height}: too low for a pushed BIP34 height"
  else
    let number := scriptNumber height.toNat
    .ok (UInt8.ofNat number.length :: number)

/-- Thirty-two bytes as an array of that size. -/
def toBytes32 (field : String) (bytes : List UInt8) : Except String Bytes32 :=
  if hlength : bytes.length = 32 then .ok ⟨bytes.toArray, hlength⟩
  else .error s!"{field}: not 32 bytes"

/-! ### The template -/

/-- The coinbase up to the extranonce: version 2, one input that spends the null outpoint, the
length of the scriptSig, the height and the text. -/
def coinbaseStart (scriptSigLength : ℕ) (height text : List UInt8) : List UInt8 :=
  pushVarint (leBytesOf 4 2 ++ [1] ++ List.replicate 32 0 ++ List.replicate 4 0xff)
    scriptSigLength ++
    height ++ text

/-- The outputs from one of the payouts on, at the end of some bytes, and the total so far. -/
def pushPayouts (out : List UInt8) (total : UInt64) (index : ℕ) :
    List Payout → Except String (List UInt8 × UInt64)
  | [] => .ok (out, total)
  | payout :: rest => do
    let script ← unhex libraries s!"payouts[{index}].scriptPubKey" payout.scriptPubKey
    if total.toNat + payout.satoshis.toNat < 2 ^ 64 then
      pushPayouts (pushVarint (out ++ leBytesOf 8 payout.satoshis.toNat) script.length ++ script)
        (total + payout.satoshis) (index + 1) rest
    else .error "payouts: the total overflows"

variable (deserialize : String → Except String JobFile) (fromUtf8Lossy : List UInt8 → String)

/-- The template of a job file that was read. The previous block's hash is published in display
order, and the header holds it reversed. -/
def JobFile.template (file : JobFile) : Except String Template := do
  let version ← parseU32 libraries "nVersion" file.nVersion
  let bits ← parseU32 libraries "nBits" file.nBits
  if compactToTarget bits = none then
    let shown := String.ofList (paddedHex 8 bits.toNat)
    .error s!"nBits 0x{shown} is not a valid target"
  else do
    let previous ← unhex libraries "hashPrevBlock" file.hashPrevBlock
    let displayed ← toBytes32 "hashPrevBlock" previous
    let text ← unhex libraries "scriptSigData" file.scriptSigData
    let height ← bip34Height file.height
    let scriptSigLength := height.length + text.length + extranonce1Size + extranonce2Size
    if scriptSigLength < minScriptSig ∨ maxScriptSig < scriptSigLength then
      let heightLength := height.length
      let textLength := text.length
      let extranonce := extranonce1Size + extranonce2Size
      .error (s!"the coinbase scriptSig would be {scriptSigLength} bytes " ++
        s!"(height {heightLength} + text {textLength} + extranonce {extranonce}); " ++
        s!"consensus allows {minScriptSig}-{maxScriptSig}")
    else if file.payouts = [] then .error "payouts: a coinbase needs at least one output"
    else do
      let (outputs, total) ← pushPayouts libraries
        (pushVarint (List.replicate 4 0xff) file.payouts.length) 0 0 file.payouts
      return {
        network := file.network
        height := file.height
        version
        prevHash := displayed.reverse
        time := file.nTime
        bits
        coinb1 := coinbaseStart scriptSigLength height text
        coinb2 := outputs ++ leBytesOf 4 0
        scriptSigText := fromUtf8Lossy text
        outputs := file.payouts.length
        payoutTotal := total }

/-- The template of a job file's text. -/
def Template.parse (json : String) : Except String Template :=
  match deserialize json with
  | .error why => .error s!"job file: {why}"
  | .ok file => file.template libraries fromUtf8Lossy

end Parsing

/-- The template as a job for the workers, at a progress-share difficulty. -/
def Template.job (template : Template) (id : ℕ) (extranonce1 : List UInt8) (difficulty : Binary64) :
    MinerJob where
  jobId := s!"solve-{id}"
  extranonce1 := extranonce1
  extranonce2Size := extranonce2Size
  coinb1 := template.coinb1
  coinb2 := template.coinb2
  merkleSteps := []
  version := template.version
  prevHash := template.prevHash
  bits := template.bits
  ntime := template.time
  shareTarget := targetForDifficulty difficulty
  height := some template.height
  algo := PowAlgo.forVersion template.version

/-! ### What a template was made of -/

/-- A computation that succeeded went through all its parts. -/
theorem bind_eq_ok {ε α β : Type} {first : Except ε α} {next : α → Except ε β} {result : β} :
    first >>= next = .ok result ↔ ∃ value, first = .ok value ∧ next value = .ok result := by
  cases first with
  | error why => simp [bind, Except.bind]
  | ok value => simp [bind, Except.bind]

/-- What a job file's template holds of the file: the text, the pushed height and the bytes of the
outputs as they were decoded, and the coinbase made of them. -/
structure JobFile.Decoded (libraries : Libraries) (file : JobFile) (template : Template)
    (text push outputs : List UInt8) : Prop where
  height : template.height = file.height
  decodes : unhex libraries "scriptSigData" file.scriptSigData = .ok text
  pushes : bip34Height file.height = .ok push
  least : minScriptSig ≤ push.length + text.length + extranonce1Size + extranonce2Size
  most : push.length + text.length + extranonce1Size + extranonce2Size ≤ maxScriptSig
  payouts : file.payouts ≠ []
  writes : ∃ total, pushPayouts libraries
    (pushVarint (List.replicate 4 0xff) file.payouts.length) 0 0 file.payouts = .ok (outputs, total)
  coinb1 : template.coinb1 =
    coinbaseStart (push.length + text.length + extranonce1Size + extranonce2Size) push text
  coinb2 : template.coinb2 = outputs ++ leBytesOf 4 0

/-- A file that gives a template decodes: it has a header text, a height push and outputs that the
template is made of. -/
theorem JobFile.decoded_of_template {libraries : Libraries} {fromUtf8Lossy : List UInt8 → String}
    {file : JobFile} {template : Template}
    (htemplate : file.template libraries fromUtf8Lossy = .ok template) :
    ∃ text push outputs, file.Decoded libraries template text push outputs := by
  unfold JobFile.template at htemplate
  obtain ⟨version, -, htemplate⟩ := bind_eq_ok.mp htemplate
  obtain ⟨bits, -, htemplate⟩ := bind_eq_ok.mp htemplate
  by_cases hbits : compactToTarget bits = none
  · rw [if_pos hbits] at htemplate
    cases htemplate
  rw [if_neg hbits] at htemplate
  obtain ⟨previous, -, htemplate⟩ := bind_eq_ok.mp htemplate
  obtain ⟨displayed, -, htemplate⟩ := bind_eq_ok.mp htemplate
  obtain ⟨text, htext, htemplate⟩ := bind_eq_ok.mp htemplate
  obtain ⟨push, hpush, htemplate⟩ := bind_eq_ok.mp htemplate
  by_cases hsize : push.length + text.length + extranonce1Size + extranonce2Size < minScriptSig ∨
      maxScriptSig < push.length + text.length + extranonce1Size + extranonce2Size
  · rw [if_pos hsize] at htemplate
    cases htemplate
  rw [if_neg hsize] at htemplate
  by_cases hpayouts : file.payouts = []
  · rw [if_pos hpayouts] at htemplate
    cases htemplate
  rw [if_neg hpayouts] at htemplate
  obtain ⟨⟨outputs, total⟩, houtputs, htemplate⟩ := bind_eq_ok.mp htemplate
  obtain rfl := Except.ok.inj htemplate
  rw [not_or, not_lt, not_lt] at hsize
  exact ⟨text, push, outputs, ⟨rfl, htext, hpush, hsize.1, hsize.2, hpayouts, ⟨total, houtputs⟩,
    rfl, rfl⟩⟩

/-- A template comes from a job file that was read. -/
theorem Template.decoded_of_parse {libraries : Libraries}
    {deserialize : String → Except String JobFile} {fromUtf8Lossy : List UInt8 → String}
    {json : String} {template : Template}
    (hparse : Template.parse libraries deserialize fromUtf8Lossy json = .ok template) :
    ∃ file text push outputs, deserialize json = .ok file ∧
      file.Decoded libraries template text push outputs := by
  unfold Template.parse at hparse
  split at hparse
  · cases hparse
  · rename_i file hfile
    obtain ⟨text, push, outputs, hdecoded⟩ := file.decoded_of_template hparse
    exact ⟨file, text, push, outputs, hfile, hdecoded⟩

/-- A text is decoded whatever field it is of. -/
theorem unhex_eq_ok {libraries : Libraries} {field text : String} {bytes : List UInt8} :
    unhex libraries field text = .ok bytes ↔ libraries.hex.decode (trim text) = some bytes := by
  unfold unhex
  dsimp only
  generalize libraries.hex.decode (trim text) = decoded
  cases decoded with
  | none => simp
  | some decoded => simp

/-- The text of a job file for a height, with two payouts. -/
def sampleText (height : UInt32) : String :=
  "\x7b\"network\": \"main\", \"height\": " ++ toString height ++
    ", \"nVersion\": \"0x20000800\", \"hashPrevBlock\": " ++
    "\"00000000000008cc8b3b25f3d32ea394097e8234a340ce2bda1a20cff2ce1992\", " ++
    "\"nTime\": 1791768242, \"nBits\": \"0x1c0ffff0\", \"nNonce\": 0, " ++
    "\"versionRollingMask\": \"0x1fffe000\", \"scriptSigData\": \" 5348 \", \"payouts\": [" ++
    "\x7b \"scriptPubKey\": \"6a0253ef\", \"satoshis\": 21000000 \x7d, " ++
    "\x7b \"scriptPubKey\": \"51\", \"satoshis\": 100000000 \x7d]\x7d"

/-- What the reader of JSON makes of it. -/
def sampleFile (height : UInt32) : JobFile where
  network := some "main"
  height := height
  nVersion := "0x20000800"
  hashPrevBlock := "00000000000008cc8b3b25f3d32ea394097e8234a340ce2bda1a20cff2ce1992"
  nTime := 1791768242
  nBits := "0x1c0ffff0"
  scriptSigData := " 5348 "
  payouts := [⟨"6a0253ef", 21000000, by decide⟩, ⟨"51", 100000000, by decide⟩]
  fits := by decide

/-- A reader of JSON that knows this one text. -/
def readsSample (height : UInt32) (json : String) : Except String JobFile :=
  if json = sampleText height then .ok (sampleFile height) else .error "expected value"

theorem readsSample_self (height : UInt32) :
    readsSample height (sampleText height) = .ok (sampleFile height) := if_pos rfl

/-- Libraries that read hex and are short of words. -/
def sampleLibraries : Libraries :=
  ⟨.plain, String.ofList, fun _ ↦ "invalid digit found in string", fun _ ↦ "Odd number of digits"⟩

/-- The text of the sample makes the template of the sample. -/
theorem parse_sampleText (libraries : Libraries) (fromUtf8Lossy : List UInt8 → String)
    (height : UInt32) :
    Template.parse libraries (readsSample height) fromUtf8Lossy (sampleText height) =
      (sampleFile height).template libraries fromUtf8Lossy := by
  unfold Template.parse
  rw [readsSample_self]

/-- The count goes behind what is there. -/
theorem pushVarint_eq (out : List UInt8) (number : ℕ) :
    pushVarint out number = out ++ pushVarint [] number := by
  unfold pushVarint
  split_ifs <;> rfl

/-! ### A share becomes a block -/

/-- The block a share makes: its header, and the header followed by the one transaction, whose txid
is the merkle root. -/
def assemble (sha256d : List UInt8 → Bytes32) (job : MinerJob) (share : FoundShare) :
    Vector UInt8 80 × List UInt8 :=
  let coinbase := job.coinb1 ++ job.extranonce1 ++ share.extranonce2 ++ job.coinb2
  let header : BlockHeader :=
    { version := job.version
      prevHash := job.prevHash
      merkleRoot := sha256d coinbase
      time := share.ntime
      bits := job.bits
      nonce := share.nonce }
  (header.serialize, pushVarint header.serialize.toList 1 ++ coinbase)

end Bc3Miner.Solve
