import Bc3Miner.Consensus.ByteOrder
import Bc3Miner.Foundations.ByteReader

/-!
# The format of a block

Bitcoin's format of blocks and transactions, as a node reads it: numbers of fixed width, least
significant byte first, `CompactSize` counts in the shortest of four widths, and scripts behind
their length. A zero in the place of the number of inputs would mark the format with witnesses,
which a coinbase without a witness commitment does not use; the reader refuses it.

Only the shapes are here. Which transactions and headers are valid is not a matter of the format.

Each reader is shown to read the encoding of any value of its own (`reads_number`, `reads_wide`,
`reads_script`, `reads_input`, `reads_output`), wherever it stands, and `reads_transaction` and
`reads_block` put these together for a transaction of one input and a block of one transaction: its
bytes are read back, to the last one, as what was encoded. Numbers are to be below their width, and
a count that takes a wider form is to need it.
-/

set_option autoImplicit false
set_option relaxedAutoImplicit false

namespace Bc3Miner.Consensus

open Foundations

/-! ### Numbers and scripts -/

/-- A number of fixed width, least significant byte first. -/
def readNumber (width : ℕ) : Reader ℕ := do
  let bytes ← Reader.bytes width
  return littleEndian bytes

/-- A number of fixed width that no shorter form of a count could hold. -/
def readWide (width least : ℕ) : Reader ℕ := do
  let number ← readNumber width
  Reader.check (least ≤ number)
  return number

/-- A count in the shortest of its four forms. -/
def readCompactSize : Reader ℕ := do
  let first ← Reader.byte
  if first = 0xfd then readWide 2 0xfd
  else if first = 0xfe then readWide 4 (2 ^ 16)
  else if first = 0xff then readWide 8 (2 ^ 32)
  else return first.toNat

/-- A script behind its length. -/
def readScript : Reader (List UInt8) := do
  let length ← readCompactSize
  Reader.bytes length

/-! ### Transactions and blocks -/

/-- An input: the output it spends, its script and its sequence number. -/
structure TxInput where
  prevHash : List UInt8
  prevIndex : ℕ
  script : List UInt8
  sequence : ℕ
  deriving DecidableEq, Repr

structure TxOutput where
  value : ℕ
  script : List UInt8
  deriving DecidableEq, Repr

structure Transaction where
  version : ℕ
  inputs : List TxInput
  outputs : List TxOutput
  lockTime : ℕ
  deriving DecidableEq, Repr

structure Block where
  header : List UInt8
  transactions : List Transaction
  deriving DecidableEq, Repr

def readInput : Reader TxInput := do
  let prevHash ← Reader.bytes 32
  let prevIndex ← readNumber 4
  let script ← readScript
  let sequence ← readNumber 4
  return ⟨prevHash, prevIndex, script, sequence⟩

def readOutput : Reader TxOutput := do
  let value ← readNumber 8
  let script ← readScript
  return ⟨value, script⟩

def readTransaction : Reader Transaction := do
  let version ← readNumber 4
  let inputCount ← readCompactSize
  Reader.check (0 < inputCount)
  let inputs ← Reader.items readInput inputCount
  let outputCount ← readCompactSize
  let outputs ← Reader.items readOutput outputCount
  let lockTime ← readNumber 4
  return ⟨version, inputs, outputs, lockTime⟩

def readBlock : Reader Block := do
  let header ← Reader.bytes 80
  let count ← readCompactSize
  let transactions ← Reader.items readTransaction count
  return ⟨header, transactions⟩

/-! ### What is read of numbers and scripts -/

theorem reads_number {width : ℕ} {encoding : List UInt8} {number : ℕ}
    (hlength : encoding.length = width) (hnumber : littleEndian encoding = number) :
    Reads (readNumber width) encoding number :=
  (Reads.bytes hlength).bind_pure hnumber

theorem reads_leBytesOf {width number : ℕ} (hfits : number < 256 ^ width) :
    Reads (readNumber width) (leBytesOf width number) number :=
  reads_number (length_leBytesOf width number) (littleEndian_leBytesOf_of_lt hfits)

/-- A number of a fixed width is read back if it fits the width and is not one that a shorter form
is required for. -/
theorem reads_wide {width least number : ℕ} (hfits : number < 256 ^ width)
    (hleast : least ≤ number) :
    Reads (readWide width least) (leBytesOf width number) number := by
  have hchecked : Reads (do Reader.check (least ≤ number); return number) [] number :=
    (Reads.check hleast).bind (Reads.pure number)
  have hboth : Reads (readWide width least) (leBytesOf width number ++ []) number :=
    (reads_leBytesOf hfits).bind hchecked
  rwa [List.append_nil] at hboth

/-- A count in one byte. -/
theorem reads_compactSize_byte (byte : UInt8) (hbyte : byte.toNat < 0xfd) :
    Reads readCompactSize [byte] byte.toNat := by
  have hne (marker : UInt8) (hmarker : 0xfd ≤ marker.toNat) : byte ≠ marker := by
    rintro rfl
    omega
  have hread : Reads (if byte = 0xfd then readWide 2 0xfd
      else if byte = 0xfe then readWide 4 (2 ^ 16)
      else if byte = 0xff then readWide 8 (2 ^ 32)
      else return byte.toNat) [] byte.toNat := by
    rw [if_neg (hne 0xfd (by decide)), if_neg (hne 0xfe (by decide)), if_neg (hne 0xff (by decide))]
    exact Reads.pure _
  exact (Reads.byte byte).bind hread

/-- A script behind an encoding of its length. -/
theorem reads_script {prefixBytes script : List UInt8}
    (hlength : Reads readCompactSize prefixBytes script.length) :
    Reads readScript (prefixBytes ++ script) script :=
  hlength.bind (Reads.bytes rfl)

/-- An input is read back from its four fields, each of which is read back on its own. -/
theorem reads_input {prevHash index script scriptBytes sequence : List UInt8}
    {prevIndex sequenceNumber : ℕ} (hprevHash : prevHash.length = 32)
    (hindex : Reads (readNumber 4) index prevIndex) (hscript : Reads readScript scriptBytes script)
    (hsequence : Reads (readNumber 4) sequence sequenceNumber) :
    Reads readInput (prevHash ++ (index ++ (scriptBytes ++ sequence)))
      ⟨prevHash, prevIndex, script, sequenceNumber⟩ :=
  (Reads.bytes hprevHash).bind <| hindex.bind <| hscript.bind <| hsequence.bind_pure rfl

theorem reads_output {value script scriptBytes : List UInt8} {amount : ℕ}
    (hvalue : Reads (readNumber 8) value amount) (hscript : Reads readScript scriptBytes script) :
    Reads readOutput (value ++ scriptBytes) ⟨amount, script⟩ :=
  hvalue.bind <| hscript.bind_pure rfl

/-- A transaction with one input is read back from its parts: the version, the count one, the input,
as many outputs as the count before them says, and the lock time, each of which is read back on its
own. -/
theorem reads_transaction {version input outputCount lockTime : List UInt8}
    {versionNumber lockTimeNumber : ℕ} {txInput : TxInput} {outputs : List (List UInt8 × TxOutput)}
    (hversion : Reads (readNumber 4) version versionNumber) (hinput : Reads readInput input txInput)
    (hcount : Reads readCompactSize outputCount outputs.length)
    (houtputs : ∀ output ∈ outputs, Reads readOutput output.1 output.2)
    (hlockTime : Reads (readNumber 4) lockTime lockTimeNumber) :
    Reads readTransaction
      (version ++ ([1] ++ (input ++ (outputCount ++ (outputs.flatMap Prod.fst ++ lockTime)))))
      ⟨versionNumber, [txInput], outputs.map Prod.snd, lockTimeNumber⟩ := by
  have hone : Reads readCompactSize [1] 1 := reads_compactSize_byte 1 (by decide)
  have hinputs : Reads (Reader.items readInput 1) input [txInput] := by
    have hitems := Reads.items readInput [(input, txInput)]
      (fun entry hentry ↦ by rw [List.mem_singleton.mp hentry]; exact hinput)
    simpa using hitems
  have houts := Reads.items readOutput outputs houtputs
  refine hversion.bind <| hone.bind ?_
  exact (Reads.check Nat.one_pos).bind <| hinputs.bind <| hcount.bind <| houts.bind <|
    hlockTime.bind_pure rfl

/-- A block of one transaction. -/
theorem reads_block {header transaction : List UInt8} {tx : Transaction}
    (hheader : header.length = 80)
    (htransaction : Reads readTransaction transaction tx) :
    Reads readBlock (header ++ ([1] ++ transaction)) ⟨header, [tx]⟩ := by
  have hone : Reads readCompactSize [1] 1 := reads_compactSize_byte 1 (by decide)
  have htransactions : Reads (Reader.items readTransaction 1) transaction [tx] := by
    have hitems := Reads.items readTransaction [(transaction, tx)]
      (fun entry hentry ↦ by rw [List.mem_singleton.mp hentry]; exact htransaction)
    simpa using hitems
  exact (Reads.bytes hheader).bind <| hone.bind <| htransactions.bind_pure rfl

end Bc3Miner.Consensus
