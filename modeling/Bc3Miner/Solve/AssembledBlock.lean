import Bc3Miner.Consensus.BlockFormat
import Bc3Miner.Solve.Template

/-!
# A solved block reads back to its template

The bytes that `Template.parse` lays out around the extranonce, and `assemble` puts together with a
share, read as a block in Bitcoin's format: the header, and one transaction with the outputs of the
job file. The length of the scriptSig is written before the extranonce is known, so it is right only
for extranonces of the sizes the template leaves room for.

`assembled_block_reads_back` is for every job file that is accepted and all extranonces of the sizes
the template leaves room for; what it asks of the library for hex is that a text of two digits for
each byte is what it decodes. `sample_block_reads_back` is a file with two payouts, from its text.

Not modelled here: whether the block is valid, in particular its proof of work and the amount of its
outputs.
-/

set_option autoImplicit false
set_option relaxedAutoImplicit false

namespace Bc3Miner.Solve

open Consensus Foundations Mining

/-! ### Counts -/

/-- A count that fits eight bytes is written in the form it is read in. -/
theorem reads_pushVarint {number : ℕ} (hfits : number < 2 ^ 64) :
    Reads readCompactSize (pushVarint [] number) number := by
  unfold pushVarint
  split_ifs with hbyte hword hdouble
  · have hsize : number < UInt8.size := Nat.lt_of_le_of_lt hbyte (by decide)
    have hvalue : (UInt8.ofNat number).toNat = number := UInt8.toNat_ofNat_of_lt hsize
    have hread := reads_compactSize_byte (UInt8.ofNat number) (by rw [hvalue]; omega)
    rwa [hvalue] at hread
  · have hwide : Reads (readWide 2 0xfd) (leBytesOf 2 number) number := by
      refine reads_wide ?_ ?_ <;> omega
    exact (Reads.byte 0xfd).bind hwide
  · have hwide : Reads (readWide 4 (2 ^ 16)) (leBytesOf 4 number) number := by
      refine reads_wide ?_ ?_ <;> omega
    exact (Reads.byte 0xfe).bind hwide
  · have hwide : Reads (readWide 8 (2 ^ 32)) (leBytesOf 8 number) number := by
      refine reads_wide ?_ ?_ <;> omega
    exact (Reads.byte 0xff).bind hwide

/-- A script is read back from behind its length. -/
theorem reads_script_of_pushVarint {script : List UInt8} (hfits : script.length < 2 ^ 64) :
    Reads readScript (pushVarint [] script.length ++ script) script :=
  reads_script (reads_pushVarint hfits)

/-! ### The outputs -/

/-- An output pays what a payout of the file says. -/
def Pays (libraries : Libraries) (payout : Payout) (output : TxOutput) : Prop :=
  output.value = payout.satoshis.toNat ∧
    libraries.hex.decode (trim payout.scriptPubKey) = some output.script

/-- The bytes of an output. -/
def outputBytes (output : TxOutput) : List UInt8 :=
  leBytesOf 8 output.value ++ (pushVarint [] output.script.length ++ output.script)

/-- A trimmed text is no longer than the text. -/
theorem length_trim_le (text : String) : (trim text).length ≤ text.length := by
  unfold trim
  rw [List.length_reverse]
  calc _ ≤ _ := (List.dropWhile_sublist _).length_le
    _ = _ := List.length_reverse
    _ ≤ text.toList.length := (List.dropWhile_sublist _).length_le
    _ = text.length := String.length_toList

section Outputs

variable {libraries : Libraries}

/-- A script of a payout is shorter than the text it was written in. -/
theorem Pays.script_fits (hhex : libraries.hex.TwoDigits) {payout : Payout} {output : TxOutput}
    (hpays : Pays libraries payout output) : output.script.length < 2 ^ 64 := by
  have hlength := hhex _ _ hpays.2
  have htrim := length_trim_le payout.scriptPubKey
  have hfits := payout.fits
  omega

theorem Pays.reads (hhex : libraries.hex.TwoDigits) {payout : Payout} {output : TxOutput}
    (hpays : Pays libraries payout output) : Reads readOutput (outputBytes output) output := by
  refine reads_output (reads_leBytesOf ?_) (reads_script_of_pushVarint (hpays.script_fits hhex))
  rw [hpays.1]
  exact payout.satoshis.toNat_lt

/-- Outputs that pay valid payouts are read back one after the other. -/
theorem reads_of_pays (hhex : libraries.hex.TwoDigits) {payouts : List Payout}
    {outputs : List TxOutput} (hpays : List.Forall₂ (Pays libraries) payouts outputs) :
    ∀ output ∈ outputs, Reads readOutput (outputBytes output) output := by
  induction hpays with
  | nil =>
    intro output houtput
    exact absurd houtput List.not_mem_nil
  | cons hfirst _ ih =>
    intro output houtput
    rcases List.mem_cons.mp houtput with rfl | hlater
    · exact hfirst.reads hhex
    · exact ih output hlater

/-- The loop over the payouts writes one output for each, in order. -/
theorem pushPayouts_eq_ok {payouts : List Payout} {out result : List UInt8} {total final : UInt64}
    {index : ℕ} (hpush : pushPayouts libraries out total index payouts = .ok (result, final)) :
    ∃ outputs, List.Forall₂ (Pays libraries) payouts outputs ∧
      result = out ++ outputs.flatMap outputBytes := by
  induction payouts generalizing out total index with
  | nil =>
    obtain ⟨rfl, -⟩ := Prod.mk.inj (Except.ok.inj hpush)
    exact ⟨[], .nil, (List.append_nil _).symm⟩
  | cons payout payouts ih =>
    obtain ⟨script, hscript, hrest⟩ := bind_eq_ok.mp hpush
    split_ifs at hrest with htotal
    obtain ⟨outputs, hpays, rfl⟩ := ih hrest
    refine ⟨⟨payout.satoshis.toNat, script⟩ :: outputs,
      .cons ⟨rfl, unhex_eq_ok.mp hscript⟩ hpays, ?_⟩
    rw [pushVarint_eq, List.flatMap_cons, outputBytes]
    simp only [List.append_assoc]

end Outputs

/-! ### The block -/

/-- The transaction a share makes of a template. -/
def coinbaseOf (scriptSig : List UInt8) (outputs : List TxOutput) : Transaction where
  version := 2
  inputs := [⟨List.replicate 32 0, 2 ^ 32 - 1, scriptSig, 2 ^ 32 - 1⟩]
  outputs := outputs
  lockTime := 0

/-- The coinbase around a scriptSig whose length was written before it is read back as a transaction
with one input, the scriptSig among its fields, and the outputs, if each output and their count are
read back. -/
theorem reads_coinbase {scriptSig count : List UInt8} {outputs : List TxOutput}
    (hscriptSig : scriptSig.length < 2 ^ 64) (hcount : Reads readCompactSize count outputs.length)
    (houtputs : ∀ output ∈ outputs, Reads readOutput (outputBytes output) output) :
    Reads readTransaction
      (leBytesOf 4 2 ++ ([1] ++ ((List.replicate 32 0 ++ (List.replicate 4 0xff ++
        ((pushVarint [] scriptSig.length ++ scriptSig) ++ List.replicate 4 0xff))) ++
        (count ++ (outputs.flatMap outputBytes ++ leBytesOf 4 0)))))
      (coinbaseOf scriptSig outputs) := by
  have hones : Reads (readNumber 4) (List.replicate 4 0xff) (2 ^ 32 - 1) :=
    reads_number rfl (by decide)
  have hzeros : (List.replicate 32 (0 : UInt8)).length = 32 := List.length_replicate
  have hinput := reads_input hzeros hones
    (reads_script_of_pushVarint hscriptSig) hones
  have hmapped : (outputs.map fun output ↦ (outputBytes output, output)).map Prod.snd =
    outputs := by
    rw [List.map_map]
    exact List.map_id _
  have hentries : ∀ entry ∈ outputs.map fun output ↦ (outputBytes output, output),
      Reads readOutput entry.1 entry.2 := by
    intro entry hentry
    obtain ⟨output, houtput, rfl⟩ := List.mem_map.mp hentry
    exact houtputs output houtput
  have htransaction := reads_transaction
    (reads_leBytesOf (show 2 < 256 ^ 4 by decide)) hinput
    (by rw [List.length_map]; exact hcount) hentries (reads_leBytesOf (show 0 < 256 ^ 4 by decide))
  rw [hmapped, List.flatMap_map] at htransaction
  exact htransaction

/-- The block is the header, a count of one, and the coinbase. -/
theorem assemble_block (sha256d : List UInt8 → Bytes32) (job : MinerJob) (share : FoundShare) :
    (assemble sha256d job share).2 = (assemble sha256d job share).1.toList ++ [1] ++
      (job.coinb1 ++ job.extranonce1 ++ share.extranonce2 ++ job.coinb2) := rfl

section Assemble

variable (libraries : Libraries) (deserialize : String → Except String JobFile)
variable (fromUtf8Lossy : List UInt8 → String) (sha256d : List UInt8 → Bytes32)

/-- Assume that the library for hex reads two digits for every byte, and let the extranonces have
the four bytes each that the template leaves room for. For every job file that is accepted, the
block a share makes then reads back, to its last byte, to the header and one transaction: version 2,
the null outpoint, a scriptSig of 2 to 100 bytes made of the height's push, the text and the
extranonces, the payouts in order, and lock time 0. The merkle root of the header is the hash of
exactly that transaction's bytes. -/
theorem assembled_block_reads_back (hhex : libraries.hex.TwoDigits) {json : String}
    {template : Template}
    (hparse : Template.parse libraries deserialize fromUtf8Lossy json = .ok template) (id : ℕ)
    (difficulty : Binary64) {extranonce1 : List UInt8} (share : FoundShare)
    (hextranonce1 : extranonce1.length = 4) (hextranonce2 : share.extranonce2.length = 4) :
    ∃ file text push outputs coinbase, deserialize json = .ok file ∧
      libraries.hex.decode (trim file.scriptSigData) = some text ∧
      bip34Height file.height = .ok push ∧
      file.payouts ≠ [] ∧ List.Forall₂ (Pays libraries) file.payouts outputs ∧
      let scriptSig := push ++ text ++ extranonce1 ++ share.extranonce2
      let (header, block) := assemble sha256d (template.job id extranonce1 difficulty) share
      2 ≤ scriptSig.length ∧ scriptSig.length ≤ 100 ∧
        header = BlockHeader.serialize
          { version := template.version
            prevHash := template.prevHash
            merkleRoot := sha256d coinbase
            time := share.ntime
            bits := template.bits
            nonce := share.nonce } ∧
        block = header.toList ++ [1] ++ coinbase ∧
        readTransaction coinbase = some (coinbaseOf scriptSig outputs, []) ∧
        readBlock block = some (⟨header.toList, [coinbaseOf scriptSig outputs]⟩, []) := by
  obtain ⟨file, text, push, written, hfile, hdecoded⟩ := Template.decoded_of_parse hparse
  obtain ⟨total, hwrites⟩ := hdecoded.writes
  obtain ⟨outputs, hpays, rfl⟩ := pushPayouts_eq_ok hwrites
  have hlength : (push ++ text ++ extranonce1 ++ share.extranonce2).length =
      push.length + text.length + extranonce1Size + extranonce2Size := by
    rw [List.length_append, List.length_append, List.length_append, hextranonce1, hextranonce2]
    rfl
  have hfits : (push ++ text ++ extranonce1 ++ share.extranonce2).length < 2 ^ 64 := by
    rw [hlength]
    exact hdecoded.most.trans_lt (by decide)
  have hcount : Reads readCompactSize (pushVarint [] file.payouts.length) outputs.length := by
    rw [← hpays.length_eq]
    exact reads_pushVarint file.fits
  have hreads := reads_coinbase hfits hcount (reads_of_pays hhex hpays)
  have hcoinbase : template.coinb1 ++ extranonce1 ++ share.extranonce2 ++ template.coinb2 =
      leBytesOf 4 2 ++ ([1] ++ ((List.replicate 32 0 ++ (List.replicate 4 0xff ++
        ((pushVarint [] (push ++ text ++ extranonce1 ++ share.extranonce2).length ++
          (push ++ text ++ extranonce1 ++ share.extranonce2)) ++ List.replicate 4 0xff))) ++
        (pushVarint [] file.payouts.length ++
          (outputs.flatMap outputBytes ++ leBytesOf 4 0)))) := by
    rw [hdecoded.coinb1, hdecoded.coinb2, coinbaseStart, hlength, pushVarint_eq,
      pushVarint_eq (List.replicate 4 0xff)]
    simp only [List.append_assoc]
  rw [← hcoinbase] at hreads
  refine ⟨file, text, push, outputs,
    template.coinb1 ++ extranonce1 ++ share.extranonce2 ++ template.coinb2, hfile,
    unhex_eq_ok.mp hdecoded.decodes, hdecoded.pushes, hdecoded.payouts, hpays, ?_, ?_, rfl, ?_,
    hreads.whole, ?_⟩
  · rw [hlength]
    exact hdecoded.least
  · rw [hlength]
    exact hdecoded.most
  · exact assemble_block sha256d (template.job id extranonce1 difficulty) share
  · have hheader : (assemble sha256d
      (template.job id extranonce1 difficulty) share).1.toList.length = 80 :=
      Vector.length_toList
    have hread := (reads_block hheader hreads).whole
    rw [← List.append_assoc] at hread
    exact hread

end Assemble

/-- The block of a share of the sample's template, with its two outputs, and what is read of it. -/
theorem sample_block_reads_back :
    ∃ template, Template.parse sampleLibraries (readsSample 64360) fromUtf8Lossy
        (sampleText 64360) = .ok template ∧
      let share : FoundShare := ⟨"", [9, 8, 7, 6], 0, 0, Vector.replicate 32 0, false⟩
      let (header, block) := assemble (fun _ ↦ Vector.replicate 32 0)
        (template.job 1 [1, 2, 3, 4] (.ofNat 1)) share
      readBlock block = some (⟨header.toList, [coinbaseOf
        [3, 0x68, 0xfb, 0x00, 0x53, 0x48, 1, 2, 3, 4, 9, 8, 7, 6]
        [⟨21000000, [0x6a, 0x02, 0x53, 0xef]⟩, ⟨100000000, [0x51]⟩]]⟩, []) := by
  have hsome : ((sampleFile 64360).template sampleLibraries
      fromUtf8Lossy).toOption.isSome = true := by
    decide +kernel
  cases hmade : (sampleFile 64360).template sampleLibraries fromUtf8Lossy with
  | error why =>
    rw [hmade] at hsome
    cases hsome
  | ok template =>
    have hparse := (parse_sampleText sampleLibraries fromUtf8Lossy 64360).trans hmade
    obtain ⟨file, text, push, outputs, _, hfile, htext, hpush, -, hpays, -, -, -, -, -, hread⟩ :=
      assembled_block_reads_back sampleLibraries _ _ (fun _ ↦ Vector.replicate 32 0)
        HexCodec.plain_twoDigits hparse 1 (.ofNat 1)
        ⟨"", [9, 8, 7, 6], 0, 0, Vector.replicate 32 0, false⟩
        (show [1, 2, 3, 4].length = 4 from rfl) rfl
    obtain rfl := Except.ok.inj ((readsSample_self 64360).symm.trans hfile)
    obtain rfl : [0x53, 0x48] = text := Option.some.inj (htext.symm.trans (by decide)).symm
    have hheight : bip34Height (sampleFile 64360).height = .ok [3, 0x68, 0xfb, 0x00] := by
      have hnumber : scriptNumber 64360 = [0x68, 0xfb, 0x00] := by decide +kernel
      rw [bip34Height, if_neg (by decide)]
      show Except.ok (UInt8.ofNat (scriptNumber 64360).length :: scriptNumber 64360) = _
      rw [hnumber]
      rfl
    obtain rfl := Except.ok.inj (hheight.symm.trans hpush)
    obtain ⟨⟨first, firstScript⟩, rest, hfirst, hrest, rfl⟩ := List.forall₂_cons_left_iff.mp hpays
    obtain ⟨⟨second, secondScript⟩, none, hsecond, hnone, rfl⟩ :=
      List.forall₂_cons_left_iff.mp hrest
    obtain rfl := List.forall₂_nil_left_iff.mp hnone
    obtain rfl : first = 21000000 := hfirst.1
    obtain rfl : second = 100000000 := hsecond.1
    obtain rfl : [0x6a, 0x02, 0x53, 0xef] = firstScript :=
      Option.some.inj (hfirst.2.symm.trans (by decide)).symm
    obtain rfl : [0x51] = secondScript := Option.some.inj (hsecond.2.symm.trans (by decide)).symm
    exact ⟨template, hparse, hread⟩

end Bc3Miner.Solve
