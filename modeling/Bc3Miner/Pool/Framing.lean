import Bc3Miner.Foundations.Pieces
import Bc3Miner.Foundations.Utf8

/-!
# Lines out of a socket

`next_line` of `src/stratum.rs` hands out one complete line at a time and keeps what it has read of
the next one in a buffer between calls, so that a read timeout in the middle of a message loses
nothing. A line that grows beyond `MAX_LINE_BYTES` without an end is refused.

What the socket answers to one read after the other is a list of `Read`s, and a call that would go
on past its end has not returned. The stream is cut into reads anywhere; the lines handed out do not
depend on where.

`lines_whatever_the_reads` is the result, for all calls up to the one that has not returned: the
lines are the pieces of the stream between newlines, without a carriage return at their end, decoded
with replacement characters. Text in UTF-8 is handed out byte for byte, other bytes are replaced and
never refused (`latin1Line_altered`).

Not modelled here: how long a read may block.
-/

set_option autoImplicit false
set_option relaxedAutoImplicit false

namespace Bc3Miner.Pool

open Foundations

/-! ### Reads and calls -/

def maxLineBytes : ℕ := 64 * 1024

/-- How much one read takes at most. -/
def chunkBytes : ℕ := 8192

/-- The end of a line. -/
def newline : UInt8 := 10

def carriageReturn : UInt8 := 13

/-- The kinds of error that the caller sees; what the socket itself failed with is not told
apart. -/
inductive ErrorKind
  | invalidData
  | connectionAborted
  | other
  deriving DecidableEq, Repr

/-- The bytes of one read that read something. -/
structure Chunk where
  bytes : List UInt8
  nonempty : 0 < bytes.length
  fits : bytes.length ≤ chunkBytes

/-- What the socket answers to one read: some bytes, the end of the stream, a timeout, or an
error. -/
inductive Read
  | bytes (chunk : Chunk)
  | closed
  | timedOut
  | failed (kind : ErrorKind)

namespace Read

/-- The bytes that a read takes off the stream. -/
def taken : Read → List UInt8
  | .bytes chunk => chunk.bytes
  | _ => []

/-- A read that brings bytes or a timeout. -/
def quiet : Read → Bool
  | .bytes _ | .timedOut => true
  | _ => false

end Read

/-- What a call has come to; `reading` is a call that waits for the next read. -/
inductive Outcome
  | line (text : String)
  | nothing
  | failed (kind : ErrorKind)
  | reading
  deriving DecidableEq, Repr

/-- The connection as `next_line` sees it: the partial line, and what the socket will answer. -/
structure Reader where
  buf : List UInt8
  reads : List Read

/-- The stream that a list of reads brings. -/
def streamOf (reads : List Read) : List UInt8 := reads.flatMap Read.taken

/-- Every byte that has not been handed out yet. -/
def Reader.unread (reader : Reader) : List UInt8 := reader.buf ++ streamOf reader.reads

/-- One carriage return before the newline is not part of the line. -/
def trimReturn (line : List UInt8) : List UInt8 :=
  if line.getLast? = some carriageReturn then line.dropLast else line

/-- The text of a line without its newline. -/
def lineText (line : List UInt8) : String := fromUtf8Lossy (trimReturn line)

/-- `next_line`. -/
def nextLine (buf : List UInt8) (reads : List Read) : Outcome × Reader :=
  match buf.idxOf? newline with
  | some position =>
    let line := buf.take (position + 1)
    (.line (lineText line.dropLast), ⟨buf.drop (position + 1), reads⟩)
  | none =>
    if maxLineBytes < buf.length then (.failed .invalidData, ⟨buf, reads⟩)
    else
      match reads with
      | [] => (.reading, ⟨buf, []⟩)
      | .closed :: rest => (.failed .connectionAborted, ⟨buf, rest⟩)
      | .bytes chunk :: rest => nextLine (buf ++ chunk.bytes) rest
      | .timedOut :: rest => (.nothing, ⟨buf, rest⟩)
      | .failed kind :: rest => (.failed kind, ⟨buf, rest⟩)

/-- After a call that fails the session is over, and one that does not return has none after it. -/
def Outcome.last : Outcome → Bool
  | .failed _ | .reading => true
  | _ => false

/-- At most so many calls one after the other. -/
def calls : ℕ → Reader → List Outcome × Reader
  | 0, reader => ([], reader)
  | count + 1, reader =>
    let answer := nextLine reader.buf reader.reads
    if answer.1.last = true then ([answer.1], answer.2)
    else (answer.1 :: (calls count answer.2).1, (calls count answer.2).2)

/-- The lines handed out. -/
def delivered (outcomes : List Outcome) : List String :=
  outcomes.filterMap fun
    | .line text => some text
    | _ => none

theorem delivered_cons (outcome : Outcome) (rest : List Outcome) :
    delivered (outcome :: rest) = delivered [outcome] ++ delivered rest := by
  cases outcome <;> rfl

/-! ### One call -/

/-- At the first newline the buffer is cut into a line without one, the newline and the rest. -/
theorem cut_at {buf : List UInt8} {position : ℕ} (hfound : buf.idxOf? newline = some position) :
    newline ∉ (buf.take (position + 1)).dropLast ∧
      buf = (buf.take (position + 1)).dropLast ++ newline :: buf.drop (position + 1) := by
  obtain ⟨hlt, hat, hbefore⟩ := List.idxOf?_eq_some_iff.mp hfound
  have hfront : (buf.take (position + 1)).dropLast = buf.take position := by
    rw [List.take_succ_eq_append_getElem hlt, List.dropLast_concat]
  rw [hfront]
  constructor
  · intro hmem
    obtain ⟨index, hindex, hget⟩ := List.mem_iff_getElem.mp hmem
    rw [List.getElem_take] at hget
    rw [List.length_take] at hindex
    exact hbefore index (by omega) hget
  · rw [← hat, ← List.drop_eq_getElem_cons hlt, List.take_append_drop]

theorem streamOf_cons (read : Read) (rest : List Read) :
    streamOf (read :: rest) = read.taken ++ streamOf rest :=
  List.flatMap_cons

/-- What a call leaves behind, by what it has come to. A line is handed out up to its newline;
otherwise no byte is, and the buffer has no complete line. A call fails for a buffer that is too
long or for what the socket answered. -/
def Leaves (before : Reader) : Outcome → Reader → Prop
  | .line text, next => ∃ line, newline ∉ line ∧ text = lineText line ∧
      before.unread = line ++ newline :: next.unread ∧
      (before.buf.length ≤ maxLineBytes + chunkBytes → line.length ≤ maxLineBytes + chunkBytes)
  | .nothing, next => next.unread = before.unread ∧ newline ∉ next.buf ∧
      next.reads.length < before.reads.length
  | .failed kind, next => next.unread = before.unread ∧ newline ∉ next.buf ∧
      ((∀ read ∈ before.reads, read.quiet = true) → kind = .invalidData ∧
      maxLineBytes < next.buf.length)
  | .reading, next => next.unread = before.unread ∧ newline ∉ next.buf ∧ next.reads = [] ∧
      next.buf.length ≤ maxLineBytes

/-- What a call leaves after a read is what it leaves from the buffer with the chunk in it. -/
theorem Leaves.of_read {buf : List UInt8} {chunk : Chunk} {rest : List Read} {outcome : Outcome}
    {next : Reader} (hbuf : buf.length ≤ maxLineBytes)
    (hleaves : Leaves ⟨buf ++ chunk.bytes, rest⟩ outcome next) :
    Leaves ⟨buf, .bytes chunk :: rest⟩ outcome next := by
  have hunread : Reader.unread ⟨buf, .bytes chunk :: rest⟩ =
    Reader.unread ⟨buf ++ chunk.bytes, rest⟩ := by
    unfold Reader.unread
    dsimp only
    rw [streamOf_cons, List.append_assoc]
    rfl
  have hlonger : (buf ++ chunk.bytes).length ≤ maxLineBytes + chunkBytes := by
    rw [List.length_append]
    exact Nat.add_le_add hbuf chunk.fits
  cases outcome with
  | line text =>
    obtain ⟨line, hline, htext, hsplit, hbound⟩ := hleaves
    exact ⟨line, hline, htext, hunread.trans hsplit, fun _ ↦ hbound hlonger⟩
  | nothing =>
    obtain ⟨hsame, hopen, hfewer⟩ := hleaves
    exact ⟨hsame.trans hunread.symm, hopen, hfewer.trans (Nat.lt_succ_self _)⟩
  | failed kind =>
    obtain ⟨hsame, hopen, hwhy⟩ := hleaves
    exact ⟨hsame.trans hunread.symm, hopen,
      fun hquiet ↦ hwhy fun read hread ↦ hquiet read (List.mem_cons_of_mem _ hread)⟩
  | reading =>
    obtain ⟨hsame, hopen, hend, hshort⟩ := hleaves
    exact ⟨hsame.trans hunread.symm, hopen, hend, hshort⟩

/-- A line that is complete is handed out without another read. -/
theorem nextLine_found {buf : List UInt8} {position : ℕ}
    (hfound : buf.idxOf? newline = some position)
    (reads : List Read) :
    nextLine buf reads =
      (.line (lineText (buf.take (position + 1)).dropLast), ⟨buf.drop (position + 1), reads⟩) := by
  rw [nextLine.eq_def, hfound]

/-- A partial line that is too long is refused. -/
theorem nextLine_long {buf : List UInt8} (hopen : newline ∉ buf) (hlong : maxLineBytes < buf.length)
    (reads : List Read) : nextLine buf reads = (.failed .invalidData, ⟨buf, reads⟩) := by
  rw [nextLine.eq_def, List.idxOf?_eq_none_iff.mpr hopen]
  exact if_pos hlong

/-- Otherwise the socket is read. -/
theorem nextLine_read {buf : List UInt8} (hopen : newline ∉ buf)
    (hshort : ¬ maxLineBytes < buf.length)
    (read : Read) (rest : List Read) :
    nextLine buf (read :: rest) =
      match read with
      | .closed => (.failed .connectionAborted, ⟨buf, rest⟩)
      | .bytes chunk => nextLine (buf ++ chunk.bytes) rest
      | .timedOut => (.nothing, ⟨buf, rest⟩)
      | .failed kind => (.failed kind, ⟨buf, rest⟩) := by
  rw [nextLine.eq_def, List.idxOf?_eq_none_iff.mpr hopen]
  dsimp only
  rw [if_neg hshort]
  cases read <;> rfl

/-- With no newline, no line too long and nothing more to read the call keeps reading. -/
theorem nextLine_end {buf : List UInt8} (hopen : newline ∉ buf)
    (hshort : ¬ maxLineBytes < buf.length) :
    nextLine buf [] = (.reading, ⟨buf, []⟩) := by
  rw [nextLine.eq_def, List.idxOf?_eq_none_iff.mpr hopen]
  dsimp only
  rw [if_neg hshort]

/-- What a call does: what it leaves behind, which reads are left, and how long the buffer is. -/
structure Settles (buf : List UInt8) (reads : List Read) : Prop where
  leaves : Leaves ⟨buf, reads⟩ (nextLine buf reads).1 (nextLine buf reads).2
  suffix : (nextLine buf reads).2.reads <:+ reads
  bounded : buf.length ≤ maxLineBytes + chunkBytes →
    (nextLine buf reads).2.buf.length ≤ maxLineBytes + chunkBytes

/-- A buffer with a newline settles: the line is given back and the rest kept. -/
theorem settles_found {buf : List UInt8} {position : ℕ}
    (hfound : buf.idxOf? newline = some position)
    (reads : List Read) : Settles buf reads := by
  obtain ⟨hline, hcut⟩ := cut_at hfound
  have hcall := nextLine_found hfound reads
  constructor
  · rw [hcall]
    refine ⟨(buf.take (position + 1)).dropLast, hline, rfl, ?_, fun hbound ↦ ?_⟩
    · unfold Reader.unread
      dsimp only
      rw [← List.cons_append, ← List.append_assoc, ← hcut]
    · have hshorter : (buf.take (position + 1)).dropLast.length ≤ buf.length :=
        ((List.dropLast_sublist _).trans (List.take_sublist _ _)).length_le
      exact hshorter.trans hbound
  · rw [hcall]
  · rw [hcall]
    exact fun hbound ↦ (List.drop_sublist _ _).length_le.trans hbound

/-- A buffer that is too long and has no newline settles: the call fails. -/
theorem settles_long {buf : List UInt8} (hopen : newline ∉ buf) (hlong : maxLineBytes < buf.length)
    (reads : List Read) : Settles buf reads := by
  have hcall := nextLine_long hopen hlong reads
  constructor
  · rw [hcall]
    exact ⟨rfl, hopen, fun _ ↦ ⟨rfl, hlong⟩⟩
  · rw [hcall]
  · rw [hcall]
    exact id

/-- Every call settles, whatever is in the buffer: the line is there, it is too long, or what the
socket answers next decides, and only bytes keep the call going. -/
theorem nextLine_settles (buf : List UInt8) (reads : List Read) : Settles buf reads := by
  induction reads generalizing buf with
  | nil =>
    cases hfound : buf.idxOf? newline with
    | some position => exact settles_found hfound []
    | none =>
      have hopen := List.idxOf?_eq_none_iff.mp hfound
      by_cases hlong : maxLineBytes < buf.length
      · exact settles_long hopen hlong []
      · have hcall := nextLine_end hopen hlong
        constructor
        · rw [hcall]
          exact ⟨rfl, hopen, rfl, Nat.not_lt.mp hlong⟩
        · rw [hcall]
        · rw [hcall]
          exact id
  | cons read rest ih =>
    cases hfound : buf.idxOf? newline with
    | some position => exact settles_found hfound (read :: rest)
    | none =>
      have hopen := List.idxOf?_eq_none_iff.mp hfound
      by_cases hlong : maxLineBytes < buf.length
      · exact settles_long hopen hlong (read :: rest)
      have hcall := nextLine_read hopen hlong read rest
      cases read with
      | bytes chunk =>
        have hnext := ih (buf ++ chunk.bytes)
        constructor
        · rw [hcall]
          exact .of_read (Nat.not_lt.mp hlong) hnext.leaves
        · rw [hcall]
          exact hnext.suffix.trans (List.suffix_cons _ _)
        · rw [hcall]
          intro _
          refine hnext.bounded ?_
          rw [List.length_append]
          exact Nat.add_le_add (Nat.not_lt.mp hlong) chunk.fits
      | closed =>
        constructor
        · rw [hcall]
          refine ⟨rfl, hopen, fun hquiet ↦ ?_⟩
          exact absurd (hquiet .closed List.mem_cons_self) Bool.false_ne_true
        · rw [hcall]
          exact List.suffix_cons _ _
        · rw [hcall]
          exact id
      | timedOut =>
        constructor
        · rw [hcall]
          exact ⟨rfl, hopen, Nat.lt_succ_self _⟩
        · rw [hcall]
          exact List.suffix_cons _ _
        · rw [hcall]
          exact id
      | failed kind =>
        constructor
        · rw [hcall]
          refine ⟨rfl, hopen, fun hquiet ↦ ?_⟩
          exact absurd (hquiet (.failed kind) List.mem_cons_self) Bool.false_ne_true
        · rw [hcall]
          exact List.suffix_cons _ _
        · rw [hcall]
          exact id

/-! ### Calls one after the other -/

theorem calls_last {count : ℕ} {reader : Reader}
    (hlast : (nextLine reader.buf reader.reads).1.last = true) :
    calls (count + 1) reader =
      ([(nextLine reader.buf reader.reads).1], (nextLine reader.buf reader.reads).2) := if_pos hlast

/-- After a call that is not the last, the next one goes on with the buffer and the reads it left.
-/
theorem calls_more {count : ℕ} {reader : Reader}
    (hmore : (nextLine reader.buf reader.reads).1.last = false) :
    calls (count + 1) reader =
      ((nextLine reader.buf reader.reads).1 :: (calls count (nextLine reader.buf reader.reads).2).1,
        (calls count (nextLine reader.buf reader.reads).2).2) :=
  if_neg (Bool.not_eq_true _ ▸ hmore)

/-- The buffer is never longer than a line and one read. -/
theorem calls_bounded (count : ℕ) {reader : Reader}
    (hbound : reader.buf.length ≤ maxLineBytes + chunkBytes) :
    (calls count reader).2.buf.length ≤ maxLineBytes + chunkBytes := by
  induction count generalizing reader with
  | zero => exact hbound
  | succ count ih =>
    have hnext := (nextLine_settles reader.buf reader.reads).bounded hbound
    cases hlast : (nextLine reader.buf reader.reads).1.last with
    | true =>
      rw [calls_last hlast]
      exact hnext
    | false =>
      rw [calls_more hlast]
      exact ih hnext

/-- How a session of calls comes to its end: the reads are used up, or a call has failed; of itself
only for a partial line that is too long. -/
def EndsWith (before : Reader) (final : Outcome) (after : Reader) : Prop :=
  newline ∉ after.buf ∧
    ((final = .reading ∧ after.reads = [] ∧ after.buf.length ≤ maxLineBytes) ∨
      ∃ kind, final = .failed kind ∧
        ((∀ read ∈ before.reads, read.quiet = true) → kind = .invalidData ∧
          maxLineBytes < after.buf.length))

/-- A last call takes no byte off the stream. -/
theorem Leaves.last {before next : Reader} {outcome : Outcome}
    (hleaves : Leaves before outcome next)
    (hlast : outcome.last = true) :
    next.unread = before.unread ∧ delivered [outcome] = [] ∧ EndsWith before outcome next := by
  cases outcome with
  | line text => cases hlast
  | nothing => cases hlast
  | failed kind => exact ⟨hleaves.1, rfl, hleaves.2.1, .inr ⟨kind, rfl, hleaves.2.2⟩⟩
  | reading => exact ⟨hleaves.1, rfl, hleaves.2.1, .inl ⟨rfl, hleaves.2.2⟩⟩

/-- A call that is not the last either hands out a line, which is the next piece of the stream and
no longer than a line and a read, or hands out nothing and leaves the stream as it was with a read
less. -/
theorem Leaves.more {before next : Reader} {outcome : Outcome}
    (hleaves : Leaves before outcome next)
    (hmore : outcome.last = false) (hfewer : next.reads.length ≤ before.reads.length) :
    (∃ lines, (before.buf.length ≤ maxLineBytes + chunkBytes →
        ∀ line ∈ lines, line.length ≤ maxLineBytes + chunkBytes) ∧
      delivered [outcome] = lines.map lineText ∧
      before.unread.splitOn newline = lines ++ next.unread.splitOn newline) ∧
    next.unread.length + next.reads.length < before.unread.length + before.reads.length := by
  cases outcome with
  | line text =>
    obtain ⟨line, hline, rfl, hunread, hshort⟩ := hleaves
    refine ⟨⟨[line], fun hbound ↦ List.forall_mem_singleton.mpr (hshort hbound), rfl, ?_⟩, ?_⟩
    · rw [hunread, List.splitOn_append_cons_self_of_not_mem hline]
      rfl
    · rw [hunread, List.length_append, List.length_cons]
      omega
  | nothing =>
    obtain ⟨hunread, -, hless⟩ := hleaves
    refine ⟨⟨[], fun _ ↦ List.forall_mem_nil _, rfl, ?_⟩, ?_⟩
    · rw [hunread]
      rfl
    · rw [hunread]
      exact Nat.add_lt_add_left hless _
  | failed kind => cases hmore
  | reading => cases hmore

/-- However often the reader is called, on a buffer no longer than a line and a read: the lines
handed out are the first pieces of what was to be read, decoded, none of them longer than a line and
a read, and the other pieces are those of what is still to be read. -/
theorem calls_split (count : ℕ) (reader : Reader)
    (hbound : reader.buf.length ≤ maxLineBytes + chunkBytes) :
    ∃ lines, (∀ line ∈ lines, line.length ≤ maxLineBytes + chunkBytes) ∧
      delivered (calls count reader).1 = lines.map lineText ∧
      reader.unread.splitOn newline = lines ++ (calls count reader).2.unread.splitOn newline := by
  induction count generalizing reader with
  | zero => exact ⟨[], List.forall_mem_nil _, rfl, rfl⟩
  | succ count ih =>
    obtain ⟨hleaves, hsuffix, hbounded⟩ := nextLine_settles reader.buf reader.reads
    cases hlast : (nextLine reader.buf reader.reads).1.last with
    | true =>
      obtain ⟨hunread, hnone, -⟩ := hleaves.last hlast
      rw [calls_last hlast]
      refine ⟨[], List.forall_mem_nil _, hnone, ?_⟩
      rw [hunread]
      rfl
    | false =>
      obtain ⟨⟨first, hfirst, hdelivered, hsplit⟩, -⟩ := hleaves.more hlast hsuffix.length_le
      obtain ⟨lines, hlines, hothers, hrest⟩ := ih _ (hbounded hbound)
      rw [calls_more hlast]
      refine ⟨first ++ lines, ?_, ?_, ?_⟩
      · exact List.forall_mem_append.mpr ⟨hfirst hbound, hlines⟩
      · rw [List.map_append, ← hothers, ← hdelivered]
        exact delivered_cons _ _
      · rw [List.append_assoc, ← hrest]
        exact hsplit

/-- Every call that hands out a line takes it off the stream, and every other takes a read. -/
theorem calls_finish (count : ℕ) (reader : Reader)
    (henough : reader.unread.length + reader.reads.length < count) :
    ∃ final, (calls count reader).1.getLast? = some final ∧
      EndsWith reader final (calls count reader).2 := by
  induction count generalizing reader with
  | zero => exact absurd henough (Nat.not_lt_zero _)
  | succ count ih =>
    obtain ⟨hleaves, hsuffix, -⟩ := nextLine_settles reader.buf reader.reads
    cases hlast : (nextLine reader.buf reader.reads).1.last with
    | true =>
      rw [calls_last hlast]
      exact ⟨_, rfl, (hleaves.last hlast).2.2⟩
    | false =>
      have hless := (hleaves.more hlast hsuffix.length_le).2
      obtain ⟨final, hfinal, hopen, hend⟩ :=
        ih _ (Nat.lt_of_lt_of_le hless (Nat.lt_succ_iff.mp henough))
      rw [calls_more hlast]
      refine ⟨final, List.mem_getLast?_cons hfinal, hopen, ?_⟩
      refine hend.imp_right fun ⟨kind, hkind, hwhy⟩ ↦ ⟨kind, hkind, fun hquiet ↦ ?_⟩
      exact hwhy fun read hread ↦ hquiet read (hsuffix.mem hread)

/-! ### Whole streams -/

/-- Let a buffer hold a part of a line that is too long already. If all complete lines of the stream
are short enough, that part belongs to none of them, so it is in what comes after the last newline
and all complete lines have been handed out. -/
theorem only_tail_is_long {lines others : List (List UInt8)} {tail rest : List UInt8}
    {reader : Reader}
    (hopen : newline ∉ reader.buf) (hlong : maxLineBytes < reader.buf.length)
    (hunread : reader.unread = reader.buf ++ rest)
    (hsplit : lines ++ [tail] = others ++ reader.unread.splitOn newline)
    (hshort : ∀ line ∈ lines, line.length ≤ maxLineBytes) :
    others = lines ∧ reader.unread = tail := by
  obtain ⟨piece, pieces, -, hpieces⟩ := splitOn_append_of_notMem hopen rest
  rw [← hunread] at hpieces
  rw [hpieces] at hsplit
  have hlast : pieces = [] := by
    by_contra hmore
    have hmem : reader.buf ++ piece ∈ lines := by
      have hinit := congrArg List.dropLast hsplit
      rw [List.dropLast_concat, List.dropLast_append_of_ne_nil (List.cons_ne_nil _ _),
        List.dropLast_cons_of_ne_nil hmore] at hinit
      rw [hinit]
      exact List.mem_append_right _ List.mem_cons_self
    have hbound := hshort _ hmem
    rw [List.length_append] at hbound
    omega
  rw [hlast] at hsplit hpieces
  obtain ⟨hlines, htail⟩ := List.append_inj' hsplit rfl
  refine ⟨hlines.symm, ?_⟩
  rw [eq_of_splitOn_singleton hpieces, List.head_eq_of_cons_eq htail]

/-- Bytes and timeouts alone, with lines that are short enough: the lines handed out are the pieces
of the stream but the last, however it is cut into reads, and the last stays. -/
theorem calls_of_short_lines {reads : List Read} {lines : List (List UInt8)} {tail : List UInt8}
    {count : ℕ} (hquiet : ∀ read ∈ reads, read.quiet = true)
    (hsplit : (streamOf reads).splitOn newline = lines ++ [tail])
    (hshort : ∀ line ∈ lines, line.length ≤ maxLineBytes)
    (henough : (streamOf reads).length + reads.length < count) :
    delivered (calls count ⟨[], reads⟩).1 = lines.map lineText ∧
      (calls count ⟨[], reads⟩).2.unread = tail ∧
      (tail.length ≤ maxLineBytes → (calls count ⟨[], reads⟩).2.buf = tail) := by
  obtain ⟨others, -, hdelivered, hrest⟩ := calls_split count ⟨[], reads⟩ (Nat.zero_le _)
  obtain ⟨final, -, hopen, hend⟩ := calls_finish count ⟨[], reads⟩ henough
  have hboth : lines ++ [tail] = others ++ (calls count ⟨[], reads⟩).2.unread.splitOn newline :=
    hsplit.symm.trans hrest
  rcases hend with ⟨-, hdone, hbuf⟩ | ⟨kind, -, hwhy⟩
  · have hunread : (calls count ⟨[], reads⟩).2.unread = (calls count ⟨[], reads⟩).2.buf := by
      unfold Reader.unread
      rw [hdone]
      exact List.append_nil _
    rw [hunread, List.splitOn_eq_singleton hopen] at hboth
    obtain ⟨hlines, htail⟩ := List.append_inj' hboth rfl
    have hsame := List.head_eq_of_cons_eq htail
    rw [hdelivered, ← hlines, hunread, ← hsame]
    exact ⟨rfl, rfl, fun _ ↦ rfl⟩
  · obtain ⟨-, hlong⟩ := hwhy hquiet
    obtain ⟨hlines, htail⟩ := only_tail_is_long hopen hlong rfl hboth hshort
    rw [hdelivered, hlines]
    refine ⟨rfl, htail, fun hfits ↦ ?_⟩
    have hlength := congrArg List.length htail
    unfold Reader.unread at hlength
    rw [List.length_append] at hlength
    omega

/-- A stream with a run that is too long without a newline does not keep the calls reading: had
every call returned without an error, every piece would be short enough. -/
theorem calls_of_endless_line {reads : List Read} {run : List UInt8} {count : ℕ}
    (hrun : newline ∉ run)
    (hwithin : run <:+: streamOf reads) (hlong : maxLineBytes + chunkBytes < run.length)
    (henough : (streamOf reads).length + reads.length < count) :
    ∃ kind, (calls count ⟨[], reads⟩).1.getLast? = some (.failed kind) ∧
      ((∀ read ∈ reads, read.quiet = true) → kind = .invalidData) := by
  obtain ⟨lines, hlines, -, hrest⟩ := calls_split count ⟨[], reads⟩ (Nat.zero_le _)
  obtain ⟨final, hfinal, hopen, hend⟩ := calls_finish count ⟨[], reads⟩ henough
  rcases hend with ⟨-, hdone, hbuf⟩ | ⟨kind, hkind, hwhy⟩
  · exfalso
    obtain ⟨piece, hpiece, hpart⟩ := exists_piece_of_infix hrun hwithin
    have hunread : (calls count ⟨[], reads⟩).2.unread = (calls count ⟨[], reads⟩).2.buf := by
      unfold Reader.unread
      rw [hdone]
      exact List.append_nil _
    have hpieces : (streamOf reads).splitOn newline = lines ++
      [(calls count ⟨[], reads⟩).2.buf] := by
      rw [← List.splitOn_eq_singleton hopen, ← hunread]
      exact hrest
    rw [hpieces] at hpiece
    have hlength := hpart.length_le
    rcases List.mem_append.mp hpiece with hline | htail
    · have hbound := hlines piece hline
      omega
    · rw [List.mem_singleton.mp htail] at hlength
      omega
  · refine ⟨kind, ?_, fun hquiet ↦ (hwhy hquiet).1⟩
    rw [hfinal, hkind]

/-- The lines that repeated calls hand out. Whatever the socket answers, at any moment the lines
handed out are the first pieces of the stream, decoded in order, and what is in the buffer and not
yet read holds the others; the buffer is never longer than a line and one read. Where only bytes and
timeouts come and every line is short enough, all lines are handed out and the bytes after the last
newline stay; a run that is too long without a newline ends in an error. A line in UTF-8 is handed
out byte for byte. -/
theorem lines_whatever_the_reads (reads : List Read) :
    (∀ count, (calls count ⟨[], reads⟩).2.buf.length ≤ maxLineBytes + chunkBytes) ∧
    (∀ count, ∃ lines, delivered (calls count ⟨[], reads⟩).1 = lines.map lineText ∧
      (streamOf reads).splitOn newline =
        lines ++ (calls count ⟨[], reads⟩).2.unread.splitOn newline) ∧
    (∀ (lines : List (List UInt8)) (tail : List UInt8) (count : ℕ),
      (∀ read ∈ reads, read.quiet = true) →
      (streamOf reads).splitOn newline = lines ++ [tail] →
      (∀ line ∈ lines, line.length ≤ maxLineBytes) →
      (streamOf reads).length + reads.length < count →
      delivered (calls count ⟨[], reads⟩).1 = lines.map lineText ∧
        (calls count ⟨[], reads⟩).2.unread = tail ∧
        (tail.length ≤ maxLineBytes → (calls count ⟨[], reads⟩).2.buf = tail)) ∧
    (∀ (run : List UInt8) (count : ℕ), newline ∉ run → run <:+: streamOf reads →
      maxLineBytes + chunkBytes < run.length →
      (streamOf reads).length + reads.length < count →
      ∃ kind, (calls count ⟨[], reads⟩).1.getLast? = some (.failed kind) ∧
        ((∀ read ∈ reads, read.quiet = true) → kind = .invalidData)) ∧
    (∀ (line : List UInt8) (text : String), trimReturn line = encodeUtf8 text →
      lineText line = text) := by
  refine ⟨fun count ↦ calls_bounded count (Nat.zero_le _), fun count ↦ ?_, ?_, ?_, ?_⟩
  · obtain ⟨lines, -, hdelivered, hrest⟩ := calls_split count ⟨[], reads⟩ (Nat.zero_le _)
    exact ⟨lines, hdelivered, hrest⟩
  · intro lines tail count hquiet hsplit hshort henough
    exact calls_of_short_lines hquiet hsplit hshort henough
  · intro run count hrun hwithin hlong henough
    exact calls_of_endless_line hrun hwithin hlong henough
  · intro line text hutf8
    unfold lineText
    rw [hutf8, fromUtf8Lossy_encode]

/-- Two lines in three reads, with a timeout in the middle of the second. -/
theorem twoLines_handedOut :
    delivered (calls 12 ⟨[], [.bytes ⟨[97, carriageReturn, newline, 98], by decide, by decide⟩,
      .timedOut, .bytes ⟨[99, newline, 100], by decide, by decide⟩]⟩).1 = ["a", "bc"] := by
  have hlines := (lines_whatever_the_reads
    [.bytes ⟨[97, carriageReturn, newline, 98], by decide, by decide⟩,
    .timedOut, .bytes ⟨[99, newline, 100], by decide, by decide⟩]).2.2.1
      [[97, carriageReturn], [98, 99]] [100] 12 (by decide) rfl (by decide) (by decide)
  rw [hlines.1]
  decide +kernel

/-- A line that is not in UTF-8 is not handed out as it was sent. -/
theorem latin1Line_altered :
    ¬ ∀ (reads : List Read) (lines : List (List UInt8)) (tail : List UInt8) (count : ℕ),
      (∀ read ∈ reads, read.quiet = true) →
      (streamOf reads).splitOn newline = lines ++ [tail] →
      (∀ line ∈ lines, line.length ≤ maxLineBytes) →
      (streamOf reads).length + reads.length < count →
      (delivered (calls count ⟨[], reads⟩).1).map encodeUtf8 = lines.map trimReturn := by
  intro hexact
  have haltered := hexact [.bytes ⟨[0xE9, newline], by decide, by decide⟩] [[0xE9]] [] 4
    (by decide) rfl
    (by decide) (by decide)
  revert haltered
  decide +kernel

end Bc3Miner.Pool
