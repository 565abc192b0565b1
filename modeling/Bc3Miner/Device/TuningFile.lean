import Bc3Miner.Device.WindowTuner
import Bc3Miner.Foundations.Disk
import Bc3Miner.Foundations.PartialMachine

/-!
# The file of the tuned windows

`recall_in`, `remember_in` and `read_all` of `src/tuning.rs`, called from any number of threads of
any number of processes on one tuning file. Every access of the file system is a step of its own, so
any interleaving is a list of steps: taking `FILE_LOCK`, which is one lock for each process; opening
the file and reading it; writing the temporary file, whose name all processes share, piece by piece;
renaming it.

Every access can fail. `remember_in` returns the errors of the directory, of the writing and of the
renaming. It does not return one of `read_to_string`: `read_all` makes an empty map of it, as of a
file that is not there, so the call goes on, replaces the file by its own choice alone, and returns
`Ok` (`unread`).

How the choices become text and back is a parameter. The list `remembered` records the calls of
`remember_in` that returned `Ok`, the latest first, `published` the texts they renamed into place,
and `recalls` what each `recall_in` read and returned.
-/

set_option autoImplicit false
set_option relaxedAutoImplicit false

namespace Bc3Miner.Device

open Foundations

/-! ### The choices and their text -/

/-- The choices by the cards they are for, the entry that counts first. -/
abbrev Choices := List (String × Choice)

/-- `HashMap::insert`: the new entry takes the place of the card's old one. -/
def Choices.insert (key : String) (choice : Choice) (all : Choices) : Choices :=
  (key, choice) :: all.filter fun entry ↦ entry.1 ≠ key

/-- The JSON text of the choices, and the choices of a text that is one. -/
structure Codec (Symbol : Type) where
  toText : Choices → List Symbol
  fromText : List Symbol → Option Choices

variable {Symbol : Type}

/-- What `read_to_string` came to: an error, or what was there, which is nothing where there is no
file. -/
inductive Reading (Symbol : Type)
  | failed
  | saw (text : Option (List Symbol))
  deriving DecidableEq

/-- `read_to_string(path).ok()`: an error is as good as a file that is not there. -/
def Reading.ok : Reading Symbol → Option (List Symbol)
  | .failed => none
  | .saw text => text

/-- `read_all` on what was read: a missing or unreadable file is no choice. -/
def Codec.readAll (codec : Codec Symbol) (seen : Option (List Symbol)) : Choices :=
  (seen.bind codec.fromText).getD []

/-- What is read back from the text of choices that JSON keeps is those choices. -/
def Codec.RoundTrips (codec : Codec Symbol) (kept : Choice → Prop) : Prop :=
  ∀ all : Choices, (∀ key choice, all.lookup key = some choice → kept choice) →
    ∃ back, codec.fromText (codec.toText all) = some back ∧ ∀ key, back.lookup key = all.lookup key

/-! ### Where the calls are -/

/-- The names in the cache directory: `tuning.json` and the temporary file next to it. -/
inductive FileName
  | choices
  | aside
  deriving DecidableEq, Repr

/-- Where a thread is. Outside `idle` it holds the lock of its process: about to open the file, in
`recall_in` or in `remember_in`; about to read what it opened; with the new text, about to open the
temporary file; writing it; about to rename it. -/
inductive Place (Symbol : Type)
  | idle
  | recalling (key : String)
  | looking (key : String) (file : Option ℕ)
  | remembering (key : String) (choice : Choice)
  | merging (key : String) (choice : Choice) (file : Option ℕ)
  | saving (key : String) (choice : Choice) (text : List Symbol)
  | writing (key : String) (choice : Choice) (text : List Symbol) (file written : ℕ)
  | complete (key : String) (choice : Choice) (text : List Symbol)
  deriving DecidableEq

/-- Has a call of `remember_in` opened the file, and not renamed the new one yet? -/
def Place.replacing : Place Symbol → Bool
  | .merging .. | .saving .. | .writing .. | .complete .. => true
  | .idle | .recalling .. | .looking .. | .remembering .. => false

/-- What a call of `recall_in` read, and what it returned. -/
structure Recalled (Symbol : Type) where
  key : String
  seen : Reading Symbol
  choice : Option Choice
  deriving DecidableEq

/-- The cache directory, the locks, where every thread is, and what the calls did. -/
structure TuningFile (Process Thread Symbol : Type) where
  disk : Disk FileName Symbol
  holder : Process → Option Thread
  place : Process → Thread → Place Symbol
  remembered : Choices
  published : List (Option (List Symbol))
  recalls : List (Recalled Symbol)

/-- A step of a thread: it calls and takes the lock; it opens `tuning.json`; it reads what it
opened; one of these two fails; it opens the temporary file; it writes some more of the text; it
closes it; it renames it; or an access fails, and `remember_in` returns the error. -/
inductive FileStep
  | recallIn (key : String)
  | rememberIn (key : String) (choice : Choice)
  | openFile
  | read
  | readFails
  | create
  | write (count : ℕ)
  | close
  | rename
  | fail
  deriving DecidableEq

/-- A step, and whose it is. -/
structure FileEvent (Process Thread : Type) where
  process : Process
  thread : Thread
  step : FileStep

namespace TuningFile

variable {Process Thread : Type} [DecidableEq Process] [DecidableEq Thread]

/-- A thread moves on. -/
def moveTo (process : Process) (thread : Thread) (place : Place Symbol)
    (state : TuningFile Process Thread Symbol) : TuningFile Process Thread Symbol :=
  { state with
    place := Function.update state.place process
      (Function.update (state.place process) thread place) }

/-- A thread takes the lock of its process. -/
def lock (process : Process) (thread : Thread) (state : TuningFile Process Thread Symbol) :
    TuningFile Process Thread Symbol :=
  { state with holder := Function.update state.holder process (some thread) }

/-- A call returns, and its guard lets go of the lock. -/
def unlock (process : Process) (thread : Thread) (state : TuningFile Process Thread Symbol) :
    TuningFile Process Thread Symbol :=
  { state.moveTo process thread .idle with
    holder := Function.update state.holder process none }

/-- `read_all(path).remove(key)`, at the end of `recall_in`. -/
def recalled (codec : Codec Symbol) (key : String) (seen : Reading Symbol)
    (state : TuningFile Process Thread Symbol) : TuningFile Process Thread Symbol :=
  { state with recalls := ⟨key, seen, (codec.readAll seen.ok).lookup key⟩ :: state.recalls }

/-- The text `remember_in` is about to write: what it read, with its own choice put in. -/
def merged (codec : Codec Symbol) (key : String) (choice : Choice) (seen : Reading Symbol) :
    List Symbol :=
  codec.toText ((codec.readAll seen.ok).insert key choice)

/-- `read_to_string` fails: `recall_in` returns no choice, and `remember_in` goes on with an empty
map. -/
def unread (codec : Codec Symbol) (process : Process) (thread : Thread)
    (state : TuningFile Process Thread Symbol) :
    Place Symbol → Option (TuningFile Process Thread Symbol)
  | .recalling key | .looking key _ =>
      some ((state.recalled codec key .failed).unlock process thread)
  | .remembering key choice | .merging key choice _ =>
      some (state.moveTo process thread (.saving key choice (merged codec key choice .failed)))
  | _ => none

/-- The renaming that ends a `remember_in`. -/
def publish (key : String) (choice : Choice) (text : List Symbol) (disk : Disk FileName Symbol)
    (state : TuningFile Process Thread Symbol) : TuningFile Process Thread Symbol :=
  { state with
    disk := disk
    remembered := (key, choice) :: state.remembered
    published := some text :: state.published }

/-- One step of one thread; `none` where it cannot be taken. Where the temporary file cannot be
renamed because it is gone, the call returns the error. -/
def step [Inhabited Symbol] (codec : Codec Symbol) (state : TuningFile Process Thread Symbol)
    (event : FileEvent Process Thread) : Option (TuningFile Process Thread Symbol) :=
  let process := event.process
  let thread := event.thread
  match event.step, state.place process thread with
  | .recallIn key, .idle =>
      if state.holder process = none then
        some ((state.lock process thread).moveTo process thread (.recalling key))
      else none
  | .rememberIn key choice, .idle =>
      if state.holder process = none then
        some ((state.lock process thread).moveTo process thread (.remembering key choice))
      else none
  | .openFile, .recalling key =>
      some (state.moveTo process thread (.looking key (state.disk.file .choices)))
  | .openFile, .remembering key choice =>
      some (state.moveTo process thread (.merging key choice (state.disk.file .choices)))
  | .read, .looking key file =>
      some ((state.recalled codec key (.saw (file.map state.disk.text))).unlock process thread)
  | .read, .merging key choice file =>
      some (state.moveTo process thread
        (.saving key choice (merged codec key choice (.saw (file.map state.disk.text)))))
  | .readFails, place => state.unread codec process thread place
  | .create, .saving key choice text =>
      let disk := state.disk.create .aside
      (disk.file .aside).map fun file ↦
        { state with disk := disk }.moveTo process thread (.writing key choice text file 0)
  | .write count, .writing key choice text file written =>
      if 0 < count ∧ written + count ≤ text.length then
        some ({ state with
          disk := state.disk.write file written ((text.drop written).take count) }.moveTo
            process thread (.writing key choice text file (written + count)))
      else none
  | .close, .writing key choice text _ written =>
      if written = text.length then some (state.moveTo process thread (.complete key choice text))
      else none
  | .rename, .complete key choice text =>
      match state.disk.rename .aside .choices with
      | some disk => some ((state.publish key choice text disk).unlock process thread)
      | none => some (state.unlock process thread)
  | .fail, .saving .. | .fail, .writing .. | .fail, .complete .. =>
      some (state.unlock process thread)
  | _, _ => none

/-- What `recall_in` would return if it ran now, alone. -/
def recallNow (codec : Codec Symbol) (state : TuningFile Process Thread Symbol) (key : String) :
    Option Choice :=
  (codec.readAll (state.disk.read .choices)).lookup key

/-- No call is under way, and nothing has been remembered since the file was left as it is. -/
structure Fresh (state : TuningFile Process Thread Symbol) : Prop where
  tidy : state.disk.Tidy
  idle : ∀ process thread, state.place process thread = .idle
  unlocked : ∀ process, state.holder process = none
  remembered : state.remembered = []
  published : state.published = [state.disk.read .choices]
  recalls : state.recalls = []

end TuningFile

end Bc3Miner.Device
