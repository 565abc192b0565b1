import Bc3Miner.Device.TuningFile

/-!
# Choices that are remembered together

What the calls on the tuning file keep as long as no two processes replace it at once and no
`remember_in` fails to read it: `recall_in` gives each card the latest choice remembered for it, and
reads whole files only (`remembers_of_alone`).

Two things can lose a choice while every call returns `Ok`. `FILE_LOCK` keeps the threads of one
process apart; nothing keeps processes apart, and of two that tune at the same time one can lose its
choice (`both_at_once_loses_a_choice`). And `read_all` swallows the error of a read that fails, so
that the `remember_in` that made it replaces the whole file by its own choice
(`failed_read_loses_a_choice`). `Alone` is the condition on a step that excludes just these. A
`recall_in` whose read fails returns no choice, as its documentation says, and does no harm.

The invariant is `Orderly`. Its heart is `Placed`, which says of every thread what is known by where
it is: a file opened to be read is whole, and the text of a `remember_in` has the latest choices of
all other cards in it.
-/

set_option autoImplicit false
set_option relaxedAutoImplicit false

namespace Bc3Miner.Device

open Foundations

/-! ### The choices of a card -/

/-- Looking a key up in a list of choices tries the first of them first. -/
theorem Choices.lookup_cons (key other : String) (choice : Choice) (all : Choices) :
    List.lookup other ((key, choice) :: all) =
      if other = key then some choice else all.lookup other := by
  by_cases hsame : other = key
  · rw [if_pos hsame, hsame, List.lookup_cons_self]
  · have hbeq : (other == key) = false := by simpa using hsame
    rw [if_neg hsame, List.lookup_cons, hbeq]

/-- After a choice is inserted its key has it, and every other key what it had. -/
theorem Choices.lookup_insert (key other : String) (choice : Choice) (all : Choices) :
    (all.insert key choice).lookup other =
      if other = key then some choice else all.lookup other := by
  unfold Choices.insert
  rw [Choices.lookup_cons]
  by_cases hsame : other = key
  · rw [if_pos hsame, if_pos hsame]
  · rw [if_neg hsame, if_neg hsame]
    induction all with
    | nil => rfl
    | cons entry rest ih =>
      by_cases hentry : entry.1 = key
      · rw [List.filter_cons_of_neg (by simpa using hentry), ih, ← Prod.mk.eta (p := entry),
          Choices.lookup_cons, if_neg (by rw [hentry]; exact hsame)]
      · rw [List.filter_cons_of_pos (by simpa using hentry), ← Prod.mk.eta (p := entry),
          Choices.lookup_cons, Choices.lookup_cons, ih]

/-- A `recall_in` that has not read the file yet. -/
def Place.recallsUnread {Symbol : Type} (place : Place Symbol) (key : String) : Prop :=
  place = .recalling key ∨ ∃ file, place = .looking key file

/-- A `remember_in` that has not read the file yet. -/
def Place.remembersUnread {Symbol : Type} (place : Place Symbol) (key : String)
    (choice : Choice) : Prop :=
  place = .remembering key choice ∨ ∃ file, place = .merging key choice file

namespace TuningFile

variable {Process Thread Symbol : Type}

/-! ### What a step can do -/

section Cases

variable [DecidableEq Process] [DecidableEq Thread] [Inhabited Symbol] (codec : Codec Symbol)

/-- The steps, each with what it needs and what it leads to. -/
inductive Moved (state : TuningFile Process Thread Symbol) (process : Process) (thread : Thread) :
    FileStep → TuningFile Process Thread Symbol → Prop
  | recallIn {key : String} (here : state.place process thread = .idle)
      (free : state.holder process = none) :
      Moved state process thread (.recallIn key)
        ((state.lock process thread).moveTo process thread (.recalling key))
  | rememberIn {key : String} {choice : Choice} (here : state.place process thread = .idle)
      (free : state.holder process = none) :
      Moved state process thread (.rememberIn key choice)
        ((state.lock process thread).moveTo process thread (.remembering key choice))
  | look {key : String} (here : state.place process thread = .recalling key) :
      Moved state process thread .openFile
        (state.moveTo process thread (.looking key (state.disk.file .choices)))
  | merge {key : String} {choice : Choice}
      (here : state.place process thread = .remembering key choice) :
      Moved state process thread .openFile
        (state.moveTo process thread (.merging key choice (state.disk.file .choices)))
  | recalled {key : String} {file : Option ℕ}
      (here : state.place process thread = .looking key file) :
      Moved state process thread .read
        ((state.recalled codec key (.saw (file.map state.disk.text))).unlock process thread)
  | merged {key : String} {choice : Choice} {file : Option ℕ}
      (here : state.place process thread = .merging key choice file) :
      Moved state process thread .read
        (state.moveTo process thread
          (.saving key choice (merged codec key choice (.saw (file.map state.disk.text)))))
  | recalledUnread {key : String} (here : (state.place process thread).recallsUnread key) :
      Moved state process thread .readFails
        ((state.recalled codec key .failed).unlock process thread)
  | mergedUnread {key : String} {choice : Choice}
      (here : (state.place process thread).remembersUnread key choice) :
      Moved state process thread .readFails
        (state.moveTo process thread (.saving key choice (merged codec key choice .failed)))
  | create {key : String} {choice : Choice} {text : List Symbol} {file : ℕ}
      (here : state.place process thread = .saving key choice text)
      (named : (state.disk.create .aside).file .aside = some file) :
      Moved state process thread .create
        ({ state with disk := state.disk.create .aside }.moveTo process thread
          (.writing key choice text file 0))
  | write {key : String} {choice : Choice} {text : List Symbol} {file written count : ℕ}
      (here : state.place process thread = .writing key choice text file written)
      (left : written + count ≤ text.length) :
      Moved state process thread (.write count)
        ({ state with
          disk := state.disk.write file written ((text.drop written).take count) }.moveTo
            process thread (.writing key choice text file (written + count)))
  | close {key : String} {choice : Choice} {text : List Symbol} {file : ℕ}
      (here : state.place process thread = .writing key choice text file text.length) :
      Moved state process thread .close (state.moveTo process thread (.complete key choice text))
  | rename {key : String} {choice : Choice} {text : List Symbol} {disk : Disk FileName Symbol}
      (here : state.place process thread = .complete key choice text)
      (renamed : state.disk.rename .aside .choices = some disk) :
      Moved state process thread .rename
        ((state.publish key choice text disk).unlock process thread)
  | giveUp {step : FileStep} (here : (state.place process thread).replacing = true) :
      Moved state process thread step (state.unlock process thread)

variable {codec} {state next : TuningFile Process Thread Symbol}

/-- A step is one of these. -/
theorem moved_of_step {event : FileEvent Process Thread}
    (hstep : state.step codec event = some next) :
    Moved codec state event.process event.thread event.step next := by
  obtain ⟨process, thread, move⟩ := event
  unfold step at hstep
  cases move with
  | recallIn key =>
    cases hplace : state.place process thread <;> simp only [hplace, reduceCtorEq] at hstep
    by_cases hfree : state.holder process = none
    · rw [if_pos hfree] at hstep
      rw [← Option.some.inj hstep]
      exact .recallIn hplace hfree
    · rw [if_neg hfree] at hstep
      exact absurd hstep.symm (Option.some_ne_none _)
  | rememberIn key choice =>
    cases hplace : state.place process thread <;> simp only [hplace, reduceCtorEq] at hstep
    by_cases hfree : state.holder process = none
    · rw [if_pos hfree] at hstep
      rw [← Option.some.inj hstep]
      exact .rememberIn hplace hfree
    · rw [if_neg hfree] at hstep
      exact absurd hstep.symm (Option.some_ne_none _)
  | openFile =>
    cases hplace : state.place process thread <;> simp only [hplace, reduceCtorEq] at hstep
    · rw [← Option.some.inj hstep]
      exact .look hplace
    · rw [← Option.some.inj hstep]
      exact .merge hplace
  | read =>
    cases hplace : state.place process thread <;> simp only [hplace, reduceCtorEq] at hstep
    · rw [← Option.some.inj hstep]
      exact .recalled hplace
    · rw [← Option.some.inj hstep]
      exact .merged hplace
  | readFails =>
    cases hplace : state.place process thread <;>
      simp only [hplace, unread, reduceCtorEq] at hstep <;> rw [← Option.some.inj hstep]
    · exact .recalledUnread (.inl hplace)
    · exact .recalledUnread (.inr ⟨_, hplace⟩)
    · exact .mergedUnread (.inl hplace)
    · exact .mergedUnread (.inr ⟨_, hplace⟩)
  | create =>
    cases hplace : state.place process thread <;> simp only [hplace, reduceCtorEq] at hstep
    obtain ⟨file, hnamed, rfl⟩ := Option.map_eq_some_iff.mp hstep
    exact .create hplace hnamed
  | write count =>
    cases hplace : state.place process thread with
    | writing key choice text file written =>
      simp only [hplace] at hstep
      by_cases hleft : 0 < count ∧ written + count ≤ text.length
      · rw [if_pos hleft] at hstep
        rw [← Option.some.inj hstep]
        exact .write hplace hleft.2
      · rw [if_neg hleft] at hstep
        exact absurd hstep.symm (Option.some_ne_none _)
    | _ => simp only [hplace, reduceCtorEq] at hstep
  | close =>
    cases hplace : state.place process thread with
    | writing key choice text file written =>
      simp only [hplace] at hstep
      by_cases hdone : written = text.length
      · rw [if_pos hdone] at hstep
        rw [← Option.some.inj hstep]
        rw [hdone] at hplace
        exact .close hplace
      · rw [if_neg hdone] at hstep
        exact absurd hstep.symm (Option.some_ne_none _)
    | _ => simp only [hplace, reduceCtorEq] at hstep
  | rename =>
    cases hplace : state.place process thread with
    | complete key choice text =>
      simp only [hplace] at hstep
      cases hrename : state.disk.rename .aside .choices with
      | some disk =>
        rw [hrename] at hstep
        rw [← Option.some.inj hstep]
        exact .rename hplace hrename
      | none =>
        rw [hrename] at hstep
        rw [← Option.some.inj hstep]
        refine .giveUp ?_
        rw [hplace]
        rfl
    | _ => simp only [hplace, reduceCtorEq] at hstep
  | fail =>
    have hgiveUp : (state.place process thread).replacing = true ∧
      state.unlock process thread = next := by
      cases hplace : state.place process thread <;>
        simp only [hplace, reduceCtorEq, Option.some.injEq] at hstep <;> exact ⟨rfl, hstep⟩
    rw [← hgiveUp.2]
    exact .giveUp hgiveUp.1

end Cases

variable {codec : Codec Symbol} {state next : TuningFile Process Thread Symbol}

/-! ### What the calls keep -/

/-- The latest choice remembered for a card, or the one that was there before. -/
def latest (initial : String → Option Choice) (state : TuningFile Process Thread Symbol)
    (key : String) :
    Option Choice :=
  (state.remembered.lookup key).or (initial key)

/-- Whoever is not idle holds the lock of its process. -/
def Locked (state : TuningFile Process Thread Symbol) : Prop :=
  ∀ process thread, state.place process thread ≠ .idle → state.holder process = some thread

section Placed

variable (codec) (kept : Choice → Prop) (initial : String → Option Choice)

/-- The text of a `remember_in`: the latest choices of all cards, and its own. -/
def Merged (state : TuningFile Process Thread Symbol) (key : String) (choice : Choice)
    (text : List Symbol) : Prop :=
  kept choice ∧ ∃ all, text = codec.toText all ∧
    ∀ other, all.lookup other = if other = key then some choice else latest initial state other

/-- What is known of a thread by where it is: a file that was opened to be read is whole and is not
the one that is being written; a `remember_in` has read what is there, and what it writes is its
text. -/
def Placed (state : TuningFile Process Thread Symbol) : Place Symbol → Prop
  | .idle | .recalling _ => True
  | .looking _ file => file.map state.disk.text ∈ state.published ∧
      ∀ opened, file = some opened →
        opened < state.disk.fresh ∧ state.disk.file .aside ≠ some opened
  | .remembering _ choice => kept choice
  | .merging _ choice file => kept choice ∧ file = state.disk.file .choices
  | .saving key choice text => Merged codec kept initial state key choice text
  | .writing key choice text file written =>
      Merged codec kept initial state key choice text ∧ written ≤ text.length ∧
        state.disk.file .aside = some file ∧ state.disk.text file = text.take written
  | .complete key choice text =>
      Merged codec kept initial state key choice text ∧
        ∃ file, state.disk.file .aside = some file ∧ state.disk.text file = text

/-- A `recall_in` read one of these whole texts, or its read failed; and it returned the card's
choice in what it read. -/
def Whole (published : List (Option (List Symbol))) (recalled : Recalled Symbol) : Prop :=
  (∀ text, recalled.seen = .saw text → text ∈ published) ∧
    recalled.choice = (codec.readAll recalled.seen.ok).lookup recalled.key

/-- The file is whole and holds the latest choices, one process at a time replaces it, and every
thread is as its place says. -/
structure Orderly (state : TuningFile Process Thread Symbol) : Prop where
  tidy : state.disk.Tidy
  locked : state.Locked
  alone : ∀ process thread other another, (state.place process thread).replacing = true →
    (state.place other another).replacing = true → process = other
  whole : state.disk.read .choices ∈ state.published
  choices : ∀ key, state.recallNow codec key = latest initial state key
  lasting : ∀ key choice, latest initial state key = some choice → kept choice
  placed : ∀ process thread, Placed codec kept initial state (state.place process thread)
  recalls : ∀ recalled ∈ state.recalls, Whole codec state.published recalled

/-- No other process is between opening the file and renaming a new one into its place. -/
def Apart (state : TuningFile Process Thread Symbol) (process : Process) : Prop :=
  ∀ other another, other ≠ process → (state.place other another).replacing = false

/-- The step does not let two processes replace the file at once: no `remember_in` opens it while
one of another process is replacing it. Its read fails only where no other card has a choice in the
file. And the choice to remember is one that JSON keeps. -/
def Alone (state : TuningFile Process Thread Symbol) (event : FileEvent Process Thread) : Prop :=
  match event.step with
  | .rememberIn _ choice => kept choice
  | .openFile => ∀ key choice, state.place event.process event.thread = .remembering key choice →
      state.Apart event.process
  | .readFails => ∀ key choice,
      (state.place event.process event.thread).remembersUnread key choice →
        state.Apart event.process ∧ ∀ other, other ≠ key → state.recallNow codec other = none
  | _ => True

end Placed

/-! ### A thread that moves -/

section Moves

variable [DecidableEq Process] {process other : Process} {thread another : Thread}
  {place : Place Symbol}

/-- Taking a lock that is free keeps it the only one held in its process. -/
theorem Locked.lock (hlocked : state.Locked) (hfree : state.holder process = none) :
    (state.lock process thread).Locked := by
  intro other another hbusy
  have hbefore := hlocked other another hbusy
  have hne : other ≠ process := by
    rintro rfl
    exact Option.some_ne_none _ (hbefore.symm.trans hfree)
  exact (Function.update_of_ne hne _ _).trans hbefore

variable [DecidableEq Thread]

theorem place_moveTo_self : (state.moveTo process thread place).place process thread = place := by
  unfold moveTo
  simp

/-- Moving one thread leaves the others where they are. -/
theorem place_moveTo_of_ne (hne : (other, another) ≠ (process, thread)) :
    (state.moveTo process thread place).place other another = state.place other another := by
  unfold moveTo
  by_cases hprocess : other = process
  · have hthread : another ≠ thread := by
      rintro rfl
      exact hne (by rw [hprocess])
    rw [hprocess]
    simp [hthread]
  · simp [hprocess]

/-- The holder of the lock may move on under it. -/
theorem Locked.moveTo (hlocked : state.Locked) (hholder : state.holder process = some thread) :
    (state.moveTo process thread place).Locked := by
  intro other another hbusy
  by_cases hsame : (other, another) = (process, thread)
  · obtain ⟨rfl, rfl⟩ := Prod.mk.inj hsame
    exact hholder
  · rw [place_moveTo_of_ne hsame] at hbusy
    exact hlocked other another hbusy

/-- The holder may give the lock back. -/
theorem Locked.unlock (hlocked : state.Locked) (hholder : state.holder process = some thread) :
    (state.unlock process thread).Locked := by
  intro other another hbusy
  have hne : other ≠ process := by
    rintro rfl
    by_cases hsame : another = thread
    · rw [hsame] at hbusy
      exact hbusy place_moveTo_self
    · have hkept : (state.moveTo other thread .idle).place other another =
        state.place other another :=
        place_moveTo_of_ne fun heq ↦ hsame (Prod.mk.inj heq).2
      have hbefore := hlocked other another (hkept ▸ hbusy)
      exact hsame (Option.some.inj (hbefore.symm.trans hholder))
  have hkept : (state.moveTo process thread .idle).place other another =
    state.place other another :=
    place_moveTo_of_ne fun heq ↦ hne (Prod.mk.inj heq).1
  exact (Function.update_of_ne hne _ _).trans (hlocked other another (hkept ▸ hbusy))

end Moves

/-! ### One step -/

section Step

variable {kept : Choice → Prop} {initial : String → Option Choice} {process : Process}
  {thread : Thread}

/-- Where a thread stands is known as before, where the disk and what was done are as before. -/
theorem placed_congr {place : Place Symbol} (hdisk : next.disk = state.disk)
    (hpublished : next.published = state.published)
    (hremembered : next.remembered = state.remembered)
    (hplaced : Placed codec kept initial state place) : Placed codec kept initial next place := by
  have hlatest : latest initial next = latest initial state := by
    funext key
    unfold latest
    rw [hremembered]
  cases place <;> simp only [Placed, Merged, hdisk, hpublished, hlatest] at hplaced ⊢ <;>
    exact hplaced

/-- A thread that replaces nothing stays in place when another moves, if no published choice is
taken back and a file that is not the temporary one keeps its text: all it minds is the file that it
has open. -/
theorem placed_of_calm {place : Place Symbol} (hcalm : place.replacing = false)
    (hplaced : Placed codec kept initial state place)
    (hpublished : state.published ⊆ next.published)
    (hkeeps : ∀ opened, opened < state.disk.fresh → state.disk.file .aside ≠ some opened →
      next.disk.text opened = state.disk.text opened ∧ opened < next.disk.fresh ∧
        next.disk.file .aside ≠ some opened) :
    Placed codec kept initial next place := by
  cases place with
  | idle => trivial
  | recalling key => trivial
  | remembering key choice => exact hplaced
  | looking key file =>
    obtain ⟨hseen, hopened⟩ := hplaced
    cases file with
    | none => exact ⟨hpublished hseen, fun _ hnone ↦ absurd hnone.symm (Option.some_ne_none _)⟩
    | some opened =>
      obtain ⟨hold, hother⟩ := hopened opened rfl
      obtain ⟨htext, hnew, hstill⟩ := hkeeps opened hold hother
      refine ⟨?_, ?_⟩
      · rw [Option.map_some, htext]
        exact hpublished hseen
      · rintro _ ⟨⟩
        exact ⟨hnew, hstill⟩
  | _ => exact absurd hcalm (by simp [Place.replacing])

/-- While a thread replaces the file, no other does. -/
theorem Orderly.calm (horderly : Orderly codec kept initial state)
    (hreplacing : (state.place process thread).replacing = true) {other : Process}
    {another : Thread}
    (hne : (other, another) ≠ (process, thread)) :
    (state.place other another).replacing = false := by
  by_contra htoo
  rw [Bool.not_eq_false] at htoo
  have hbusy : ∀ place : Place Symbol, place.replacing = true → place ≠ .idle := by
    rintro _ hplace rfl
    exact absurd hplace Bool.false_ne_true
  obtain rfl := horderly.alone _ _ _ _ hreplacing htoo
  have hfirst := horderly.locked _ _ (hbusy _ hreplacing)
  have hsecond := horderly.locked _ _ (hbusy _ htoo)
  exact hne (by rw [Option.some.inj (hsecond.symm.trans hfirst)])

/-- Outside the process of a thread that replaces the file, nobody does. -/
theorem Orderly.apart (horderly : Orderly codec kept initial state)
    (hreplacing : (state.place process thread).replacing = true) (other : Process)
    (another : Thread)
    (hne : other ≠ process) : (state.place other another).replacing = false :=
  horderly.calm hreplacing fun heq ↦ hne (Prod.mk.inj heq).1

/-- Whoever replaces the file holds the lock. -/
theorem Orderly.holds (horderly : Orderly codec kept initial state)
    (hreplacing : (state.place process thread).replacing = true) :
    state.holder process = some thread := by
  refine horderly.locked process thread ?_
  intro hidle
  rw [hidle] at hreplacing
  exact Bool.false_ne_true hreplacing

/-- The latest choices after a `remember_in`. -/
theorem latest_publish (key other : String) (choice : Choice) (text : List Symbol)
    (disk : Disk FileName Symbol) :
    latest initial (state.publish key choice text disk) other =
      if other = key then some choice else latest initial state other := by
  unfold latest publish
  show (List.lookup other ((key, choice) :: state.remembered)).or (initial other) = _
  rw [Choices.lookup_cons]
  by_cases hsame : other = key
  · rw [if_pos hsame, if_pos hsame, Option.some_or]
  · rw [if_neg hsame, if_neg hsame]

/-- One thread has moved and the others are where they were. Everything is in order after it, if the
locks and the disk are, if a thread that replaces the file is the only one to do so, if the file is
whole and holds the latest choices, and if every thread is placed as it should be. -/
theorem Orderly.moved (horderly : Orderly codec kept initial state)
    (hothers : ∀ other another, (other, another) ≠ (process, thread) →
      next.place other another = state.place other another)
    (hlocked : next.Locked)
    (halone : (next.place process thread).replacing = true →
      ∀ other another, other ≠ process → (state.place other another).replacing = false)
    (htidy : next.disk.Tidy) (hwhole : next.disk.read .choices ∈ next.published)
    (hchoices : ∀ key, next.recallNow codec key = latest initial next key)
    (hlasting : ∀ key choice, latest initial next key = some choice → kept choice)
    (hrecalls : ∀ recalled ∈ next.recalls, Whole codec next.published recalled)
    (hplaced : Placed codec kept initial next (next.place process thread))
    (hrest : ∀ other another, (other, another) ≠ (process, thread) →
      Placed codec kept initial next (state.place other another)) :
    Orderly codec kept initial next := by
  refine ⟨htidy, hlocked, ?_, hwhole, hchoices, hlasting, ?_, hrecalls⟩
  · intro first one second two hfirst hsecond
    by_contra hne
    by_cases hfirstHere : (first, one) = (process, thread)
    · obtain ⟨rfl, rfl⟩ := Prod.mk.inj hfirstHere
      have hsecondThere : (second, two) ≠ (first, one) := fun heq ↦ hne (Prod.mk.inj heq).1.symm
      rw [hothers _ _ hsecondThere, halone hfirst second two (Ne.symm hne)] at hsecond
      exact Bool.false_ne_true hsecond
    · rw [hothers _ _ hfirstHere] at hfirst
      by_cases hsecondHere : (second, two) = (process, thread)
      · obtain ⟨rfl, rfl⟩ := Prod.mk.inj hsecondHere
        rw [halone hsecond first one hne] at hfirst
        exact Bool.false_ne_true hfirst
      · rw [hothers _ _ hsecondHere] at hsecond
        exact hne (horderly.alone _ _ _ _ hfirst hsecond)
  · intro other another
    by_cases hhere : (other, another) = (process, thread)
    · obtain ⟨rfl, rfl⟩ := Prod.mk.inj hhere
      exact hplaced
    · rw [hothers _ _ hhere]
      exact hrest other another hhere

/-- What `remember_in` writes are the latest choices of all cards and its own. -/
theorem Orderly.merged {key : String} {choice : Choice} {file : Option ℕ}
    (horderly : Orderly codec kept initial state)
    (hplace : state.place process thread = .merging key choice file) :
    Merged codec kept initial state key choice
      (merged codec key choice (.saw (file.map state.disk.text))) := by
  have hplaced := horderly.placed process thread
  rw [hplace] at hplaced
  obtain ⟨hkept, rfl⟩ := hplaced
  refine ⟨hkept, _, rfl, fun other ↦ ?_⟩
  rw [Choices.lookup_insert]
  by_cases hsame : other = key
  · rw [if_pos hsame, if_pos hsame]
  · rw [if_neg hsame, if_neg hsame]
    exact horderly.choices other

/-- A `remember_in` whose read failed has taken no choices from the file. What it is about to write
holds the published choices all the same, where no other card has one: then its own choice is all
there is to keep. -/
theorem Orderly.mergedUnread {key : String} {choice : Choice}
    (horderly : Orderly codec kept initial state)
    (hplace : (state.place process thread).remembersUnread key choice)
    (hnone : ∀ other, other ≠ key → state.recallNow codec other = none) :
    Merged codec kept initial state key choice (TuningFile.merged codec key choice .failed) := by
  have hplaced := horderly.placed process thread
  have hkept : kept choice := by
    rcases hplace with hopening | ⟨file, hreading⟩
    · rw [hopening] at hplaced
      exact hplaced
    · rw [hreading] at hplaced
      exact hplaced.1
  refine ⟨hkept, _, rfl, fun other ↦ ?_⟩
  rw [Choices.lookup_insert]
  by_cases hsame : other = key
  · rw [if_pos hsame, if_pos hsame]
  · rw [if_neg hsame, if_neg hsame, ← horderly.choices other, hnone other hsame]
    rfl

variable [DecidableEq Process]

/-- A thread takes the lock. -/
theorem Orderly.lock (horderly : Orderly codec kept initial state)
    (hfree : state.holder process = none) :
    Orderly codec kept initial (state.lock process thread) where
  tidy := horderly.tidy
  locked := horderly.locked.lock hfree
  alone := horderly.alone
  whole := horderly.whole
  choices := horderly.choices
  lasting := horderly.lasting
  placed := fun other another ↦ placed_congr rfl rfl rfl (horderly.placed other another)
  recalls := horderly.recalls

variable [DecidableEq Thread]

/-- A thread that holds its lock moves on and changes nothing else. -/
theorem Orderly.moveTo {place : Place Symbol} (horderly : Orderly codec kept initial state)
    (hholder : state.holder process = some thread)
    (halone : place.replacing = true →
      ∀ other another, other ≠ process → (state.place other another).replacing = false)
    (hplaced : Placed codec kept initial state place) :
    Orderly codec kept initial (state.moveTo process thread place) := by
  refine horderly.moved (fun other another hne ↦ place_moveTo_of_ne hne)
    (horderly.locked.moveTo hholder) ?_ horderly.tidy horderly.whole horderly.choices
    horderly.lasting horderly.recalls ?_ ?_
  · rw [place_moveTo_self]
    exact halone
  · rw [place_moveTo_self]
    exact placed_congr rfl rfl rfl hplaced
  · intro other another _
    exact placed_congr rfl rfl rfl (horderly.placed other another)

/-- A call returns. -/
theorem Orderly.unlock (horderly : Orderly codec kept initial state)
    (hholder : state.holder process = some thread) :
    Orderly codec kept initial (state.unlock process thread) := by
  refine horderly.moved (fun other another hne ↦ place_moveTo_of_ne hne)
    (horderly.locked.unlock hholder) ?_ horderly.tidy horderly.whole horderly.choices
    horderly.lasting horderly.recalls ?_ ?_
  · intro hreplacing
    have hidle : (state.unlock process thread).place process thread = .idle := place_moveTo_self
    rw [hidle] at hreplacing
    exact absurd hreplacing Bool.false_ne_true
  · have hidle : (state.unlock process thread).place process thread = .idle := place_moveTo_self
    rw [hidle]
    trivial
  · intro other another _
    exact placed_congr rfl rfl rfl (horderly.placed other another)

/-- A `recall_in` returns, and what it has seen is whole. -/
theorem Orderly.recalled {key : String} {seen : Reading Symbol}
    (horderly : Orderly codec kept initial state)
    (hholder : state.holder process = some thread)
    (hseen : ∀ text, seen = .saw text → text ∈ state.published) :
    Orderly codec kept initial ((state.recalled codec key seen).unlock process thread) := by
  have hrecalled : Orderly codec kept initial (state.recalled codec key seen) := by
    refine ⟨horderly.tidy, horderly.locked, horderly.alone, horderly.whole, horderly.choices,
      horderly.lasting, fun other another ↦
        placed_congr rfl rfl rfl (horderly.placed other another), ?_⟩
    intro recalled hmem
    rcases List.mem_cons.mp hmem with rfl | hbefore
    · exact ⟨hseen, rfl⟩
    · exact horderly.recalls recalled hbefore
  exact hrecalled.unlock hholder

/-- The thread that replaces the file works on the temporary one: if the disk stays tidy, the file
of choices reads as before, and only the temporary file changes its text, then all threads are in
order when this one has moved on. -/
theorem Orderly.writesAside {disk : Disk FileName Symbol} {place : Place Symbol}
    (horderly : Orderly codec kept initial state)
    (hreplacing : (state.place process thread).replacing = true) (htidy : disk.Tidy)
    (hread : disk.read .choices = state.disk.read .choices)
    (hkeeps : ∀ opened, opened < state.disk.fresh → state.disk.file .aside ≠ some opened →
      disk.text opened = state.disk.text opened ∧ opened < disk.fresh ∧
      disk.file .aside ≠ some opened)
    (hplaced : Placed codec kept initial { state with disk := disk } place) :
    Orderly codec kept initial ({ state with disk := disk }.moveTo process thread place) := by
  have hlocked : ({ state with disk := disk } : TuningFile Process Thread Symbol).Locked :=
    horderly.locked
  refine horderly.moved (fun other another hne ↦ place_moveTo_of_ne hne)
    (hlocked.moveTo (horderly.holds hreplacing)) (fun _ ↦ horderly.apart hreplacing) htidy ?_ ?_
    horderly.lasting horderly.recalls ?_ ?_
  · exact hread.symm ▸ horderly.whole
  · intro key
    show (codec.readAll (disk.read .choices)).lookup key = _
    rw [hread]
    exact horderly.choices key
  · rw [place_moveTo_self]
    exact placed_congr rfl rfl rfl hplaced
  · intro other another hne
    exact placed_of_calm (horderly.calm hreplacing hne) (horderly.placed other another)
      (fun _ ↦ id) hkeeps

/-- Opening the temporary file keeps everything in order: the thread that saves holds the lock and
is alone in replacing the file, the new file is empty, and the file of choices is not touched. -/
theorem Orderly.create {key : String} {choice : Choice} {text : List Symbol} {file : ℕ}
    (horderly : Orderly codec kept initial state)
    (hplace : state.place process thread = .saving key choice text)
    (hnamed : (state.disk.create .aside).file .aside = some file) :
    Orderly codec kept initial
    ({ state with disk := state.disk.create .aside }.moveTo process thread
      (.writing key choice text file 0)) := by
  have hmerged := horderly.placed process thread
  rw [hplace] at hmerged
  obtain ⟨made, hmade, hempty⟩ : ∃ made, (state.disk.create .aside).file .aside = some made ∧
      (state.disk.create .aside).text made = [] := Disk.file_create_self FileName.aside
  obtain rfl : file = made := Option.some.inj (hnamed.symm.trans hmade)
  refine horderly.writesAside (by rw [hplace]; rfl) (horderly.tidy.create .aside)
    (horderly.tidy.read_create (by decide)) ?_ ⟨hmerged, Nat.zero_le _, hnamed, hempty⟩
  intro opened hold hother
  exact ⟨Disk.text_create hold hother, hold.trans_le (Disk.fresh_le_create FileName.aside),
    Disk.file_create_ne hold hother⟩

/-- Writing some more of the text keeps everything in order: it goes to the temporary file, behind
what has been written, and is part of the text that holds the choices to be kept. -/
theorem Orderly.write [Inhabited Symbol] {key : String} {choice : Choice} {text : List Symbol}
    {file written count : ℕ} (horderly : Orderly codec kept initial state)
    (hplace : state.place process thread = .writing key choice text file written)
    (hleft : written + count ≤ text.length) :
    Orderly codec kept initial ({ state with
      disk := state.disk.write file written ((text.drop written).take count) }.moveTo process thread
        (.writing key choice text file (written + count))) := by
  have hplaced := horderly.placed process thread
  rw [hplace] at hplaced
  obtain ⟨hmerged, hwritten, hnamed, htext⟩ := hplaced
  have hmore : (state.disk.write file written ((text.drop written).take count)).text file =
      text.take (written + count) := by
    rw [Disk.text_write_self, htext]
    exact Disk.overwrite_take text hwritten count
  refine horderly.writesAside (by rw [hplace]; rfl) (horderly.tidy.write _ _ _)
    (horderly.tidy.read_write hnamed (by decide) _ _) ?_ ⟨hmerged, hleft, hnamed, hmore⟩
  intro opened hold hother
  have hapart : opened ≠ file := by
    rintro rfl
    exact hother hnamed
  exact ⟨Disk.text_write_of_ne _ _ hapart, hold, hother⟩

/-- The temporary file is whole. -/
theorem Orderly.close {key : String} {choice : Choice} {text : List Symbol} {file : ℕ}
    (horderly : Orderly codec kept initial state)
    (hplace : state.place process thread = .writing key choice text file text.length) :
    Orderly codec kept initial (state.moveTo process thread (.complete key choice text)) := by
  have hplaced := horderly.placed process thread
  rw [hplace] at hplaced
  obtain ⟨hmerged, -, hnamed, htext⟩ := hplaced
  have hreplacing : (state.place process thread).replacing = true := by
    rw [hplace]
    rfl
  refine horderly.moveTo (horderly.holds hreplacing) (fun _ ↦ horderly.apart hreplacing) ?_
  refine ⟨hmerged, file, hnamed, ?_⟩
  rw [htext, List.take_length]

/-- The rename keeps everything in order, if the text of choices is read back as those choices: the
temporary file is complete and takes the place of the old one in one step, so the file holds the
latest choices again, with the new one among them. -/
theorem Orderly.rename {key : String} {choice : Choice} {text : List Symbol}
    {disk : Disk FileName Symbol} (hcodec : codec.RoundTrips kept)
    (horderly : Orderly codec kept initial state)
    (hplace : state.place process thread = .complete key choice text)
    (hrename : state.disk.rename .aside .choices = some disk) :
    Orderly codec kept initial ((state.publish key choice text disk).unlock process thread) := by
  have hplaced := horderly.placed process thread
  rw [hplace] at hplaced
  obtain ⟨⟨hkept, all, rfl, hall⟩, file, hnamed, htext⟩ := hplaced
  have hreplacing : (state.place process thread).replacing = true := by
    rw [hplace]
    rfl
  obtain ⟨moved, hmoved, hnew, hgone, -, hsame, hfresh⟩ :=
    Disk.rename_eq_some (by decide) hrename
  obtain rfl : file = moved := Option.some.inj (hnamed.symm.trans hmoved)
  have hread : disk.read .choices = some (codec.toText all) := by
    unfold Disk.read
    rw [hnew, Option.map_some, hsame, htext]
  have hlatest : ∀ other, latest initial (state.publish key choice (codec.toText all) disk) other =
      if other = key then some choice else latest initial state other :=
    fun other ↦ latest_publish key other choice (codec.toText all) disk
  have hlasting : ∀ other chosen, all.lookup other = some chosen → kept chosen := by
    intro other chosen hchosen
    rw [hall other] at hchosen
    by_cases hown : other = key
    · rw [if_pos hown] at hchosen
      rw [← Option.some.inj hchosen]
      exact hkept
    · rw [if_neg hown] at hchosen
      exact horderly.lasting other chosen hchosen
  obtain ⟨back, hback, hlookup⟩ := hcodec all hlasting
  have hlocked : (state.publish key choice (codec.toText all) disk).Locked := horderly.locked
  refine horderly.moved (fun other another hne ↦ place_moveTo_of_ne hne)
    (hlocked.unlock (horderly.holds hreplacing)) ?_ (horderly.tidy.rename (by decide) hrename) ?_ ?_
    ?_ ?_ ?_ ?_
  · exact fun _ ↦ horderly.apart hreplacing
  · show disk.read .choices ∈ some (codec.toText all) :: state.published
    rw [hread]
    exact List.mem_cons_self
  · intro other
    show (codec.readAll (disk.read .choices)).lookup other =
      latest initial (state.publish key choice (codec.toText all) disk) other
    rw [hlatest, ← hall, ← hlookup, hread]
    unfold Codec.readAll
    rw [Option.bind_some, hback, Option.getD_some]
  · intro other chosen hchosen
    have hchosen' : latest initial (state.publish key choice (codec.toText all) disk) other =
      some chosen := hchosen
    rw [hlatest, ← hall] at hchosen'
    exact hlasting other chosen hchosen'
  · intro recalled hmem
    have hbefore := horderly.recalls recalled hmem
    exact ⟨fun text hsaw ↦ List.mem_cons_of_mem _ (hbefore.1 text hsaw), hbefore.2⟩
  · have hidle : ((state.publish key choice (codec.toText all) disk).unlock process thread).place
        process thread = .idle := place_moveTo_self
    rw [hidle]
    trivial
  · intro other another hne
    refine placed_of_calm (horderly.calm hreplacing hne) (horderly.placed other another)
      (fun _ hmem ↦ List.mem_cons_of_mem _ hmem) ?_
    intro opened hold hother
    refine ⟨congrFun hsame opened, hfresh ▸ hold, ?_⟩
    show disk.file .aside ≠ some opened
    rw [hgone]
    exact (Option.some_ne_none _).symm

/-- Every step that lets no two processes replace the file at once keeps all in order. -/
theorem Orderly.step [Inhabited Symbol] (hcodec : codec.RoundTrips kept)
    {event : FileEvent Process Thread} (hstep : state.step codec event = some next)
    (halone : Alone codec kept state event) (horderly : Orderly codec kept initial state) :
    Orderly codec kept initial next := by
  obtain ⟨process, thread, move⟩ := event
  have hholder : ∀ place, state.place process thread = place → place ≠ .idle →
      state.holder process = some thread := by
    rintro _ rfl hbusy
    exact horderly.locked process thread hbusy
  cases moved_of_step hstep with
  | recallIn here free =>
    exact (horderly.lock free).moveTo (Function.update_self _ _ _)
      (fun hfalse ↦ nomatch hfalse) trivial
  | rememberIn here free =>
    exact (horderly.lock free).moveTo (Function.update_self _ _ _)
      (fun hfalse ↦ nomatch hfalse) halone
  | look here =>
    refine horderly.moveTo (hholder _ here (by simp)) (fun hfalse ↦ nomatch hfalse)
      ⟨horderly.whole, ?_⟩
    intro opened hopened
    refine ⟨horderly.tidy.old _ _ hopened, fun haside ↦ ?_⟩
    exact absurd (horderly.tidy.alone _ _ _ hopened haside) (by decide)
  | merge here =>
    have hplaced := horderly.placed process thread
    rw [here] at hplaced
    exact horderly.moveTo (hholder _ here (by simp)) (fun _ ↦ halone _ _ here) ⟨hplaced, rfl⟩
  | recalled here =>
    have hplaced := horderly.placed process thread
    rw [here] at hplaced
    refine horderly.recalled (hholder _ here (by simp)) ?_
    rintro text ⟨⟩
    exact hplaced.1
  | recalledUnread here =>
    have hbusy : state.place process thread ≠ .idle := by
      rcases here with hopening | ⟨file, hreading⟩
      · simp [hopening]
      · simp [hreading]
    exact horderly.recalled (hholder _ rfl hbusy) fun _ hsaw ↦ nomatch hsaw
  | mergedUnread here =>
    have hbusy : state.place process thread ≠ .idle := by
      rcases here with hopening | ⟨file, hreading⟩
      · simp [hopening]
      · simp [hreading]
    obtain ⟨hapart, hnone⟩ := halone _ _ here
    exact horderly.moveTo (hholder _ rfl hbusy) (fun _ ↦ hapart) (horderly.mergedUnread here hnone)
  | merged here =>
    have hreplacing : (state.place process thread).replacing = true := by
      rw [here]
      rfl
    exact horderly.moveTo (horderly.holds hreplacing) (fun _ ↦ horderly.apart hreplacing)
      (horderly.merged here)
  | create here named => exact horderly.create here named
  | write here left => exact horderly.write here left
  | close here => exact horderly.close here
  | rename here renamed => exact horderly.rename hcodec here renamed
  | giveUp here => exact horderly.unlock (horderly.holds here)

end Step

/-! ### Whole runs -/

/-- The calls have done what they promise: every card's choice is the latest one remembered for it,
or the one from before where none was, and every `recall_in` that could read the file read a whole
one. -/
def Remembers (codec : Codec Symbol) (start final : TuningFile Process Thread Symbol) : Prop :=
  (∀ key, final.recallNow codec key =
    (final.remembered.lookup key).or (start.recallNow codec key)) ∧
    ∀ recalled ∈ final.recalls, Whole codec final.published recalled

section Runs

/-- Before the first call all is in order. -/
theorem Fresh.orderly {kept : Choice → Prop} (hfresh : state.Fresh)
    (hkept : ∀ key choice, state.recallNow codec key = some choice → kept choice) :
    Orderly codec kept (state.recallNow codec) state := by
  have hlatest : ∀ key, latest (state.recallNow codec) state key = state.recallNow codec key := by
    intro key
    unfold latest
    rw [hfresh.remembered]
    rfl
  constructor
  · exact hfresh.tidy
  · intro process thread hbusy
    exact absurd (hfresh.idle process thread) hbusy
  · intro process thread other another hreplacing _
    rw [hfresh.idle] at hreplacing
    exact absurd hreplacing Bool.false_ne_true
  · rw [hfresh.published]
    exact List.mem_singleton_self _
  · exact fun key ↦ (hlatest key).symm
  · intro key choice hchoice
    rw [hlatest] at hchoice
    exact hkept key choice hchoice
  · intro process thread
    rw [hfresh.idle]
    trivial
  · rw [hfresh.recalls]
    intro recalled hmem
    exact absurd hmem List.not_mem_nil

variable [DecidableEq Process] [DecidableEq Thread] [Inhabited Symbol]

/-- Let the text of choices that JSON keeps be read back as those choices, and let a run start
before the first call, at a file with such choices or none. As long as no `remember_in` opens the
file while one of another process is replacing it, and none fails to read a file with other cards'
choices, no choice is lost and no half of a file is read, whatever else fails. -/
theorem remembers_of_alone (codec : Codec Symbol) (kept : Choice → Prop)
    (hcodec : codec.RoundTrips kept) (start final : TuningFile Process Thread Symbol)
    (hfresh : start.Fresh)
    (hkept : ∀ key choice, start.recallNow codec key = some choice → kept choice)
    (events : List (FileEvent Process Thread))
    (hrun : PartialMachine.run (step codec) start events = some final)
    (halone : PartialMachine.EveryStep (step codec) (Alone codec kept) start events) :
    Remembers codec start final := by
  have horderly : Orderly codec kept (start.recallNow codec) final :=
    PartialMachine.invariant_of_run_of_everyStep
      (fun _ _ _ hstep hcondition ↦ Orderly.step hcodec hstep hcondition) hrun halone
      (hfresh.orderly hkept)
  exact ⟨horderly.choices, horderly.recalls⟩

end Runs

/-! ### Two processes at once -/

/-- A JSON text by its tokens. -/
inductive Token
  | opening
  | member (key : String) (choice : Choice)
  | closing
  deriving DecidableEq

instance : Inhabited Token := ⟨.opening⟩

/-- The members up to the closing brace, which ends the text. -/
def Token.members : List Token → Option Choices
  | [.closing] => some []
  | .member key choice :: rest => (Token.members rest).map fun all ↦ (key, choice) :: all
  | _ => none

/-- The choices as one JSON object, a member for each card. -/
def tokens : Codec Token where
  toText all := .opening :: (all.map fun entry ↦ .member entry.1 entry.2) ++ [.closing]
  fromText
    | .opening :: rest => Token.members rest
    | _ => none

/-- The sample format reads back every map it writes. -/
theorem tokens_roundTrips : tokens.RoundTrips fun _ ↦ True := by
  have hmembers : ∀ all : Choices,
      Token.members ((all.map fun entry ↦ Token.member entry.1 entry.2) ++ [.closing]) =
        some all := by
    intro all
    induction all with
    | nil => rfl
    | cons entry rest ih =>
      show (Token.members ((rest.map fun entry ↦ Token.member entry.1 entry.2) ++ [.closing])).map
        _ = _
      rw [ih]
      rfl
  exact fun all _ ↦ ⟨all, hmembers all, fun _ ↦ rfl⟩

/-- No tuning file yet, and two processes of one thread each. -/
def noFile : TuningFile Bool Unit Token where
  disk := ⟨fun _ ↦ none, fun _ ↦ [], 0⟩
  holder := fun _ ↦ none
  place := fun _ _ ↦ .idle
  remembered := []
  published := [none]
  recalls := []

/-- Two processes before their first call, with no file on the disk. -/
theorem noFile_fresh : noFile.Fresh where
  tidy :=
    { old := fun _ _ hnone ↦ absurd hnone.symm (Option.some_ne_none _)
      alone := fun _ _ _ hnone ↦ absurd hnone.symm (Option.some_ne_none _) }
  idle := fun _ _ ↦ rfl
  unlocked := fun _ ↦ rfl
  remembered := rfl
  published := rfl
  recalls := rfl

/-- What a `remember_in` does after it opened the file, for a text of so many tokens. -/
def replaceFile (process : Bool) (length : ℕ) : List (FileEvent Bool Unit) :=
  [FileStep.read, .create, .write length, .close, .rename].map fun step ↦ ⟨process, (), step⟩

/-- Each process remembers the window of its own card, the second after the first is done. -/
def oneAfterTheOther : List (FileEvent Bool Unit) :=
  [⟨false, (), .rememberIn "RTX 4090" (Tuner.unmeasured 20 20)⟩, ⟨false, (), .openFile⟩] ++
    replaceFile false 3 ++
    [⟨true, (), .rememberIn "RTX 3050 Ti" (Tuner.unmeasured 19 19)⟩, ⟨true, (), .openFile⟩] ++
    replaceFile true 4

/-- Two calls one after the other, each reading and renaming alone: both choices are in the file at
the end. -/
theorem remembers_of_alone_two :
    ∃ final, PartialMachine.run (step tokens) noFile oneAfterTheOther = some final ∧
      final.remembered.length = 2 ∧ Remembers tokens noFile final := by
  refine ⟨_, rfl, rfl, remembers_of_alone tokens
    (fun _ ↦ True) tokens_roundTrips noFile _ noFile_fresh
    (fun _ _ _ ↦ trivial) oneAfterTheOther rfl ?_⟩
  refine .cons rfl trivial (.cons rfl ?_ (.cons rfl trivial (.cons rfl trivial (.cons rfl trivial
    (.cons rfl trivial (.cons rfl trivial (.cons rfl trivial (.cons rfl ?_ (.cons rfl trivial
      (.cons rfl trivial (.cons rfl trivial
        (.cons rfl trivial (.cons rfl trivial trivial)))))))))))))
  · intro _ _ _ other another hne
    cases other with
    | false => exact absurd rfl hne
    | true => rfl
  · intro _ _ _ other another hne
    cases other with
    | false => rfl
    | true => exact absurd rfl hne

/-- Each process remembers the window of its own card, both having opened the file first. -/
def bothAtOnce : List (FileEvent Bool Unit) :=
  [⟨false, (), .rememberIn "RTX 4090" (Tuner.unmeasured 20 20)⟩, ⟨false, (), .openFile⟩,
    ⟨true, (), .rememberIn "RTX 3050 Ti" (Tuner.unmeasured 19 19)⟩, ⟨true, (), .openFile⟩] ++
    replaceFile false 3 ++ replaceFile true 3

/-- Both calls return `Ok`, and the first card's choice is lost. -/
theorem both_at_once_loses_a_choice :
    ∃ final, PartialMachine.run (step tokens) noFile bothAtOnce = some final ∧
      (∀ process thread, final.place process thread = .idle) ∧
      final.remembered =
        [("RTX 3050 Ti", Tuner.unmeasured 19 19), ("RTX 4090", Tuner.unmeasured 20 20)] ∧
      final.recallNow tokens "RTX 4090" = none ∧ ¬ Remembers tokens noFile final := by
  refine ⟨_, rfl, ?_, rfl, rfl, ?_⟩
  · intro process thread
    cases process <;> rfl
  · intro hremembers
    have hlost := hremembers.1 "RTX 4090"
    exact absurd hlost (by decide)

/-! ### A read that fails -/

/-- One thread remembers the windows of two cards, and the second call cannot read the file. -/
def secondReadFails : List (FileEvent Bool Unit) :=
  [⟨false, (), .rememberIn "RTX 4090" (Tuner.unmeasured 20 20)⟩, ⟨false, (), .openFile⟩] ++
    replaceFile false 3 ++
    [FileStep.rememberIn "RTX 3050 Ti" (Tuner.unmeasured 19 19), .openFile, .readFails, .create,
      .write 3, .close, .rename].map fun step ↦ ⟨false, (), step⟩

/-- Both calls return `Ok`, and the first card's choice is lost without any other process. -/
theorem failed_read_loses_a_choice :
    ∃ final, PartialMachine.run (step tokens) noFile secondReadFails = some final ∧
      final.remembered =
        [("RTX 3050 Ti", Tuner.unmeasured 19 19), ("RTX 4090", Tuner.unmeasured 20 20)] ∧
      final.recallNow tokens "RTX 4090" = none ∧ ¬ Remembers tokens noFile final := by
  refine ⟨_, rfl, rfl, rfl, ?_⟩
  intro hremembers
  have hlost := hremembers.1 "RTX 4090"
  exact absurd hlost (by decide)

end TuningFile

end Bc3Miner.Device
