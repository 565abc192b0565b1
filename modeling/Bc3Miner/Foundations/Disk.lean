import Mathlib.Data.List.Basic
import Mathlib.Logic.Function.Basic
import Mathlib.Order.MinMax

/-!
# Files that are written aside and renamed

A directory of names and what the files hold. A name stands for a file, and a file that was opened
under a name is read and written whatever becomes of the name: renaming moves the name only. Opening
a file to write it empties the file that has the name already, whoever else has it open, or makes a
new one.

`Tidy` is that no two names stand for one file. Writing one name's file then changes no other
name's, and a file that has lost its name, or has another one, keeps what it holds.

A file whose name is taken by another stays readable to whoever has it open, which is what makes a
rename safe for readers. `rename_eq_some` says what every name stands for after one, and
`Tidy.create`, `Tidy.write` and `Tidy.rename` that a tidy directory stays one. Errors are not part
of the disk; whoever uses it has failing accesses as steps that change nothing.
-/

set_option autoImplicit false
set_option relaxedAutoImplicit false

namespace Bc3Miner.Foundations

/-- The files by their numbers, the names that stand for them, and the number of the next new
one. -/
structure Disk (Name Symbol : Type) where
  file : Name → Option ℕ
  text : ℕ → List Symbol
  fresh : ℕ

namespace Disk

variable {Name Symbol : Type}

/-! ### What a program does to files -/

/-- What is read under a name; nothing where there is no such file. -/
def read (disk : Disk Name Symbol) (name : Name) : Option (List Symbol) :=
  (disk.file name).map disk.text

/-- A file is opened to be written, and is empty. -/
def create [DecidableEq Name] (name : Name) (disk : Disk Name Symbol) : Disk Name Symbol :=
  match disk.file name with
  | some file => { disk with text := Function.update disk.text file [] }
  | none =>
    { file := Function.update disk.file name (some disk.fresh)
      text := Function.update disk.text disk.fresh []
      fresh := disk.fresh + 1 }

/-- A piece written over what is there from an offset on; what is skipped reads as zeros. -/
def overwrite [Inhabited Symbol] (text : List Symbol) (offset : ℕ)
    (piece : List Symbol) : List Symbol :=
  (text ++ List.replicate (offset - text.length) default).take offset ++ piece ++
    text.drop (offset + piece.length)

/-- A piece is written to an open file. -/
def write [Inhabited Symbol] (file offset : ℕ) (piece : List Symbol) (disk : Disk Name Symbol) :
    Disk Name Symbol :=
  { disk with text := Function.update disk.text file (overwrite (disk.text file) offset piece) }

/-- A file gets another name, which lets go of the file it stood for. -/
def rename [DecidableEq Name] (old new : Name)
    (disk : Disk Name Symbol) : Option (Disk Name Symbol) :=
  (disk.file old).map fun file ↦
    { disk with file := Function.update (Function.update disk.file old none) new (some file) }

/-! ### One name a file -/

/-- The files that have names are old ones, and each has one name. -/
structure Tidy (disk : Disk Name Symbol) : Prop where
  old : ∀ name file, disk.file name = some file → file < disk.fresh
  alone : ∀ name other file, disk.file name = some file → disk.file other = some file → name = other

section Write

variable [Inhabited Symbol] {disk : Disk Name Symbol} {file : ℕ}

/-- The next piece of a text that is being written from the start. -/
theorem overwrite_take (text : List Symbol) {written : ℕ} (hwritten : written ≤ text.length)
    (count : ℕ) :
    overwrite (text.take written) written ((text.drop written).take count) =
      text.take (written + count) := by
  have hlength : (text.take written).length = written := by
    rw [List.length_take, min_eq_left hwritten]
  have htail : (text.take written).drop (written + ((text.drop written).take count).length) = [] :=
    List.drop_eq_nil_of_le (by rw [hlength]; exact Nat.le_add_right _ _)
  unfold overwrite
  rw [htail, hlength, Nat.sub_self, List.replicate_zero, List.append_nil, List.append_nil,
    List.take_take, min_self]
  exact List.take_add.symm

theorem text_write_self (offset : ℕ) (piece : List Symbol) :
    (disk.write file offset piece).text file = overwrite (disk.text file) offset piece :=
  Function.update_self _ _ _

theorem text_write_of_ne {written : ℕ} (offset : ℕ) (piece : List Symbol) (hne : file ≠ written) :
    (disk.write written offset piece).text file = disk.text file :=
  Function.update_of_ne hne _ _

theorem Tidy.write (htidy : disk.Tidy) (file offset : ℕ) (piece : List Symbol) :
    (disk.write file offset piece).Tidy := ⟨htidy.old, htidy.alone⟩

end Write

section Names

variable [DecidableEq Name] {disk next : Disk Name Symbol} {name other : Name} {file : ℕ}

/-- Creating a file gives its name a file, and that file is empty. -/
theorem file_create_self (name : Name) :
    ∃ file, (disk.create name).file name = some file ∧ (disk.create name).text file = [] := by
  unfold create
  cases hfile : disk.file name with
  | some file => exact ⟨file, hfile, Function.update_self _ _ _⟩
  | none => exact ⟨disk.fresh, Function.update_self _ _ _, Function.update_self _ _ _⟩

/-- Creating a file leaves every other name with the file it had. -/
theorem file_create_of_ne (hne : other ≠ name) :
    (disk.create name).file other = disk.file other := by
  unfold create
  cases disk.file name with
  | some file => rfl
  | none => exact Function.update_of_ne hne _ _

/-- Opening a name to write touches no old file but its own. -/
theorem text_create (hold : file < disk.fresh) (hother : disk.file name ≠ some file) :
    (disk.create name).text file = disk.text file := by
  unfold create
  cases hfile : disk.file name with
  | some named =>
    refine Function.update_of_ne ?_ _ _
    rintro rfl
    exact hother hfile
  | none => exact Function.update_of_ne hold.ne _ _

/-- The file that is opened is the name's own, or new. -/
theorem file_create_ne (hold : file < disk.fresh) (hother : disk.file name ≠ some file) :
    (disk.create name).file name ≠ some file := by
  unfold create
  cases hfile : disk.file name with
  | some named =>
    show disk.file name ≠ some file
    exact hother
  | none =>
    show Function.update disk.file name (some disk.fresh) name ≠ some file
    rw [Function.update_self]
    rintro ⟨⟩
    exact lt_irrefl _ hold

theorem fresh_le_create (name : Name) : disk.fresh ≤ (disk.create name).fresh := by
  unfold create
  cases disk.file name with
  | some file => exact le_rfl
  | none => exact Nat.le_succ _

/-- Creating a file keeps a disk tidy: the new file is one that no name had. -/
theorem Tidy.create (htidy : disk.Tidy) (name : Name) : (disk.create name).Tidy := by
  unfold Disk.create
  cases hfile : disk.file name with
  | some file => exact ⟨htidy.old, htidy.alone⟩
  | none =>
    have hnew : ∀ named file, Function.update disk.file name (some disk.fresh) named = some file →
        named = name ∧ file = disk.fresh ∨ named ≠ name ∧ disk.file named = some file := by
      intro named file hnamed
      by_cases hsame : named = name
      · rw [hsame, Function.update_self] at hnamed
        exact Or.inl ⟨hsame, (Option.some.inj hnamed).symm⟩
      · rw [Function.update_of_ne hsame] at hnamed
        exact Or.inr ⟨hsame, hnamed⟩
    constructor
    · intro named file hnamed
      rcases hnew named file hnamed with ⟨-, rfl⟩ | ⟨-, hold⟩
      · exact Nat.lt_succ_self _
      · exact (htidy.old named file hold).trans (Nat.lt_succ_self _)
    · intro first second file hfirst hsecond
      rcases hnew first file hfirst with ⟨rfl, rfl⟩ | ⟨-, hfirstOld⟩
      · rcases hnew second _ hsecond with ⟨rfl, -⟩ | ⟨-, hsecondOld⟩
        · rfl
        · exact absurd (htidy.old second _ hsecondOld) (lt_irrefl _)
      · rcases hnew second file hsecond with ⟨rfl, rfl⟩ | ⟨-, hsecondOld⟩
        · exact absurd (htidy.old first _ hfirstOld) (lt_irrefl _)
        · exact htidy.alone first second file hfirstOld hsecondOld

/-- What another name reads is not touched by opening one to write. -/
theorem Tidy.read_create (htidy : disk.Tidy) (hne : other ≠ name) :
    (disk.create name).read other = disk.read other := by
  unfold read
  rw [file_create_of_ne hne]
  cases hfile : disk.file other with
  | none => rfl
  | some file =>
    have hapart : disk.file name ≠ some file := by
      intro hsame
      exact hne (htidy.alone other name file hfile hsame)
    rw [Option.map_some, Option.map_some, text_create (htidy.old other file hfile) hapart]

omit [DecidableEq Name] in
/-- What another name reads is not touched by writing to one. -/
theorem Tidy.read_write [Inhabited Symbol] (htidy : disk.Tidy) (hname : disk.file name = some file)
    (hne : other ≠ name) (offset : ℕ) (piece : List Symbol) :
    (disk.write file offset piece).read other = disk.read other := by
  unfold read
  show (disk.file other).map (disk.write file offset piece).text = _
  cases hfile : disk.file other with
  | none => rfl
  | some held =>
    have hapart : held ≠ file := by
      rintro rfl
      exact hne (htidy.alone other name held hfile hname)
    rw [Option.map_some, Option.map_some, text_write_of_ne offset piece hapart]

/-- A renaming that succeeds: the new name stands for the file, the old one for none. -/
theorem rename_eq_some (hne : name ≠ other) (hrename : disk.rename name other = some next) :
    ∃ file, disk.file name = some file ∧ next.file other = some file ∧ next.file name = none ∧
      (∀ third, third ≠ name → third ≠ other → next.file third = disk.file third) ∧
      next.text = disk.text ∧ next.fresh = disk.fresh := by
  unfold rename at hrename
  rw [Option.map_eq_some_iff] at hrename
  obtain ⟨file, hfile, rfl⟩ := hrename
  refine ⟨file, hfile, Function.update_self _ _ _, ?_, ?_, rfl, rfl⟩
  · show Function.update (Function.update disk.file name none) other (some file) name = none
    rw [Function.update_of_ne hne, Function.update_self]
  · intro third hname hother
    show Function.update (Function.update disk.file name none) other (some file) third = _
    rw [Function.update_of_ne hother, Function.update_of_ne hname]

/-- A rename keeps a directory tidy: whatever a name stands for afterwards, some name stood for
before. -/
theorem Tidy.rename (htidy : disk.Tidy) (hne : name ≠ other)
    (hrename : disk.rename name other = some next) : next.Tidy := by
  obtain ⟨file, hfile, hnew, hgone, hrest, -, hfresh⟩ := rename_eq_some hne hrename
  have hbefore : ∀ third held, next.file third = some held →
      third = other ∧ held = file ∨ third ≠ other ∧ third ≠ name ∧ disk.file third = some held := by
    intro third held hheld
    by_cases hother : third = other
    · rw [hother, hnew] at hheld
      exact Or.inl ⟨hother, (Option.some.inj hheld).symm⟩
    · by_cases hname : third = name
      · rw [hname, hgone] at hheld
        exact absurd hheld.symm (Option.some_ne_none _)
      · rw [hrest third hname hother] at hheld
        exact Or.inr ⟨hother, hname, hheld⟩
  constructor
  · intro third held hheld
    rw [hfresh]
    rcases hbefore third held hheld with ⟨-, rfl⟩ | ⟨-, -, hold⟩
    · exact htidy.old name _ hfile
    · exact htidy.old third held hold
  · intro first second held hfirst hsecond
    rcases hbefore first held hfirst with ⟨rfl, rfl⟩ | ⟨-, hfirstName, hfirstOld⟩
    · rcases hbefore second _ hsecond with ⟨rfl, -⟩ | ⟨-, hsecondName, hsecondOld⟩
      · rfl
      · exact absurd (htidy.alone second name _ hsecondOld hfile) hsecondName
    · rcases hbefore second held hsecond with ⟨rfl, rfl⟩ | ⟨-, -, hsecondOld⟩
      · exact absurd (htidy.alone first name _ hfirstOld hfile) hfirstName
      · exact htidy.alone first second held hfirstOld hsecondOld

end Names

end Disk

end Bc3Miner.Foundations
