import Mathlib.Data.Option.Basic
import Mathlib.Tactic.Common

/-!
# Local arrays

An array of fixed size whose places hold nothing until they are written. Reading a place that was
never written, or one past the end, fails, and so does writing past the end: a run that returns has
read only what it had written.

`fill` is the loop that writes place `i - offset` for every `i` from `first` on, each from what the
array holds so far. `Holds` says which part of an indexed family of values the array holds, and
`fill_holds` that such a loop extends it. `foldlM_eq_some` and `mapM_eq_some` are for
loops that only read.

This is how the order of writes and reads in a loop is checked at all: a model over functions or
over arrays of zeros would read a place before it is written and not notice.
-/

set_option autoImplicit false
set_option relaxedAutoImplicit false

namespace Bc3Miner.Foundations

/-- An array of `size` places, some of them written. -/
structure LocalArray (α : Type) (size : ℕ) where
  places : Vector (Option α) size

namespace LocalArray

variable {α : Type} {size : ℕ}

/-- Before anything was written. -/
def uninitialised : LocalArray α size := ⟨Vector.replicate size none⟩

/-- An array whose places all hold a value from the start. -/
def initialised (value : α) : LocalArray α size := ⟨Vector.replicate size (some value)⟩

def read (array : LocalArray α size) (i : ℕ) : Option α :=
  if h : i < size then array.places[i] else none

def write (array : LocalArray α size) (i : ℕ) (value : α) : Option (LocalArray α size) :=
  if h : i < size then some ⟨array.places.set i (some value)⟩ else none

/-- Place `i` takes the value, for a place there is. -/
def put (array : LocalArray α size) (i : Fin size) (value : α) : LocalArray α size :=
  ⟨array.places.set i (some value)⟩

theorem write_eq (array : LocalArray α size) {i : ℕ} (hi : i < size) (value : α) :
    array.write i value = some (array.put ⟨i, hi⟩ value) := by
  unfold write put
  rw [dif_pos hi]

/-- A read after a write gives what was written at that index, and what was there before elsewhere.
-/
theorem read_put (array : LocalArray α size) (i : Fin size) (value : α) (j : ℕ) :
    (array.put i value).read j = if j = i then some value else array.read j := by
  unfold read put
  by_cases hj : j < size
  · rw [dif_pos hj, dif_pos hj, Vector.getElem_set]
    simp only [eq_comm]
  · have hne : j ≠ i := fun heq ↦ hj (heq ▸ i.isLt)
    rw [dif_neg hj, dif_neg hj, if_neg hne]

/-! ### Loops that fill an array -/

/-- `count` places written one after the other from index `first` on, index `i` at place
`i - offset`. -/
def fill (offset : ℕ) (body : LocalArray α size → ℕ → Option α) :
    ℕ → ℕ → LocalArray α size → Option (LocalArray α size)
  | 0, _, array => some array
  | count + 1, first, array => do
    let value ← body array first
    let next ← array.write (first - offset) value
    fill offset body count (first + 1) next

/-- The array holds the values of indices from `low` up to `high`, index `i` at place
`i - offset`. -/
structure Holds (array : LocalArray α size) (offset : ℕ) (values : ℕ → α)
    (low high : ℕ) : Prop where
  read_eq : ∀ i, low ≤ i → i < high → array.read (i - offset) = some (values i)

variable {offset low : ℕ} {values : ℕ → α}

theorem Holds.none (array : LocalArray α size) (low : ℕ) :
    array.Holds offset values low low :=
  ⟨fun _ hlow hhigh ↦ absurd hhigh (by omega)⟩

/-- Writing the value after the last one extends what the array holds. -/
theorem Holds.put {array : LocalArray α size} {high : ℕ}
    (hholds : array.Holds offset values low high) (hoffset : offset ≤ low)
    (hi : high - offset < size) :
    (array.put ⟨high - offset, hi⟩ (values high)).Holds offset values low (high + 1) := by
  refine ⟨fun i hge hlt ↦ ?_⟩
  rw [read_put]
  by_cases hi : i = high
  · rw [hi, if_pos rfl]
  · rw [if_neg (by simp only; omega)]
    exact hholds.read_eq i hge (by omega)

/-- A loop whose body finds the next value as long as the array holds those before it runs to its
end, and the array then holds them all. -/
theorem fill_holds {body : LocalArray α size → ℕ → Option α} {count first : ℕ}
    {array : LocalArray α size} (hholds : array.Holds offset values low first)
    (hoffset : offset ≤ low) (hlow : low ≤ first) (hsize : first + count ≤ offset + size)
    (hbody : ∀ (array : LocalArray α size) (i : ℕ), array.Holds offset values low i → first ≤ i →
      i < first + count → body array i = some (values i)) :
    ∃ filled, fill offset body count first array = some filled ∧
      filled.Holds offset values low (first + count) := by
  induction count generalizing first array with
  | zero => exact ⟨array, rfl, hholds⟩
  | succ count ih =>
    have hplace : first - offset < size := by omega
    have hnext := hholds.put hoffset hplace
    have hrest := ih hnext (by omega) (by omega) fun array i hheld hge hlt ↦
      hbody array i hheld (by omega) (by omega)
    rcases hrest with ⟨filled, hfill, hfilled⟩
    refine ⟨filled, ?_, by rwa [show first + (count + 1) = first + 1 + count by omega]⟩
    unfold fill
    rw [hbody array first hholds (Nat.le_refl first) (by omega)]
    simp only [Option.bind_eq_bind, Option.bind_some]
    rw [write_eq array hplace]
    exact hfill

/-- Two loops one after the other over the places of an array. The first finds its values elsewhere,
and the second computes each from what the array holds by then; if each value is the one at its
index, the array holds all of them afterwards, and no place outside it is read or written. -/
theorem fill_fill_holds {first : LocalArray α size → ℕ → Option α}
    {second : LocalArray α size → ℕ → Option α} {copied computed middle high : ℕ}
    {array : LocalArray α size} (hoffset : offset ≤ low) (hmiddle : middle = low + copied)
    (hhigh : high = middle + computed) (hsize : high ≤ offset + size)
    (hfirst : ∀ (array : LocalArray α size) (i : ℕ), low ≤ i → i < middle →
      first array i = some (values i))
    (hsecond : ∀ (array : LocalArray α size) (i : ℕ), array.Holds offset values low i → middle ≤ i →
      i < high → second array i = some (values i)) :
    ∃ filled, (fill offset first copied low array >>= fill offset second computed middle) =
      some filled ∧ filled.Holds offset values low high := by
  subst hmiddle hhigh
  have hcopied := fill_holds (Holds.none array low) hoffset (Nat.le_refl low) (by omega)
    fun array i _ hge hlt ↦ hfirst array i hge hlt
  rcases hcopied with ⟨middle, hcopy, hheld⟩
  have hcomputed := fill_holds hheld hoffset (by omega) hsize hsecond
  rcases hcomputed with ⟨filled, hfill, hfilled⟩
  refine ⟨filled, ?_, hfilled⟩
  rw [hcopy]
  exact hfill

end LocalArray

/-- A loop whose steps all find what they read is the loop of what they compute. -/
theorem foldlM_eq_some {σ ι : Type} {step : σ → ι → Option σ} {next : σ → ι → σ} {indices : List ι}
    (hstep : ∀ i ∈ indices, ∀ state, step state i = some (next state i)) (state : σ) :
    indices.foldlM step state = some (indices.foldl next state) := by
  induction indices generalizing state with
  | nil => rfl
  | cons i indices ih =>
    rw [List.foldlM_cons, hstep i List.mem_cons_self state]
    exact ih (fun j hj ↦ hstep j (List.mem_cons_of_mem i hj)) (next state i)

/-- A list whose items all give a value gives the list of their values. -/
theorem mapM_eq_some {α β : Type} {f : α → Option β} {g : α → β} {items : List α}
    (hf : ∀ item ∈ items, f item = some (g item)) : items.mapM f = some (items.map g) := by
  induction items with
  | nil => rfl
  | cons item rest ih =>
    rw [List.mapM_cons, hf item List.mem_cons_self,
      ih fun item hmem ↦ hf item (List.mem_cons_of_mem _ hmem)]
    rfl

end Bc3Miner.Foundations
