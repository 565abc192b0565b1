import Bc3Miner.Foundations.LocalArray
import Bc3Miner.Kernel.CurveMul

/-!
# A row of a table, built on the card

`bc3hash_build_row` of `src/kernels/bc3hash.cl`: each thread of a launch makes a stretch of
consecutive multiples of the row's base, the first by doubling and adding, each next one by adding
the base, and a run of up to 16 at a time affine with one inversion.

The index arithmetic goes through `u32` and `u32Sub`, which are nothing where 32 bits would wrap
around, and the loop over the runs through `fuel`: what has a result has it without either. A write
is the place of its first word in the row, and its eight words.

`buildRow_fills_the_row_once` is for every base of the group's order, every number of multiples
below `2 ^ 24` and every launch. That every multiple is written once is a permutation of the list of
writes (`stretches_perm`); that it is the right one follows the accumulator along the stretch.
-/

set_option autoImplicit false
set_option relaxedAutoImplicit false

namespace Bc3Miner.Kernel

open Foundations

/-! ### The kernel's function -/

def u32 (x : ℕ) : Option ℕ := if x < 2 ^ 32 then some x else none

def u32Sub (x y : ℕ) : Option ℕ := if y ≤ x then some (x - y) else none

/-- `BC3_BUILD_RUN`. -/
def buildRun : ℕ := 16

/-- The first and the last multiple of a thread. -/
structure Stretch where
  first : ℕ
  last : ℕ
  deriving DecidableEq

/-- The multiples of thread `id`, if there are any left for it. -/
def stretchOf (count threads id : ℕ) : Option (Option Stretch) := do
  let runs := (← u32Sub (← u32 (count + buildRun)) 1) / buildRun
  let stretch ← u32 ((← u32Sub (← u32 (runs + threads)) 1) / threads * buildRun)
  let first ← u32 (1 + (← u32 (id * stretch)))
  if stretch = 0 ∨ count < first then some none
  else
    let rest ← u32Sub count first
    let last ← if rest < stretch then some count else do u32Sub (← u32 (first + stretch)) 1
    some (some ⟨first, last⟩)

/-- The double, unless there is nothing yet. -/
def Accumulator.doubled (acc : Accumulator) : Accumulator :=
  if acc.inf then acc
  else
    let (x, y, z) := jacDouble acc.X acc.Y acc.Z
    ⟨x, y, z, acc.inf⟩

/-- The bits of the scalar below `bits`, from the highest. -/
def walkBits (bx by' : U256) (scalar : ℕ) : ℕ → Accumulator → Accumulator
  | 0, acc => acc
  | bit + 1, acc =>
    let acc := acc.doubled
    walkBits bx by' scalar bit
      (if (scalar >>> bit) &&& 1 ≠ 0 then (jacAddAffine acc bx by').1 else acc)

/-- The first multiple of a stretch. -/
def startPoint (bx by' : U256) (first : ℕ) : Accumulator :=
  walkBits bx by' first 32 ⟨mk256 0 0 0 0, mk256 0 0 0 0, mk256 1 0 0 0, true⟩

/-- The points of a run from multiple `b` on, and the one after them. -/
def collect (bx by' : U256) (last : ℕ) :
    ℕ → ℕ → Accumulator → Option (List Accumulator × Accumulator)
  | 0, _, acc => some ([], acc)
  | n + 1, b, acc => do
    let b ← u32 b
    let next := if b < last then (jacAddAffine acc bx by').1 else acc
    let (points, end') ← collect bx by' last n (b + 1) next
    some (acc :: points, end')

structure Write where
  place : ℕ
  words : List UInt64
  deriving DecidableEq

/-- What a run inverts, and what it writes. -/
structure TableRun where
  product : U256
  writes : List Write

/-- How many multiples are left for the run from `b0` on. -/
def runLength (last b0 : ℕ) : Option ℕ := do
  let left ← u32Sub last b0
  if left < buildRun then u32 (left + 1) else some buildRun

/-- The affine coordinates of number `j` of a run, in their place. -/
def runWrite (b0 j : ℕ) (point : Accumulator) (zi : U256) : Option Write := do
  let zi2 := fsq zi
  let x := fmul point.X zi2
  let y := fmul (fmul point.Y zi2) zi
  let place ← u32 ((← u32Sub b0 1) + j)
  some ⟨place * 8, x.v.toList ++ y.v.toList⟩

/-- The run from multiple `b0` on, and the point after it. -/
def runAt (bx by' : U256) (last b0 : ℕ) (acc : Accumulator) : Option (TableRun × Accumulator) := do
  let n ← runLength last b0
  let (points, next) ← collect bx by' last n b0 acc
  let point (j : ℕ) := points.getD j acc
  let product := SharedInverse.partialProduct fmul fun j ↦ (point j).Z
  let inv ← invSecp (product (n - 1))
  let inverses := SharedInverse.separate fmul (fun j ↦ (point j).Z) product (n - 1) inv
  let writes ← (List.range n).reverse.mapM fun j ↦ runWrite b0 j (point j) (inverses.getD j inv)
  some (⟨product (n - 1), writes⟩, next)

/-- The runs from multiple `b0` on. -/
def runsFrom (bx by' : U256) (last : ℕ) : ℕ → ℕ → Accumulator → Option (List TableRun)
  | 0, _, _ => none
  | fuel + 1, b0, acc => do
    let (run, next) ← runAt bx by' last b0 acc
    if (← u32Sub last b0) < buildRun then some [run]
    else
      let runs ← runsFrom bx by' last fuel (← u32 (b0 + buildRun)) next
      some (run :: runs)

/-- Thread `id` of a launch of `threads`. -/
def buildThread (fuel : ℕ) (base : List UInt64)
    (count threads id : ℕ) : Option (List TableRun) := do
  match ← stretchOf count threads id with
  | none => some []
  | some stretch =>
    let p (j : ℕ) := base.getD j 0
    let bx := mk256 (p 0) (p 1) (p 2) (p 3)
    let by' := mk256 (p 4) (p 5) (p 6) (p 7)
    runsFrom bx by' stretch.last fuel stretch.first (startPoint bx by' stretch.first)

/-- The threads `build_tables` launches for a row on a card with `sms` multiprocessors. -/
def gridThreads (sms count : ℕ) : ℕ := max 1 (min ((count + 63) / 64) (sms * 8)) * 64

/-! ### The stretches -/

theorem u32_eq {x : ℕ} (hx : x < 2 ^ 32) : u32 x = some x := if_pos hx

theorem u32Sub_eq {x y : ℕ} (hle : y ≤ x) : u32Sub x y = some (x - y) := if_pos hle

/-- How many multiples a thread has, in whole runs. -/
def stretchSize (count threads : ℕ) : ℕ :=
  ((count + 15) / 16 + threads - 1) / threads * 16

/-- The stretches of all threads cover the points of a row. -/
theorem stretchSize_covers {count threads : ℕ} (hthreads : 0 < threads) :
    count ≤ threads * stretchSize count threads := by
  have hruns : count ≤ (count + 15) / 16 * 16 := by omega
  have hceil : (count + 15) / 16 ≤ threads * (((count + 15) / 16 + threads - 1) / threads) := by
    have hdivide := Nat.div_add_mod ((count + 15) / 16 + threads - 1) threads
    have hrest := Nat.mod_lt ((count + 15) / 16 + threads - 1) hthreads
    omega
  calc count ≤ (count + 15) / 16 * 16 := hruns
    _ ≤ threads * (((count + 15) / 16 + threads - 1) / threads) * 16 :=
      Nat.mul_le_mul_right 16 hceil
    _ = threads * stretchSize count threads := Nat.mul_assoc _ _ _

/-- The stretches together exceed the points by at most sixteen for each thread and fifteen more. -/
theorem stretchSize_bound {count threads : ℕ} (hthreads : 0 < threads) :
    threads * stretchSize count threads ≤ count + 15 + 16 * threads := by
  have hfloor : threads * (((count + 15) / 16 + threads - 1) / threads) ≤
      (count + 15) / 16 + threads - 1 := Nat.mul_div_le _ _
  unfold stretchSize
  rw [← Nat.mul_assoc]
  omega

/-- The stretch of a thread, for rows of less than `2 ^ 24` points and up to `2 ^ 24` threads: in
its turn a thread has the next points, the last thread with any has what is left, later threads have
none, and no number wraps. -/
theorem stretchOf_eq {count threads id : ℕ} (hcount : 1 ≤ count) (hcount' : count < 2 ^ 24)
    (hthreads : threads ≤ 2 ^ 24) (hid : id < threads) :
    stretchOf count threads id = some (if count ≤ id * stretchSize count threads then none else
      some ⟨1 + id * stretchSize count threads,
      min count ((id + 1) * stretchSize count threads)⟩) := by
  have hpos : 0 < threads := Nat.zero_lt_of_lt hid
  have hcovers : 1 ≤ stretchSize count threads := by
    have hcovers : count ≤ threads * stretchSize count threads := stretchSize_covers hpos
    by_contra hzero
    rw [Nat.lt_one_iff.mp (not_le.mp hzero), Nat.mul_zero] at hcovers
    omega
  have hbound : threads * stretchSize count threads ≤ count + 15 + 16 * threads :=
    stretchSize_bound hpos
  have hown : (id + 1) * stretchSize count threads ≤ threads * stretchSize count threads :=
    Nat.mul_le_mul_right _ hid
  have hnext : (id + 1) * stretchSize count threads =
      id * stretchSize count threads + stretchSize count threads := Nat.succ_mul _ _
  have hsum : count + buildRun < 2 ^ 32 := by
    unfold buildRun
    omega
  have hruns : (count + buildRun - 1) / buildRun + threads < 2 ^ 32 := by
    unfold buildRun
    omega
  have hone : 1 ≤ count + buildRun := by omega
  have hone' : 1 ≤ (count + buildRun - 1) / buildRun + threads :=
    hpos.trans_le (Nat.le_add_left _ _)
  have hsize : ((count + buildRun - 1) / buildRun + threads - 1) / threads * buildRun =
      stretchSize count threads := rfl
  unfold stretchOf
  simp only [Option.bind_eq_bind]
  rw [u32_eq hsum, Option.bind_some, u32Sub_eq hone, Option.bind_some, u32_eq hruns,
    Option.bind_some, u32Sub_eq hone', Option.bind_some, hsize, u32_eq (by omega),
    Option.bind_some, u32_eq (by omega), Option.bind_some, u32_eq (by omega), Option.bind_some]
  generalize stretchSize count threads = size at *
  by_cases hover : count ≤ id * size
  · rw [if_pos (Or.inr (by omega)), if_pos hover]
  · rw [if_neg (by omega), if_neg hover, u32Sub_eq (by omega), Option.bind_some]
    by_cases hlast : count - (1 + id * size) < size
    · rw [if_pos hlast, Option.bind_some, Nat.min_eq_left (by omega)]
    · have hend : 1 + id * size + size - 1 = (id + 1) * size := by omega
      rw [if_neg hlast, u32_eq (by omega), Option.bind_some, u32Sub_eq (by omega), Option.bind_some,
        hend, Nat.min_eq_right (by omega)]

/-! ### The points of a stretch -/

/-- The base of a row: a point of the group's order, in coordinates that an addition adds. -/
structure IsBase (bx by' : U256) (B : secpCurve.Point) : Prop where
  order : addOrderOf B = secpN
  add {acc : Accumulator} {Q : secpCurve.Point} (hacc : acc.StandsFor Q) :
    (jacAddAffine acc bx by').1.StandsFor (Q + B)

/-- The numbers of the kernel are far below the order. -/
theorem lt_secpN {m : ℕ} (hm : m < 2 ^ 33) : m < secpN := hm.trans (by decide)

/-- The words of a point of the group's order are a base. -/
theorem isBase_pointWords {B : secpCurve.Point} (horder : addOrderOf B = secpN) :
    let p := fun j ↦ (pointWords B).getD j 0
    IsBase (mk256 (p 0) (p 1) (p 2) (p 3)) (mk256 (p 4) (p 5) (p 6) (p 7)) B := by
  rcases B with _ | ⟨x, y, h⟩
  · exact absurd (nsmul_zero 1) (multiple_ne_zero horder Nat.one_pos (lt_secpN (by norm_num)))
  · have hdouble : (.some x y h : secpCurve.Point) + .some x y h ≠ 0 := by
      rw [← two_nsmul]
      exact multiple_ne_zero horder Nat.two_pos (lt_secpN (by norm_num))
    have hown : y + y ≠ 0 := (Jacobian.Represents.affine h).y_add_y_ne_zero hdouble
    refine ⟨horder, fun hacc ↦ hacc.add ?_ ?_ h hown⟩
    · exact encodes_ofResidue x
    · exact encodes_ofResidue y

variable {B Q : secpCurve.Point} {bx by' : U256} {acc : Accumulator}

/-- Doubling an accumulator doubles the point it stands for, if that is not of order two. -/
theorem Accumulator.StandsFor.doubled (hacc : acc.StandsFor Q) (hdouble : Q ≠ 0 → Q + Q ≠ 0) :
    acc.doubled.StandsFor (Q + Q) := by
  unfold Accumulator.doubled
  by_cases hinf : acc.inf = true
  · have hzero : Q = 0 := hacc.inf_iff.mp hinf
    rw [if_pos hinf, hzero, add_zero, ← hzero]
    exact hacc
  · have hne : Q ≠ 0 := fun hzero ↦ hinf (hacc.inf_iff.mpr hzero)
    have hdoubled := hacc.double (Bool.eq_false_iff.mpr hinf) (hdouble hne)
    rw [if_neg hinf]
    generalize jacDouble acc.X acc.Y acc.Z = point at hdoubled ⊢
    exact hdoubled

/-- With the bits below `bits` still to come, the accumulator holds the multiple by the others. -/
theorem walkBits_standsFor (hbase : IsBase bx by' B) {scalar bits : ℕ} (hscalar : scalar < 2 ^ 32)
    (hacc : acc.StandsFor ((scalar / 2 ^ bits) • B)) :
    (walkBits bx by' scalar bits acc).StandsFor (scalar • B) := by
  induction bits generalizing acc with
  | zero =>
    rw [pow_zero, Nat.div_one] at hacc
    exact hacc
  | succ bit ih =>
    have hsplit : scalar / 2 ^ bit =
        scalar / 2 ^ (bit + 1) + scalar / 2 ^ (bit + 1) + scalar / 2 ^ bit % 2 := by
      rw [pow_succ, ← Nat.div_div_eq_div_mul]
      omega
    have hbit : (scalar >>> bit) &&& 1 = scalar / 2 ^ bit % 2 := by
      rw [Nat.and_one_is_mod, Nat.shiftRight_eq_div_pow]
    have hsmall : scalar / 2 ^ (bit + 1) ≤ scalar := Nat.div_le_self _ _
    have hdoubled := hacc.doubled fun hne ↦ by
      rw [← add_nsmul]
      refine multiple_ne_zero hbase.order (Nat.pos_of_ne_zero fun hzero ↦ hne ?_)
        (lt_secpN (by omega))
      rw [Nat.add_eq_zero_iff.mp hzero |>.1, zero_nsmul]
    rw [← add_nsmul] at hdoubled
    refine ih ?_
    rw [hsplit, hbit]
    rcases Nat.mod_two_eq_zero_or_one (scalar / 2 ^ bit) with heven | hodd
    · rw [heven, if_neg fun hne ↦ hne rfl, add_zero]
      exact hdoubled
    · rw [hodd, if_pos Nat.one_ne_zero, succ_nsmul]
      exact hbase.add hdoubled

/-- The first point of a stretch is its first multiple. -/
theorem startPoint_standsFor (hbase : IsBase bx by' B) {first : ℕ} (hfirst : first < 2 ^ 32) :
    (startPoint bx by' first).StandsFor (first • B) := by
  refine walkBits_standsFor hbase hfirst ?_
  rw [Nat.div_eq_of_lt hfirst, zero_nsmul]
  exact start_standsFor

/-- Let the accumulator stand for a multiple of the base, and the run stay in the stretch. The
points that are collected stand for consecutive multiples from that one on, and the accumulator for
the one after them, if the stretch goes on. -/
theorem collect_spec (hbase : IsBase bx by' B) {last : ℕ} (hlast : last < 2 ^ 32) {n b : ℕ}
    (hn : b + n ≤ last + 1) (hacc : acc.StandsFor (b • B)) :
    ∃ points next, collect bx by' last n b acc = some (points, next) ∧ points.length = n ∧
      (∀ j < n, ∀ default, (points.getD j default).StandsFor ((b + j) • B)) ∧
      (b + n ≤ last → next.StandsFor ((b + n) • B)) := by
  induction n generalizing b acc with
  | zero => exact ⟨[], acc, rfl, rfl, fun j hj ↦ absurd hj (Nat.not_lt_zero j), fun _ ↦ hacc⟩
  | succ n ih =>
    have hnext : b + 1 + n ≤ last + 1 := by omega
    obtain ⟨rest, next, hrest, hlength, hpoints, hend⟩ : ∃ rest next,
        collect bx by' last n (b + 1)
          (if b < last then (jacAddAffine acc bx by').1 else acc) = some (rest, next) ∧
        rest.length = n ∧
        (∀ j < n, ∀ default, (rest.getD j default).StandsFor ((b + 1 + j) • B)) ∧
        (b + 1 + n ≤ last → next.StandsFor ((b + 1 + n) • B)) := by
      by_cases hmore : b < last
      · rw [if_pos hmore]
        refine ih hnext ?_
        rw [succ_nsmul]
        exact hbase.add hacc
      · obtain rfl : n = 0 := by omega
        exact ⟨[], _, rfl, rfl, fun j hj ↦ absurd hj (Nat.not_lt_zero j),
          fun hle ↦ absurd hle (by omega)⟩
    refine ⟨acc :: rest, next, ?_, by rw [List.length_cons, hlength], ?_, fun hle ↦ ?_⟩
    · rw [collect, u32_eq (by omega), Option.bind_eq_bind, Option.bind_some]
      dsimp only
      rw [hrest]
      rfl
    · intro j hj default
      rcases j with _ | j
      · exact hacc
      · rw [List.getD_cons_succ, Nat.add_comm j, ← Nat.add_assoc]
        exact hpoints j (Nat.lt_of_succ_lt_succ hj) default
    · rw [Nat.add_comm n, ← Nat.add_assoc]
      exact hend (by omega)

/-! ### The runs of a stretch -/

/-- Jacobian coordinates and the inverse of the third one are the words of the point. -/
theorem Accumulator.StandsFor.words (hacc : acc.StandsFor Q) (hne : Q ≠ 0) {zi : U256}
    (hzi : Encodes zi (residue acc.Z)⁻¹) :
    (fmul acc.X (fsq zi)).v.toList ++ (fmul (fmul acc.Y (fsq zi)) zi).v.toList = pointWords Q := by
  have hrep := hacc.point
  rw [if_neg fun hinf ↦ hne (hacc.inf_iff.mp hinf)] at hrep
  obtain ⟨h, hpoint⟩ := hrep.point
  obtain ⟨hx, hy⟩ := jacToAffine_valid hacc.x.encodes hacc.y.encodes hzi
  rw [hpoint, pointWords, ← hx.unique (encodes_ofResidue _), ← hy.unique (encodes_ofResidue _)]
  rfl

/-- The entry of a multiple. -/
noncomputable def entryOf (B : secpCurve.Point) (b : ℕ) : Write := ⟨(b - 1) * 8, pointWords (b • B)⟩

/-- A run of up to sixteen points from a multiple that the accumulator stands for: it has an
outcome, the product that it inverts is not zero, and it writes the entry of each of its multiples,
once. -/
theorem runAt_spec (hbase : IsBase bx by' B) {last b0 : ℕ} (hlast : last < 2 ^ 32) (hpos : 0 < b0)
    (hb0 : b0 ≤ last) (hacc : acc.StandsFor (b0 • B)) :
    ∃ run next, runAt bx by' last b0 acc = some (run, next) ∧
      Reduced run.product ∧ residue run.product ≠ 0 ∧
      run.writes.Perm ((List.range' b0 (min 16 (last - b0 + 1))).map (entryOf B)) ∧
      (b0 + 16 ≤ last → next.StandsFor ((b0 + 16) • B)) := by
  obtain ⟨n, hn⟩ : ∃ n, n = min 16 (last - b0 + 1) := ⟨_, rfl⟩
  have hlength : runLength last b0 = some n := by
    unfold runLength buildRun
    rw [u32Sub_eq hb0, Option.bind_eq_bind, Option.bind_some]
    by_cases hfew : last - b0 < 16
    · rw [if_pos hfew, u32_eq (by omega), hn, Nat.min_eq_right (by omega)]
    · rw [if_neg hfew, hn, Nat.min_eq_left (by omega)]
  have hnpos : 0 < n := by omega
  obtain ⟨points, next, hcollect, -, hpoints, hnext⟩ :=
    collect_spec hbase hlast (n := n) (by omega) hacc
  obtain ⟨point, hpoint⟩ : ∃ point : ℕ → Accumulator, ∀ j, point j = points.getD j acc :=
    ⟨_, fun _ ↦ rfl⟩
  have hstands : ∀ j ≤ n - 1, (point j).StandsFor ((b0 + j) • B) := by
    intro j hj
    rw [hpoint]
    exact hpoints j (by omega) acc
  have hZ : ∀ j ≤ n - 1, Encodes (point j).Z (residue (point j).Z) :=
    fun j hj ↦ (hstands j hj).z.encodes
  have hnonzero : ∀ j ≤ n - 1, residue (point j).Z ≠ 0 := fun j hj ↦ (hstands j hj).z_ne_zero
  obtain ⟨product, hproduct⟩ : ∃ product : ℕ → U256,
      product = SharedInverse.partialProduct fmul fun j ↦ (point j).Z := ⟨_, rfl⟩
  have hproducts : ∀ j ≤ n - 1, Encodes (product j)
      (∏ k ∈ Finset.range (j + 1), residue (point k).Z) := by
    intro j hj
    rw [hproduct]
    exact SharedInverse.partialProduct_spec @Encodes.fmul fun k hk ↦ hZ k (hk.trans hj)
  obtain ⟨inv, hinv, hinverse⟩ := invSecp_encodes (hproducts (n - 1) le_rfl)
  obtain ⟨zi, hzi⟩ : ∃ zi : ℕ → U256, ∀ j, zi j =
      (SharedInverse.separate fmul (fun j ↦ (point j).Z) product (n - 1) inv).getD j inv :=
    ⟨_, fun _ ↦ rfl⟩
  have hinverses : ∀ j ≤ n - 1, Encodes (zi j) (residue (point j).Z)⁻¹ := by
    intro j hj
    rw [hzi]
    exact SharedInverse.separate_spec @Encodes.fmul hZ hnonzero hproducts hinverse hj _
  have hwrites : (List.range n).reverse.mapM (fun j ↦ runWrite b0 j (point j) (zi j)) =
      some ((List.range n).reverse.map fun j ↦ entryOf B (b0 + j)) := by
    refine mapM_eq_some fun j hmem ↦ ?_
    have hj : j < n := List.mem_range.mp (List.mem_reverse.mp hmem)
    have hne : (b0 + j) • B ≠ 0 :=
      multiple_ne_zero hbase.order (by omega) (lt_secpN (by omega))
    have hplace : b0 - 1 + j = b0 + j - 1 := by omega
    unfold runWrite
    rw [u32Sub_eq hpos, Option.bind_eq_bind, Option.bind_some, Nat.succ_eq_add_one, Nat.zero_add,
      u32_eq (by omega), Option.bind_some, hplace]
    rw [(hstands j (by omega)).words hne (hinverses j (by omega))]
    rfl
  refine ⟨⟨product (n - 1), (List.range n).reverse.map fun j ↦ entryOf B (b0 + j)⟩, next, ?_,
    (hproducts (n - 1) le_rfl).reduced, ?_, ?_, fun hle ↦ ?_⟩
  · unfold runAt
    rw [hlength, Option.bind_eq_bind, Option.bind_some, hcollect, Option.bind_eq_bind,
      Option.bind_some]
    dsimp only
    simp only [← hpoint, ← hproduct, hinv, ← hzi, hwrites, Option.bind_eq_bind, Option.bind_some]
  · dsimp only
    rw [(hproducts (n - 1) le_rfl).residue]
    refine Finset.prod_ne_zero_iff.mpr fun j hmem ↦ hnonzero j ?_
    exact Nat.le_of_lt_succ (Finset.mem_range.mp hmem)
  · rw [← hn, List.range'_eq_map_range, List.map_map]
    exact (List.reverse_perm _).map _
  · have hfull : n = 16 := by omega
    rw [← hfull]
    exact hnext (by omega)

/-- The runs of a thread from a multiple on, with fuel for all of them: they end, none inverts zero,
and together they write the entry of every multiple that is left in the stretch, once. -/
theorem runsFrom_spec (hbase : IsBase bx by' B) {last b0 bound : ℕ} (hlast : last < 2 ^ 32)
    (hpos : 0 < b0) (hb0 : b0 ≤ last) (hbound : last - b0 < bound * 16)
    (hacc : acc.StandsFor (b0 • B)) :
    ∃ runs, (∀ fuel, bound ≤ fuel → runsFrom bx by' last fuel b0 acc = some runs) ∧
      (∀ run ∈ runs, Reduced run.product ∧ residue run.product ≠ 0) ∧
      (runs.flatMap TableRun.writes).Perm ((List.range' b0 (last - b0 + 1)).map (entryOf B)) := by
  induction bound generalizing b0 acc with
  | zero => exact absurd hbound (by omega)
  | succ bound ih =>
    obtain ⟨run, next, hrun, hreduced, hne, hwrites, hnext⟩ := runAt_spec hbase hlast hpos hb0 hacc
    by_cases hfew : last - b0 < 16
    · refine ⟨[run], fun fuel hfuel ↦ ?_, ?_, ?_⟩
      · obtain ⟨left, rfl⟩ := Nat.exists_eq_add_of_le' hfuel
        rw [← Nat.add_assoc, runsFrom, hrun, Option.bind_eq_bind, Option.bind_some]
        dsimp only
        rw [u32Sub_eq hb0, Option.bind_eq_bind, Option.bind_some]
        exact if_pos hfew
      · intro made hmem
        rw [List.mem_singleton.mp hmem]
        exact ⟨hreduced, hne⟩
      · rw [Nat.min_eq_right (by omega)] at hwrites
        rw [List.flatMap_singleton]
        exact hwrites
    · have hmore : b0 + 16 ≤ last := by omega
      have hfull : ¬last - b0 < buildRun := hfew
      have hnextRun : b0 + buildRun < 2 ^ 32 := by
        unfold buildRun
        omega
      obtain ⟨runs, hruns, hproducts, hrest⟩ :=
        ih (Nat.add_pos_left hpos 16) hmore (by omega) (hnext hmore)
      refine ⟨run :: runs, fun fuel hfuel ↦ ?_, ?_, ?_⟩
      · obtain ⟨left, rfl⟩ := Nat.exists_eq_add_of_le' hfuel
        rw [← Nat.add_assoc, runsFrom, hrun, Option.bind_eq_bind, Option.bind_some]
        dsimp only
        rw [u32Sub_eq hb0, Option.bind_eq_bind, Option.bind_some, if_neg hfull, u32_eq hnextRun,
          Option.bind_some]
        exact congrArg (fun rest ↦ rest.bind fun rest ↦ some (run :: rest))
          (hruns (left + bound) (Nat.le_add_left bound left))
      · intro made hmem
        rcases List.mem_cons.mp hmem with hfirst | hlater
        · rw [hfirst]
          exact ⟨hreduced, hne⟩
        · exact hproducts made hlater
      · have hleft : last - b0 + 1 = 16 + (last - (b0 + 16) + 1) := by omega
        rw [Nat.min_eq_left (by omega)] at hwrites
        rw [List.flatMap_cons, hleft, ← List.range'_append_1, List.map_append]
        exact hwrites.append hrest

/-! ### The threads of a launch -/

/-- A thread of a launch over a row, for a base of the order of the group, a row below `2 ^ 24`
points and up to `2 ^ 24` threads: it ends whatever its place in the launch, inverts no zero, and
writes the entries of its stretch and nothing else. -/
theorem buildThread_spec {count threads id : ℕ} (horder : addOrderOf B = secpN)
    (hcount : 1 ≤ count) (hcount' : count < 2 ^ 24) (hthreads : threads ≤ 2 ^ 24)
    (hid : id < threads) :
    ∃ runs, (∀ fuel, count ≤ fuel →
        buildThread fuel (pointWords B) count threads id = some runs) ∧
      (∀ run ∈ runs, Reduced run.product ∧ residue run.product ≠ 0) ∧
      (runs.flatMap TableRun.writes).Perm
        ((List.range' (1 + min count (id * stretchSize count threads))
          (min count ((id + 1) * stretchSize count threads) -
            min count (id * stretchSize count threads))).map (entryOf B)) := by
  have hstretch := stretchOf_eq hcount hcount' hthreads hid
  have hnext : (id + 1) * stretchSize count threads =
      id * stretchSize count threads + stretchSize count threads := Nat.succ_mul _ _
  have hsize : 1 ≤ stretchSize count threads := by
    have hcovers : count ≤ threads * stretchSize count threads :=
      stretchSize_covers (Nat.zero_lt_of_lt hid)
    by_contra hzero
    rw [Nat.lt_one_iff.mp (not_le.mp hzero), Nat.mul_zero] at hcovers
    omega
  generalize stretchSize count threads = size at *
  by_cases hover : count ≤ id * size
  · rw [if_pos hover] at hstretch
    refine ⟨[], fun fuel _ ↦ by rw [buildThread, hstretch]; rfl, fun run hmem ↦
      absurd hmem List.not_mem_nil, ?_⟩
    rw [Nat.min_eq_left hover, Nat.min_eq_left (by omega), Nat.sub_self]
    exact List.Perm.nil
  · rw [if_neg hover] at hstretch
    have hbase := isBase_pointWords horder
    have hlast : min count ((id + 1) * size) < 2 ^ 32 := by omega
    have hfirst : 1 + id * size ≤ min count ((id + 1) * size) := by omega
    have hstart := startPoint_standsFor hbase (hfirst.trans_lt hlast)
    have hroom : min count ((id + 1) * size) - (1 + id * size) < count * 16 := by omega
    obtain ⟨runs, hruns, hproducts, hwrites⟩ :=
      runsFrom_spec hbase hlast (by omega) hfirst hroom hstart
    refine ⟨runs, fun fuel hfuel ↦ ?_, hproducts, ?_⟩
    · rw [buildThread, hstretch]
      exact hruns fuel hfuel
    have hlength : min count ((id + 1) * size) - (1 + id * size) + 1 =
        min count ((id + 1) * size) - id * size := by omega
    rw [hlength] at hwrites
    rwa [Nat.min_eq_right (Nat.le_of_not_le hover)]

/-- If each thread writes the entries of its stretch, each once, then all threads together write the
entries of the row as far as the stretches reach, each once: the stretches follow one another
without a gap and without an overlap. -/
theorem stretches_perm {count size : ℕ} {writes : ℕ → List Write} {threads : ℕ}
    (hwrites : ∀ id < threads, (writes id).Perm
      ((List.range' (1 + min count (id * size))
        (min count ((id + 1) * size) - min count (id * size))).map (entryOf B))) :
    ((List.range threads).flatMap writes).Perm
      ((List.range' 1 (min count (threads * size))).map (entryOf B)) := by
  induction threads with
  | zero =>
    rw [Nat.zero_mul, Nat.min_zero]
    exact List.Perm.nil
  | succ threads ih =>
    have hstep := hwrites threads (Nat.lt_succ_self threads)
    have hbefore := ih fun id hid ↦ hwrites id (hid.trans (Nat.lt_succ_self threads))
    have hmore : min count (threads * size) ≤ min count ((threads + 1) * size) :=
      min_le_min_left count (Nat.mul_le_mul_right size (Nat.le_succ threads))
    have hsplit : min count ((threads + 1) * size) = min count (threads * size) +
        (min count ((threads + 1) * size) - min count (threads * size)) := by omega
    rw [List.range_succ, List.flatMap_append, List.flatMap_singleton, hsplit,
      ← List.range'_append_1, List.map_append]
    exact hbefore.append hstep

/-- The grid of `build_tables` has between one thread and `2 ^ 24`. -/
theorem gridThreads_bounds {count : ℕ} (hcount : count < 2 ^ 24) (sms : ℕ) :
    1 ≤ gridThreads sms count ∧ gridThreads sms count ≤ 2 ^ 24 := by
  have hblocks : (count + 63) / 64 ≤ 2 ^ 18 := by omega
  have hmost : max 1 (min ((count + 63) / 64) (sms * 8)) ≤ 2 ^ 18 :=
    max_le (by norm_num) ((min_le_left _ _).trans hblocks)
  have hleast : 1 ≤ max 1 (min ((count + 63) / 64) (sms * 8)) := le_max_left _ _
  unfold gridThreads
  omega

/-- For every base of the group's order, every row below `2 ^ 24` multiples and every launch of up
to `2 ^ 24` threads, that of `build_tables` among them: each thread ends, with no number that wraps
around and no inversion of zero, and all threads together write the affine coordinates of each
multiple in its place, once, and nothing else. -/
theorem buildRow_fills_the_row_once {B : secpCurve.Point} (horder : addOrderOf B = secpN)
    {count threads : ℕ} (hcount : 1 ≤ count) (hcount' : count < 2 ^ 24) (hthreads : 1 ≤ threads)
    (hthreads' : threads ≤ 2 ^ 24) :
    (∀ sms, 1 ≤ gridThreads sms count ∧ gridThreads sms count ≤ 2 ^ 24) ∧
      (∀ b, 1 ≤ b → b ≤ count → b • B ≠ 0) ∧
      ∃ runs : ℕ → List TableRun,
        (∀ id < threads, ∀ fuel, count ≤ fuel →
          buildThread fuel (pointWords B) count threads id = some (runs id)) ∧
        (∀ id < threads, ∀ run ∈ runs id, Reduced run.product ∧ residue run.product ≠ 0) ∧
        ((List.range threads).flatMap fun id ↦ (runs id).flatMap TableRun.writes).Perm
          ((List.range' 1 count).map fun b ↦ ⟨(b - 1) * 8, pointWords (b • B)⟩) := by
  have hspec : ∀ id, ∃ runs : List TableRun, id < threads →
      (∀ fuel, count ≤ fuel → buildThread fuel (pointWords B) count threads id = some runs) ∧
        (∀ run ∈ runs, Reduced run.product ∧ residue run.product ≠ 0) ∧
        (runs.flatMap TableRun.writes).Perm
          ((List.range' (1 + min count (id * stretchSize count threads))
            (min count ((id + 1) * stretchSize count threads) -
              min count (id * stretchSize count threads))).map (entryOf B)) := by
    intro id
    by_cases hid : id < threads
    · obtain ⟨runs, hruns⟩ := buildThread_spec horder hcount hcount' hthreads' hid
      exact ⟨runs, fun _ ↦ hruns⟩
    · exact ⟨[], fun hlt ↦ absurd hlt hid⟩
  choose runs hruns using hspec
  refine ⟨fun sms ↦ gridThreads_bounds hcount' sms, fun b hpos hle ↦ ?_, runs,
    fun id hid ↦ (hruns id hid).1, fun id hid ↦ (hruns id hid).2.1, ?_⟩
  · exact multiple_ne_zero horder hpos (lt_secpN (by omega))
  · have hall := stretches_perm fun id hid ↦ (hruns id hid).2.2
    rw [Nat.min_eq_left (stretchSize_covers hthreads)] at hall
    exact hall

/-- The launch of `build_tables` for window 16's rows, of the first curve point. -/
theorem buildRow_fills_window_16 :
    (∀ b, 1 ≤ b → b ≤ 65535 → b • curvePoint 0 ≠ 0) ∧
      ∃ runs : ℕ → List TableRun,
        ((List.range 65536).flatMap fun id ↦ (runs id).flatMap TableRun.writes).Perm
          ((List.range' 1 65535).map fun b ↦ ⟨(b - 1) * 8, pointWords (b • curvePoint 0)⟩) := by
  obtain ⟨-, hne, runs, -, -, hwrites⟩ := buildRow_fills_the_row_once (addOrderOf_curvePoint 0)
    (by norm_num : 1 ≤ 65535) (by norm_num) (by norm_num : 1 ≤ 65536) (by norm_num)
  exact ⟨hne, runs, hwrites⟩

end Bc3Miner.Kernel
