import Bc3Miner.Foundations.WorkQueue
import Bc3Miner.Kernel.HostTables
import Bc3Miner.Kernel.TablePowers
import Bc3Miner.Reference.Parameters

/-!
# The assembly of the tables

`gpu_tables` of `bc3hash/src/lib.rs`: a queue of work whose items are the power tables and each row
of each curve, taken by as many threads as there are, each item written to its own slice of the
buffer. What comes out is the tables' layout, whoever takes what and in whichever order
(`builders_agree`), and the builder that goes row by row makes the same.

The words of the power tables are a parameter of these results: of the part that is built first,
only its length enters the layout. What `bc3hash_gpu_table_part` puts there is `powerPart`, the
tables of the reference's `FixedPower`, and the result at window 20 is taken over them.

The work queue is `Foundations.WorkQueue` with an item's computation as its job. The threads are any
number from one on; what a machine has is not looked at.
-/

set_option autoImplicit false
set_option relaxedAutoImplicit false

namespace Bc3Miner.Kernel

open Consensus Foundations Reference

/-! ### The queue of rows -/

section Assembly

variable {Pubkey : Type} (api : Secp256k1 Pubkey)

/-- `bc3hash_gpu_curve_row`. -/
def Secp256k1.gpuCurveRow (xs ys : ℕ → U256) (window curve row len : ℕ) : Option (List UInt64) :=
  if window < 2 ∨ 24 < window ∨ 3 < curve ∨ rowsOf window ≤ row ∨ len ≠ entriesOf window * 8 then
    none
  else api.curveRow (xs curve) (ys curve) window row

/-- What an item comes to: the power tables, or the row of a curve. -/
def Secp256k1.item (power : List UInt64) (xs ys : ℕ → U256) (window item : ℕ) :
    Option (List UInt64) :=
  if item = 0 then some power
  else api.gpuCurveRow xs ys window ((item - 1) / rowsOf window) ((item - 1) % rowsOf window)
    (entriesOf window * 8)

end Assembly

/-- The items, in the order they are taken. -/
def items (window : ℕ) : List ℕ := List.range (1 + 4 * rowsOf window)

/-- The buffer before anything is written. -/
def blank (window item : ℕ) : List UInt64 :=
  List.replicate (if item = 0 then Device.powerTablesU64 else entriesOf window * 8) 0

/-- The buffer after the threads have left, unless an item failed. -/
def assembled {Thread : Type} (window : ℕ) (state : WorkQueue.State Thread ℕ (List UInt64)) :
    Option (List UInt64) :=
  if state.failed then none else some ((items window).flatMap state.slot)

/-! ### The layout -/

/-- A range cut into stretches of one length lists the same, stretch by stretch. -/
theorem flatMap_range_mul {α : Type} (f : ℕ → List α) (count length : ℕ) :
    (List.range (count * length)).flatMap f =
      (List.range count).flatMap fun i ↦
        (List.range length).flatMap fun j ↦ f (length * i + j) := by
  induction count with
  | zero =>
    rw [Nat.zero_mul]
    rfl
  | succ count ih =>
    rw [Nat.succ_mul, List.range_add, List.flatMap_append, ih, List.flatMap_map, List.range_succ,
      List.flatMap_append, List.flatMap_singleton, Nat.mul_comm count]

section Layout

variable {window : ℕ} {rows : List Device.Row}

/-- The slots of the items one after the other are the layout of the buffer, if the first holds the
power tables and the others the rows of the four curves, curve by curve and row by row. -/
theorem flatMap_items {power : List UInt64} {points : ℕ → secpCurve.Point}
    {slot : ℕ → List UInt64} (hpower : slot 0 = power)
    (hrows : ∀ curve < 4, ∀ i < rowsOf window,
      slot (1 + (rowsOf window * curve + i)) = rowWords (points curve) (hostRow window i)) :
    (items window).flatMap slot =
      gpuTables power points ((List.range (rowsOf window)).map (hostRow window)) := by
  have hcurves : ((List.range 4).flatMap fun curve ↦
      (List.range (rowsOf window)).flatMap fun i ↦ slot (1 + (rowsOf window * curve + i))) =
      (List.range 4).flatMap fun curve ↦
        curveTable (points curve) ((List.range (rowsOf window)).map (hostRow window)) := by
    refine List.flatMap_congr fun curve hcurve ↦ ?_
    rw [curveTable, List.map_map, ← List.flatMap_def]
    exact List.flatMap_congr fun i hi ↦
      hrows curve (List.mem_range.mp hcurve) i (List.mem_range.mp hi)
  rw [items, List.range_add, List.flatMap_append, List.range_one, List.flatMap_singleton,
    List.flatMap_map, flatMap_range_mul, hpower, hcurves, List.flatMap_def]
  rfl

/-- The length of the buffer: the power tables, and eight words for every place of the four curve
tables. -/
theorem length_gpuTables {power : List UInt64} (points : ℕ → secpCurve.Point)
    (hfit : ∀ row ∈ rows, row.points ≤ row.places) :
    (gpuTables power points rows).length =
      power.length + 4 * ((rows.map Device.Row.places).sum * 8) := by
  have hlengths : ((List.range 4).map fun curve ↦ curveTable (points curve) rows).map List.length =
      List.replicate 4 ((rows.map Device.Row.places).sum * 8) := by
    rw [List.map_map, List.eq_replicate_iff]
    refine ⟨by simp, fun length hmem ↦ ?_⟩
    obtain ⟨curve, -, rfl⟩ := List.mem_map.mp hmem
    exact length_curveTable _ hfit
  rw [gpuTables, List.length_append, List.length_flatten, hlengths, List.sum_replicate_nat]

/-- Every place of the buffer behind the power tables: it holds the multiple of its row's base by
one more than its index, or zeros where the row has no more points, for each of the four curves. -/
theorem gpuTables_place {power : List UInt64} (points : ℕ → secpCurve.Point)
    (hfit : ∀ row ∈ rows, row.points ≤ row.places) {curve i p j : ℕ} (hcurve : curve < 4)
    (hi : i < rows.length) (hp : p < rows[i].places) (hj : j < 8) :
    (gpuTables power points rows).getD (power.length +
        ((curve * (rows.map Device.Row.places).sum +
          ((rows.take i).map Device.Row.places).sum + p) * 8 + j)) 0 =
      if p < rows[i].points then
        (pointWords (((p + 1) * 2 ^ rows[i].pos) • points curve)).getD j 0 else 0 := by
  have hbefore : ((rows.take i).map Device.Row.places).sum + rows[i].places ≤
      (rows.map Device.Row.places).sum := by
    have hlength : i < (rows.map Device.Row.places).length := by rwa [List.length_map]
    have hnext := sum_take_succ hlength
    have hsplit := List.sum_take_add_sum_drop (rows.map Device.Row.places) (i + 1)
    rw [List.getD_eq_getElem _ _ hlength, List.getElem_map] at hnext
    rw [List.map_take]
    omega
  have hplace : (((rows.take i).map Device.Row.places).sum + p) * 8 + j <
      (rows.map Device.Row.places).sum * 8 := by omega
  have hsplit : power.length + ((curve * (rows.map Device.Row.places).sum +
      ((rows.take i).map Device.Row.places).sum + p) * 8 + j) =
      power.length + curve * ((rows.map Device.Row.places).sum * 8) +
        ((((rows.take i).map Device.Row.places).sum + p) * 8 + j) := by ring
  have hread : ((gpuTables power points rows).drop _).getD _ 0 = _ :=
    gpuTables_getD points hfit hcurve hplace
  rw [List.getD_eq_getElem?_getD, List.getElem?_drop, ← List.getD_eq_getElem?_getD] at hread
  rw [hsplit, hread, curveTable_getD_row _ hfit hi hp hj]
  by_cases hpoint : p < rows[i].points
  · have hword := rowWords_getD (points curve) rows[i] (Nat.le_add_left 1 p) hpoint hj
    rw [Nat.add_sub_cancel] at hword
    rw [if_pos hpoint, hword]
  · rw [if_neg hpoint]
    exact rowWords_getD_of_ge (points curve) rows[i] (Nat.le_of_not_lt hpoint)

end Layout

/-! ### The builders -/

section Builders

variable {Pubkey : Type} {api : Secp256k1 Pubkey} {point : Pubkey → secpCurve.Point}
  (hlaw : api.ComputesGroupLaw point) {window : ℕ} (hlow : 2 ≤ window) (hhigh : window ≤ 20)
  {xs ys : ℕ → U256} {x y : ℕ → SecpField} (hxs : ∀ curve < 4, Encodes (xs curve) (x curve))
  (hys : ∀ curve < 4, Encodes (ys curve) (y curve))
  {h : ∀ curve, secpCurve.Nonsingular (x curve) (y curve)} {points : ℕ → secpCurve.Point}
  (hpoints : ∀ curve, points curve = .some (x curve) (y curve) (h curve))
  (horder : ∀ curve < 4, addOrderOf (points curve) = secpN)

include hlaw hlow hhigh hxs hys hpoints horder

/-- No item fails, and a row's item comes to the row of the layout. -/
theorem item_spec {power : List UInt64} {curve i : ℕ} (hcurve : curve < 4)
    (hi : i < rowsOf window) :
    api.item power xs ys window (1 + (rowsOf window * curve + i)) =
      some (rowWords (points curve) (hostRow window i)) := by
  have hcurveOf : (rowsOf window * curve + i) / rowsOf window = curve := by
    rw [Nat.mul_add_div (Nat.zero_lt_of_lt hi), Nat.div_eq_of_lt hi, Nat.add_zero]
  have hrowOf : (rowsOf window * curve + i) % rowsOf window = i := by
    rw [Nat.mul_add_mod, Nat.mod_eq_of_lt hi]
  have hchecks : ¬(window < 2 ∨ 24 < window ∨ 3 < curve ∨ rowsOf window ≤ i ∨
      entriesOf window * 8 ≠ entriesOf window * 8) := by omega
  rw [Secp256k1.item, if_neg (by omega), Nat.add_sub_cancel_left, hcurveOf, hrowOf,
    Secp256k1.gpuCurveRow, if_neg hchecks]
  exact Secp256k1.curveRow_spec hlaw (horder curve hcurve) hlow hhigh (hxs curve hcurve)
    (hys curve hcurve) (hpoints curve) hi

/-- Whatever the number of threads, at least one, and whatever the order in which they take the
items: in every state that they can come to and in which all of them have left, no item has failed
and the slots make up the layout. -/
theorem assembled_spec {power : List UInt64} {threads : ℕ} (hthreads : 1 ≤ threads)
    {state : WorkQueue.State (Fin threads) ℕ (List UInt64)}
    (hreach : PartialMachine.Reachable (WorkQueue.step (api.item power xs ys window))
      (WorkQueue.start (items window) (blank window)) state)
    (hfinished : WorkQueue.Finished state) :
    assembled window state =
      some (gpuTables power points ((List.range (rowsOf window)).map (hostRow window))) := by
  have : Nonempty (Fin threads) := ⟨⟨0, hthreads⟩⟩
  obtain ⟨hfailed, hslots⟩ := WorkQueue.slots_of_finished hreach hfinished
  have hrow : ∀ curve < 4, ∀ i < rowsOf window,
      1 + (rowsOf window * curve + i) ∈ items window := by
    intro curve hcurve i hi
    have hmul := Nat.mul_le_mul_left (rowsOf window) (Nat.le_of_lt_succ hcurve)
    rw [items, List.mem_range]
    omega
  have hall : ∀ item ∈ items window, api.item power xs ys window item ≠ none := by
    intro item hmem
    rw [items, List.mem_range] at hmem
    rcases Nat.eq_zero_or_pos item with hzero | hpos
    · rw [hzero]
      exact Option.some_ne_none power
    · have hrows : 0 < rowsOf window := by omega
      have hcurve : (item - 1) / rowsOf window < 4 := (Nat.div_lt_iff_lt_mul hrows).mpr (by omega)
      have hsplit : item = 1 + (rowsOf window * ((item - 1) / rowsOf window) +
          (item - 1) % rowsOf window) := by
        rw [Nat.div_add_mod]
        omega
      rw [hsplit, item_spec hlaw hlow hhigh hxs hys hpoints horder hcurve (Nat.mod_lt _ hrows)]
      exact Option.some_ne_none _
  rw [assembled, hfailed.mpr hall, if_neg Bool.false_ne_true, Option.some.injEq]
  refine flatMap_items (hslots 0 ?_ power rfl) fun curve hcurve i hi ↦ ?_
  · rw [items, List.mem_range]
    exact Nat.add_pos_left Nat.one_pos _
  · exact hslots _ (hrow curve hcurve i hi) _
      (item_spec hlaw hlow hhigh hxs hys hpoints horder hcurve hi)

/-- The rows by themselves, one after the other. -/
theorem rows_spec {curve : ℕ} (hcurve : curve < 4) :
    ((List.range (rowsOf window)).mapM (api.curveRow (xs curve) (ys curve) window)).map
        List.flatten =
      some (curveTable (points curve) ((List.range (rowsOf window)).map (hostRow window))) := by
  have hrows : ∀ rows : List ℕ, (∀ i ∈ rows, i < rowsOf window) →
      rows.mapM (api.curveRow (xs curve) (ys curve) window) =
        some (rows.map fun i ↦ rowWords (points curve) (hostRow window i)) := by
    intro rows hrows
    induction rows with
    | nil => rfl
    | cons i rest ih =>
      have hrow := Secp256k1.curveRow_spec hlaw (horder curve hcurve) hlow hhigh
        (hxs curve hcurve) (hys curve hcurve) (hpoints curve) (hrows i List.mem_cons_self)
      rw [List.mapM_cons, hrow, ih fun j hmem ↦ hrows j (List.mem_cons_of_mem i hmem)]
      rfl
  rw [hrows _ fun i hmem ↦ List.mem_range.mp hmem, Option.map_some, curveTable, List.map_map]
  rfl

end Builders

/-- For every window of the host's tables, with a library that computes the group law and four
points of the group's order: the builder that takes each row's base from the row before and the rows
built by themselves make the same table, for each curve; no scalar is zero or reaches the order, and
no multiple is at infinity; any number of threads, in whichever order they take the items, come to
their end and have then assembled the layout, as many bytes as `table_bytes` says; and each place of
it holds the multiple of its row, or zeros behind the row's points. -/
theorem builders_agree {Pubkey : Type} {api : Secp256k1 Pubkey} {point : Pubkey → secpCurve.Point}
    (hlaw : api.ComputesGroupLaw point) {window : ℕ} (hlow : 2 ≤ window) (hhigh : window ≤ 20)
    {power : List UInt64} (hpower : power.length = Device.powerTablesU64) {xs ys : ℕ → U256}
    {x y : ℕ → SecpField} (hxs : ∀ curve < 4, Encodes (xs curve) (x curve))
    (hys : ∀ curve < 4, Encodes (ys curve) (y curve))
    {h : ∀ curve, secpCurve.Nonsingular (x curve) (y curve)} {points : ℕ → secpCurve.Point}
    (hpoints : ∀ curve, points curve = .some (x curve) (y curve) (h curve))
    (horder : ∀ curve < 4, addOrderOf (points curve) = secpN) :
    ∃ rows, Device.rows window = some rows ∧ rows.length = rowsOf window ∧
      (∀ curve < 4,
        api.curveTable (xs curve) (ys curve) window = some (curveTable (points curve) rows) ∧
        ((List.range (rowsOf window)).mapM (api.curveRow (xs curve) (ys curve) window)).map
          List.flatten = some (curveTable (points curve) rows)) ∧
      (∀ i < rowsOf window,
        0 < bigEndian (scalarOf (window * i)) ∧ bigEndian (scalarOf (window * i)) < secpN ∧
        ∀ curve < 4, ∀ b, 1 ≤ b → b ≤ countOf window i →
          b • 2 ^ (window * i) • points curve ≠ 0) ∧
      (∀ threads, 1 ≤ threads → ∀ events, ∀ state : WorkQueue.State (Fin threads) ℕ (List UInt64),
        PartialMachine.run (WorkQueue.step (api.item power xs ys window))
          (WorkQueue.start (items window) (blank window)) events = some state →
        events.length ≤ 2 * (items window).length + threads ∧
        (∃ rest final, PartialMachine.run (WorkQueue.step (api.item power xs ys window))
          state rest = some final ∧ WorkQueue.Finished final) ∧
        (WorkQueue.Finished state → assembled window state = some (gpuTables power points rows))) ∧
      (gpuTables power points rows).length * 8 = Device.tableBytes window ∧
      ∀ curve < 4, ∀ (i : ℕ) (hi : i < rows.length), ∀ p < rows[i].places, ∀ j < 8,
        (gpuTables power points rows).getD (Device.powerTablesU64 +
          ((curve * (rows.map Device.Row.places).sum +
            ((rows.take i).map Device.Row.places).sum + p) * 8 + j)) 0 =
          if p < rows[i].points then
            (pointWords (((p + 1) * 2 ^ (window * i)) • points curve)).getD j 0 else 0 := by
  have hrows := rows_eq hlow hhigh
  have hfit : ∀ row ∈ (List.range (rowsOf window)).map (hostRow window),
      row.points ≤ row.places := by
    intro row hmem
    obtain ⟨i, hi, rfl⟩ := List.mem_map.mp hmem
    exact (one_le_countOf hlow (List.mem_range.mp hi)).2
  refine ⟨_, hrows, by rw [List.length_map, List.length_range], fun curve hcurve ↦ ⟨?_, ?_⟩,
    fun i hi ↦ ?_, fun threads hthreads events state hrun ↦ ⟨?_, ?_, fun hfinished ↦ ?_⟩, ?_,
    fun curve hcurve i hi p hp j hj ↦ ?_⟩
  · exact Secp256k1.curveTable_spec hlaw (horder curve hcurve) hlow hhigh (hxs curve hcurve)
      (hys curve hcurve) (hpoints curve)
  · exact rows_spec hlaw hlow hhigh hxs hys hpoints horder hcurve
  · obtain ⟨-, hscalar, hlt⟩ := scalarOf_spec hlow hhigh hi
    rw [hscalar]
    refine ⟨Nat.two_pow_pos _, hlt, fun curve hcurve ↦ ?_⟩
    exact (Secp256k1.multiples_ne_zero (horder curve hcurve) hlow hhigh hi).1
  · have hsteps := WorkQueue.length_add_measure hrun
    rw [WorkQueue.measure_start, Fintype.card_fin] at hsteps
    exact (Nat.le_add_right _ _).trans hsteps.le
  · exact WorkQueue.exists_finished _ state
  · exact assembled_spec hlaw hlow hhigh hxs hys hpoints horder hthreads ⟨events, hrun⟩ hfinished
  · rw [length_gpuTables points hfit, hpower, Device.tableBytes, hrows]
    dsimp only
    ring
  · have hread : (gpuTables power points _).getD _ 0 = _ :=
      gpuTables_place points hfit hcurve hi hp hj
    have hpos : ((List.range (rowsOf window)).map (hostRow window))[i].pos = window * i := by
      rw [List.getElem_map, List.getElem_range]
      rfl
    rwa [hpower, hpos] at hread

/-! ### A library -/

open Classical in
/-- The group law itself, with points for keys. -/
noncomputable def groupLaw : Secp256k1 secpCurve.Point where
  parse encoded :=
    let x : U256 := UInt.load fun j ↦ encoded.getD (1 + j) 0
    let y : U256 := UInt.load fun j ↦ encoded.getD (33 + j) 0
    if h : secpCurve.Nonsingular (residue x) (residue y) then
      if Reduced x ∧ Reduced y then some (.some _ _ h) else none
    else none
  combine a b := if a + b = 0 then none else some (a + b)
  tweakMul a scalar :=
    if bigEndian scalar = 0 ∨ secpN ≤ bigEndian scalar then none else some (bigEndian scalar • a)
  serialize a := match a with
    | .zero => none
    | .some x y _ => some (uncompressed (ofResidue x) (ofResidue y))

/-- The group law of the curve is a library that computes it. -/
theorem groupLaw_computesGroupLaw : groupLaw.ComputesGroupLaw id where
  parse {X Y x y} hX hY h := by
    obtain ⟨hreducedX, rfl⟩ := hX
    obtain ⟨hreducedY, rfl⟩ := hY
    obtain ⟨hloadX, hloadY⟩ := load_uncompressed X Y
    refine ⟨.some _ _ h, ?_, rfl⟩
    unfold groupLaw
    dsimp only
    rw [hloadX, hloadY, dif_pos h, if_pos ⟨hreducedX, hreducedY⟩]
  combine_infinity hsum := if_pos hsum
  combine hsum := ⟨_, if_neg hsum, rfl⟩
  tweakMul_invalid hscalar := if_pos hscalar
  tweakMul _ hpos hlt := ⟨_, if_neg (not_or_intro hpos.ne' (not_le.mpr hlt)), rfl⟩
  serialize {a x y h} hpoint := by
    rw [show a = .some x y h from hpoint]
    rfl

/-- The point a curve's table is built from. -/
def tablePoint (curve : ℕ) : CurvePoint := [pointH, pointJ, pointK, pointL].getD curve pointH

/-- The tables of the four curve points at window 20, behind the reference's power tables. Four
threads over the queue come to their end, and have then assembled the layout. -/
theorem builders_agree_at_window_20 :
    ∃ power rows, powerPart g64 g128 g256 = some power ∧ Device.rows 20 = some rows ∧
      (∀ curve < 4,
        groupLaw.curveTable (ofResidue (tablePoint curve).x) (ofResidue (tablePoint curve).y) 20 =
          some (curveTable (tablePoint curve).toPoint rows)) ∧
      ∃ events, ∃ state : WorkQueue.State (Fin 4) ℕ (List UInt64),
        PartialMachine.run (WorkQueue.step (groupLaw.item power
            (fun curve ↦ ofResidue (tablePoint curve).x)
            (fun curve ↦ ofResidue (tablePoint curve).y) 20))
          (WorkQueue.start (items 20) (blank 20)) events = some state ∧
        WorkQueue.Finished state ∧
        assembled 20 state =
          some (gpuTables power (fun curve ↦ (tablePoint curve).toPoint) rows) := by
  obtain ⟨-, -, -, power, -, -, -, hpower, hlength, -⟩ := powerPart_holds g64 g128 g256
  obtain ⟨rows, hrows, -, htables, -, hqueue, -⟩ := builders_agree groupLaw_computesGroupLaw
    (by norm_num : 2 ≤ 20) le_rfl hlength
    (fun curve _ ↦ encodes_ofResidue (tablePoint curve).x)
    (fun curve _ ↦ encodes_ofResidue (tablePoint curve).y)
    (fun curve ↦ rfl) (fun curve _ ↦ (tablePoint curve).addOrderOf_toPoint)
  obtain ⟨-, ⟨events, state, hrun, hfinished⟩, -⟩ := hqueue 4 (by norm_num) [] _ rfl
  obtain ⟨-, -, hassembled⟩ := hqueue 4 (by norm_num) events state hrun
  exact ⟨power, rows, hpower, hrows, fun curve hcurve ↦ (htables curve hcurve).1, events, state,
    hrun, hfinished, hassembled hfinished⟩

end Bc3Miner.Kernel
