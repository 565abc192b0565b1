import Mathlib.Data.List.Basic
import Mathlib.Tactic.Common

/-!
# The rounds of the standard hashes

The loops of Keccak, SHA-512, RIPEMD-160 and BLAKE2 over a state of words, for any rotation and any
tables. An array is written place by place; the places here all lie within it.

Two implementations may rotate and look up in different ways: where they agree on what a loop
rotates by and reads, its results agree (`keccakRound_congr`, `ripemdCompress_congr`,
`blakeRounds_congr`).

What is a parameter is what two implementations may do differently: how a word is rotated, where a
table is read, which words of the message are used in which order. What is fixed is the order in
which an array is written, so that two programs with the same loops are the same function here.
-/

set_option autoImplicit false
set_option relaxedAutoImplicit false

namespace Bc3Miner.Foundations.HashRounds

/-! ### Keccak -/

section Keccak

/-- The places of the five rows of five, row by row. -/
def grid : List (ℕ × ℕ) := (List.range 5).flatMap fun y ↦ (List.range 5).map fun x ↦ (x, y)

variable (rotate : UInt64 → ℕ → UInt64) (place : ℕ → ℕ → ℕ) (offset : ℕ → ℕ)

def parity (lanes : Vector UInt64 25) (x : ℕ) : UInt64 :=
  lanes.getD x 0 ^^^ lanes.getD (x + 5) 0 ^^^ lanes.getD (x + 10) 0 ^^^ lanes.getD (x + 15) 0 ^^^
    lanes.getD (x + 20) 0

/-- Each lane corrected by two parities, rotated, and moved to its place. -/
def moveLanes (lanes : Vector UInt64 25) : Vector UInt64 25 :=
  grid.foldl (fun moved p ↦
    let corrected := lanes.getD (p.1 + 5 * p.2) 0 ^^^ parity lanes ((p.1 + 4) % 5) ^^^
      rotate (parity lanes ((p.1 + 1) % 5)) 1
    moved.setIfInBounds (place p.1 p.2) (rotate corrected (offset (p.1 + 5 * p.2))))
    (Vector.replicate 25 0)

/-- The rows, each lane with the next two of its row. -/
def mixRows (lanes moved : Vector UInt64 25) : Vector UInt64 25 :=
  grid.foldl (fun lanes p ↦
    lanes.setIfInBounds (p.1 + 5 * p.2) (moved.getD (p.1 + 5 * p.2) 0 ^^^
      (~~~moved.getD ((p.1 + 1) % 5 + 5 * p.2) 0 &&& moved.getD ((p.1 + 2) % 5 + 5 * p.2) 0))) lanes

def keccakRound (lanes : Vector UInt64 25) (constant : UInt64) : Vector UInt64 25 :=
  let lanes := mixRows lanes (moveLanes rotate place offset lanes)
  lanes.setIfInBounds 0 (lanes.getD 0 0 ^^^ constant)

theorem mem_grid {p : ℕ × ℕ} (hmem : p ∈ grid) : p.1 < 5 ∧ p.2 < 5 := by
  obtain ⟨y, hy, hrow⟩ := List.mem_flatMap.mp hmem
  obtain ⟨x, hx, rfl⟩ := List.mem_map.mp hrow
  exact ⟨List.mem_range.mp hx, List.mem_range.mp hy⟩

variable {rotate place offset}

/-- Two rounds of Keccak agree if their rotations agree wherever a round uses them, and their
placements and offsets agree on the lanes there are. -/
theorem keccakRound_congr {other : UInt64 → ℕ → UInt64} {place' : ℕ → ℕ → ℕ} {offset' : ℕ → ℕ}
    (hone : ∀ v, rotate v 1 = other v 1)
    (hplace : ∀ x < 5, ∀ y < 5, place x y = place' x y)
    (hoffset : ∀ i < 25, ∀ v, rotate v (offset i) = other v (offset' i))
    (lanes : Vector UInt64 25) (constant : UInt64) :
    keccakRound rotate place offset lanes constant =
      keccakRound other place' offset' lanes constant := by
  have hmoved : moveLanes rotate place offset lanes = moveLanes other place' offset' lanes := by
    refine List.foldl_ext _ _ _ fun moved p hmem ↦ ?_
    obtain ⟨hx, hy⟩ := mem_grid hmem
    simp only [hplace p.1 hx p.2 hy, hone, hoffset (p.1 + 5 * p.2) (by omega)]
  rw [keccakRound, keccakRound, hmoved]

end Keccak

/-! ### SHA-512 -/

section Sha512

/-- The four functions of a word that are made of rotations. -/
structure Sigmas where
  upper0 : UInt64 → UInt64
  upper1 : UInt64 → UInt64
  lower0 : UInt64 → UInt64
  lower1 : UInt64 → UInt64

variable (sigmas : Sigmas)

/-- Word `i` of the schedule, after those before it. -/
def scheduleWord (schedule : List UInt64) (i : ℕ) : List UInt64 :=
  schedule ++ [schedule.getD (i - 16) 0 + schedule.getD (i - 7) 0 +
    sigmas.lower0 (schedule.getD (i - 15) 0) + sigmas.lower1 (schedule.getD (i - 2) 0)]

def sha512Schedule (message : ℕ → UInt64) : List UInt64 :=
  (List.range' 16 64).foldl (scheduleWord sigmas) ((List.range 16).map message)

/-- All words move on by one place. -/
def sha512Round (constant word : UInt64) (state : Vector UInt64 8) : Vector UInt64 8 :=
  let s := fun i ↦ state.getD i 0
  let head := s 7 + sigmas.upper1 (s 4) + (s 6 ^^^ (s 4 &&& (s 5 ^^^ s 6))) + constant + word
  let extra := sigmas.upper0 (s 0) + ((s 0 &&& s 1) ||| (s 2 &&& (s 0 ||| s 1)))
  #v[head + extra, s 0, s 1, s 2, s 3 + head, s 4, s 5, s 6]

def sha512Compress (constants : List UInt64) (message : ℕ → UInt64) (chain : Vector UInt64 8) :
    Vector UInt64 8 :=
  let schedule := sha512Schedule sigmas message
  let state := (List.range 80).foldl
    (fun state i ↦ sha512Round sigmas (constants.getD i 0) (schedule.getD i 0) state) chain
  Vector.zipWith (· + ·) chain state

end Sha512

/-! ### RIPEMD-160 -/

section Ripemd

/-- The tables of one of the two paths. -/
structure Path where
  word : List ℕ
  rotation : List ℕ
  constant : List UInt32

variable (left : UInt32 → ℕ → UInt32) (boolean : ℕ → UInt32 → UInt32 → UInt32 → UInt32)

/-- Step `i` of a path, in its round with the boolean function `round`. -/
def ripemdStep (path : Path) (round i : ℕ) (message : ℕ → UInt32) (state : Vector UInt32 5) :
    Vector UInt32 5 :=
  let s := fun i ↦ state.getD i 0
  let sum := s 0 + boolean round (s 1) (s 2) (s 3) + message (path.word.getD i 0) +
    path.constant.getD (i / 16) 0
  #v[s 4, left sum (path.rotation.getD i 0) + s 4, s 1, left (s 2) 10, s 3]

/-- Both paths step by step, the second one through the boolean functions backwards. -/
def ripemdPaths (first second : Path) (chain : Vector UInt32 5) (message : ℕ → UInt32) :
    Vector UInt32 5 × Vector UInt32 5 :=
  (List.range 80).foldl (fun state i ↦
    (ripemdStep left boolean first (i / 16) i message state.1,
      ripemdStep left boolean second (4 - i / 16) i message state.2)) (chain, chain)

def ripemdCompress (first second : Path) (chain : Vector UInt32 5) (message : ℕ → UInt32) :
    Vector UInt32 5 :=
  let state := ripemdPaths left boolean first second chain message
  Vector.ofFn fun i : Fin 5 ↦ chain.getD ((i + 1) % 5) 0 + state.1.getD ((i + 2) % 5) 0 +
    state.2.getD ((i + 3) % 5) 0

variable {left}

/-- Two RIPEMD compressions agree if their rotations agree on the counts that the two paths use. -/
theorem ripemdCompress_congr {other : UInt32 → ℕ → UInt32} {first second : Path}
    (hten : ∀ v, left v 10 = other v 10)
    (hrotation : ∀ path, path = first ∨ path = second → ∀ i < 80, ∀ v,
      left v (path.rotation.getD i 0) = other v (path.rotation.getD i 0))
    (chain : Vector UInt32 5) (message : ℕ → UInt32) :
    ripemdCompress left boolean first second chain message =
      ripemdCompress other boolean first second chain message := by
  have hpaths : ripemdPaths left boolean first second chain message =
      ripemdPaths other boolean first second chain message := by
    refine List.foldl_ext _ _ _ fun state i hmem ↦ ?_
    have hi := List.mem_range.mp hmem
    simp only [ripemdStep, hten, hrotation first (Or.inl rfl) i hi,
      hrotation second (Or.inr rfl) i hi]
  rw [ripemdCompress, ripemdCompress, hpaths]

end Ripemd

/-! ### BLAKE2 -/

section Blake

/-- The words of one of the two widths: its four rotations and its number of rounds. -/
structure Blake (W : Type) where
  zero : W
  add : W → W → W
  xor : W → W → W
  rotate1 : W → W
  rotate2 : W → W
  rotate3 : W → W
  rotate4 : W → W
  rounds : ℕ

variable {W : Type} (ops : Blake W)

/-- Half of a mixing: a word of the message into four words of the state. -/
def blakeHalf (first second : W → W) (ia ib ic id : ℕ) (word : W) (state : Vector W 16) :
    Vector W 16 :=
  let v := fun (state : Vector W 16) i ↦ state.getD i ops.zero
  let state := state.setIfInBounds ia (ops.add (v state ia) (ops.add (v state ib) word))
  let state := state.setIfInBounds id (first (ops.xor (v state id) (v state ia)))
  let state := state.setIfInBounds ic (ops.add (v state ic) (v state id))
  state.setIfInBounds ib (second (ops.xor (v state ib) (v state ic)))

/-- The mixing of column or diagonal `col`. -/
def blakeMix (order : List ℕ) (message : ℕ → W) (diagonal col : ℕ) (state : Vector W 16) :
    Vector W 16 :=
  let ia := col
  let ib := 4 + (col + diagonal) % 4
  let ic := 8 + (col + 2 * diagonal) % 4
  let id := 12 + (col + 3 * diagonal) % 4
  let pair := 8 * diagonal + 2 * col
  let state := blakeHalf ops ops.rotate1 ops.rotate2 ia ib ic id (message (order.getD pair 0)) state
  blakeHalf ops ops.rotate3 ops.rotate4 ia ib ic id (message (order.getD (pair + 1) 0)) state

def blakeRounds (order : ℕ → List ℕ) (message : ℕ → W) (state : Vector W 16) : Vector W 16 :=
  (List.range ops.rounds).foldl (fun state round ↦
    (List.range 2).foldl (fun state diagonal ↦
      (List.range 4).foldl (fun state col ↦
        blakeMix ops (order round) message diagonal col state) state) state) state

/-- The chain with both halves of the state. -/
def blakeFold (chain : Vector W 8) (state : Vector W 16) : Vector W 8 :=
  Vector.ofFn fun i : Fin 8 ↦ ops.xor (chain.getD i ops.zero)
    (ops.xor (state.getD i ops.zero) (state.getD (i + 8) ops.zero))

/-- The rounds of BLAKE depend on the message orders of the rounds there are only. -/
theorem blakeRounds_congr {order order' : ℕ → List ℕ}
    (horder : ∀ round < ops.rounds, order round = order' round) (message : ℕ → W)
    (state : Vector W 16) :
    blakeRounds ops order message state = blakeRounds ops order' message state := by
  refine List.foldl_ext _ _ _ fun state round hmem ↦ ?_
  rw [horder round (List.mem_range.mp hmem)]

end Blake

end Bc3Miner.Foundations.HashRounds
