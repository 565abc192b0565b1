import Bc3Miner.Foundations.PowerSchedule
import Mathlib.Data.Nat.Bitwise

/-!
# Sliding windows over an exponent

The schedule that a sliding window of `width` bits makes of an exponent: from the highest bit that
is set, every set bit begins a window that ends at a set bit too, and what the window reads names an
odd power. `Windows.schedule` is the schedule of `PowerSchedule`, `schedule_wellFormed` and
`schedule_exponent` say that it stays within its table and evaluates to the exponent, for every
exponent but zero and every width.

The scan is the source's: bits from the top, a window as wide as it can be that ends at a set bit,
then the squarings up to the next one. Its invariant is on the bits read so far (`scan_spec`): what
the schedule made of them evaluates to is the number that they are.
-/

set_option autoImplicit false
set_option relaxedAutoImplicit false

namespace Bc3Miner.Foundations

/-- The steps made so far, each a number of squarings and an odd power, and the squarings that are
left over. -/
structure Windows where
  steps : List (ℕ × ℕ)
  tail : ℕ
  deriving DecidableEq

namespace Windows

/-- From `low` on, the first set bit within `count` bits, or the bit after them. -/
def firstSet (bit : ℕ → Bool) : ℕ → ℕ → ℕ
  | 0, low => low
  | count + 1, low => if bit low then low else firstSet bit count (low + 1)

/-- The bits from `high` down to `low`. -/
def read (bit : ℕ → Bool) (high low : ℕ) : ℕ :=
  (List.range' low (high + 1 - low)).reverse.foldl
    (fun number place ↦ (number <<< 1) ||| (bit place).toNat) 0

/-- The number of bits up to the highest one that is set. -/
def significant (bit : ℕ → Bool) : ℕ → ℕ
  | 0 => 0
  | left + 1 => if bit left then left + 1 else significant bit left

/-- Where the window that begins at a set bit ends. -/
def lowEnd (bit : ℕ → Bool) (width high : ℕ) : ℕ :=
  let low := if width - 1 ≤ high then high - (width - 1) else 0
  firstSet bit (high - low) low

/-- The windows over the lowest `left` bits. -/
def scan (bit : ℕ → Bool) (width : ℕ) : ℕ → ℕ → ℕ → Windows
  | 0, _, tail => ⟨[], tail⟩
  | _ + 1, 0, tail => ⟨[], tail⟩
  | fuel + 1, high + 1, tail =>
    if bit high then
      let low := lowEnd bit width high
      let rest := scan bit width fuel low 0
      { rest with steps := (tail + (high + 1 - low), read bit high low / 2) :: rest.steps }
    else scan bit width fuel high (tail + 1)

/-- The windows over an exponent of `bits` bits. -/
def ofBits (bit : ℕ → Bool) (width bits : ℕ) : Windows :=
  scan bit width bits (significant bit bits) 0

/-- The schedule over `2 ^ (width - 1)` odd powers; there is none without a window. -/
def schedule (windows : Windows) (width : ℕ) : Option Schedule :=
  match windows.steps with
  | [] => none
  | (_, first) :: steps => some ⟨2 ^ (width - 1), first, steps, windows.tail⟩

/-! ### Bits -/

section Bits

variable {bit : ℕ → Bool}

/-- The first bit that is set at or above an index, if one is set within `count`: it is in range,
and it is set. -/
theorem firstSet_spec (count low : ℕ) (hbit : bit (low + count) = true) :
    low ≤ firstSet bit count low ∧ firstSet bit count low ≤ low + count ∧
      bit (firstSet bit count low) = true := by
  induction count generalizing low with
  | zero => exact ⟨le_rfl, le_rfl, hbit⟩
  | succ count ih =>
    rw [firstSet]
    by_cases hset : bit low = true
    · rw [if_pos hset]
      exact ⟨le_rfl, Nat.le_add_right _ _, hset⟩
    · rw [if_neg hset]
      have hlater : low + 1 + count = low + (count + 1) := by omega
      obtain ⟨hlow, hhigh, hfound⟩ := ih (low + 1) (by rwa [hlater])
      exact ⟨by omega, by omega, hfound⟩

/-- The low end of the window below a set bit: the window is no wider than `width`, and its lowest
bit is set. -/
theorem lowEnd_spec {width high : ℕ} (hwidth : 1 ≤ width) (hbit : bit high = true) :
    lowEnd bit width high ≤ high ∧ high + 1 - lowEnd bit width high ≤ width ∧
      bit (lowEnd bit width high) = true := by
  unfold lowEnd
  dsimp only
  split_ifs with hroom
  · have hend : high - (width - 1) + (high - (high - (width - 1))) = high := by omega
    rw [← hend] at hbit
    obtain ⟨hlow, hhigh, hset⟩ := firstSet_spec _ _ hbit
    exact ⟨by omega, by omega, hset⟩
  · have hend : 0 + (high - 0) = high := by omega
    rw [← hend] at hbit
    obtain ⟨hlow, hhigh, hset⟩ := firstSet_spec _ _ hbit
    exact ⟨by omega, by omega, hset⟩

end Bits

/-! ### The exponent of the windows -/

section Exponent

variable {e : ℕ}

theorem shiftLeft_or_bit (number : ℕ) (flag : Bool) :
    (number <<< 1) ||| flag.toNat = 2 * number + flag.toNat := by
  have hlt : flag.toNat < 2 ^ 1 := Nat.lt_succ_of_le flag.toNat_le
  rw [Nat.shiftLeft_eq, pow_one, Nat.mul_comm]
  exact (Nat.two_pow_add_eq_or_of_lt hlt number).symm

/-- The next bit of a number, and those above it. -/
theorem div_two_pow (e place : ℕ) :
    e / 2 ^ place = 2 * (e / 2 ^ (place + 1)) + (e.testBit place).toNat := by
  have hsplit := Nat.div_add_mod (e / 2 ^ place) 2
  rw [Nat.toNat_testBit, pow_succ, ← Nat.div_div_eq_div_mul]
  exact hsplit.symm

/-- What a window reads stands below the bits above it. -/
theorem read_eq {high low : ℕ} (hle : low ≤ high + 1) :
    e / 2 ^ low = (e / 2 ^ (high + 1)) * 2 ^ (high + 1 - low) + read e.testBit high low := by
  obtain ⟨count, hcount⟩ := Nat.exists_eq_add_of_le hle
  have hreads : ∀ count low : ℕ, e / 2 ^ low = (e / 2 ^ (low + count)) * 2 ^ count +
      (List.range' low count).reverse.foldl
        (fun number place ↦ (number <<< 1) ||| (e.testBit place).toNat) 0 := by
    intro count
    induction count with
    | zero => intro low; simp
    | succ count ih =>
      intro low
      have hnext := ih (low + 1)
      have hplace : low + (count + 1) = low + 1 + count := by omega
      rw [List.range'_succ, List.reverse_cons, List.foldl_append, List.foldl_cons, List.foldl_nil,
        shiftLeft_or_bit, div_two_pow e low, hnext, hplace, pow_succ]
      ring
  have hsame : high + 1 - low = count := by omega
  rw [read, hsame, hcount]
  exact hreads count low

/-- The bits of a window are a number of that many bits. -/
theorem read_lt (high low : ℕ) (hle : low ≤ high + 1) :
    read e.testBit high low < 2 ^ (high + 1 - low) := by
  have hsplit := read_eq (e := e) hle
  have hmod : read e.testBit high low = (e / 2 ^ low) % 2 ^ (high + 1 - low) := by
    have hpow : 2 ^ (high + 1) = 2 ^ low * 2 ^ (high + 1 - low) := by
      rw [← pow_add]
      congr 1
      omega
    have hdiv := Nat.div_add_mod' (e / 2 ^ low) (2 ^ (high + 1 - low))
    rw [Nat.div_div_eq_div_mul, ← hpow] at hdiv
    omega
  rw [hmod]
  exact Nat.mod_lt _ (Nat.two_pow_pos _)

/-- A window that ends at a set bit is odd. -/
theorem read_odd {high low : ℕ} (hle : low ≤ high) (hbit : e.testBit low = true) :
    2 * (read e.testBit high low / 2) + 1 = read e.testBit high low := by
  have hsplit := read_eq (e := e) (Nat.le_succ_of_le hle)
  have hlow := div_two_pow e low
  have heven : 2 ^ (high + 1 - low) = 2 * 2 ^ (high - low) := by
    rw [← pow_succ']
    congr 1
    omega
  rw [hbit, Bool.toNat_true] at hlow
  rw [heven, Nat.mul_left_comm] at hsplit
  omega

/-- The exponent that the steps come to from one that is reached. -/
def advance (reached : ℕ) (steps : List (ℕ × ℕ)) : ℕ :=
  steps.foldl (fun reached step ↦ reached * 2 ^ step.1 + (2 * step.2 + 1)) reached

/-- From what the upper bits of an exponent have come to, the windows over its lower bits and the
squarings left at the end come to the exponent, if there is fuel for every bit; and every window
asks for an entry of the table of odd powers. -/
theorem scan_spec {width : ℕ} (hwidth : 1 ≤ width) {fuel left tail reached : ℕ}
    (hfuel : left ≤ fuel) (hreached : reached * 2 ^ tail = e / 2 ^ left) :
    advance reached (scan e.testBit width fuel left tail).steps *
        2 ^ (scan e.testBit width fuel left tail).tail = e ∧
      ∀ step ∈ (scan e.testBit width fuel left tail).steps, step.2 < 2 ^ (width - 1) := by
  induction fuel generalizing left tail reached with
  | zero =>
    obtain rfl : left = 0 := Nat.le_zero.mp hfuel
    rw [pow_zero, Nat.div_one] at hreached
    exact ⟨hreached, fun step hmem ↦ absurd hmem List.not_mem_nil⟩
  | succ fuel ih =>
    rcases left with _ | high
    · rw [pow_zero, Nat.div_one] at hreached
      exact ⟨hreached, fun step hmem ↦ absurd hmem List.not_mem_nil⟩
    · rw [scan]
      by_cases hbit : e.testBit high = true
      · obtain ⟨hlow, hcount, hset⟩ := lowEnd_spec hwidth hbit
        rw [if_pos hbit]
        generalize lowEnd e.testBit width high = low at hlow hcount hset
        have hsplit := read_eq (e := e) (Nat.le_succ_of_le hlow)
        have hodd := read_odd hlow hset
        have hlt := read_lt (e := e) high low (Nat.le_succ_of_le hlow)
        have hnext : (reached * 2 ^ (tail + (high + 1 - low)) +
            (2 * (read e.testBit high low / 2) + 1)) * 2 ^ 0 = e / 2 ^ low := by
          rw [pow_zero, Nat.mul_one, hodd, pow_add, ← Nat.mul_assoc, hreached, ← hsplit]
        obtain ⟨hvalue, hsteps⟩ := ih (by omega) hnext
        refine ⟨hvalue, fun step hmem ↦ ?_⟩
        rcases List.mem_cons.mp hmem with rfl | hlater
        · have hpow : 2 ^ (high + 1 - low) ≤ 2 ^ width := Nat.pow_le_pow_right Nat.two_pos hcount
          have hhalf : 2 ^ width = 2 * 2 ^ (width - 1) := by
            rw [← pow_succ']
            congr 1
            omega
          show read e.testBit high low / 2 < 2 ^ (width - 1)
          omega
        · exact hsteps step hlater
      · rw [if_neg hbit]
        have hclear := div_two_pow e high
        rw [Bool.not_eq_true] at hbit
        rw [hbit, Bool.toNat_false, Nat.add_zero] at hclear
        refine ih (by omega) ?_
        rw [pow_succ, ← Nat.mul_assoc, hreached, hclear, Nat.mul_comm]

/-- The number of significant bits is enough for the exponent, and its top bit is set unless the
exponent is zero. -/
theorem significant_spec {bits : ℕ} (he : e < 2 ^ bits) :
    significant e.testBit bits ≤ bits ∧ e / 2 ^ significant e.testBit bits = 0 ∧
      (e ≠ 0 → ∃ high, significant e.testBit bits = high + 1 ∧ e.testBit high = true) := by
  induction bits with
  | zero =>
    have hzero : e = 0 := by simpa using he
    exact ⟨le_rfl, by simp [significant, hzero], fun hne ↦ absurd hzero hne⟩
  | succ left ih =>
    rw [significant]
    by_cases hbit : e.testBit left = true
    · rw [if_pos hbit]
      exact ⟨le_rfl, Nat.div_eq_of_lt he, fun _ ↦ ⟨left, rfl, hbit⟩⟩
    · rw [if_neg hbit]
      have hlt : e < 2 ^ left := by
        have hclear := div_two_pow e left
        rw [Bool.not_eq_true] at hbit
        rw [hbit, Bool.toNat_false, Nat.div_eq_of_lt he] at hclear
        exact (Nat.div_eq_zero_iff_lt (Nat.two_pow_pos left)).mp hclear
      obtain ⟨hle, hzero, htop⟩ := ih hlt
      exact ⟨hle.trans (Nat.le_succ left), hzero, htop⟩

/-- Every exponent but zero has a schedule; it stays within its table and evaluates to the
exponent. -/
theorem schedule_spec {width : ℕ} (hwidth : 1 ≤ width) {bits : ℕ} (he : e < 2 ^ bits)
    (hne : e ≠ 0) : ∃ schedule, (ofBits e.testBit width bits).schedule width = some schedule ∧
      schedule.WellFormed ∧ schedule.exponent = e := by
  obtain ⟨hle, hzero, htop⟩ := significant_spec he
  obtain ⟨high, hhigh, hbit⟩ := htop hne
  have hreached : 0 * 2 ^ 0 = e / 2 ^ significant e.testBit bits := by rw [hzero, Nat.zero_mul]
  obtain ⟨hvalue, hsteps⟩ := scan_spec hwidth hle hreached
  have hfirst : (ofBits e.testBit width bits).steps ≠ [] := by
    obtain ⟨fuel, rfl⟩ : ∃ fuel, bits = fuel + 1 := ⟨bits - 1, by omega⟩
    rw [ofBits, hhigh, scan, if_pos hbit]
    exact List.cons_ne_nil _ _
  change advance 0 (ofBits e.testBit width bits).steps * 2 ^ (ofBits e.testBit width bits).tail =
    e at hvalue
  change ∀ step ∈ (ofBits e.testBit width bits).steps, _ at hsteps
  unfold Windows.schedule
  rcases hwindows : (ofBits e.testBit width bits).steps with _ | ⟨⟨squares, first⟩, steps⟩
  · exact absurd hwindows hfirst
  · rw [hwindows] at hvalue hsteps
    refine ⟨_, rfl, ⟨hsteps _ List.mem_cons_self, fun step hmem ↦
      hsteps step (List.mem_cons_of_mem _ hmem)⟩, ?_⟩
    rw [advance, List.foldl_cons, Nat.zero_mul, Nat.zero_add] at hvalue
    exact hvalue

/-- The exponent zero has no schedule: there is no bit to start at. -/
theorem schedule_zero (width bits : ℕ) :
    (ofBits (Nat.testBit 0) width bits).schedule width = none := by
  have hnone : significant (Nat.testBit 0) bits = 0 := by
    induction bits with
    | zero => rfl
    | succ left ih => rw [significant, Nat.zero_testBit, if_neg Bool.false_ne_true, ih]
  rw [ofBits, hnone]
  cases bits <;> rfl

end Exponent

end Windows

end Bc3Miner.Foundations
