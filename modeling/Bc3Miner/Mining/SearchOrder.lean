import Bc3Miner.Foundations.IntervalTiling
import Bc3Miner.Mining.MinerJob
import Mathlib.Data.Set.Function

/-!
# The order in which a worker searches

A worker owns the extranonce2 counters that start at its index and step by the number of workers,
and goes through all `2 ^ 32` nonces of one before the next. `searchOrder base stride` enumerates
these positions, and a cursor on them stands for the index it has reached (`Cursor.AtIndex`).

`Cursor.take` and `resumePoint` are the two implementations of the source that move along that
order: the GPU worker takes launches from a cursor, the CPU worker notes where it stopped. Both are
described by `Region.next`, the point just past a searched region (`Cursor.take_eq`,
`resumePoint_eq_next`). The step to the next extranonce2 saturates at the top of the 64 bits, where
the order ends (`Region.Saturates`); below it, regions searched one after the other are consecutive
intervals of the enumeration (`Chain.tiles`).

Saturation is part of the order and not excluded: behind a region that saturates the cursor has no
room for another stride (`Cursor.Dead`), and stays there. `Chain.covers` and `Chain.covers_iff` say
when the regions of a run cover what lies between two cursors, and `Chain.tiles` that they do so
without an overlap.
-/

set_option autoImplicit false
set_option relaxedAutoImplicit false

namespace Bc3Miner.Mining

open Foundations.IntervalTiling Set

/-! ### The source's cursor -/

/-- Where the next launch starts: an extranonce2 counter and the nonce within it. -/
structure Cursor where
  en2 : UInt64
  nonce : UInt32
  deriving DecidableEq, Repr

/-- A range of nonces searched under one extranonce2. -/
structure Region where
  en2 : UInt64
  start : UInt32
  count : UInt32
  deriving DecidableEq, Repr

/-- Addition of counters that stops at the top. -/
def saturatingAdd (first second : UInt64) : UInt64 :=
  if first.toNat + second.toNat < 2 ^ 64 then first + second else UInt64.ofNat (2 ^ 64 - 1)

/-- The next launch of at most `most` nonces, and the cursor past it: on to the next extranonce2 of
this worker when the nonces run out, which is where `overflowing_add` wraps around. A launch never
crosses the end of the nonces. -/
def Cursor.take (cursor : Cursor) (most : UInt32) (stride : UInt64) : Region × Cursor :=
  let left : UInt64 := ((1 : UInt64) <<< 32) - cursor.nonce.toUInt64
  let count : UInt32 := (min (max most 1).toUInt64 left).toUInt32
  let taken : Region := ⟨cursor.en2, cursor.nonce, count⟩
  let wrapped := 2 ^ 32 ≤ cursor.nonce.toNat + count.toNat
  if wrapped then (taken, ⟨saturatingAdd cursor.en2 stride, 0⟩)
  else (taken, ⟨cursor.en2, cursor.nonce + count⟩)

/-- Where to pick up again when a job change interrupts a CPU worker. -/
def resumePoint (en2 : UInt64) (nextNonce : UInt32) (wrapped : Bool) (stride : UInt64) : Cursor :=
  if wrapped then ⟨saturatingAdd en2 stride, 0⟩ else ⟨en2, nextNonce⟩

/-! ### Regions that follow one another -/

namespace Region

/-- A region lies inside the nonces of its extranonce2 and is not empty. -/
def Valid (region : Region) : Prop :=
  0 < region.count.toNat ∧ region.start.toNat + region.count.toNat ≤ 2 ^ 32

/-- A nonce of the region. -/
def Contains (region : Region) (nonce : UInt32) : Prop :=
  region.start.toNat ≤ nonce.toNat ∧ nonce.toNat < region.start.toNat + region.count.toNat

/-- The point just past a region. -/
def next (region : Region) (stride : UInt64) : Cursor :=
  if 2 ^ 32 ≤ region.start.toNat + region.count.toNat then ⟨saturatingAdd region.en2 stride, 0⟩
  else ⟨region.en2, region.start + region.count⟩

/-- A valid region that begins where the cursor stands. -/
def StartsAt (region : Region) (cursor : Cursor) : Prop :=
  region.en2 = cursor.en2 ∧ region.start = cursor.nonce ∧ region.Valid

/-- The region ends the nonces of an extranonce2 after which the counter has no room for a
stride. -/
def Saturates (stride : UInt64) (region : Region) : Prop :=
  region.start.toNat + region.count.toNat = 2 ^ 32 ∧ 2 ^ 64 ≤ region.en2.toNat + stride.toNat

instance (stride : UInt64) (region : Region) : Decidable (region.Saturates stride) :=
  inferInstanceAs (Decidable (_ ∧ _))

/-- The positions of a region: extranonce2 counter and nonce. -/
def positions (region : Region) : Set (ℕ × ℕ) :=
  {position | position.1 = region.en2.toNat ∧
    position.2 ∈ Ico region.start.toNat (region.start.toNat + region.count.toNat)}

end Region

/-- Regions searched one after the other, each from the point just past the one before it. -/
inductive Chain (stride : UInt64) : Cursor → List Region → Cursor → Prop
  | nil (cursor : Cursor) : Chain stride cursor [] cursor
  | cons {cursor last : Cursor} {region : Region} {rest : List Region}
      (hstarts : region.StartsAt cursor) (hrest : Chain stride (region.next stride) rest last) :
      Chain stride cursor (region :: rest) last

/-- The greater of two words as a number. -/
private theorem max_toNat (first second : UInt32) :
    (max first second).toNat = max first.toNat second.toNat := by
  change (if first ≤ second then second else first).toNat = _
  split_ifs with hle
  · rw [max_eq_right (UInt32.le_iff_toNat_le.mp hle)]
  · rw [max_eq_left (le_of_not_ge fun hge ↦ hle (UInt32.le_iff_toNat_le.mpr hge))]

/-- The smaller of two words as a number. -/
private theorem min_toNat (first second : UInt64) :
    (min first second).toNat = min first.toNat second.toNat := by
  change (if first ≤ second then first else second).toNat = _
  split_ifs with hle
  · rw [min_eq_left (UInt64.le_iff_toNat_le.mp hle)]
  · rw [min_eq_right (le_of_not_ge fun hge ↦ hle (UInt64.le_iff_toNat_le.mpr hge))]

/-- What `take` hands out: a valid region from where the cursor stood, and the point just past
it. -/
theorem Cursor.take_eq (cursor : Cursor) (most : UInt32) (stride : UInt64) :
    (cursor.take most stride).1.StartsAt cursor ∧
      (cursor.take most stride).2 = (cursor.take most stride).1.next stride := by
  have hnonce := cursor.nonce.toNat_lt
  have hleft : (((1 : UInt64) <<< 32) - cursor.nonce.toUInt64).toNat =
      2 ^ 32 - cursor.nonce.toNat := by
    have hone : ((1 : UInt64) <<< 32).toNat = 2 ^ 32 := by decide
    rw [UInt64.toNat_sub_of_le _ _ (UInt64.le_iff_toNat_le.mpr (by
      rw [hone, UInt32.toNat_toUInt64]; omega)), hone, UInt32.toNat_toUInt64]
  have hmost : (max most 1).toUInt64.toNat = max most.toNat 1 := by
    rw [UInt32.toNat_toUInt64]
    exact max_toNat most 1
  have hmost' := most.toNat_lt
  set count := (min (max most 1).toUInt64
    (((1 : UInt64) <<< 32) - cursor.nonce.toUInt64)).toUInt32 with hcount
  have hcountVal : count.toNat = min (max most.toNat 1) (2 ^ 32 - cursor.nonce.toNat) := by
    rw [hcount, UInt64.toNat_toUInt32, min_toNat, hmost, hleft]
    omega
  have hvalid : (⟨cursor.en2, cursor.nonce, count⟩ : Region).Valid :=
    ⟨by change 0 < count.toNat; omega, by change cursor.nonce.toNat + count.toNat ≤ _; omega⟩
  unfold Cursor.take Region.next
  simp only [← hcount]
  split_ifs with hwrap
  · exact ⟨⟨rfl, rfl, hvalid⟩, rfl⟩
  · exact ⟨⟨rfl, rfl, hvalid⟩, rfl⟩

/-- Where a CPU worker picks up again is the point just past the nonces it has hashed: the nonce
after the last one is 0 exactly when they ran out. -/
theorem resumePoint_eq_next {region : Region} (hvalid : region.Valid) (stride : UInt64) :
    resumePoint region.en2 (region.start + region.count) (region.start + region.count = 0) stride =
      region.next stride := by
  obtain ⟨hpos, hle⟩ := hvalid
  have hcount := region.count.toNat_lt
  have hzero : region.start + region.count = 0 ↔
      2 ^ 32 ≤ region.start.toNat + region.count.toNat := by
    rw [← UInt32.toNat_inj, UInt32.toNat_add]
    change _ % 2 ^ 32 = 0 ↔ _
    omega
  unfold resumePoint Region.next
  by_cases hwrap : 2 ^ 32 ≤ region.start.toNat + region.count.toNat
  · rw [if_pos hwrap, if_pos (by simpa using hzero.mpr hwrap)]
  · rw [if_neg hwrap, if_neg (by simpa using fun h ↦ hwrap (hzero.mp h))]

/-- Two chains of which the second starts where the first ends make one. -/
theorem Chain.append {stride : UInt64} {first middle last : Cursor} {regions regions' : List Region}
    (h : Chain stride first regions middle) (h' : Chain stride middle regions' last) :
    Chain stride first (regions ++ regions') last := by
  induction h with
  | nil cursor => exact h'
  | cons hstarts _ ih => exact .cons hstarts (ih h')

theorem Chain.concat {stride : UInt64} {first last : Cursor} {regions : List Region}
    {region : Region} (h : Chain stride first regions last) (hstarts : region.StartsAt last) :
    Chain stride first (regions ++ [region]) (region.next stride) :=
  h.append (.cons hstarts (.nil _))

/-- A chain of no regions ends where it starts. -/
theorem Chain.nil_iff {stride : UInt64} {first last : Cursor} :
    Chain stride first [] last ↔ first = last := by
  constructor
  · intro h
    cases h
    rfl
  · rintro rfl
    exact .nil _

/-- A chain starts with its first region and goes on from the point past it. -/
theorem Chain.cons_iff {stride : UInt64} {first last : Cursor} {region : Region}
    {rest : List Region} : Chain stride first (region :: rest) last ↔
      region.StartsAt first ∧ Chain stride (region.next stride) rest last := by
  constructor
  · intro h
    cases h with
    | cons hstarts hrest => exact ⟨hstarts, hrest⟩
  · rintro ⟨hstarts, hrest⟩
    exact .cons hstarts hrest

theorem Chain.valid {stride : UInt64} {first last : Cursor} {regions : List Region}
    (h : Chain stride first regions last) : ∀ region ∈ regions, region.Valid := by
  induction h with
  | nil cursor => simp
  | cons hstarts _ ih => exact List.forall_mem_cons.mpr ⟨hstarts.2.2, ih⟩

/-! ### The enumeration of a worker's positions -/

/-- The positions of the worker whose counters are `base`, `base + stride`, …, in the order it
searches them. -/
def searchOrder (base stride index : ℕ) : ℕ × ℕ :=
  (base + stride * (index / 2 ^ 32), index % 2 ^ 32)

/-- With a stride that is not zero no position of the enumeration comes twice. -/
theorem searchOrder_injective (base : ℕ) {stride : ℕ} (hstride : 0 < stride) :
    Function.Injective (searchOrder base stride) := by
  intro first second heq
  simp only [searchOrder, Prod.mk.injEq, Nat.add_left_cancel_iff] at heq
  have hdiv : first / 2 ^ 32 = second / 2 ^ 32 := Nat.eq_of_mul_eq_mul_left hstride heq.1
  rw [← Nat.div_add_mod first (2 ^ 32), ← Nat.div_add_mod second (2 ^ 32), hdiv, heq.2]

/-- The cursor stands at an index of the enumeration. -/
def Cursor.AtIndex (base stride : ℕ) (cursor : Cursor) (index : ℕ) : Prop :=
  (cursor.en2.toNat, cursor.nonce.toNat) = searchOrder base stride index

/-- The positions from one cursor up to another in the order of a worker that starts at the
first. -/
def between (stride : ℕ) (first last : Cursor) : Set (ℕ × ℕ) :=
  {position | ∃ index stop, first.nonce.toNat ≤ index ∧ index < stop ∧
    last.AtIndex first.en2.toNat stride stop ∧
      position = searchOrder first.en2.toNat stride index}

/-- Counted from its own extranonce2, a cursor stands at the index of its nonce. -/
theorem Cursor.atIndex_self (stride : ℕ) (cursor : Cursor) :
    cursor.AtIndex cursor.en2.toNat stride cursor.nonce.toNat := by
  have hlt := cursor.nonce.toNat_lt
  simp only [Cursor.AtIndex, searchOrder, Prod.mk.injEq]
  constructor
  · rw [Nat.div_eq_of_lt hlt, Nat.mul_zero, Nat.add_zero]
  · rw [Nat.mod_eq_of_lt hlt]

theorem Cursor.AtIndex.unique {base stride : ℕ} (hstride : 0 < stride) {cursor : Cursor}
    {index index' : ℕ} (h : cursor.AtIndex base stride index)
    (h' : cursor.AtIndex base stride index') : index = index' :=
  searchOrder_injective base hstride (h.symm.trans h')

/-- The interval of the enumeration that a region of the worker stands for. -/
def Region.cut (base stride : ℕ) (region : Region) : ℕ × ℕ :=
  let first := (region.en2.toNat - base) / stride * 2 ^ 32 + region.start.toNat
  (first, first + region.count.toNat)

/-- Let a region start at a cursor that stands at an index of the enumeration. As an interval of the
enumeration it goes from that index as far as it has nonces, and its positions are those of the
interval, in order. -/
theorem Region.cut_eq {base stride : ℕ} (hstride : 0 < stride) {region : Region} {cursor : Cursor}
    {index : ℕ} (hstarts : region.StartsAt cursor) (hindex : cursor.AtIndex base stride index) :
    region.cut base stride = (index, index + region.count.toNat) ∧
      region.positions = searchOrder base stride '' Ico index (index + region.count.toNat) := by
  obtain ⟨hen2, hnonce, hpos, hle⟩ := hstarts
  simp only [Cursor.AtIndex, searchOrder, Prod.mk.injEq] at hindex
  obtain ⟨hcounter, hstart⟩ := hindex
  rw [← hen2] at hcounter
  rw [← hnonce] at hstart
  have hsplit := Nat.div_add_mod index (2 ^ 32)
  have hfirst : (region.en2.toNat - base) / stride * 2 ^ 32 + region.start.toNat = index := by
    rw [hcounter, Nat.add_sub_cancel_left, Nat.mul_div_cancel_left _ hstride, hstart]
    omega
  refine ⟨by rw [Region.cut, hfirst], ?_⟩
  ext ⟨counter, nonce⟩
  simp only [Region.positions, mem_ofPred_eq, mem_image, mem_Ico, searchOrder, Prod.mk.injEq]
  constructor
  · rintro ⟨rfl, hlow, hhigh⟩
    refine ⟨index / 2 ^ 32 * 2 ^ 32 + nonce, ⟨by omega, by omega⟩, ?_, by omega⟩
    rw [hcounter]
    congr 2
    omega
  · rintro ⟨position, ⟨hlow, hhigh⟩, rfl, rfl⟩
    have hsame : position / 2 ^ 32 = index / 2 ^ 32 := by omega
    exact ⟨by rw [hsame, hcounter], by omega, by omega⟩

/-- Let a region start at a cursor that stands at an index, and the counter not saturate in it. The
point just past the region then stands at the index past its last position. -/
theorem Region.next_atIndex {base : ℕ} {stride : UInt64} {region : Region} {cursor : Cursor}
    {index : ℕ} (hstarts : region.StartsAt cursor) (hroom : ¬ region.Saturates stride)
    (hindex : cursor.AtIndex base stride.toNat index) :
    (region.next stride).AtIndex base stride.toNat (index + region.count.toNat) := by
  obtain ⟨hen2, hnonce, hpos, hle⟩ := hstarts
  simp only [Cursor.AtIndex, searchOrder, Prod.mk.injEq] at hindex ⊢
  obtain ⟨hcounter, hstart⟩ := hindex
  rw [← hen2] at hcounter
  rw [← hnonce] at hstart
  unfold Region.next
  split_ifs with hwrap
  · have hfits : region.en2.toNat + stride.toNat < 2 ^ 64 := by
      by_contra hfull
      exact hroom ⟨le_antisymm hle hwrap, not_lt.mp hfull⟩
    have hquotient : (index + region.count.toNat) / 2 ^ 32 = index / 2 ^ 32 + 1 := by omega
    refine ⟨?_, by change 0 = _; omega⟩
    rw [saturatingAdd, if_pos hfits, UInt64.toNat_add, Nat.mod_eq_of_lt hfits, hquotient, hcounter]
    ring
  · have hquotient : (index + region.count.toNat) / 2 ^ 32 = index / 2 ^ 32 := by omega
    refine ⟨by rw [hquotient, hcounter], ?_⟩
    rw [UInt32.toNat_add, Nat.mod_eq_of_lt (by omega)]
    omega

/-- Let regions be searched one after the other, the first from a cursor at an index, and the
counter saturate in none of them. As intervals of the enumeration they then tile what lies between
that index and the one at which the last cursor stands. -/
theorem Chain.tiles {base : ℕ} {stride : UInt64} (hstride : 0 < stride.toNat) {first last : Cursor}
    {regions : List Region} (h : Chain stride first regions last)
    (hroom : ∀ region ∈ regions, ¬ region.Saturates stride) {index : ℕ}
    (hindex : first.AtIndex base stride.toNat index) :
    ∃ stop, Tiles index (regions.map (Region.cut base stride.toNat)) stop ∧
      last.AtIndex base stride.toNat stop ∧ ∀ region ∈ regions, region.positions =
        searchOrder base stride.toNat ''
          Ico (region.cut base stride.toNat).1 (region.cut base stride.toNat).2 := by
  induction h generalizing index with
  | nil cursor => exact ⟨index, .nil _, hindex, by simp⟩
  | @cons cursor last region rest hstarts _ ih =>
    obtain ⟨hcut, hpositions⟩ := Region.cut_eq hstride hstarts hindex
    obtain ⟨stop, htiles, hlast, hrest⟩ := ih
      (fun other hother ↦ hroom other (List.mem_cons_of_mem _ hother))
      (Region.next_atIndex hstarts (hroom region List.mem_cons_self) hindex)
    have hnonempty : index < index + region.count.toNat := by
      have := hstarts.2.2.1
      omega
    refine ⟨stop, ?_, hlast, List.forall_mem_cons.mpr ⟨by rw [hcut, hpositions], hrest⟩⟩
    rw [List.map_cons, hcut]
    exact .cons hnonempty htiles

/-- A chain takes at most one stride of the counter for each of its regions. -/
theorem Chain.en2_add_le {stride : UInt64} {first last : Cursor} {regions : List Region}
    (h : Chain stride first regions last) : ∀ region ∈ regions,
      region.en2.toNat + stride.toNat ≤ first.en2.toNat + stride.toNat * regions.length := by
  induction h with
  | nil cursor => simp
  | @cons cursor last region rest hstarts _ ih =>
    have hnext : (region.next stride).en2.toNat ≤ region.en2.toNat + stride.toNat := by
      unfold Region.next saturatingAdd
      split_ifs with hwrap hfits
      · rw [UInt64.toNat_add]
        exact Nat.mod_le _ _
      · rw [UInt64.toNat_ofNat', Nat.mod_eq_of_lt (by omega)]
        omega
      · exact Nat.le_add_right _ _
    have hsame : region.en2.toNat = cursor.en2.toNat := by rw [hstarts.1]
    simp only [List.forall_mem_cons, List.length_cons, Nat.mul_add, Nat.mul_one]
    refine ⟨by omega, fun other hother ↦ ?_⟩
    have hrest := ih other hother
    omega

/-! ### Regions that cover a stretch of the order -/

/-- The regions are disjoint and make up exactly the positions from one cursor up to another. -/
structure Covers (stride : ℕ) (first last : Cursor) (regions : List Region) : Prop where
  disjoint : regions.Pairwise fun region other ↦ Disjoint region.positions other.positions
  exact : ∀ position, position ∈ between stride first last ↔
    ∃ region ∈ regions, position ∈ region.positions

/-- Regions searched one after the other cover what lies between their ends, as long as the counter
does not saturate. -/
theorem Chain.covers {stride : UInt64} (hstride : 0 < stride.toNat) {first last : Cursor}
    {regions : List Region} (h : Chain stride first regions last)
    (hroom : ∀ region ∈ regions, ¬ region.Saturates stride) :
    Covers stride.toNat first last regions := by
  obtain ⟨stop, htiles, hlast, hpositions⟩ :=
    h.tiles hstride hroom (Cursor.atIndex_self stride.toNat first)
  constructor
  · have hdisjoint := List.pairwise_map.mp htiles.ascends.pairwise_disjoint
    refine List.Pairwise.imp_of_mem (fun {region other} hmem hmem' hcut ↦ ?_) hdisjoint
    rw [hpositions region hmem, hpositions other hmem']
    exact (disjoint_image_iff (searchOrder_injective _ hstride)).mpr hcut
  · intro position
    constructor
    · rintro ⟨index, stop', hlow, hhigh, hstop', rfl⟩
      obtain rfl := hstop'.unique hstride hlast
      obtain ⟨cut, hcut, hindex⟩ := (htiles.mem_iff index).mp ⟨hlow, hhigh⟩
      obtain ⟨region, hregion, rfl⟩ := List.mem_map.mp hcut
      exact ⟨region, hregion, hpositions region hregion ▸ mem_image_of_mem _ hindex⟩
    · rintro ⟨region, hregion, hposition⟩
      rw [hpositions region hregion] at hposition
      obtain ⟨index, hindex, rfl⟩ := hposition
      obtain ⟨hlow, hhigh⟩ := (htiles.mem_iff index).mpr
        ⟨_, List.mem_map_of_mem hregion, hindex⟩
      exact ⟨index, stop, hlow, hhigh, hlast, rfl⟩

/-- Where the counter saturates in one of the regions searched one after the other, that region has
a position that no cursor stands past: the order ends there, and a cursor past it would stand at a
counter of more than 64 bits. -/
theorem Chain.exists_not_mem_between {base : ℕ} {stride : UInt64} (hstride : 0 < stride.toNat)
    {first last : Cursor} {regions : List Region} (h : Chain stride first regions last) {index : ℕ}
    (hindex : first.AtIndex base stride.toNat index)
    (hsaturates : ∃ region ∈ regions, region.Saturates stride) (cursor : Cursor) :
    ∃ region ∈ regions, ∃ position ∈ region.positions, ¬ ∃ reached stop, reached < stop ∧
      cursor.AtIndex base stride.toNat stop ∧ position = searchOrder base stride.toNat reached := by
  induction h generalizing index with
  | nil cursor => simp at hsaturates
  | @cons start last region rest hstarts _ ih =>
    by_cases hhere : region.Saturates stride
    · obtain ⟨hcut, hpositions⟩ := Region.cut_eq hstride hstarts hindex
      have hpos := hstarts.2.2.1
      have hmem : index + region.count.toNat - 1 ∈ Ico index (index + region.count.toNat) :=
        ⟨by omega, by omega⟩
      refine ⟨region, List.mem_cons_self, _, hpositions ▸ mem_image_of_mem _ hmem, ?_⟩
      rintro ⟨reached, stop, hlt, hstop, heq⟩
      have hreached := searchOrder_injective base hstride heq
      obtain ⟨hwrap, hfull⟩ := hhere
      simp only [Cursor.AtIndex, searchOrder, Prod.mk.injEq] at hindex hstop
      have hsame : region.en2.toNat = start.en2.toNat ∧ region.start.toNat = start.nonce.toNat :=
        ⟨by rw [hstarts.1], by rw [hstarts.2.1]⟩
      have hquotient : index / 2 ^ 32 + 1 ≤ stop / 2 ^ 32 := by omega
      have hstrides := Nat.mul_le_mul_left stride.toNat hquotient
      rw [Nat.mul_add, Nat.mul_one] at hstrides
      have htop := cursor.en2.toNat_lt
      omega
    · have hlater : ∃ other ∈ rest, other.Saturates stride := by
        obtain ⟨other, hother, hfull⟩ := hsaturates
        rcases List.mem_cons.mp hother with rfl | hmem
        · exact absurd hfull hhere
        · exact ⟨other, hmem, hfull⟩
      obtain ⟨other, hother, hmissed⟩ := ih (Region.next_atIndex hstarts hhere hindex) hlater
      exact ⟨other, List.mem_cons_of_mem _ hother, hmissed⟩

/-- Regions searched one after the other cover what lies between their ends exactly when the counter
does not saturate. -/
theorem Chain.covers_iff {stride : UInt64} (hstride : 0 < stride.toNat) {first last : Cursor}
    {regions : List Region} (h : Chain stride first regions last) :
    Covers stride.toNat first last regions ↔ ∀ region ∈ regions, ¬ region.Saturates stride := by
  refine ⟨fun hcovers ↦ ?_, h.covers hstride⟩
  by_contra hsome
  push Not at hsome
  obtain ⟨region, hregion, position, hposition, hmissed⟩ :=
    h.exists_not_mem_between hstride (Cursor.atIndex_self stride.toNat first) hsome last
  obtain ⟨index, stop, -, hlt, hstop, heq⟩ :=
    (hcovers.exact position).mpr ⟨region, hregion, hposition⟩
  exact hmissed ⟨index, stop, hlt, hstop, heq⟩

/-! ### Some of the regions of a chain -/

/-- The counter has no room for another stride. -/
def Cursor.Dead (stride : UInt64) (cursor : Cursor) : Prop :=
  2 ^ 64 ≤ cursor.en2.toNat + stride.toNat

/-- A region that starts at some index of the enumeration. -/
def Region.InOrder (base stride : ℕ) (region : Region) : Prop :=
  ∃ cursor index, region.StartsAt cursor ∧ cursor.AtIndex base stride index

/-- Past a region searched from a cursor with no room for another stride, there is still no room for
one. -/
theorem Cursor.Dead.next {stride : UInt64} (hstride : 0 < stride.toNat) {region : Region}
    {cursor : Cursor} (hstarts : region.StartsAt cursor) (hdead : cursor.Dead stride) :
    (region.next stride).Dead stride := by
  unfold Cursor.Dead at hdead ⊢
  unfold Region.next saturatingAdd
  rw [← hstarts.1] at hdead
  split_ifs with hwrap hfits
  · omega
  · rw [UInt64.toNat_ofNat', Nat.mod_eq_of_lt (by omega)]
    omega
  · exact hdead

/-- The point past a region whose counter saturates is dead. -/
theorem Region.Saturates.next_dead {stride : UInt64} (hstride : 0 < stride.toNat) {region : Region}
    {cursor : Cursor} (hstarts : region.StartsAt cursor) (hfull : region.Saturates stride) :
    (region.next stride).Dead stride := by
  have hdead : cursor.Dead stride := by
    unfold Cursor.Dead
    rw [← hstarts.1]
    exact hfull.2
  exact hdead.next hstride hstarts

/-- Some of the regions of a chain, none of them at a dead counter, are ascending intervals of the
enumeration, and the chain ends behind them or is dead. Where the counter of a region is live, the
chain was on the enumeration up to there. -/
theorem Chain.ascends_of_sublist {base : ℕ} {stride : UInt64} (hstride : 0 < stride.toNat)
    {first last : Cursor} {regions : List Region} (h : Chain stride first regions last) {index : ℕ}
    (hindex : first.AtIndex base stride.toNat index ∨ first.Dead stride) {some : List Region}
    (hsome : some.Sublist regions)
    (hlive : ∀ region ∈ some, region.en2.toNat + stride.toNat < 2 ^ 64) :
    ∃ stop, Ascends index (some.map (Region.cut base stride.toNat)) stop ∧
      (last.AtIndex base stride.toNat stop ∨ last.Dead stride) ∧
      ∀ region ∈ some, region.InOrder base stride.toNat := by
  induction h generalizing index some with
  | nil cursor =>
    obtain rfl := List.sublist_nil.mp hsome
    exact ⟨index, .nil le_rfl, hindex, by simp⟩
  | @cons start last region rest hstarts _ ih =>
    have hnext : ∃ index', index ≤ index' ∧
        ((region.next stride).AtIndex base stride.toNat index' ∨
          (region.next stride).Dead stride) := by
      rcases hindex with hat | hdead
      · by_cases hfull : region.Saturates stride
        · exact ⟨index, le_rfl, Or.inr (hfull.next_dead hstride hstarts)⟩
        · exact ⟨_, Nat.le_add_right _ _, Or.inl (Region.next_atIndex hstarts hfull hat)⟩
      · exact ⟨index, le_rfl, Or.inr (hdead.next hstride hstarts)⟩
    cases hsome with
    | cons _ hrest =>
      obtain ⟨index', hle, hindex'⟩ := hnext
      obtain ⟨stop, hascends, hlast, horder⟩ := ih hindex' hrest hlive
      exact ⟨stop, hascends.mono hle le_rfl, hlast, horder⟩
    | cons_cons _ hrest =>
      obtain ⟨hhere, hlater⟩ := List.forall_mem_cons.mp hlive
      have hat : start.AtIndex base stride.toNat index := by
        refine hindex.resolve_right fun hdead ↦ ?_
        unfold Cursor.Dead at hdead
        rw [← hstarts.1] at hdead
        omega
      have hfull : ¬ region.Saturates stride := fun h ↦ absurd h.2 (not_le.mpr hhere)
      obtain ⟨stop, hascends, hlast, horder⟩ :=
        ih (Or.inl (Region.next_atIndex hstarts hfull hat)) hrest hlater
      have hpos := hstarts.2.2.1
      refine ⟨stop, ?_, hlast, List.forall_mem_cons.mpr ⟨⟨start, index, hstarts, hat⟩, horder⟩⟩
      rw [List.map_cons, (Region.cut_eq hstride hstarts hat).1]
      exact .cons le_rfl (by omega) hascends

end Bc3Miner.Mining
