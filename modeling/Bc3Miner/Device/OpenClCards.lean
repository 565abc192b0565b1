import Bc3Miner.Device.OpenClFallback
import Mathlib.Data.List.AList
import Mathlib.Data.List.MinMax
import Mathlib.Data.Prod.Lex

/-!
# One entry for each OpenCL card

`dedup_opencl` of `src/backend/mod.rs`. The same card can be listed by several OpenCL platforms, and
a platform can list several cards of one make. Devices are keyed by vendor and name and counted for
each platform; of every key the platform that lists the most devices is kept, the lowest platform
among equals.

`countOn` counts what a platform lists of a key, straight from the list of devices. The maps of the
source are association lists here, and `winner_eq_some_iff` is their meaning: the platform chosen
for a key is the one that lists the most.

The main result is `dedupOpencl_keeps_fullest_platform`, for any list of devices and any ways to
trim and lower a name: of every key the devices of one platform are kept, in order, that platform
lists the most of the key, and doing it twice is doing it once.
-/

set_option autoImplicit false
set_option relaxedAutoImplicit false

namespace Bc3Miner.Device

/-- A vendor and a name, trimmed and in lower case. -/
abbrev CardKey := String × String

/-- How many devices of a key each platform lists. -/
abbrev PlatformCounts := AList (fun _ : ℕ ↦ ℕ)

/-- The counts of every key. -/
abbrev CountsByKey := AList (fun _ : CardKey ↦ PlatformCounts)

section Dedup

variable (trim toLowercase : String → String)

/-- The key and the platform of an OpenCL device. -/
def keyOf : GpuDevice → Option (CardKey × ℕ)
  | .cuda .. => none
  | .opencl platform _ name vendor =>
    some ((toLowercase (trim vendor), toLowercase (trim name)), platform)

/-- One more device of a platform. -/
def PlatformCounts.add (counts : PlatformCounts) (platform : ℕ) : PlatformCounts :=
  counts.insert platform ((counts.lookup platform).getD 0 + 1)

/-- One more device of a key on a platform. -/
def CountsByKey.add (counts : CountsByKey) (key : CardKey) (platform : ℕ) : CountsByKey :=
  counts.insert key (((counts.lookup key).getD ∅).add platform)

/-- One pass over the devices. -/
def perPlatform (devices : List GpuDevice) : CountsByKey :=
  devices.foldl
    (fun counts device ↦
      match keyOf trim toLowercase device with
      | some (key, platform) => counts.add key platform
      | none => counts) ∅

/-- What the platform of a key is chosen by: how many it lists, then the lowest index. -/
def rank (entry : (_ : ℕ) × ℕ) : ℕ ×ₗ ℕᵒᵈ := toLex (entry.2, OrderDual.toDual entry.1)

/-- The platform that lists the most of a key. No two entries have the same rank, so it does not
matter in which order the source's map yields them. -/
def winner (devices : List GpuDevice) (key : CardKey) : Option ℕ :=
  ((perPlatform trim toLowercase devices).lookup key).bind fun counts ↦
    (counts.entries.argmax rank).map Sigma.fst

/-- The device is on the platform chosen for its key. -/
def kept (devices : List GpuDevice) (device : GpuDevice) : Bool :=
  match keyOf trim toLowercase device with
  | some (key, platform) => winner trim toLowercase devices key == some platform
  | none => true

/-- The devices without second views of a card. -/
def dedupOpencl (devices : List GpuDevice) : List GpuDevice :=
  devices.filter (kept trim toLowercase devices)

/-! ### Counting devices -/

/-- The device has the key. -/
def HasKey (key : CardKey) (device : GpuDevice) : Prop :=
  (keyOf trim toLowercase device).map Prod.fst = some key

instance (key : CardKey) : DecidablePred (HasKey trim toLowercase key) := fun device ↦
  inferInstanceAs (Decidable ((keyOf trim toLowercase device).map Prod.fst = some key))

/-- How many devices of a key a platform lists. -/
def countOn (devices : List GpuDevice) (key : CardKey) (platform : ℕ) : ℕ :=
  devices.countP fun device ↦ keyOf trim toLowercase device = some (key, platform)

/-- The platform lists the most devices of a key, and is the lowest that lists so many. -/
def ListsMost (devices : List GpuDevice) (key : CardKey) (platform : ℕ) : Prop :=
  0 < countOn trim toLowercase devices key platform ∧
    ∀ other, countOn trim toLowercase devices key other ≤
      countOn trim toLowercase devices key platform ∧
      (countOn trim toLowercase devices key other = countOn trim toLowercase devices key platform →
        platform ≤ other)

variable {trim toLowercase}

/-- One more device adds one to the count of its own key and platform, and to no other. -/
theorem countOn_concat (devices : List GpuDevice) (device : GpuDevice) (key : CardKey)
    (platform : ℕ) :
    countOn trim toLowercase (devices ++ [device]) key platform =
      countOn trim toLowercase devices key platform +
        if keyOf trim toLowercase device = some (key, platform) then 1 else 0 := by
  unfold countOn
  rw [List.countP_append, List.countP_singleton]
  simp only [decide_eq_true_eq]

/-- The counts take the devices one after the other; one without a key is passed over. -/
theorem perPlatform_concat (devices : List GpuDevice) (device : GpuDevice) :
    perPlatform trim toLowercase (devices ++ [device]) =
      match keyOf trim toLowercase device with
      | some (key, platform) => (perPlatform trim toLowercase devices).add key platform
      | none => perPlatform trim toLowercase devices := by
  unfold perPlatform
  rw [List.foldl_append, List.foldl_cons, List.foldl_nil]

/-- The number the maps hold for a key on a platform. -/
def CountsByKey.on (counts : CountsByKey) (key : CardKey) (platform : ℕ) : Option ℕ :=
  (counts.lookup key).bind fun counts ↦ counts.lookup platform

/-- Counting a device changes the count of its own key and platform only. -/
theorem CountsByKey.on_add (counts : CountsByKey) (key other : CardKey) (platform place : ℕ) :
    (counts.add key platform).on other place =
      if (other, place) = (key, platform) then some ((counts.on key platform).getD 0 + 1)
      else counts.on other place := by
  unfold CountsByKey.on CountsByKey.add
  by_cases hkey : other = key
  · subst hkey
    rw [AList.lookup_insert, Option.bind_some]
    by_cases hplace : place = platform
    · subst hplace
      rw [if_pos rfl, PlatformCounts.add, AList.lookup_insert]
      cases counts.lookup other with
      | none => simp
      | some inner => simp
    · have hne : (other, place) ≠ (other, platform) := fun hsame ↦ hplace (Prod.mk.inj hsame).2
      rw [if_neg hne, PlatformCounts.add, AList.lookup_insert_ne hplace]
      cases counts.lookup other with
      | none => simp
      | some inner => simp
  · have hne : (other, place) ≠ (key, platform) := fun hsame ↦ hkey (Prod.mk.inj hsame).1
    rw [if_neg hne, AList.lookup_insert_ne hkey]

variable (trim toLowercase) in
/-- After the pass the maps hold what each platform lists of each key, and nothing for what none
does. -/
theorem perPlatform_on (devices : List GpuDevice) (key : CardKey) (platform : ℕ) :
    (perPlatform trim toLowercase devices).on key platform =
      if countOn trim toLowercase devices key platform = 0 then none
      else some (countOn trim toLowercase devices key platform) := by
  induction devices using List.reverseRecOn with
  | nil => simp [perPlatform, CountsByKey.on, countOn]
  | append_singleton devices device ih =>
    rw [perPlatform_concat, countOn_concat]
    cases hkey : keyOf trim toLowercase device with
    | none => simpa using ih
    | some entry =>
      obtain ⟨other, place⟩ := entry
      simp only [Option.some.injEq]
      rw [CountsByKey.on_add]
      by_cases hsame : (key, platform) = (other, place)
      · obtain ⟨rfl, rfl⟩ := Prod.mk.inj hsame
        rw [if_pos rfl, if_pos rfl, if_neg (Nat.succ_ne_zero _), ih]
        split_ifs with hzero
        · rw [hzero, Option.getD_none]
        · rw [Option.getD_some]
      · rw [if_neg hsame, if_neg (Ne.symm hsame), ih, Nat.add_zero]

/-- Let a key be in the map. Its entries are then the platforms that list devices of the key, each
with the number of them, and no platform that lists none. -/
theorem mem_entries_iff {devices : List GpuDevice} {key : CardKey} {counts : PlatformCounts}
    (hlookup : (perPlatform trim toLowercase devices).lookup key = some counts)
    (platform number : ℕ) :
    (⟨platform, number⟩ : (_ : ℕ) × ℕ) ∈ counts.entries ↔
      number = countOn trim toLowercase devices key platform ∧ 0 < number := by
  have hon := perPlatform_on trim toLowercase devices key platform
  rw [CountsByKey.on, hlookup, Option.bind_some] at hon
  rw [← AList.mem_lookup_iff, Option.mem_def, hon]
  split_ifs with hzero
  · simp only [false_iff, not_and]
    intro hnumber
    rw [hnumber, hzero]
    exact lt_irrefl 0
  · constructor
    · intro hsome
      have := Option.some.inj hsome
      omega
    · rintro ⟨rfl, -⟩
      rfl

/-- Only one platform lists the most. -/
theorem ListsMost.unique {devices : List GpuDevice} {key : CardKey} {first second : ℕ}
    (hfirst : ListsMost trim toLowercase devices key first)
    (hsecond : ListsMost trim toLowercase devices key second) : first = second := by
  have hcount := le_antisymm (hsecond.2 first).1 (hfirst.2 second).1
  exact le_antisymm ((hfirst.2 second).2 hcount.symm) ((hsecond.2 first).2 hcount)

/-- A platform chosen for a key lists the most of it. -/
theorem listsMost_of_winner {devices : List GpuDevice} {key : CardKey} {platform : ℕ}
    (hwinner : winner trim toLowercase devices key = some platform) :
    ListsMost trim toLowercase devices key platform := by
  obtain ⟨counts, hlookup, hbest⟩ := Option.bind_eq_some_iff.mp hwinner
  obtain ⟨⟨best, number⟩, hargmax, rfl⟩ := Option.map_eq_some_iff.mp hbest
  obtain ⟨hmem, hle, -⟩ := List.argmax_eq_some_iff.mp hargmax
  obtain ⟨rfl, hpos⟩ := (mem_entries_iff hlookup best number).mp hmem
  refine ⟨hpos, fun other ↦ ?_⟩
  rcases Nat.eq_zero_or_pos (countOn trim toLowercase devices key other) with hzero | hother
  · rw [hzero]
    exact ⟨hpos.le, fun hsame ↦ absurd hsame hpos.ne⟩
  · have hentry := (mem_entries_iff hlookup other _).mpr ⟨rfl, hother⟩
    rcases Prod.Lex.toLex_le_toLex.mp (hle _ hentry) with hless | ⟨hsame, hplatform⟩
    · exact ⟨hless.le, fun hequal ↦ absurd hequal hless.ne⟩
    · exact ⟨hsame.le, fun _ ↦ hplatform⟩

/-- A key that some platform lists is given a platform. -/
theorem exists_winner {devices : List GpuDevice} {key : CardKey} {platform : ℕ}
    (hpos : 0 < countOn trim toLowercase devices key platform) :
    ∃ best, winner trim toLowercase devices key = some best := by
  have hon := perPlatform_on trim toLowercase devices key platform
  rw [if_neg hpos.ne'] at hon
  obtain ⟨counts, hlookup, hcount⟩ := Option.bind_eq_some_iff.mp hon
  have hentry := AList.mem_lookup_iff.mp hcount
  have hsome : counts.entries.argmax rank ≠ none := by
    intro hnone
    rw [List.argmax_eq_none.mp hnone] at hentry
    exact absurd hentry List.not_mem_nil
  obtain ⟨best, hbest⟩ := Option.ne_none_iff_exists'.mp hsome
  refine ⟨best.1, ?_⟩
  rw [winner, hlookup, Option.bind_some, hbest, Option.map_some]

/-- The platform chosen for a key is the one that lists the most of it. -/
theorem winner_eq_some_iff (devices : List GpuDevice) (key : CardKey) (platform : ℕ) :
    winner trim toLowercase devices key = some platform ↔
      ListsMost trim toLowercase devices key platform := by
  refine ⟨listsMost_of_winner, fun hmost ↦ ?_⟩
  obtain ⟨best, hbest⟩ := exists_winner hmost.1
  rw [hbest, (listsMost_of_winner hbest).unique hmost]

/-- The choice for a key depends only on what the platforms list of it. -/
theorem winner_congr {first second : List GpuDevice} {key : CardKey}
    (hcount : ∀ platform,
      countOn trim toLowercase first key platform = countOn trim toLowercase second key platform) :
    winner trim toLowercase first key = winner trim toLowercase second key := by
  refine Option.ext fun platform ↦ ?_
  rw [winner_eq_some_iff, winner_eq_some_iff, ListsMost, ListsMost]
  simp only [hcount]

/-! ### What is kept -/

/-- A device with a key is kept exactly when its platform is the one that wins for the key. -/
theorem kept_of_key {devices : List GpuDevice} {device : GpuDevice} {key : CardKey} {platform : ℕ}
    (hkey : keyOf trim toLowercase device = some (key, platform)) :
    kept trim toLowercase devices device = true ↔
      winner trim toLowercase devices key = some platform := by
  rw [kept, hkey]
  exact beq_iff_eq

variable (trim toLowercase) in
/-- Of the platform chosen for a key every device stays, of the others none. -/
theorem countOn_dedupOpencl (devices : List GpuDevice) (key : CardKey) (platform : ℕ) :
    countOn trim toLowercase (dedupOpencl trim toLowercase devices) key platform =
      if winner trim toLowercase devices key = some platform then
        countOn trim toLowercase devices key platform
      else 0 := by
  unfold countOn dedupOpencl
  rw [List.countP_filter]
  by_cases hwinner : winner trim toLowercase devices key = some platform
  · rw [if_pos hwinner]
    refine List.countP_congr fun device _ ↦ ?_
    rw [Bool.and_eq_true, decide_eq_true_eq]
    exact ⟨And.left, fun hkey ↦ ⟨hkey, (kept_of_key hkey).mpr hwinner⟩⟩
  · rw [if_neg hwinner, List.countP_eq_zero]
    intro device _ hboth
    rw [Bool.and_eq_true, decide_eq_true_eq] at hboth
    exact hwinner ((kept_of_key hboth.1).mp hboth.2)

/-- Taking the second views away does not change which platform is chosen. -/
theorem winner_dedupOpencl (devices : List GpuDevice) (key : CardKey) :
    winner trim toLowercase (dedupOpencl trim toLowercase devices) key =
      winner trim toLowercase devices key := by
  refine Option.ext fun platform ↦ ?_
  rw [winner_eq_some_iff]
  constructor
  · intro hmost
    have hpos := hmost.1
    rw [countOn_dedupOpencl] at hpos
    by_contra hwinner
    rw [if_neg hwinner] at hpos
    exact absurd hpos (lt_irrefl 0)
  · intro hwinner
    obtain ⟨hpos, hmost⟩ := listsMost_of_winner hwinner
    rw [ListsMost, countOn_dedupOpencl, if_pos hwinner]
    refine ⟨hpos, fun other ↦ ?_⟩
    rw [countOn_dedupOpencl]
    split_ifs with hother
    · exact hmost other
    · exact ⟨Nat.zero_le _, fun hzero ↦ absurd hzero hpos.ne⟩

/-- The devices of one key on a platform are counted alike among all devices and among those of the
key. -/
theorem countOn_filter_key (devices : List GpuDevice) (key : CardKey) (platform : ℕ) :
    countOn trim toLowercase (devices.filter (HasKey trim toLowercase key)) key platform =
      countOn trim toLowercase devices key platform := by
  unfold countOn
  rw [List.countP_filter]
  refine List.countP_congr fun device _ ↦ ?_
  simp only [Bool.and_eq_true, decide_eq_true_eq, and_iff_left_iff_imp]
  intro hkey
  rw [HasKey, hkey, Option.map_some]

/-- What is kept of a key is what would be kept if no other device were listed. -/
theorem dedupOpencl_filter_key (devices : List GpuDevice) (key : CardKey) :
    (dedupOpencl trim toLowercase devices).filter (HasKey trim toLowercase key) =
      dedupOpencl trim toLowercase (devices.filter (HasKey trim toLowercase key)) := by
  unfold dedupOpencl
  rw [List.filter_comm]
  refine List.filter_congr fun device hdevice ↦ ?_
  have hkey : HasKey trim toLowercase key device := of_decide_eq_true (List.mem_filter.mp hdevice).2
  obtain ⟨⟨_, platform⟩, hentry, rfl⟩ := Option.map_eq_some_iff.mp hkey
  rw [Bool.eq_iff_iff, kept_of_key hentry, kept_of_key hentry]
  rw [winner_congr (countOn_filter_key devices _)]

/-- A second pass finds nothing to take away. -/
theorem dedupOpencl_idempotent (devices : List GpuDevice) :
    dedupOpencl trim toLowercase (dedupOpencl trim toLowercase devices) =
      dedupOpencl trim toLowercase devices := by
  refine List.filter_eq_self.mpr fun device hdevice ↦ ?_
  have hkept := (List.mem_filter.mp hdevice).2
  cases hkey : keyOf trim toLowercase device with
  | none => rw [kept, hkey]
  | some entry =>
    rw [kept_of_key hkey] at hkept ⊢
    rw [winner_dedupOpencl]
    exact hkept

/-- Every device that is kept under a key is on the platform chosen for it. -/
theorem platform_of_kept {devices : List GpuDevice} {device : GpuDevice} {key : CardKey}
    {platform : ℕ}
    (hwinner : winner trim toLowercase devices key = some platform)
    (hdevice : device ∈ dedupOpencl trim toLowercase devices)
    (hkey : HasKey trim toLowercase key device) :
    keyOf trim toLowercase device = some (key, platform) := by
  obtain ⟨⟨_, place⟩, hentry, rfl⟩ := Option.map_eq_some_iff.mp hkey
  have hplace := (kept_of_key hentry).mp (List.mem_filter.mp hdevice).2
  obtain rfl : platform = place := Option.some.inj (hwinner.symm.trans hplace)
  exact hentry

/-- How many devices of a key are kept. -/
theorem countP_hasKey_dedupOpencl {devices : List GpuDevice} {key : CardKey} {platform : ℕ}
    (hwinner : winner trim toLowercase devices key = some platform) :
    (dedupOpencl trim toLowercase devices).countP (HasKey trim toLowercase key) =
      countOn trim toLowercase devices key platform := by
  have hcount := countOn_dedupOpencl trim toLowercase devices key platform
  rw [if_pos hwinner] at hcount
  rw [← hcount]
  refine List.countP_congr fun device hdevice ↦ ?_
  simp only [decide_eq_true_eq]
  refine ⟨platform_of_kept hwinner hdevice, fun hkey ↦ ?_⟩
  rw [HasKey, hkey, Option.map_some]

variable (trim toLowercase)

/-- The list of devices loses only second views of cards: of every key that is listed it keeps, in
order, the devices of the platform that lists the most, and nothing of the others; what is kept of a
key does not depend on the devices of other keys; and doing it twice is doing it once. -/
theorem dedupOpencl_keeps_fullest_platform (devices : List GpuDevice) :
    (dedupOpencl trim toLowercase devices).Sublist devices ∧
    (∀ key, (∃ device ∈ devices, HasKey trim toLowercase key device) →
      ∃ platform, ListsMost trim toLowercase devices key platform ∧
        (∀ device ∈ dedupOpencl trim toLowercase devices, HasKey trim toLowercase key device →
          keyOf trim toLowercase device = some (key, platform)) ∧
        (dedupOpencl trim toLowercase devices).countP (HasKey trim toLowercase key) =
          countOn trim toLowercase devices key platform) ∧
    (∀ key, (dedupOpencl trim toLowercase devices).filter (HasKey trim toLowercase key) =
      dedupOpencl trim toLowercase (devices.filter (HasKey trim toLowercase key))) ∧
    dedupOpencl trim toLowercase (dedupOpencl trim toLowercase devices) =
      dedupOpencl trim toLowercase devices := by
  refine ⟨List.filter_sublist, ?_, dedupOpencl_filter_key devices, dedupOpencl_idempotent devices⟩
  rintro key ⟨device, hdevice, hkey⟩
  obtain ⟨⟨_, place⟩, hentry, rfl⟩ := Option.map_eq_some_iff.mp hkey
  have hpos : 0 < countOn trim toLowercase devices _ place :=
    List.countP_pos_iff.mpr ⟨device, hdevice, decide_eq_true hentry⟩
  obtain ⟨platform, hwinner⟩ := exists_winner hpos
  refine ⟨platform, listsMost_of_winner hwinner, ?_, countP_hasKey_dedupOpencl hwinner⟩
  intro other hother hotherKey
  exact platform_of_kept hwinner hother hotherKey

end Dedup

example :
    dedupOpencl id id
      [.opencl 0 0 "Arc A770" "Intel", .opencl 1 0 "Arc A770" "Intel",
        .opencl 1 1 "Arc A770" "Intel"] =
      [.opencl 1 0 "Arc A770" "Intel", .opencl 1 1 "Arc A770" "Intel"] := by
  decide +kernel

end Bc3Miner.Device
