import Mathlib.Data.List.Infix
import Mathlib.Data.List.Nodup

/-!
# Which OpenCL device stands in for a CUDA device

`pick_opencl_for_cuda` of `src/backend/mod.rs`: a CUDA card that cannot be opened is looked for
among the OpenCL devices, by its rank among the CUDA devices of its name, then by its vendor, then
as the only device there is. The first rule takes two workers to two devices. The other two ask only
that a single CUDA device be left, and not that it be the worker's own
(`pickOpenclForCuda_of_vanished`).

`keptApart_iff_not_lastResort` is when the promise of the comment in the source holds, that two
workers are never sent to one device and a vanished card to none. It is for any two workers and any
two lists; `vanishedCard_takes_the_survivors_device` is a rig on which it fails.
-/

set_option autoImplicit false
set_option relaxedAutoImplicit false

namespace Bc3Miner.Device

/-- A GPU as the two runtimes list it. -/
inductive GpuDevice
  | cuda (index : ℕ) (name : String)
  | opencl (platform device : ℕ) (name vendor : String)
  deriving DecidableEq, Repr

/-- Equality of names up to the case of ASCII letters. -/
def eqIgnoreAsciiCase (first second : String) : Bool :=
  first.toList.map Char.toLower == second.toList.map Char.toLower

namespace GpuDevice

def isCudaNamed (name : String) : GpuDevice → Bool
  | cuda _ other => eqIgnoreAsciiCase other name
  | opencl .. => false

def isCudaIndex (index : ℕ) : GpuDevice → Bool
  | cuda other _ => other == index
  | opencl .. => false

def isOpenclNamed (name : String) : GpuDevice → Bool
  | cuda .. => false
  | opencl _ _ other _ => eqIgnoreAsciiCase other name

/-- An OpenCL device whose vendor contains "nvidia" in any case. -/
def isOpenclNvidia (toLowercase : String → String) : GpuDevice → Bool
  | cuda .. => false
  | opencl _ _ _ vendor => decide ("nvidia".toList <:+: (toLowercase vendor).toList)

end GpuDevice

/-- The positions of a list at which a predicate holds. -/
def positions {α : Type*} (holds : α → Bool) (devices : List α) : List ℕ :=
  (devices.zipIdx.filter fun entry ↦ holds entry.1).map Prod.snd

theorem mem_positions {α : Type*} {holds : α → Bool} {devices : List α} {position : ℕ} :
    position ∈ positions holds devices ↔
      ∃ device, devices[position]? = some device ∧ holds device = true := by
  simp [positions, List.mem_zipIdx_iff_getElem?]

/-- No position is listed twice. -/
theorem nodup_positions {α : Type*} (holds : α → Bool) (devices : List α) :
    (positions holds devices).Nodup := by
  have hall : (devices.zipIdx.map Prod.snd).Nodup := by
    rw [List.zipIdx_map_snd]
    exact List.nodup_range'
  exact hall.sublist (List.filter_sublist.map Prod.snd)

section Pick

variable (toLowercase : String → String)

/-- Where a CUDA card stands among the CUDA devices of the same name. -/
def rankOf (cuda : List GpuDevice) (index : ℕ) (name : String) : Option ℕ :=
  (cuda.filter (GpuDevice.isCudaNamed name)).findIdx? (GpuDevice.isCudaIndex index)

/-- Which OpenCL device, if any, is the same physical card as CUDA `index`? -/
def pickOpenclForCuda (cuda opencl : List GpuDevice) (index : ℕ) (name : String) : Option ℕ :=
  let byName := positions (GpuDevice.isOpenclNamed name) opencl
  match (rankOf cuda index name).bind fun rank ↦ byName[rank]? with
  | some position => some position
  | none =>
    let nvidia := positions (GpuDevice.isOpenclNvidia toLowercase) opencl
    if nvidia.length = 1 ∧ cuda.length = 1 then nvidia.head?
    else if opencl.length = 1 ∧ cuda.length = 1 then some 0
    else none

/-- The CUDA index is still in the list. -/
def Listed (cuda : List GpuDevice) (index : ℕ) : Prop :=
  ∃ device ∈ cuda, GpuDevice.isCudaIndex index device = true

instance (cuda : List GpuDevice) (index : ℕ) : Decidable (Listed cuda index) :=
  inferInstanceAs (Decidable (∃ device ∈ cuda, GpuDevice.isCudaIndex index device = true))

/-- The CUDA list is down to one device and one OpenCL device is left to stand for it, whoever
asks. -/
def LastResort (cuda opencl : List GpuDevice) : Prop :=
  cuda.length = 1 ∧
    ((positions (GpuDevice.isOpenclNvidia toLowercase) opencl).length = 1 ∨ opencl.length = 1)

/-- A card that is no longer listed has no rank. -/
theorem rankOf_of_vanished {cuda : List GpuDevice} {index : ℕ} (hvanished : ¬ Listed cuda index)
    (name : String) : rankOf cuda index name = none := by
  rw [rankOf, List.findIdx?_eq_none_iff]
  intro device hdevice
  rw [Bool.eq_false_iff]
  exact fun hindex ↦ hvanished ⟨device, List.mem_of_mem_filter hdevice, hindex⟩

/-- A card that has vanished from the list is given a device exactly in the last resort. -/
theorem pickOpenclForCuda_of_vanished {cuda opencl : List GpuDevice} {index : ℕ}
    (hvanished : ¬ Listed cuda index) (name : String) :
    pickOpenclForCuda toLowercase cuda opencl index name = none ↔
      ¬ LastResort toLowercase cuda opencl := by
  simp only [pickOpenclForCuda, rankOf_of_vanished hvanished, Option.bind_none, LastResort]
  split_ifs with hnvidia honly
  · have hsome : positions (GpuDevice.isOpenclNvidia toLowercase) opencl ≠ [] := by
      rw [← List.length_pos_iff]
      omega
    simp [List.head?_eq_none_iff, hsome, hnvidia]
  · simp [honly]
  · simp only [true_iff]
    tauto

/-- Outside the last resort, only the rank among the devices of the name decides. -/
theorem pickOpenclForCuda_eq_some {cuda opencl : List GpuDevice} {index position : ℕ}
    {name : String} (hresort : ¬ LastResort toLowercase cuda opencl)
    (hpick : pickOpenclForCuda toLowercase cuda opencl index name = some position) :
    ∃ rank, rankOf cuda index name = some rank ∧
      (positions (GpuDevice.isOpenclNamed name) opencl)[rank]? = some position := by
  simp only [pickOpenclForCuda] at hpick
  unfold LastResort at hresort
  split at hpick
  · rename_i found hfound
    rw [Option.some.inj hpick] at hfound
    exact Option.bind_eq_some_iff.mp hfound
  · split_ifs at hpick <;> tauto

/-- Two names of one OpenCL device agree up to case, so they select the same devices everywhere. -/
theorem GpuDevice.named_congr {device : GpuDevice} {name name' : String}
    (hnamed : isOpenclNamed name device = true) (hnamed' : isOpenclNamed name' device = true) :
    isCudaNamed name = isCudaNamed name' ∧ isOpenclNamed name = isOpenclNamed name' := by
  cases device with
  | cuda index other => cases hnamed
  | opencl platform position other vendor =>
    simp only [isOpenclNamed, eqIgnoreAsciiCase, beq_iff_eq] at hnamed hnamed'
    have hagree : name.toList.map Char.toLower = name'.toList.map Char.toLower :=
      hnamed.symm.trans hnamed'
    constructor
    · funext candidate
      cases candidate <;> simp [isCudaNamed, eqIgnoreAsciiCase, hagree]
    · funext candidate
      cases candidate <;> simp [isOpenclNamed, eqIgnoreAsciiCase, hagree]

/-- A device has one CUDA index. -/
theorem GpuDevice.index_unique {device : GpuDevice} {index other : ℕ}
    (hindex : isCudaIndex index device = true) (hother : isCudaIndex other device = true) :
    index = other := by
  cases device with
  | cuda here model =>
    simp only [isCudaIndex, beq_iff_eq] at hindex hother
    exact hindex.symm.trans hother
  | opencl platform position model vendor => cases hindex

/-- One rank among the cards of one name belongs to one CUDA index. -/
theorem rankOf_injective {cuda : List GpuDevice} {index other rank : ℕ} {name : String}
    (hrank : rankOf cuda index name = some rank) (hrank' : rankOf cuda other name = some rank) :
    index = other := by
  rw [rankOf, List.findIdx?_eq_some_iff_getElem] at hrank hrank'
  obtain ⟨hlength, hindex, -⟩ := hrank
  obtain ⟨hlength', hother, -⟩ := hrank'
  exact GpuDevice.index_unique hindex hother

/-- Two workers of different CUDA indices that both find a device by the rank of their card among
those of its name find different devices: with one name the ranks differ, and with two names the
devices do. -/
theorem rankOf_apart {cuda opencl : List GpuDevice} {index other rank rank' position position' : ℕ}
    {name name' : String} (hne : index ≠ other) (hrank : rankOf cuda index name = some rank)
    (hrank' : rankOf cuda other name' = some rank')
    (hposition : (positions (GpuDevice.isOpenclNamed name) opencl)[rank]? = some position)
    (hposition' : (positions (GpuDevice.isOpenclNamed name') opencl)[rank']? = some position') :
    position ≠ position' := by
  rintro rfl
  obtain ⟨device, hdevice, hnamed⟩ := mem_positions.mp (List.mem_of_getElem? hposition)
  obtain ⟨device', hdevice', hnamed'⟩ := mem_positions.mp (List.mem_of_getElem? hposition')
  rw [hdevice, Option.some.injEq] at hdevice'
  subst hdevice'
  obtain ⟨hcuda, hopencl⟩ := GpuDevice.named_congr hnamed hnamed'
  have hsame : rank = rank' := by
    rw [← hopencl] at hposition'
    have hbound := (List.getElem?_eq_some_iff.mp hposition).1
    exact List.getElem?_inj hbound (nodup_positions _ _) |>.mp (hposition.trans hposition'.symm)
  subst hsame
  rw [rankOf, ← hcuda] at hrank'
  exact hne (rankOf_injective hrank hrank')

/-- What the fallback promises a pair of workers: two devices, and none for a vanished card. -/
def KeptApart (cuda opencl : List GpuDevice) (index other : ℕ) (name name' : String) : Prop :=
  (∀ position position', pickOpenclForCuda toLowercase cuda opencl index name = some position →
      pickOpenclForCuda toLowercase cuda opencl other name' = some position' →
      position ≠ position') ∧
    (¬ Listed cuda index → pickOpenclForCuda toLowercase cuda opencl index name = none) ∧
    (¬ Listed cuda other → pickOpenclForCuda toLowercase cuda opencl other name' = none)

/-- A list of one device lists at most one index. -/
theorem Listed.unique_of_length_one {cuda : List GpuDevice} {index other : ℕ}
    (hlength : cuda.length = 1) (hindex : Listed cuda index) (hother : Listed cuda other) :
    index = other := by
  obtain ⟨card, rfl⟩ := List.length_eq_one_iff.mp hlength
  obtain ⟨device, hdevice, hdeviceIndex⟩ := hindex
  obtain ⟨device', hdevice', hdeviceOther⟩ := hother
  rw [List.mem_singleton] at hdevice hdevice'
  rw [hdevice] at hdeviceIndex
  rw [hdevice'] at hdeviceOther
  exact GpuDevice.index_unique hdeviceIndex hdeviceOther

/-- What the fallback promises two workers, for any two lists of devices, any two names and any way
to lower the letters of a name: that it sends the two to two different OpenCL devices, and the
worker of a vanished card to none. The promise is kept exactly outside the last resort, in which a
single CUDA device and a single device to stand for it are left: there the worker whose card is not
the one left is given that card's twin, or whatever else there is. -/
theorem keptApart_iff_not_lastResort {cuda opencl : List GpuDevice} {index other : ℕ}
    (hne : index ≠ other) (name name' : String) :
    KeptApart toLowercase cuda opencl index other name name' ↔
      ¬ LastResort toLowercase cuda opencl := by
  constructor
  · rintro ⟨-, hindex, hother⟩ hresort
    by_cases hlisted : Listed cuda index
    · have hvanished : ¬ Listed cuda other :=
        fun hlistedOther ↦ hne (hlisted.unique_of_length_one hresort.1 hlistedOther)
      exact (pickOpenclForCuda_of_vanished toLowercase hvanished name').mp
        (hother hvanished) hresort
    · exact (pickOpenclForCuda_of_vanished toLowercase hlisted name).mp (hindex hlisted) hresort
  · intro hresort
    refine ⟨fun position position' hpick hpick' ↦ ?_, fun hvanished ↦ ?_, fun hvanished ↦ ?_⟩
    · obtain ⟨rank, hrank, hposition⟩ := pickOpenclForCuda_eq_some toLowercase hresort hpick
      obtain ⟨rank', hrank', hposition'⟩ := pickOpenclForCuda_eq_some toLowercase hresort hpick'
      exact rankOf_apart hne hrank hrank' hposition hposition'
    · exact (pickOpenclForCuda_of_vanished toLowercase hvanished name).mpr hresort
    · exact (pickOpenclForCuda_of_vanished toLowercase hvanished name').mpr hresort

end Pick

/-- Three cards of one name, the first of which has fallen off the bus: the two that are left are
told apart, and nobody takes the place of the third. -/
theorem keptApart_of_sparseRig :
    KeptApart String.toLower
      [.cuda 1 "NVIDIA RTX 3060", .cuda 2 "NVIDIA RTX 3060"]
      [.opencl 0 0 "NVIDIA RTX 3060" "NVIDIA", .opencl 0 1 "NVIDIA RTX 3060" "NVIDIA",
        .opencl 0 2 "NVIDIA RTX 3060" "NVIDIA"]
      0 1 "NVIDIA RTX 3060" "NVIDIA RTX 3060" :=
  (keptApart_iff_not_lastResort String.toLower (by decide) _ _).mpr (fun hresort ↦ by
    have hlength := hresort.1
    simp at hlength)

/-- Two cards, one OpenCL device and the first card gone: both workers are given that device. -/
theorem vanishedCard_takes_the_survivors_device :
    ¬ KeptApart String.toLower [.cuda 1 "NVIDIA RTX 3060"]
      [.opencl 0 0 "NVIDIA RTX 3060" "NVIDIA"] 0 1 "NVIDIA RTX 3060" "NVIDIA RTX 3060" := by
  rintro ⟨hapart, -, -⟩
  exact hapart 0 0 (by decide +kernel) (by decide +kernel) rfl

end Bc3Miner.Device
