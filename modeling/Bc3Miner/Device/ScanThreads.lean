import Bc3Miner.Device.RingEnqueue
import Bc3Miner.Foundations.DelayedWrites
import Bc3Miner.Kernel.BlockHash
import Bc3Miner.Mining.HeaderPaths

/-!
# The threads of a launch

`bc3hash_scan` of `src/kernels/bc3hash.cl`, thread by thread: each hashes the header with a nonce of
its own, and one that accepts its hash counts a hit and then stores its nonce, in two steps that the
steps of other threads come between. The number of threads is the one that `launch_config` of
`src/backend/cuda.rs` and `launch` of `src/backend/opencl.rs` make of a count.

Whatever the order of the steps, the hits are those of threads that report one after the other, and
so a `scan` of the launch ring. They are the nonces whose block hash meets the target
(`scan_threads_report`).

The model of the steps is that of `DelayedWrites`: counting a hit gives the thread its place, and
storing the nonce writes there, or nowhere when the buffer is full. A group of any size may run more
threads than the launch has nonces; those beyond the count hash nothing.
-/

set_option autoImplicit false
set_option relaxedAutoImplicit false

namespace Bc3Miner.Device

open Consensus Foundations Kernel Mining

/-! ### The threads of a count -/

/-- A work-group size, whose multiples end at the last 32-bit number. -/
structure GroupSize where
  size : ℕ
  divides : size ∣ 2 ^ 32

theorem GroupSize.pos (group : GroupSize) : 0 < group.size :=
  Nat.pos_of_dvd_of_pos group.divides (Nat.two_pow_pos 32)

/-- `count.div_ceil(size) * size`. -/
def GroupSize.threads (group : GroupSize) (count : UInt32) : ℕ :=
  (count.toNat + group.size - 1) / group.size * group.size

/-- `BC3_BLOCK_DIM`. -/
def GroupSize.cuda : GroupSize := ⟨64, by decide⟩

/-- `LOCAL_SIZE`. -/
def localSize : ℕ := 64

def clampLocalSize (deviceMax : ℕ) : ℕ :=
  let n := min deviceMax localSize
  if n ≤ 1 then 1 else 1 <<< n.log2

theorem clampLocalSize_dvd (deviceMax : ℕ) : clampLocalSize deviceMax ∣ 2 ^ 32 := by
  have hall : ∀ n < 65, (if n ≤ 1 then 1 else 1 <<< n.log2) ∣ 2 ^ 32 := by decide +kernel
  refine hall (min deviceMax localSize) ?_
  have hle : min deviceMax localSize ≤ 64 := min_le_right _ _
  omega

def GroupSize.openCl (deviceMax : ℕ) : GroupSize :=
  ⟨clampLocalSize deviceMax, clampLocalSize_dvd deviceMax⟩

/-- There is a thread for every nonce, and the numbers of the threads fit in their words. -/
theorem GroupSize.threads_bounds (group : GroupSize) (count : UInt32) :
    count.toNat ≤ group.threads count ∧ group.threads count ≤ 2 ^ 32 := by
  have hcount := count.toNat_lt
  obtain ⟨groups, hgroups⟩ := group.divides
  have hpos := group.pos
  have hsplit := Nat.div_add_mod (count.toNat + group.size - 1) group.size
  have hrest := Nat.mod_lt (count.toNat + group.size - 1) hpos
  unfold GroupSize.threads
  rw [Nat.mul_comm]
  refine ⟨by omega, ?_⟩
  rw [hgroups]
  refine Nat.mul_le_mul_left group.size ((Nat.div_lt_iff_lt_mul hpos).mpr ?_ |> Nat.lt_succ_iff.mp)
  rw [Nat.succ_mul, Nat.mul_comm, ← hgroups]
  omega

/-! ### A thread -/

/-- The arrays that a thread does not clear. -/
structure ThreadArrays where
  msg : Vector UInt8 138
  fin : Vector UInt8 316

/-- Every thread takes its steps to the end, in any order. -/
structure Interleaving (threads : ℕ) where
  steps : List (Fin threads)
  full (thread : Fin threads) : 2 ≤ steps.count thread

/-- All threads hash before the first of them stores its nonce. -/
def Interleaving.hashFirst (threads : ℕ) : Interleaving threads where
  steps := List.finRange threads ++ List.finRange threads
  full thread := by
    rw [List.count_append,
      List.count_eq_one_of_mem (List.nodup_finRange threads) (List.mem_finRange thread)]

/-- The arguments of the kernel, but for the hits. -/
structure ScanArguments where
  primitives : Reference.Primitives
  header76 : Header76
  start : UInt32
  count : UInt32
  target : U256

namespace ScanArguments

variable (scan : ScanArguments)

/-- Whether a thread has a hash to report, with nothing where the hash fails. -/
def accepts (arrays : ThreadArrays) (gid : UInt32) : Option Bool :=
  if scan.count ≤ gid then some false
  else
    (bc3hash80 scan.primitives arrays.msg arrays.fin
      (kernelHeader scan.header76 (scan.start + gid))).map fun hash ↦ scanAccepts hash scan.target

/-- `hits[idx + 1] = nonce`, where there is room. -/
def storeHit (idx nonce : UInt32) (hits : Hits) : Hits :=
  if hroom : idx.toNat < maxHits then
    { hits with found := hits.found.set idx.toNat nonce hroom }
  else hits

variable {n : ℕ}

/-- The next step of a thread: all up to the atomic increment, or the store after it. -/
def threadStep (arrays : Fin n → ThreadArrays) (threads : Threads (Fin n) Hits UInt32)
    (thread : Fin n) : Option (Threads (Fin n) Hits UInt32) :=
  match threads.phase thread with
  | .ready =>
    (scan.accepts (arrays thread) (UInt32.ofNat thread)).map fun accepts ↦
      if accepts then
        ⟨{ threads.state with count := threads.state.count + 1 },
          Function.update threads.phase thread (.holds threads.state.count)⟩
      else ⟨threads.state, Function.update threads.phase thread .done⟩
  | .holds idx =>
    some ⟨storeHit idx (scan.start + UInt32.ofNat thread) threads.state,
      Function.update threads.phase thread .done⟩
  | .done => some threads

/-- All threads, from their start on. -/
def runThreads (arrays : Fin n → ThreadArrays) (run : Interleaving n) (hits : Hits) :
    Option (Threads (Fin n) Hits UInt32) :=
  run.steps.foldlM (scan.threadStep arrays) ⟨hits, fun _ ↦ .ready⟩

/-! ### Hashes and tickets -/

end ScanArguments

/-- The reference's block hash of a header with a nonce. -/
def blockDigest (p : Reference.Primitives) (header76 : Header76) (nonce : UInt32) : Bytes32 :=
  Vector.ofFn fun i ↦ (Reference.blockHash p (kernelHeader header76 nonce).toList).getD i 0

theorem toList_ofFn_getD {size : ℕ} {bytes : List UInt8} (hsize : bytes.length = size) :
    (Vector.ofFn fun i : Fin size ↦ bytes.getD i 0).toList = bytes := by
  refine List.ext_getElem (by rw [Vector.length_toList, hsize]) fun i _ hi ↦ ?_
  rw [Vector.getElem_toList, Vector.getElem_ofFn, List.getD_eq_getElem _ _ hi]

theorem toList_blockDigest (p : Reference.Primitives) (header76 : Header76) (nonce : UInt32) :
    (blockDigest p header76 nonce).toList =
      Reference.blockHash p (kernelHeader header76 nonce).toList := by
  refine toList_ofFn_getD ?_
  rw [Reference.blockHash, Reference.sha3Digest, List.length_map, List.length_range]

/-- The hash of a thread is that of the header with its nonce, whatever its local arrays held
before. -/
theorem bc3hash80_eq_blockDigest (p : Reference.Primitives) (arrays : ThreadArrays)
    (header76 : Header76) (nonce : UInt32) :
    bc3hash80 p arrays.msg arrays.fin (kernelHeader header76 nonce) =
      some (blockDigest p header76 nonce) := by
  obtain ⟨hash, hrun, hhash⟩ :=
    bc3hash80_eq_blockHash p arrays.msg arrays.fin (kernelHeader header76 nonce)
  rw [hrun, Vector.toList_inj.mp (hhash.trans (toList_blockDigest p header76 nonce).symm)]

namespace ScanArguments

variable (scan : ScanArguments) {n : ℕ}

/-- The nonce of a thread. -/
def nonceOf (thread : Fin n) : UInt32 := scan.start + UInt32.ofNat thread

def wants (thread : Fin n) : Bool :=
  decide (UInt32.ofNat thread < scan.count) &&
    scanAccepts (blockDigest scan.primitives scan.header76 (scan.nonceOf thread)) scan.target

/-- The count of the hits gives a thread the place of its nonce. -/
def tickets (n : ℕ) : Tickets (Fin n) Hits UInt32 where
  ticket hits := hits.count
  take hits := { hits with count := hits.count + 1 }
  write idx thread hits := storeHit idx (scan.nonceOf thread) hits

/-- A thread accepts its nonce exactly when the digest meets the target, and reads nothing outside
its arrays. -/
theorem accepts_eq (arrays : ThreadArrays) (thread : Fin n) :
    scan.accepts arrays (UInt32.ofNat thread) = some (scan.wants thread) := by
  rw [accepts, wants, nonceOf, bc3hash80_eq_blockDigest]
  by_cases hpast : scan.count ≤ UInt32.ofNat thread
  · have hnot : ¬ UInt32.ofNat thread < scan.count := UInt32.not_lt.mpr hpast
    rw [if_pos hpast, decide_eq_false hnot, Bool.false_and]
  · have hinside : UInt32.ofNat thread < scan.count := UInt32.not_le.mp hpast
    rw [if_neg hpast, decide_eq_true hinside, Bool.true_and]
    rfl

/-- The step of a thread of the kernel is that of a thread with delayed writes. -/
theorem threadStep_eq (arrays : Fin n → ThreadArrays) (threads : Threads (Fin n) Hits UInt32)
    (thread : Fin n) :
    scan.threadStep arrays threads thread =
      some ((scan.tickets n).step scan.wants threads thread) := by
  rw [threadStep, Tickets.step]
  rcases threads.phase thread with _ | idx | _
  · rw [scan.accepts_eq]
    rfl
  · rfl
  · rfl

/-- A run of the kernel over an interleaving is that of threads with delayed writes. -/
theorem runThreads_eq (arrays : Fin n → ThreadArrays) (run : Interleaving n) (hits : Hits) :
    scan.runThreads arrays run hits =
      some (run.steps.foldl ((scan.tickets n).step scan.wants) ⟨hits, fun _ ↦ .ready⟩) := by
  have hall (steps : List (Fin n)) (threads : Threads (Fin n) Hits UInt32) :
      steps.foldlM (scan.threadStep arrays) threads =
        some (steps.foldl ((scan.tickets n).step scan.wants) threads) := by
    induction steps generalizing threads with
    | nil => rfl
    | cons thread rest ih =>
      rw [List.foldlM_cons, scan.threadStep_eq]
      exact ih _
  exact hall run.steps _

/-- Storing a hit changes no count. -/
theorem count_storeHit (idx nonce : UInt32) (hits : Hits) :
    (storeHit idx nonce hits).count = hits.count := by
  unfold storeHit
  split
  · rfl
  · rfl

/-- The write of one ticket changes nothing that another reads or writes. -/
theorem tickets_apart (n : ℕ) : (scan.tickets n).Apart where
  ticket_write idx thread hits := count_storeHit idx _ hits
  take_write idx thread hits := by
    simp only [tickets, storeHit]
    split
    · rfl
    · rfl
  write_write {mine other} hne thread thread' hits := by
    have hplaces : mine.toNat ≠ other.toNat := fun heq ↦ hne (UInt32.toNat_inj.mp heq)
    show storeHit mine _ (storeHit other _ hits) = storeHit other _ (storeHit mine _ hits)
    unfold storeHit
    by_cases hmine : mine.toNat < maxHits
    · by_cases hother : other.toNat < maxHits
      · simp only [dif_pos hmine, dif_pos hother]
        rw [Vector.set_comm _ _ hplaces.symm]
      · simp only [dif_pos hmine, dif_neg hother]
    · by_cases hother : other.toNat < maxHits
      · simp only [dif_neg hmine, dif_pos hother]
      · simp only [dif_neg hmine, dif_neg hother]

/-- The tickets that are issued count on from the hits there are. -/
theorem issued_tickets (hits : Hits) (i : ℕ) :
    (scan.tickets n).issued hits i = hits.count + UInt32.ofNat i := by
  induction i generalizing hits with
  | zero => exact (UInt32.add_zero _).symm
  | succ i ih =>
    have hnext : (scan.tickets n).issued hits (i + 1) =
        (scan.tickets n).issued ((scan.tickets n).take hits) i := rfl
    rw [hnext, ih, UInt32.ofNat_add, UInt32.add_comm (UInt32.ofNat i), ← UInt32.add_assoc]
    rfl

/-- Both steps of a thread are a report of its nonce. -/
theorem foldl_atOnce (order : List (Fin n)) (hits : Hits) :
    order.foldl (scan.tickets n).atOnce hits =
      (order.map scan.nonceOf).foldl Hits.report hits := by
  rw [List.foldl_map]
  refine List.foldl_ext _ _ _ fun hits thread _ ↦ ?_
  show storeHit hits.count _ { hits with count := hits.count + 1 } = hits.report _
  unfold storeHit Hits.report
  by_cases hroom : hits.count.toNat < maxHits
  · simp only [dif_pos hroom]
  · simp only [dif_neg hroom]

/-- The nonces of a launch whose block hash the kernel accepts. -/
def accepted : List UInt32 :=
  acceptedNonces blockDigest scan.primitives scan.header76 scan.target scan.start scan.count

section Order

variable {scan} (hcount : scan.count.toNat ≤ n) (hnumbers : n ≤ 2 ^ 32) {order : List (Fin n)}
  (hnodup : order.Nodup)

include hnumbers

theorem toNat_thread (thread : Fin n) : (UInt32.ofNat thread).toNat = thread := by
  rw [UInt32.toNat_ofNat']
  exact Nat.mod_eq_of_lt (thread.isLt.trans_le hnumbers)

include hnodup

/-- No more threads report than there are nonces. -/
theorem length_le_count (hwants : ∀ thread ∈ order, scan.wants thread = true) :
    order.length ≤ scan.count.toNat := by
  have hinside : (order.map Fin.val) ⊆ List.range scan.count.toNat := by
    intro number hmem
    obtain ⟨thread, hthread, rfl⟩ := List.mem_map.mp hmem
    have haccepted := hwants thread hthread
    rw [wants, Bool.and_eq_true, decide_eq_true_eq] at haccepted
    have hlt := UInt32.lt_iff_toNat_lt.mp haccepted.1
    rw [toNat_thread hnumbers] at hlt
    exact List.mem_range.mpr hlt
  have hle := (List.subperm_of_subset (hnodup.map Fin.val_injective) hinside).length_le
  rwa [List.length_map, List.length_range] at hle

include hcount

/-- The threads that report are those of the accepted nonces. -/
theorem perm_accepted (hmem : ∀ thread, thread ∈ order ↔ scan.wants thread = true) :
    (order.map scan.nonceOf).Perm scan.accepted := by
  have hnumber : order.map scan.nonceOf =
      (order.map Fin.val).map fun gid ↦ scan.start + UInt32.ofNat gid := by
    rw [List.map_map]
    rfl
  rw [accepted, acceptedNonces, List.filter_map, hnumber]
  refine List.Perm.map _ ((List.perm_ext_iff_of_nodup (hnodup.map Fin.val_injective)
    (List.nodup_range.filter _)).mpr fun gid ↦ ?_)
  rw [List.mem_filter, List.mem_range, List.mem_map]
  constructor
  · rintro ⟨thread, hthread, rfl⟩
    have hwants := (hmem thread).mp hthread
    rw [wants, Bool.and_eq_true, decide_eq_true_eq] at hwants
    have hlt := UInt32.lt_iff_toNat_lt.mp hwants.1
    rw [toNat_thread hnumbers] at hlt
    exact ⟨hlt, hwants.2⟩
  · rintro ⟨hlt, haccepted⟩
    refine ⟨⟨gid, hlt.trans_le hcount⟩, (hmem _).mpr ?_, rfl⟩
    rw [wants, Bool.and_eq_true, decide_eq_true_eq, UInt32.lt_iff_toNat_lt, toNat_thread hnumbers]
    exact ⟨hlt, haccepted⟩

end Order

/-- The threads of a launch, in whatever order they take their steps and whatever is in their
arrays, come to an end. What they leave is the hits of threads that report one after the other, in
some order of the nonces that meet the target. -/
theorem runThreads_report {group : GroupSize}
    (arrays : Fin (group.threads scan.count) → ThreadArrays)
    (run : Interleaving (group.threads scan.count)) (hits : Hits) :
    ∃ (threads : Threads _ Hits UInt32) (found : List UInt32),
      scan.runThreads arrays run hits = some threads ∧ found.Perm scan.accepted ∧
      threads.state = found.foldl Hits.report hits := by
  obtain ⟨hcount, hnumbers⟩ := group.threads_bounds scan.count
  have hfits := scan.count.toNat_lt
  have hdistinct : ∀ j < scan.count.toNat, ∀ i < j,
      (scan.tickets (group.threads scan.count)).issued hits i ≠
        (scan.tickets (group.threads scan.count)).issued hits j := by
    intro j hj i hi
    rw [issued_tickets, issued_tickets, Ne, UInt32.add_right_inj]
    intro heq
    have hsame := congrArg UInt32.toNat heq
    rw [UInt32.toNat_ofNat', UInt32.toNat_ofNat', Nat.mod_eq_of_lt (by omega),
      Nat.mod_eq_of_lt (by omega)] at hsame
    omega
  obtain ⟨order, hnodup, hmem, hstate⟩ := Tickets.foldl_step (scan.tickets_apart _)
    (fun order hnodup hwants ↦ length_le_count hnumbers hnodup hwants) hdistinct run.full
  refine ⟨_, order.map scan.nonceOf, scan.runThreads_eq arrays run hits,
    perm_accepted hcount hnumbers hnodup hmem, ?_⟩
  rw [hstate, scan.foldl_atOnce]

end ScanArguments

/-! ### Every order of the steps -/

/-- The schedule of threads that report these nonces in this order. -/
def Schedule.reporting (accepted found : List UInt32) (hperm : found.Perm accepted) : Schedule where
  order nonces := if nonces = accepted then found else nonces
  perm nonces := by
    by_cases hsame : nonces = accepted
    · rw [if_pos hsame, hsame]
      exact hperm
    · rw [if_neg hsame]

/-- The threads of a launch, for any primitives of the mix, any launch and any size of group,
whatever is in the arrays of the threads and in the hit buffer behind its count, and however the
steps of the threads come between each other. The kernel never fails; what the threads leave is what
a `scan` of the launch ring leaves in some order; and the readback has the nonces of the launch
whose block hash meets the target, their number and the first of them. The block hash meant is that
of the reference. -/
theorem scan_threads_report (p : Reference.Primitives) (launch : Launch) (group : GroupSize)
    (arrays : Fin (group.threads launch.count) → ThreadArrays)
    (run : Interleaving (group.threads launch.count)) (hits : Hits) (busy : Option ℕ) :
    let scan : ScanArguments :=
      ⟨p, launch.header76, launch.start, launch.count, targetLimbs launch.target⟩
    ∃ (threads : Threads _ Hits UInt32) (found : List UInt32),
      scan.runThreads arrays run { hits with count := 0 } = some threads ∧
      (∀ memory : SlotMemory, memory.header = launch.header76 →
        memory.target = targetLimbs launch.target → memory.hits = { hits with count := 0 } →
        ∃ schedule, { memory with hits := threads.state } =
          act blockDigest (.scan p launch.start launch.count schedule) memory) ∧
      readScan busy threads.state = ⟨found.take maxHits, found.length, busy⟩ ∧
      found.Perm (((List.range launch.count.toNat).map fun gid ↦
        launch.start + UInt32.ofNat gid).filter fun nonce ↦
          hashMeetsTarget (blockDigest p launch.header76 nonce) launch.target) ∧
      ∀ nonce, Reference.bc3hash p (kernelHeader launch.header76 nonce).toList =
        some (blockDigest p launch.header76 nonce).toList := by
  intro scan
  obtain ⟨threads, found, hrun, hperm, hstate⟩ :=
    scan.runThreads_report arrays run { hits with count := 0 }
  refine ⟨threads, found, hrun, ?_, ?_, ?_, ?_⟩
  · rintro memory hheader htarget hhits
    refine ⟨.reporting scan.accepted found hperm, ?_⟩
    have horder : (Schedule.reporting scan.accepted found hperm).order
        (acceptedNonces blockDigest p memory.header memory.target launch.start launch.count) =
          found := by
      rw [hheader, htarget]
      exact if_pos rfl
    rw [act, horder, hhits, hstate]
  · have hlength : found.length < 2 ^ 32 := by
      rw [hperm.length_eq]
      exact (length_acceptedNonces_le _ _ _ _ _ _).trans_lt launch.count.toNat_lt
    obtain ⟨hreported, hfound⟩ := readScan_foldl_report
      (rfl : ({ hits with count := 0 } : Hits).count = 0) busy hlength
    rw [hstate, ← hfound, ← hreported]
    rfl
  · have haccepts : scan.accepted = ((List.range launch.count.toNat).map fun gid ↦
        launch.start + UInt32.ofNat gid).filter fun nonce ↦
          hashMeetsTarget (blockDigest p launch.header76 nonce) launch.target := by
      refine List.filter_congr fun nonce _ ↦ ?_
      rw [Bool.eq_iff_iff]
      exact (scanAccepts_iff (blockDigest p launch.header76 nonce) launch.target).1
    rwa [← haccepts]
  · intro nonce
    rw [toList_blockDigest]
    refine Reference.bc3hash_eq p ?_
    rw [Vector.length_toList]
    norm_num

end Bc3Miner.Device
