import Bc3Miner.Mining.CpuWorker
import Bc3Miner.Mining.GpuSearch

/-!
# What any worker of a rig guarantees

A worker of a rig, CPU thread or GPU, is a `SearchEngine`: a state that remembers the job last mined
and the cursor, and the grinding of a job from that state, which yields the work that was finished
and, once it returns, the state that is left. The fields `sound` and `accounts` carry what the rig
relies on, so a worker that hands out unsound work or goes back over its order cannot be built.

`cpuEngine` and `gpuEngine` are the two workers of the source.

A new kind of worker has to give its state, its way of grinding, and proofs of the two fields; it
can then be a worker of a rig without a change there.
-/

set_option autoImplicit false
set_option relaxedAutoImplicit false

namespace Bc3Miner.Mining

open Consensus

section Engine

variable (sha256d : List UInt8 → Bytes32) (pow : PowFn) (workerIndex stride : UInt64)

/-- A worker of a rig, number `workerIndex` of `stride`. -/
structure SearchEngine where
  State : Type
  /-- What the worker reads from its settings and its device when it starts a job. -/
  Setup : Type
  /-- What it is told while it grinds. -/
  Answer : Type
  initial : State
  previous : State → Option MinerJob
  cursor : State → Cursor
  /-- What happens to an idle worker whose device is opened again. -/
  reopened : State → State
  /-- Grind a job: the work finished, and the state left by a worker that returned. -/
  grind : State → MinerJob → Setup → List Answer → List Finished × Option State
  initial_previous : previous initial = none
  initial_cursor : cursor initial = ⟨workerIndex, 0⟩
  reopened_previous : ∀ state, previous (reopened state) = previous state
  reopened_cursor : ∀ state, cursor (reopened state) = cursor state
  sound : ∀ state job setup answers, ∀ work ∈ (grind state job setup answers).1,
    work.Sound sha256d pow job job.algo
  /-- A worker that returned remembers the job. -/
  left_previous : ∀ state job setup answers left,
    (grind state job setup answers).2 = some left → previous left = some job
  /-- What is finished are regions of a chain from where the job is entered; the chain ends where
  the worker is left. -/
  accounts : ∀ state job setup answers,
    (∀ work ∈ (grind state job setup answers).1, ¬ work.region.Saturates stride) →
    ∃ regions last,
      Chain stride (startOn (previous state) job workerIndex (cursor state)) regions last ∧
      ((grind state job setup answers).1.map Finished.region).Sublist regions ∧
      ∀ left, (grind state job setup answers).2 = some left → cursor left = last

/-- A CPU thread: it remembers the job last mined and the cursor. -/
def cpuEngine : SearchEngine sha256d pow workerIndex stride where
  State := Option MinerJob × Cursor
  Setup := Unit
  Answer := Bool
  initial := (none, ⟨workerIndex, 0⟩)
  previous := Prod.fst
  cursor := Prod.snd
  reopened := id
  grind state job _ changes :=
    let run := cpuMineJob sha256d pow job batchSize stride changes
      (startOn state.1 job workerIndex state.2)
    (run.finished, run.exhausted.map fun _ ↦ (some job, run.cursor))
  initial_previous := rfl
  initial_cursor := rfl
  reopened_previous _ := rfl
  reopened_cursor _ := rfl
  sound state job _ changes work hwork :=
    (cpuMineJob_sound sha256d pow job (by decide) stride changes _ work hwork).1
  left_previous state job _ changes left hleft := by
    obtain ⟨exhausted, -, rfl⟩ := Option.map_eq_some_iff.mp hleft
    rfl
  accounts state job _ changes hroom := by
    have hchain := cpuMineJob_chain sha256d pow job
      (show 0 < batchSize.toNat by decide) stride changes
      (startOn state.1 job workerIndex state.2) hroom
    refine ⟨_, _, hchain, List.Sublist.refl _, fun left hleft ↦ ?_⟩
    obtain ⟨exhausted, -, rfl⟩ := Option.map_eq_some_iff.mp hleft
    rfl

/-- What a GPU worker reads when it starts a job: how deep launches are queued, the card's wave, and
its window. -/
structure GpuSetup where
  depth : ℕ
  granule : ℕ
  window : ℕ

/-- A GPU: its worker keeps its place among the workers. -/
def gpuEngine (hstride : 0 < stride.toNat) : SearchEngine sha256d pow workerIndex stride where
  State := {worker : Worker // worker.workerIndex = workerIndex ∧ worker.stride = stride}
  Setup := GpuSetup
  Answer := Answer
  initial := ⟨.new workerIndex stride, rfl, by
    have hpos : stride ≠ 0 := by
      rintro rfl
      exact absurd hstride (by decide)
    simp [Worker.new, hpos]⟩
  previous state := state.1.prev
  cursor state := state.1.cursor
  reopened state := ⟨state.1.reopened, state.2⟩
  grind state job setup answers :=
    let result := mineJob sha256d pow state.1 job job.algo setup.depth setup.granule setup.window
      answers
    (result.2.2.1.finished, result.1.map fun _ ↦ ⟨result.2.1, by
      obtain ⟨hindex, hstride, -⟩ := mineJob_keeps sha256d pow state.1 job job.algo setup.depth
        setup.granule setup.window answers
      exact ⟨hindex.trans state.2.1, hstride.trans state.2.2⟩⟩)
  initial_previous := rfl
  initial_cursor := rfl
  reopened_previous _ := rfl
  reopened_cursor _ := rfl
  sound state job setup answers := by
    obtain ⟨lost, last, hresult⟩ := mineJob_accounts sha256d pow (show
      mineJob sha256d pow state.1 job job.algo setup.depth setup.granule setup.window answers = _
      from rfl)
    exact hresult.sound
  left_previous state job setup answers left hleft := by
    obtain ⟨-, -, hprevious⟩ := mineJob_keeps sha256d pow state.1 job job.algo setup.depth
      setup.granule setup.window answers
    obtain ⟨ended, hended, rfl⟩ := Option.map_eq_some_iff.mp hleft
    exact hprevious (by simp [hended])
  accounts state job setup answers _ := by
    obtain ⟨lost, last, hresult⟩ := mineJob_accounts sha256d pow (show
      mineJob sha256d pow state.1 job job.algo setup.depth setup.granule setup.window answers = _
      from rfl)
    have hchain := hresult.chain
    have hplace : (startRun state.1 job job.algo setup.depth setup.granule setup.window).1.stride =
        stride := state.2.2
    rw [hplace, state.2.1] at hchain
    refine ⟨_, last, hchain, List.sublist_append_left _ _, fun left hleft ↦ ?_⟩
    obtain ⟨ended, hended, rfl⟩ := Option.map_eq_some_iff.mp hleft
    have hsome : (mineJob sha256d pow state.1 job job.algo setup.depth setup.granule setup.window
      answers).1.isSome := by simp [hended]
    exact (hresult.cursor hsome).symm

end Engine

end Bc3Miner.Mining
