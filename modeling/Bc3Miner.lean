import Bc3Miner.Consensus.BlockFormat
import Bc3Miner.Consensus.ByteOrder
import Bc3Miner.Consensus.CompactBits
import Bc3Miner.Consensus.ProofOfWork
import Bc3Miner.Consensus.ShareTargets
import Bc3Miner.Consensus.Target
import Bc3Miner.Device.JobLoop
import Bc3Miner.Device.LaunchRing
import Bc3Miner.Device.OpenClCards
import Bc3Miner.Device.OpenClFallback
import Bc3Miner.Device.PlainQueue
import Bc3Miner.Device.RingEnqueue
import Bc3Miner.Device.RingQueue
import Bc3Miner.Device.RingSlots
import Bc3Miner.Device.ScanThreads
import Bc3Miner.Device.TuningEnd
import Bc3Miner.Device.TuningFile
import Bc3Miner.Device.TuningRoad
import Bc3Miner.Device.TuningRuns
import Bc3Miner.Device.TuningStrays
import Bc3Miner.Device.WindowFallback
import Bc3Miner.Device.WindowTuner
import Bc3Miner.Device.WindowTuning
import Bc3Miner.Foundations.Attempts
import Bc3Miner.Foundations.Binary64
import Bc3Miner.Foundations.BlockStream
import Bc3Miner.Foundations.Blocks
import Bc3Miner.Foundations.ByteReader
import Bc3Miner.Foundations.CarryChains
import Bc3Miner.Foundations.Columns
import Bc3Miner.Foundations.CommandQueue
import Bc3Miner.Foundations.Custody
import Bc3Miner.Foundations.DelayedWrites
import Bc3Miner.Foundations.Disk
import Bc3Miner.Foundations.DivstepBound
import Bc3Miner.Foundations.Divsteps
import Bc3Miner.Foundations.EndlessRun
import Bc3Miner.Foundations.EuclidRows
import Bc3Miner.Foundations.FirstGreatest
import Bc3Miner.Foundations.HashRounds
import Bc3Miner.Foundations.Hex
import Bc3Miner.Foundations.Insertions
import Bc3Miner.Foundations.IntervalTiling
import Bc3Miner.Foundations.JacobianPoint
import Bc3Miner.Foundations.Latest
import Bc3Miner.Foundations.Limbs
import Bc3Miner.Foundations.LocalArray
import Bc3Miner.Foundations.MessageBlocks
import Bc3Miner.Foundations.MixedRadix
import Bc3Miner.Foundations.PartialMachine
import Bc3Miner.Foundations.PieceByPiece
import Bc3Miner.Foundations.Pieces
import Bc3Miner.Foundations.PowerSchedule
import Bc3Miner.Foundations.PrattCertificate
import Bc3Miner.Foundations.Settling
import Bc3Miner.Foundations.SharedInverse
import Bc3Miner.Foundations.SignedLimbs
import Bc3Miner.Foundations.SlidingWindow
import Bc3Miner.Foundations.TablePower
import Bc3Miner.Foundations.TotalMachine
import Bc3Miner.Foundations.Utf8
import Bc3Miner.Foundations.WideCarry
import Bc3Miner.Foundations.WorkQueue
import Bc3Miner.Gui.HandleCustody
import Bc3Miner.Gui.MinerState
import Bc3Miner.Gui.MinerTracking
import Bc3Miner.Kernel.BlockHash
import Bc3Miner.Kernel.BuildRow
import Bc3Miner.Kernel.Compressions
import Bc3Miner.Kernel.Constants
import Bc3Miner.Kernel.CudaReductions
import Bc3Miner.Kernel.CurveMul
import Bc3Miner.Kernel.CurvePoints
import Bc3Miner.Kernel.CurveSum
import Bc3Miner.Kernel.CurveTable
import Bc3Miner.Kernel.Divsteps30
import Bc3Miner.Kernel.FieldInverses
import Bc3Miner.Kernel.HashFraming
import Bc3Miner.Kernel.HostTables
import Bc3Miner.Kernel.Jacobian
import Bc3Miner.Kernel.LazyPowers
import Bc3Miner.Kernel.Mix
import Bc3Miner.Kernel.MixPrimitives
import Bc3Miner.Kernel.ModInverse
import Bc3Miner.Kernel.ModInverseRuns
import Bc3Miner.Kernel.Products
import Bc3Miner.Kernel.SecpField
import Bc3Miner.Kernel.SecpPrimes
import Bc3Miner.Kernel.SignedRows
import Bc3Miner.Kernel.SmallReduction
import Bc3Miner.Kernel.SpongeFraming
import Bc3Miner.Kernel.TableAssembly
import Bc3Miner.Kernel.TablePowers
import Bc3Miner.Kernel.TargetCompare
import Bc3Miner.Kernel.WordProducts
import Bc3Miner.Kernel.Words
import Bc3Miner.Mining.BlockCandidates
import Bc3Miner.Mining.CpuLoop
import Bc3Miner.Mining.CpuWorker
import Bc3Miner.Mining.ExhaustedRun
import Bc3Miner.Mining.FinishedWork
import Bc3Miner.Mining.GpuSearch
import Bc3Miner.Mining.GpuWorker
import Bc3Miner.Mining.HeaderPaths
import Bc3Miner.Mining.HitBudgetRun
import Bc3Miner.Mining.LaunchAccounting
import Bc3Miner.Mining.LaunchSettling
import Bc3Miner.Mining.LaunchSize
import Bc3Miner.Mining.MinerJob
import Bc3Miner.Mining.RigPartition
import Bc3Miner.Mining.SearchEngine
import Bc3Miner.Mining.SearchOrder
import Bc3Miner.Pool.Framing
import Bc3Miner.Pool.Json
import Bc3Miner.Pool.RejectLog
import Bc3Miner.Pool.Session
import Bc3Miner.Pool.SessionBinding
import Bc3Miner.Pool.ShareQueue
import Bc3Miner.Reference.BlockBuffers
import Bc3Miner.Reference.BlockHash
import Bc3Miner.Reference.Bytes
import Bc3Miner.Reference.Compressions
import Bc3Miner.Reference.Constants
import Bc3Miner.Reference.CurveTables
import Bc3Miner.Reference.EuclidBatch
import Bc3Miner.Reference.FieldScaling
import Bc3Miner.Reference.FixedPowers
import Bc3Miner.Reference.FoldPrimitives
import Bc3Miner.Reference.Inverse256
import Bc3Miner.Reference.Mix
import Bc3Miner.Reference.Modular
import Bc3Miner.Reference.Parameters
import Bc3Miner.Reference.StandardHashes
import Bc3Miner.Reference.StreamedHashes
import Bc3Miner.Reference.StreamedMix
import Bc3Miner.Reference.Words
import Bc3Miner.Sharing.BestShare
import Bc3Miner.Sharing.HandOver
import Bc3Miner.Sharing.HandOverAccounts
import Bc3Miner.Sharing.JobBoard
import Bc3Miner.Sharing.PendingNudges
import Bc3Miner.Sharing.StallAccounts
import Bc3Miner.Sharing.StallBlame
import Bc3Miner.Sharing.StallCheck
import Bc3Miner.Sharing.WakeUps
import Bc3Miner.Sharing.Watchdog
import Bc3Miner.Solve.AssembledBlock
import Bc3Miner.Solve.HeightPush
import Bc3Miner.Solve.Template
