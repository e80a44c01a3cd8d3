import F1r3Node.Accounting.StorageRefunds
import F1r3Node.Accounting.ScheduleIndependence
import F1r3Node.Casper.BlockHash
import F1r3Node.History.NodeCodec
import F1r3Node.Merging.JoinRecords
import F1r3Node.Merging.EventLogCombination
import F1r3Node.Merging.SurvivorSums
import F1r3Node.Merging.KeptConsumes
import F1r3Node.Merging.UnavailableRetry
import F1r3Node.Merging.NumberChannelGenerators
import F1r3Node.Rholang.BipartiteMatching
import F1r3Node.Rholang.MessageFidelity
import F1r3Node.Rholang.ParSplits
import F1r3Node.Rholang.ClosingSubstitution
import F1r3Node.Rholang.GuardAgreement
import F1r3Node.Space.ReplayGuards
import F1r3Node.Space.Saturation
import F1r3Node.Space.MatchRollback
import F1r3Node.Space.ReplayIndex
import F1r3Node.Space.CheckpointFaithful
import F1r3Node.Slashing.NeglectedInvalidBlock
import F1r3Node.Slashing.NeglectedEquivocation
import F1r3Node.Dag.ProposalBranch
import F1r3Node.Dag.ForkChoiceFrame
import F1r3Node.Dag.LowestDominator
import F1r3Node.Finality.CliqueOrders
import F1r3Node.FileLocks.MutualExclusion
import F1r3Node.FileLocks.WakeUps
import F1r3Node.FileLocks.Overtaking
import F1r3Node.FileLocks.WaitForGraph
import F1r3Node.DagStorage.InsertRetry
import F1r3Node.DagStorage.FinalizedAncestry
import F1r3Node.DagStorage.CarrierHistory
import F1r3Node.CasperBuffer.Retention
import F1r3Node.StateSync.ForgedBlocks
import F1r3Node.StateSync.ChunkValidation
import F1r3Node.StateSync.ExportLists
import F1r3Node.SnapshotSync.Authenticity
import F1r3Node.Transport.StreamLimits
import F1r3Node.Replay.Transparency
import F1r3Node.FileIo.Confinement
import F1r3Node.FileIo.Reconstruction
import F1r3Node.FileIo.LogOrder
import F1r3Node.Transport.FairRoundRobinDispatcher
import F1r3Node.DagStorage.PendingBlocks
import F1r3Node.Finality.ForkChoiceFloor
import F1r3Node.Space.HotStoreOverlay
import F1r3Node.Discovery.PeerTable
