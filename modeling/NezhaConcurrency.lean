import NezhaConcurrency.Driver.VegetaDeterminism
import NezhaConcurrency.Core.RankingDeterminism
import NezhaConcurrency.Driver.TestDepurgeKeys
import NezhaConcurrency.Contract.CallFrames
import NezhaConcurrency.State.FlushRollback
import NezhaConcurrency.Driver.CommitPhase
import NezhaConcurrency.Driver.ReplayAccounting
import NezhaConcurrency.Driver.ReplayConflicts
import NezhaConcurrency.Driver.CapturedNodes
import NezhaConcurrency.Driver.CommittedValues
import NezhaConcurrency.Graph.CycleEnumeration
import NezhaConcurrency.Core.DepurgePlan
import NezhaConcurrency.Core.VariableRefinement
import NezhaConcurrency.Driver.FilteredOverlay
import NezhaConcurrency.Replayd.SparseStateDB
import NezhaConcurrency.Replayd.WriteTracking
import NezhaConcurrency.Replayd.CollectedWrites
import NezhaConcurrency.Contract.DynamicBytes
import NezhaConcurrency.Contract.IndexedAccess
import NezhaConcurrency.Core.Signature
import NezhaConcurrency.Export.WriteKeys
import NezhaConcurrency.Export.Checkpoint
import NezhaConcurrency.Export.Dataset
