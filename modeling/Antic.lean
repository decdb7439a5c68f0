import Antic.UnusedProofs
import Antic.CopyPropagationProofs
import Antic.LayoutDataProofs
import Antic.AntlSignatureProofs
import Antic.ChannelWakeProofs
import Antic.SequenceRuns
import Antic.QueueBagProofs
import Antic.PoolRuns
import Antic.ZipProofs
import Antic.CommandLineProofs
import Antic.ObjectLockProofs
import Antic.ConstTargetProofs
import Antic.PluginProofs
import Antic.FoldExactProofs
import Antic.ConcurrentMapProofs
import Antic.SpscQueueProofs
import Antic.MemcheckProofs
import Antic.DropFailuresProofs
import Antic.AbiProofs
import Antic.LockOrderProofs
import Antic.LockWaitsProofs
import Antic.RangeLoopProofs
import Antic.TomlTables
import Antic.LockFileProofs
import Antic.JsonAccepts
import Antic.DepsSources
import Antic.InflateBlocks
import Antic.StableSortProofs
import Antic.UtfProofs
import Antic.LockRecordRuns
import Antic.BytePatchProofs
import Antic.PatternResults
import Antic.PluginBooks
import Antic.AssignedPaths
import Antic.DamageProofs
import Antic.ProviderCyclesProofs
import Antic.FloatRoundTrip
