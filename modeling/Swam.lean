import Swam.Admissible
import Swam.MarkerExport
import Swam.Accounting
import Swam.OracleSound
import Swam.RecurseSound
import Swam.SchedulerStats
import Swam.Afl.NewBits
import Swam.Afl.Skipdet
import Swam.Afl.OneEntry
import Swam.Afl.Sanitizing
import Swam.Afl.AliasSound
import Swam.Afl.CullCovers
import Swam.Afl.DedupFilters
import Swam.Afl.CacheAccounting
import Swam.Afl.RefCounts
import Swam.LocalContext
import Swam.CallTarget
import Swam.Operators
import Swam.FreshNames
import Swam.TreeInvariant
import Swam.ListLoops
import Swam.ColdStart
import Swam.Attempts
import Swam.GeneratorSound
import Swam.ChildAccess
import Swam.LabelSearch
import Swam.BlockScoring
import Swam.SpliceRecursion
import Swam.SpliceRenaming
import Swam.ClosedFragments
import Swam.AlignmentLaw
import Swam.MemoryRebuild
import Swam.ProbePlacement
import Swam.OperatorsTyped
import Swam.Fragments
import Swam.Afl.SplicePartner
import Swam.Afl.AliasSelection
import Swam.Afl.SkipInference
import Swam.Afl.ExtrasSound
import Swam.Afl.TrimmingSound
import Swam.Afl.NearbyMarks
import Swam.Afl.UserTokens
import Swam.Afl.AutoTokensKept
import Swam.Afl.DictionaryFileSound
import Swam.Afl.TextCheck
import Swam.Afl.IjonTracked
import Swam.Shuffle
import Swam.Lib.Links
import Swam.Afl.LinkedList
import Swam.Worklist
import Swam.Afl.TaintedRuns
import Swam.Afl.ForkserverCalls
import Swam.Afl.HandshakeRuns
import Swam.Afl.SyncReading
