import ReproVM.Lib.ExchangeSort
import ReproVM.Sha256Stream
import ReproVM.Manifest
import ReproVM.Lib.Trans
import ReproVM.CasRuns
import ReproVM.TaskHash
import ReproVM.Planning
import ReproVM.ParallelProgress
import ReproVM.WarmRun
import ReproVM.EdgeCounts
import ReproVM.ParallelReturn
import ReproVM.RoundTrip
import ReproVM.CasFaultRuns
import ReproVM.CacheFaults
import ReproVM.ConcurrentStores
import ReproVM.LockFile
import ReproVM.ExitStatus
import ReproVM.History
import ReproVM.GrowingArray
import ReproVM.ManifestLines
import ReproVM.Capacity
import ReproVM.RecordFaults
import ReproVM.Reruns
import ReproVM.SerialParts
import ReproVM.Crc32
import ReproVM.RateLimiter
import ReproVM.TaskGraph
import ReproVM.Backup
import ReproVM.Security
import ReproVM.ConfigComments
import ReproVM.ConfigRoundTrip
import ReproVM.BlobPaths
import ReproVM.ForceRemoveRuns
import ReproVM.CommandTasks
import ReproVM.WorkersEnd
import ReproVM.Directories
import ReproVM.ReverseEdges
import ReproVM.TopoSteps
import ReproVM.CommaLists
import ReproVM.Rebuild
import ReproVM.ParallelComplete
import ReproVM.ThreadsRuns
import ReproVM.ParallelRebuild
import ReproVM.LockProbe
import ReproVM.Waiting
import ReproVM.BackupRestore
import ReproVM.StoreQueries
import ReproVM.ConfigEnv
