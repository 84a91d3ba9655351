import ChCppUtils.Lib.Split
import ChCppUtils.Lib.Runs
import ChCppUtils.Lib.UnorderedMap
import ChCppUtils.DirTree.Loops
import ChCppUtils.DirTree.Token
import ChCppUtils.DirTree.Tree
import ChCppUtils.DirTree.Refine
import ChCppUtils.Http.Router
import ChCppUtils.Http.RouterLookup
import ChCppUtils.Http.Client
import ChCppUtils.Http.ClientExclusive
import ChCppUtils.Lib.Tally
import ChCppUtils.ThreadPool.Pool
import ChCppUtils.ThreadPool.Delivery
import ChCppUtils.ThreadPool.Shutdown
import ChCppUtils.FsWatch.Fts
import ChCppUtils.FsWatch.Watch
import ChCppUtils.FsWatch.Steps
import ChCppUtils.FsWatch.MapCoherence
import ChCppUtils.DirTree.Drop
import ChCppUtils.FsWatch.Registry
import ChCppUtils.FsWatch.Paths
import ChCppUtils.FsWatch.EmptyDir
import ChCppUtils.FsWatch.World
import ChCppUtils.FsWatch.Coverage
import ChCppUtils.ThreadPool.Drain
import ChCppUtils.Http.ClientOwnership
import ChCppUtils.Http.Request
import ChCppUtils.Http.RequestRelease
import ChCppUtils.Http.RouterOwnership
import ChCppUtils.Http.Server
import ChCppUtils.Http.ServerSockets
import ChCppUtils.FsWatch.Places
import ChCppUtils.FsWatch.RootNotice
import ChCppUtils.FsWatch.NodeData
import ChCppUtils.FsWatch.Discovery
import ChCppUtils.FsWatch.Epoll
import ChCppUtils.FsWatch.NewFiles
import ChCppUtils.DirTree.DropPaths
import ChCppUtils.Http.RequestEvent
import ChCppUtils.Http.Body
import ChCppUtils.Http.Startup
import ChCppUtils.Timers
import ChCppUtils.Logger
import ChCppUtils.Lib.Ledger
import ChCppUtils.FsWatch.Ownership
import ChCppUtils.DirTree.Keys
import ChCppUtils.Http.Query
import ChCppUtils.Http.BodyLeft
import ChCppUtils.FsWatch.WatchFailure
import ChCppUtils.FsWatch.Joins
import ChCppUtils.FsWatch.Reports
import ChCppUtils.DirTree.Print
import ChCppUtils.Http.FreeIds
import ChCppUtils.Http.Instances
import ChCppUtils.Uuid
import ChCppUtils.Lib.Bits
import ChCppUtils.Base64
import ChCppUtils.Lib.Monitor
import ChCppUtils.Semaphore
import ChCppUtils.Lib.Progress
import ChCppUtils.ThreadPool.Progress
import ChCppUtils.Lib.FileTree
import ChCppUtils.MkPath
import ChCppUtils.Lib.Scan
import ChCppUtils.ProcStat
import ChCppUtils.ThreadPool.Serving
import ChCppUtils.Tcp.Server
import ChCppUtils.Tcp.Told
import ChCppUtils.Tcp.Clients
import ChCppUtils.Tcp.Progress
import ChCppUtils.Http.Exchange
import ChCppUtils.Http.ResponseBody
import ChCppUtils.Lib.Outline
import ChCppUtils.DirTree.Listing
import ChCppUtils.Http.Ready
import ChCppUtils.Http.Shutdown
