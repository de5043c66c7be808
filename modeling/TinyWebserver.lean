import TinyWebserver.Lib.Transition
import TinyWebserver.Lib.Memory
import TinyWebserver.Lib.Fifo
import TinyWebserver.Lib.Counting
import TinyWebserver.Lib.Exclusive
import TinyWebserver.Lib.OrderedSet
import TinyWebserver.Lib.Search
import TinyWebserver.Lib.Digits
import TinyWebserver.Lib.Regex
import TinyWebserver.Base.Bytes
import TinyWebserver.Base.Buffer
import TinyWebserver.Base.BufferRefinement
import TinyWebserver.Base.Timer
import TinyWebserver.Base.TimerInvariant
import TinyWebserver.Base.TimerLedger
import TinyWebserver.Base.TimerRuns
import TinyWebserver.Http.Request
import TinyWebserver.Http.Parsing
import TinyWebserver.Http.Message
import TinyWebserver.Http.Framing
import TinyWebserver.Http.Response
import TinyWebserver.Http.Conn
import TinyWebserver.Http.Sending
import TinyWebserver.Coroutine.Fiber
import TinyWebserver.Coroutine.Scheduler
import TinyWebserver.Coroutine.Accounting
import TinyWebserver.Coroutine.Handover
import TinyWebserver.Coroutine.IOManager
import TinyWebserver.Coroutine.IOManagerInvariant
import TinyWebserver.Coroutine.IOManagerRuns
import TinyWebserver.Coroutine.Idle
import TinyWebserver.Http.Cuts
import TinyWebserver.Base.HttpServer
import TinyWebserver.Base.TimerNotify
import TinyWebserver.Base.TimerThreads
import TinyWebserver.Coroutine.ContextResize
import TinyWebserver.Coroutine.FdMutex
import TinyWebserver.Coroutine.IdleTimeout
import TinyWebserver.Coroutine.Shutdown
import TinyWebserver.Coroutine.Wakeup
import TinyWebserver.Db.ConnectionPool
import TinyWebserver.Http.Isolation
import TinyWebserver.Db.PoolQueue
import TinyWebserver.Db.PoolThreads
import TinyWebserver.Http.UserVerify
import TinyWebserver.Lib.Files
import TinyWebserver.Lib.Traversal
import TinyWebserver.Base.ConfigVar
import TinyWebserver.Base.LogConfig
import TinyWebserver.Base.FileLogAppender
import TinyWebserver.Base.LexicalCast
import TinyWebserver.Http.Forms
import TinyWebserver.Http.FormEncoding
import TinyWebserver.Http.Heads
import TinyWebserver.Http.Lengths
import TinyWebserver.Base.UserCount
import TinyWebserver.Coroutine.CurrentFiber
import TinyWebserver.Base.LogCodec
import TinyWebserver.Lib.Paths
import TinyWebserver.Lib.Literals
import TinyWebserver.Http.ResponseText
import TinyWebserver.Http.Containment
import TinyWebserver.Http.SqlText
import TinyWebserver.Base.TimerExpiry
import TinyWebserver.Base.TimerHandles
import TinyWebserver.Base.TimerDeadlines
import TinyWebserver.Coroutine.StaleReady
import TinyWebserver.Base.FdManager
import TinyWebserver.Lib.Ipv6
import TinyWebserver.Base.Address
import TinyWebserver.Base.Lookup
import TinyWebserver.Base.LogFiles
import TinyWebserver.Base.LogFormatter
import TinyWebserver.Base.LogRuns
import TinyWebserver.Base.Config
import TinyWebserver.Base.FromString
import TinyWebserver.Base.ConfDir
import TinyWebserver.Base.StreamSocket
import TinyWebserver.Base.TcpServer
import TinyWebserver.Http.Resources
import TinyWebserver.Lib.Halting
import TinyWebserver.Base.LogScanner
import TinyWebserver.Lib.Progress
import TinyWebserver.Coroutine.Stop
import TinyWebserver.Http.Serving
import TinyWebserver.Base.HttpServerClients
import TinyWebserver.Lib.Ledger
import TinyWebserver.Coroutine.EventLedger
import TinyWebserver.Base.AcceptLoops
import TinyWebserver.Base.AcceptProgress
import TinyWebserver.Http.Accounts
import TinyWebserver.Http.AccountPages
import TinyWebserver.Coroutine.Start
import TinyWebserver.Lib.Ipv4
import TinyWebserver.Base.IPAddress
import TinyWebserver.Base.BufferSpace
import TinyWebserver.Lib.LockOrder
import TinyWebserver.Base.Mutex
import TinyWebserver.Coroutine.LockCalls
