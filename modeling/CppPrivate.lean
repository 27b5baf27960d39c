import CppPrivate.Lib.Run
import CppPrivate.Lib.Heap
import CppPrivate.Lib.Machine
import CppPrivate.Lib.Monitor
import CppPrivate.Lib.Bytes
import CppPrivate.Lib.Framing
import CppPrivate.Lib.LastWins
import CppPrivate.Lib.Percent
import CppPrivate.Lib.Query
import CppPrivate.Lib.ReadersWriters
import CppPrivate.Lib.Inet
import CppPrivate.Lib.Vec
import CppPrivate.Lib.Nesting
import CppPrivate.Lib.Restart
import CppPrivate.Lib.Chain
import CppPrivate.Lib.Simulation
import CppPrivate.Url.Escape
import CppPrivate.Redis.Pool
import CppPrivate.Redis.Index
import CppPrivate.Redis.Loans
import CppPrivate.Redis.Capacity
import CppPrivate.Redis.Partition
import CppPrivate.Redis.Requests
import CppPrivate.Redis.Protocol
import CppPrivate.Redis.Format
import CppPrivate.Redis.Reply
import CppPrivate.Redis.Setnx
import CppPrivate.Redis.Values
import CppPrivate.Redis.Decode
import CppPrivate.Pg.Client
import CppPrivate.Pg.Pool
import CppPrivate.Pg.Calls
import CppPrivate.Pg.Slots
import CppPrivate.Pg.Growth
import CppPrivate.Pg.Keys
import CppPrivate.Pg.Conninfo
import CppPrivate.Pg.Result
import CppPrivate.Pg.ClientWrap
import CppPrivate.Http.UrlParser
import CppPrivate.Http.Context
import CppPrivate.Http.Chain
import CppPrivate.Http.Onion
import CppPrivate.Http.Steps
import CppPrivate.Http.Abort
import CppPrivate.Http.Aborted
import CppPrivate.Http.Router
import CppPrivate.Http.Pattern
import CppPrivate.Http.Engine
import CppPrivate.Http.StringUtils
import CppPrivate.Http.HttpCookie
import CppPrivate.Http.MultipartParser
import CppPrivate.Http.Multipart
import CppPrivate.Http.Reader
import CppPrivate.Http.Refines
import CppPrivate.Http.Document
import CppPrivate.Http.Records
import CppPrivate.Http.FormData
import CppPrivate.Http.HeaderLines
import CppPrivate.Http.Prefixes
import CppPrivate.Http.Complete
import CppPrivate.Public.ByteBuffer
import CppPrivate.Public.Puts
import CppPrivate.Public.Gets
import CppPrivate.Public.WaitGroup
import CppPrivate.Public.Waiting
import CppPrivate.Public.Failures
import CppPrivate.Public.Rounds
import CppPrivate.Public.WaitGroupSync
import CppPrivate.Public.RWMutex
import CppPrivate.Tcp.RWLock
import CppPrivate.Tcp.SyncList
import CppPrivate.Tcp.Dispatch
import CppPrivate.Tcp.Send
import CppPrivate.Public.TaskCount
import CppPrivate.Public.DJBHash
import CppPrivate.Public.TimeTicker
import CppPrivate.Workpool.Manager
import CppPrivate.Workpool.Counting
import CppPrivate.Workpool.WorkerPool
import CppPrivate.Workpool.BatchWorker
import CppPrivate.Workpool.BatchWorkerMgr
import CppPrivate.Workpool.TaskCount
import CppPrivate.Workpool.Bookkeeping
import CppPrivate.Workpool.Limit
import CppPrivate.Workpool.Routing
import CppPrivate.Workpool.KeyOrder
import CppPrivate.Workpool.Lifecycle
import CppPrivate.Workpool.Detached
import CppPrivate.Public.ByteOrder
import CppPrivate.Public.Ticks
import CppPrivate.Url.Assemble
import CppPrivate.Http.Disposition
import CppPrivate.Http.Boundary
import CppPrivate.Workpool.Stopped
import CppPrivate.Lib.Lifetimes
import CppPrivate.Tcp.Close
import CppPrivate.Tcp.Master
import CppPrivate.Redis.Acquire
import CppPrivate.Pg.Acquire
import CppPrivate.Redis.Transaction
import CppPrivate.Lib.Calendar
import CppPrivate.Lib.Traced
import CppPrivate.Redis.ClusterClient
import CppPrivate.Redis.ClusterReads
import CppPrivate.Public.Strings
import CppPrivate.Http.ServeError
import CppPrivate.Http.FormCalls
import CppPrivate.Public.Localtime
import CppPrivate.Public.Datetime
import CppPrivate.Public.Durations
import CppPrivate.Lib.Digits
import CppPrivate.Public.Strptime
import CppPrivate.Public.DateFormat
import CppPrivate.Public.DateFields
import CppPrivate.Http.UrlParts
import CppPrivate.Url.Extents
import CppPrivate.Url.Dump
import CppPrivate.Public.Htmlize
import CppPrivate.Public.Replace
import CppPrivate.Public.SplitString
import CppPrivate.Public.Split
import CppPrivate.Http.KeyValues
import CppPrivate.Public.Reentry
import CppPrivate.Lib.Owned
import CppPrivate.Redis.Shrink
import CppPrivate.Http.Splits
import CppPrivate.Http.NodeTypes
import CppPrivate.Public.Rand
import CppPrivate.Hiredis.Pipeline
import CppPrivate.Cluster.Calls
import CppPrivate.Cluster.Regions
