import Coring.Framework.Machine
import Coring.Framework.Storage
import Coring.Framework.Counting
import Coring.Framework.Latch
import Coring.Framework.Ordered
import Coring.Framework.Search
import Coring.Framework.Records
import Coring.Framework.SortedMap
import Coring.Framework.Segment
import Coring.Framework.Ring
import Coring.Framework.Positional
import Coring.Framework.Numeral
import Coring.Net.Endian
import Coring.Net.Digits
import Coring.Net.Address
import Coring.Net.Numerals
import Coring.Net.Endpoint
import Coring.Net.Resolve
import Coring.Buffer.Basic
import Coring.Buffer.Stream
import Coring.Buffer.Words
import Coring.Buffer.Writers
import Coring.Buffer.Readers
import Coring.Buffer.Fixed
import Coring.Buffer.Integers
import Coring.Buffer.Indices
import Coring.BufferPool.Basic
import Coring.BufferPool.Table
import Coring.BufferPool.Selection
import Coring.BufferPool.Exclusive
import Coring.BufferPool.Product
import Coring.BufferPool.Echo
import Coring.Skiplist.Basic
import Coring.Skiplist.Memory
import Coring.Skiplist.Rep
import Coring.Skiplist.Update
import Coring.Skiplist.Operations
import Coring.Skiplist.Refinement
import Coring.Skiplist.Invariant
import Coring.Skiplist.Sweep
import Coring.Skiplist.Sentinel
import Coring.Skiplist.Check
import Coring.Skiplist.Destruct
import Coring.Timer.Clock
import Coring.Timer.Basic
import Coring.Timer.Ledger
import Coring.Timer.Refinement
import Coring.Timer.Accounting
import Coring.Timer.Expiration
import Coring.IoContext.TimerLoop
import Coring.IoContext.Arming
import Coring.IoContext.EventFd
import Coring.IoContext.TodoList
import Coring.Descriptor.Basic
import Coring.Descriptor.Ownership
import Coring.Descriptor.Acceptor
import Coring.File.Statx
import Coring.AsyncTask.Basic
import Coring.AsyncTask.Invariant
import Coring.AsyncTask.Delivery
import Coring.LazyTask.Basic
import Coring.LazyTask.Semantics
import Coring.LazyTask.Representation
import Coring.LazyTask.Simulation
import Coring.LazyTask.Adequacy
import Coring.Join.AsyncScope
import Coring.Join.WhenAll
import Coring.Event.SingleConsumer
import Coring.Event.AutoReset
import Coring.Event.SyncWait
import Coring.Uring.Basic
import Coring.Uring.Completions
import Coring.Uring.LinkedTimeout
import Coring.Uring.Ownership
import Coring.Logging.SpscRing
import Coring.Logging.SpscParties
import Coring.Logging.SpscQueue
import Coring.Logging.SpscCalls
import Coring.Logging.SpscCapacity
import Coring.Logging.Timestamp
import Coring.Logging.TimestampSwap
import Coring.Logging.AsyncLogger
import Coring.Logging.TimeBuffer
import Coring.Logging.ThreadId
import Coring.Logging.Invariant
import Coring.Logging.Delivery
import Coring.Logging.Lifetime
import Coring.Logging.LifetimeDelivery
import Coring.Logging.RingDelivery
import Coring.Logging.LogRings
import Coring.Logging.LoggerRuns
import Coring.Logging.RingLogger
import Coring.Http.Request
import Coring.Http.Lines
import Coring.Http.Grammar
import Coring.Http.Response
import Coring.Http.Sends
import Coring.Http.Files
import Coring.Http.Server
import Coring.Http.Forgotten
