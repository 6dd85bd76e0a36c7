import Racer.Library.OneChange
import Racer.Library.LinkedCells
import Racer.Library.Threads
import Racer.Library.Histories
import Racer.Tracer.Announced
import Racer.Tracer.Tracepoints
import Racer.Tracer.Windows
import Racer.Tracer.Session
import Racer.Tracer.TinyQueue
import Racer.Tracer.AtomicQueue
import Racer.Tracer.QueueProgress
import Racer.Tracer.QueuedSession
import Racer.Tracer.Flushing
import Racer.Tracer.FlushReturns
import Racer.Tracer.Sends
import Racer.Tracer.Forks
import Racer.Tracer.Blocks
import Racer.Tracer.Pairing
import Racer.Tracer.Freeing
import Racer.Tracer.Bookkeeping
import Racer.Tracer.Entries
import Racer.Tracer.History
import Racer.Tracer.OwnMixins
import Racer.Tracer.CompleteMixins
import Racer.Tracer.Terminates
import Racer.Tracer.Generics
import Racer.Tracer.Depth
import Racer.Tracer.Handlers
import Racer.Sizes
import Racer.Agent.RoundTrip
import Racer.Agent.WorkerLoop
import Racer.Agent.Accepting
import Racer.Agent.Shutdown
import Racer.Agent.Connections
import Racer.Collectors.ArrivalOrder
import Racer.Collectors.SelfTypes
import Racer.Collectors.Parameters
import Racer.Collectors.Accepted
import Racer.Collectors.Coverage
import Racer.Collectors.BlockCoverage
import Racer.Collectors.Received
import Racer.Collectors.Files
import Racer.Collectors.TypeNames
import Racer.Collectors.Closed
import Racer.Collectors.Pruning
import Racer.Collectors.Independence
import Racer.Collectors.Admitted
import Racer.Collectors.Repeats
import Racer.Collectors.WellFormed
import Racer.Pipeline.Sessions
import Racer.Pipeline.System
import Racer.Pipeline.Delivered
import Racer.Pipeline.Collecting
import Racer.Pipeline.Signatures
