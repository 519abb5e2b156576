import Myrmidon.Transition.Machine
import Myrmidon.Data.Channel
import Myrmidon.Data.Encoding
import Myrmidon.Slab.Allocator
import Myrmidon.Slab.Liveness
import Myrmidon.Slab.Staleness
import Myrmidon.Data.Outstanding
import Myrmidon.Mailbox.Model
import Myrmidon.Mailbox.Backlog
import Myrmidon.Mailbox.Receive
import Myrmidon.Mailbox.Selective
import Myrmidon.Mailbox.Session
import Myrmidon.Mailbox.Closing
import Myrmidon.Network.Reader
import Myrmidon.Network.Connection
import Myrmidon.Network.Grammar
import Myrmidon.Network.Parsing
import Myrmidon.Network.Client
import Myrmidon.Network.Peers
import Myrmidon.Network.Framing
import Myrmidon.Network.Delivery
import Myrmidon.Supervisor.Model
import Myrmidon.Supervisor.Tokens
import Myrmidon.Supervisor.Ledger
import Myrmidon.Supervisor.GroupRestart
import Myrmidon.Supervisor.OneForOne
import Myrmidon.Runtime.Model
import Myrmidon.Runtime.Completion
import Myrmidon.Runtime.ExitSignal
import Myrmidon.Supervisor.Flags
import Myrmidon.Supervisor.Replacement
import Myrmidon.Supervisor.Cancellation
import Myrmidon.Runtime.Lifecycle
import Myrmidon.Runtime.Addressing
import Myrmidon.Supervisor.Succession
import Myrmidon.Runtime.Projection
import Myrmidon.Runtime.GroupSafety
import Myrmidon.Mailbox.Steps
import Myrmidon.Mailbox.Counter
import Myrmidon.Mailbox.HotSwap
import Myrmidon.Mailbox.Alone
import Myrmidon.Runtime.Timers
import Myrmidon.Network.Eviction
import Myrmidon.Network.Resolve
import Myrmidon.Supervisor.RestartTask
import Myrmidon.Supervisor.GroupOutcome
import Myrmidon.Supervisor.Swap
import Myrmidon.Runtime.LinkSignals
import Myrmidon.Network.Monitor
import Myrmidon.Data.Segments
import Myrmidon.Registry.Listing
import Myrmidon.Registry.Reachability
import Myrmidon.Mailbox.Priority
import Myrmidon.Python.Dedicated
import Myrmidon.Python.GilPool
import Myrmidon.Python.PoolOrder
import Myrmidon.Python.PoolSequential
import Myrmidon.Data.Amount
import Myrmidon.Network.MonitorTrace
import Myrmidon.Python.Admission
import Myrmidon.Buffer.Registry
import Myrmidon.Python.Fallback
import Myrmidon.Runtime.TimerTable
import Myrmidon.Buffer.Custody
import Myrmidon.Data.Rounding
import Myrmidon.Node.Number
import Myrmidon.Runtime.Watching
import Myrmidon.Python.PoolDeadlock
import Myrmidon.Mailbox.Custody
import Myrmidon.Runtime.Observers
import Myrmidon.Bindings.MailboxCalls
import Myrmidon.Runtime.Aliveness
import Myrmidon.Runtime.Progress
import Myrmidon.Transition.Callers
import Myrmidon.Runtime.Waiting
import Myrmidon.Supervisor.Settling
import Myrmidon.Network.Heartbeat
import Myrmidon.Network.Idle
import Myrmidon.Runtime.Serving
import Myrmidon.Runtime.Firing
import Myrmidon.Transition.Locks
import Myrmidon.Python.ObserverLocks
import Myrmidon.Python.ObserverDeadlock
import Myrmidon.Runtime.Telling
import Myrmidon.Network.Arriving
import Myrmidon.Python.Adoption
import Myrmidon.Runtime.Naming
