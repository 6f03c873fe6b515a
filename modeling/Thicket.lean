import Thicket.Interconnect.Narrowing
import Thicket.Interconnect.Splicing
import Thicket.Interconnect.RootGrants
import Thicket.Registry.Integrity
import Thicket.Registry.Revocation
import Thicket.Registry.Versions
import Thicket.Federation.Misdirection
import Thicket.Federation.Staleness
import Thicket.Lib.CborDecode
import Thicket.Lib.Deserialize
import Thicket.Core.Wire
import Thicket.Lib.Json
import Thicket.Interconnect.Envelope
import Thicket.Interconnect.Handshake
import Thicket.Net.Secure
import Thicket.Net.SigningInputs
import Thicket.Core.Checkpoint
import Thicket.Interconnect.Wire
import Thicket.Directory.Server
import Thicket.Interconnect.RoundTrip
import Thicket.Lib.TopK
import Thicket.Directory.Ownership
import Thicket.Directory.Privacy
import Thicket.Net.Authentication
import Thicket.Py.Wire
import Thicket.Py.Grant
import Thicket.Py.GrantVerdict
import Thicket.Py.Envelope
import Thicket.Py.Record
import Thicket.Lib.SortedStrings
import Thicket.Py.Builders
import Thicket.Py.ChildContext
import Thicket.Py.RecordVerdict
import Thicket.Net.Conn
import Thicket.Py.ErrorReply
import Thicket.Lib.Aead
import Thicket.Lib.Chunks
import Thicket.Net.Framing
import Thicket.Net.SecureFrame
import Thicket.Py.Secure
import Thicket.Net.Integrity
import Thicket.Net.Outgoing
import Thicket.Net.Writer
import Thicket.Py.Delivery
import Thicket.Lib.BoundedStream
import Thicket.Net.Mux
import Thicket.Net.Reader
import Thicket.Net.Streams
import Thicket.Net.Calls
import Thicket.Lib.OrderedDict
import Thicket.Lib.AtomicStore
import Thicket.Py.Checkpoint
import Thicket.Py.Resume
import Thicket.Lib.Memo
import Thicket.Py.Portable
import Thicket.Py.Isolation
import Thicket.Lib.WaiterTable
import Thicket.Net.Closing
import Thicket.Py.Gather
import Thicket.Py.Bodies
import Thicket.Py.Terminal
import Thicket.Lib.Newest
import Thicket.Federation.Search
import Thicket.Registry.Search
import Thicket.Federation.Central
import Thicket.Federation.Conflicts
import Thicket.Py.FederatedSearch
import Thicket.Py.Faults
import Thicket.Py.SearchConflicts
import Thicket.Registry.Sweeping
import Thicket.Directory.Restart
import Thicket.Lib.Raising
import Thicket.Py.Client
import Thicket.Py.Recovery
import Thicket.Py.Budget
import Thicket.Py.Delegate
import Thicket.Py.Delegation
import Thicket.Py.Delegable
import Thicket.Core.Endorsements
import Thicket.Py.Satisfies
import Thicket.Net.Terminals
import Thicket.Net.Events
import Thicket.Net.Truncation
import Thicket.Py.Framing
import Thicket.Registry.Renewal
import Thicket.Core.FreshKeys
import Thicket.Py.DecodedSteps
import Thicket.Interconnect.CallPath
import Thicket.Py.CallPath
import Thicket.Py.Objects
import Thicket.Lib.Logged
import Thicket.Py.DecodeRun
import Thicket.Lib.CborStrict
import Thicket.Py.Canonical
import Thicket.Lib.WeightedMean
import Thicket.Trust.Reputation
import Thicket.Trust.Range
import Thicket.Lib.Checked
import Thicket.Net.FrameBounds
import Thicket.Lib.Forest
import Thicket.Lib.Walk
import Thicket.Py.Sorting
import Thicket.Py.Collector
import Thicket.Py.TraceTree
import Thicket.Py.Traces
import Thicket.Py.CallTrace
import Thicket.Lib.Persisted
import Thicket.Py.FileStore
import Thicket.Py.StateFiber
import Thicket.Py.CheckpointStores
import Thicket.Py.Memory
import Thicket.Py.Confinement
import Thicket.Py.FileTool
import Thicket.Directory.Client
import Thicket.Lib.Linearizable
import Thicket.Net.Service
import Thicket.Directory.Linearizable
import Thicket.Directory.Heartbeat
import Thicket.Lib.Broadcast
import Thicket.Py.Trigger
import Thicket.Lib.Tally
import Thicket.Py.Profiler
import Thicket.Py.DirectoryCalls
