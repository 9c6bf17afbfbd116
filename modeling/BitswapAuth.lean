import BitswapAuth.Lib.Run
import BitswapAuth.Lib.Map
import BitswapAuth.Lib.Gauge
import BitswapAuth.Lib.Varint
import BitswapAuth.Lib.Records
import BitswapAuth.Lib.Slice
import BitswapAuth.Lib.Timer
import BitswapAuth.Auth
import BitswapAuth.Wantlist
import BitswapAuth.Message
import BitswapAuth.Message.Wire
import BitswapAuth.Message.Clone
import BitswapAuth.Message.OldFormat
import BitswapAuth.Message.Reset
import BitswapAuth.Message.Merge
import BitswapAuth.Message.Marshal
import BitswapAuth.Message.Unmarshal
import BitswapAuth.Message.Codec
import BitswapAuth.MessageQueue.Queue
import BitswapAuth.MessageQueue.Remote
import BitswapAuth.MessageQueue.Window
import BitswapAuth.MessageQueue.Drain
import BitswapAuth.MessageQueue.Rebroadcast
import BitswapAuth.MessageQueue.Priority
import BitswapAuth.MessageQueue.Timeout
import BitswapAuth.MessageQueue.TimeoutRun
import BitswapAuth.MessageQueue.Responses
import BitswapAuth.MessageQueue.Answered
import BitswapAuth.MessageQueue.Bookkeeping
import BitswapAuth.MessageQueue.Latency
import BitswapAuth.MessageQueue.RunLoop
import BitswapAuth.MessageQueue.Wakeups
import BitswapAuth.Decision.Engine
import BitswapAuth.Decision.Serving
import BitswapAuth.Decision.Batch
import BitswapAuth.Decision.Refusal
import BitswapAuth.Decision.TaskMerger
import BitswapAuth.Decision.Index
import BitswapAuth.Decision.Arrival
import BitswapAuth.Decision.FullWantlist
import BitswapAuth.Decision.Disconnect
import BitswapAuth.PeerManager.WantManager
import BitswapAuth.PeerManager.Manager
import BitswapAuth.PeerManager.Record
import BitswapAuth.PeerManager.Gauges
import BitswapAuth.PeerManager.ReverseIndex
import BitswapAuth.PeerManager.Told
import BitswapAuth.PeerManager.Asked
import BitswapAuth.Session.WantInfo
import BitswapAuth.Session.WantSender
import BitswapAuth.Session.Marks
import BitswapAuth.Session.Registry
import BitswapAuth.Session.View
import BitswapAuth.Session.Passes
import BitswapAuth.Session.Turn
import BitswapAuth.Session.Candidates
import BitswapAuth.Session.Starvation
import BitswapAuth.Session.Availability
import BitswapAuth.Session.Wants
import BitswapAuth.Session.FifoQueue
import BitswapAuth.Session.Interest
import BitswapAuth.Session.Relation
import BitswapAuth.Session.Presence
import BitswapAuth.Session.Session
import BitswapAuth.Session.Timers
import BitswapAuth.Session.LiveWants
import BitswapAuth.Session.Request
import BitswapAuth.Session.Calls
import BitswapAuth.Session.Losses
import BitswapAuth.Session.Outstanding
import BitswapAuth.Session.Denial
import BitswapAuth.Session.Exhaustion
import BitswapAuth.Session.Reports
import BitswapAuth.Session.Pruning
import BitswapAuth.Session.Removal
import BitswapAuth.Node.Node
import BitswapAuth.Node.Books
import BitswapAuth.Node.Life
import BitswapAuth.Node.Standing
import BitswapAuth.Node.Moves
import BitswapAuth.Node.Cancel
import BitswapAuth.Node.Delivery
import BitswapAuth.Node.Receive
import BitswapAuth.Node.Entries
import BitswapAuth.Node.Client
import BitswapAuth.Network.ConnectEvents
import BitswapAuth.Network.Stream
import BitswapAuth.Network.Exchange
import BitswapAuth.ProviderQueryManager
import BitswapAuth.ProviderQueryManager.Loop
import BitswapAuth.ProviderQueryManager.Clients
import BitswapAuth.ProviderQueryManager.Delivery
