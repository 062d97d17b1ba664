import MoteBroker.AllOrNothing
import MoteBroker.AnswerShape
import MoteBroker.Answerable
import MoteBroker.Applicable
import MoteBroker.Backend
import MoteBroker.Backup
import MoteBroker.Batches
import MoteBroker.Blocks
import MoteBroker.Broker
import MoteBroker.Browsers
import MoteBroker.CherryPicked
import MoteBroker.Chunks
import MoteBroker.ClientPackets
import MoteBroker.Closing
import MoteBroker.Completion
import MoteBroker.Concrete
import MoteBroker.Connections
import MoteBroker.CreateMessages
import MoteBroker.Deletion
import MoteBroker.Delivery
import MoteBroker.Dispatch
import MoteBroker.DynamicStr
import MoteBroker.Exchanges
import MoteBroker.FilterTree
import MoteBroker.Fragments
import MoteBroker.Frames
import MoteBroker.Framing
import MoteBroker.Grafts
import MoteBroker.Granted
import MoteBroker.Handshakes
import MoteBroker.Incremental
import MoteBroker.Isolation
import MoteBroker.Journey
import MoteBroker.LastWill
import MoteBroker.Lib.ByteReader
import MoteBroker.Lib.JsonText
import MoteBroker.Lib.LastWrite
import MoteBroker.Lib.Mirror
import MoteBroker.Lib.NestedDict
import MoteBroker.Lib.NestedPath
import MoteBroker.Lib.Progress
import MoteBroker.Lib.PubSub
import MoteBroker.Lib.ReadTree
import MoteBroker.Lib.Runs
import MoteBroker.Lib.Search
import MoteBroker.Lib.Sha1
import MoteBroker.Lib.Simulation
import MoteBroker.Lib.Split
import MoteBroker.Lib.Utf8
import MoteBroker.Lib.Wildcard
import MoteBroker.Live
import MoteBroker.Messages
import MoteBroker.Orphans
import MoteBroker.OutgoingLock
import MoteBroker.PacketIds
import MoteBroker.PacketTypes
import MoteBroker.Packets
import MoteBroker.PublishOrder
import MoteBroker.QueryProtocol
import MoteBroker.Records
import MoteBroker.RecursiveDefaultDict
import MoteBroker.RecvUntil
import MoteBroker.Rejection
import MoteBroker.RemainingLength
import MoteBroker.Replicas
import MoteBroker.Requests
import MoteBroker.Restart
import MoteBroker.Retain
import MoteBroker.Retransmission
import MoteBroker.Routable
import MoteBroker.Rows
import MoteBroker.Servers
import MoteBroker.Service
import MoteBroker.Sessions
import MoteBroker.Snapshot
import MoteBroker.Socket
import MoteBroker.Spread
import MoteBroker.Streams
import MoteBroker.Subscriptions
import MoteBroker.Successor
import MoteBroker.SyncedSubscriber
import MoteBroker.Tables
import MoteBroker.TaskLoop
import MoteBroker.Topics
import MoteBroker.Transports
import MoteBroker.TreeItems
import MoteBroker.Unsubscriptions
import MoteBroker.Upgrade
import MoteBroker.Walk
import MoteBroker.Websocket
import MoteBroker.WellShaped
