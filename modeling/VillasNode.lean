import VillasNode.Lib.Runs
import VillasNode.Lib.Links
import VillasNode.Managed.Model
import VillasNode.Managed.Invariant
import VillasNode.Managed.Steps
import VillasNode.Managed.Safety
import VillasNode.Queue.Invariant
import VillasNode.Queue.Steps
import VillasNode.Queue.Linear
import VillasNode.Sample.Ledger
import VillasNode.Hook.Ledger
import VillasNode.Mapping.Model
import VillasNode.Path.Model
import VillasNode.Path.Ledger
import VillasNode.Mapping.Slots
import VillasNode.Path.Mux
import VillasNode.Path.Enqueue
import VillasNode.Path.Conservation
import VillasNode.Path.CarryForward
import VillasNode.Path.Trigger
import VillasNode.Path.Prepare
import VillasNode.Hook.Isolation
import VillasNode.Path.Isolation
import VillasNode.Lib.ByteOrder
import VillasNode.VillasBinary.Model
import VillasNode.VillasBinary.Framing
import VillasNode.VillasBinary.RoundTrip
import VillasNode.Managed.Recovery
import VillasNode.Node.LifeCycle
import VillasNode.Format.Line
import VillasNode.Node.Loopback
import VillasNode.Node.Websocket
import VillasNode.Queue.Sequential
import VillasNode.Queue.Poll
import VillasNode.Sample.Blocks
import VillasNode.Hook.Signals
import VillasNode.Hook.Tool
import VillasNode.Queue.Signalled
import VillasNode.Queue.WakeUp
import VillasNode.Path.FanOut
import VillasNode.Hook.Growth
import VillasNode.Path.Capacity
import VillasNode.Lib.Fallible
import VillasNode.Path.PollMode
import VillasNode.Lib.PartialWrites
import VillasNode.Path.ShortWrites
import VillasNode.Lib.ByteMemory
import VillasNode.VillasBinary.Memory
import VillasNode.VillasBinary.WebClient
import VillasNode.VillasBinary.Stream
import VillasNode.Hook.Builtin
import VillasNode.Hook.Restart
import VillasNode.Hook.Drop
import VillasNode.Managed.Shmem
import VillasNode.Relay.Delivery
import VillasNode.Path.InitialValues
import VillasNode.Format.Malformed
import VillasNode.Format.Comments
import VillasNode.Format.HumanRoundTrip
import VillasNode.Format.ColumnRoundTrip
import VillasNode.Format.Json
import VillasNode.Format.Protobuf
import VillasNode.Node.ShmemInt
import VillasNode.Config.Helper
import VillasNode.Node.Connections
import VillasNode.Tool.Compare
import VillasNode.Path.Ownership
import VillasNode.Hook.Partition
import VillasNode.Node.Write
import VillasNode.Path.Release
import VillasNode.Node.Read
import VillasNode.Path.Dispatch
import VillasNode.Mapping.Range
import VillasNode.Lib.MachineInt
import VillasNode.Lib.Regex
import VillasNode.Hook.Insertion
import VillasNode.Queue.Fifo
import VillasNode.Queue.Closed
import VillasNode.Queue.Batch
import VillasNode.VillasBinary.Signed
import VillasNode.VillasBinary.InPlace
import VillasNode.Format.Raw
import VillasNode.Format.RawAccounting
import VillasNode.Format.RawRoundTrip
import VillasNode.Mapping.Syntax
import VillasNode.Mapping.Entry
import VillasNode.Mapping.Prepared
import VillasNode.Mapping.Layout
import VillasNode.Mapping.Names
import VillasNode.Hook.DropOrder
import VillasNode.Hook.Gate
import VillasNode.Hook.SkipFirst
import VillasNode.Config.SignalString
import VillasNode.Format.JsonAlignment
import VillasNode.Format.JsonSent
import VillasNode.Format.JsonLoops
import VillasNode.Format.JsonBatch
import VillasNode.Format.JsonReserve
import VillasNode.Format.JsonKafka
import VillasNode.Format.RawBounds
import VillasNode.Format.RawHeader
import VillasNode.Lib.Ring
import VillasNode.Hook.MovingAverage
import VillasNode.Hook.Decimate
import VillasNode.Hook.Dft
import VillasNode.Hook.JitterCalc
import VillasNode.Hook.PpsTs
import VillasNode.Hook.Retained
import VillasNode.Tool.CompareSymmetry
import VillasNode.Node.WebsocketBatch
import VillasNode.Node.CanConvert
import VillasNode.Node.CanRead
import VillasNode.Node.CanWrite
import VillasNode.Node.CanConfig
import VillasNode.Node.TestRtt
import VillasNode.Node.TestRttFiles
import VillasNode.Node.Comedi
import VillasNode.Node.ShmemWrite
import VillasNode.VillasBinary.Encoding
import VillasNode.Node.WebsocketSend
import VillasNode.Node.PacketWrite
import VillasNode.Lib.Members
import VillasNode.Lib.CText
import VillasNode.Config.Extend
import VillasNode.Config.Cli
import VillasNode.Config.EnvVars
import VillasNode.Node.Iec61850Sv
import VillasNode.Node.FileRead
import VillasNode.Node.Exec
import VillasNode.Tool.Pipe
import VillasNode.Lib.Channel
import VillasNode.Path.Channels
import VillasNode.Path.Wire
import VillasNode.Path.Rounds
import VillasNode.Node.ShmemOpen
import VillasNode.SuperNode.Wiring
import VillasNode.Lib.Ending
import VillasNode.SuperNode.LifeCycle
import VillasNode.Node.SocketRead
import VillasNode.Path.Tandem
import VillasNode.Lib.Inclusion
import VillasNode.Config.Includes
import VillasNode.Node.Subscriber
import VillasNode.SuperNode.ApiSession
