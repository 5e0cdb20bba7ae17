import Diginext.Foundations.Outcome
import Diginext.Foundations.Transition
import Diginext.Foundations.Cpp
import Diginext.Base64.Encode
import Diginext.Base64.Decode
import Diginext.Base64.EncodeMeaning
import Diginext.Base64.DecodeMeaning
import Diginext.Base64.RoundTrip
import Diginext.Foundations.Lines
import Diginext.Tcp.Receive
import Diginext.Tcp.ReceiveReference
import Diginext.Tcp.Send
import Diginext.Tcp.SendQueue
import Diginext.Tcp.SetUp
import Diginext.Tcp.Framing
import Diginext.Tcp.Delivery
import Diginext.Foundations.Effect
import Diginext.Foundations.KeyValue
import Diginext.Storage.Handler
import Diginext.Storage.HandlerMeaning
import Diginext.Storage.Semantics
import Diginext.Storage.Replies
import Diginext.Server.Machine
import Diginext.Server.Trace
import Diginext.Server.Registry
import Diginext.Server.EventLoop
import Diginext.Server.Concurrency
import Diginext.Base64.EncodeBounds
import Diginext.Base64.Rfc4648
import Diginext.Base64.Grammar
import Diginext.Lifecycle.Endpoint
import Diginext.Lifecycle.Restart
import Diginext.Lifecycle.WorkerHandle
import Diginext.Tcp.Ownership
import Diginext.Foundations.Linearizability
import Diginext.Storage.Interleaving
import Diginext.Storage.Linearization
import Diginext.Server.Reentry
import Diginext.Server.Admission
import Diginext.Server.Reads
import Diginext.Server.Removal
import Diginext.Server.Shutdown
import Diginext.Base64.StandardDecode
import Diginext.Base64.DecodeTrace
import Diginext.Tcp.DecodeBounds
import Diginext.Tcp.ListenerFaults
import Diginext.Tcp.FailedWrites
import Diginext.Server.AcceptErrors
import Diginext.Server.Wiring
import Diginext.Server.DisconnectAll
import Diginext.Client.Machine
import Diginext.Client.Reporting
import Diginext.Client.Answers
import Diginext.Tcp.Link
import Diginext.Foundations.Service
import Diginext.EndToEnd.Network
import Diginext.EndToEnd.Refinement
import Diginext.EndToEnd.Serialization
import Diginext.EndToEnd.Answers
import Diginext.EndToEnd.Progress
import Diginext.Server.Passing
import Diginext.Foundations.Locking
import Diginext.Server.CallsEnd
import Diginext.Server.Deadlock
import Diginext.Client.Protocol
import Diginext.Client.Settling
import Diginext.Base64.Canonical
import Diginext.EndToEnd.Broadcast
import Diginext.Server.LateEvents
import Diginext.EndToEnd.Strangers
