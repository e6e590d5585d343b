import Iptfs.Lib.Run
import Iptfs.Lib.Conserve
import Iptfs.Lib.Refcount
import Iptfs.Lib.Depot
import Iptfs.Lib.Framing
import Iptfs.Lib.Ring
import Iptfs.Lib.Tiling
import Iptfs.Lib.Monitor
import Iptfs.Model.WriteTfs
import Iptfs.Model.ReadTfs
import Iptfs.Model.Ingress
import Iptfs.Model.Egress
import Iptfs.Model.Timer
import Iptfs.Model.Limit
import Iptfs.Model.QueueLock
import Iptfs.Spec.Delivery
import Iptfs.Spec.DropReports
import Iptfs.Spec.Format
import Iptfs.Proofs.QueueOrder
import Iptfs.Proofs.QueueWakeups
import Iptfs.Proofs.FlowConfidentiality
import Iptfs.Proofs.IngressBuffers
import Iptfs.Proofs.SingleOnly
import Iptfs.Proofs.GatherList
import Iptfs.Proofs.EgressBuffers
import Iptfs.Proofs.EgressProgress
import Iptfs.Proofs.Reassembly
import Iptfs.Proofs.SenderFrames
import Iptfs.Proofs.Receiver
import Iptfs.Proofs.Delivery
import Iptfs.Proofs.DropReports
import Iptfs.Proofs.AnyDatagram
import Iptfs.Proofs.InOrder
import Iptfs.Proofs.Cuts
import Iptfs.Proofs.RoundTrip
import Iptfs.Proofs.Format
import Iptfs.Proofs.Wrap
import Iptfs.Proofs.Scatter
import Iptfs.Proofs.Entries
import Iptfs.Proofs.Mbufs
import Iptfs.Proofs.Congestion
import Iptfs.Proofs.AckWindows
import Iptfs.Proofs.Rate
import Iptfs.Proofs.RateLaw
import Iptfs.Proofs.RunningAverage
import Iptfs.Model.Pools
import Iptfs.Proofs.IngressPointers
import Iptfs.Proofs.EgressPointers
import Iptfs.Proofs.CleanPools
import Iptfs.Model.Observed
import Iptfs.Proofs.EgressSteps
import Iptfs.Proofs.ZeroCopy
import Iptfs.Proofs.EgressRefinement
import Iptfs.Proofs.IngressRefinement
import Iptfs.Lib.Progress
import Iptfs.Lib.Linear
import Iptfs.Lib.Spacing
import Iptfs.Proofs.QueueLinear
import Iptfs.Proofs.ConstantRate
import Iptfs.Proofs.EgressDrain
import Iptfs.Model.Link
import Iptfs.Proofs.EndToEnd
import Iptfs.Proofs.Robust
import Iptfs.Proofs.Classified
import Iptfs.Proofs.Declared
import Iptfs.Proofs.Consumed
import Iptfs.Proofs.Timers
import Iptfs.Proofs.Pacer
import Iptfs.Proofs.RateCap
import Iptfs.Proofs.Limiter
import Iptfs.Python.Basic
import Iptfs.Python.Util
import Iptfs.Python.Ack
import Iptfs.Proofs.Python.Ack
import Iptfs.Proofs.Python.Write
import Iptfs.Python.Read
import Iptfs.Proofs.Python.Walk
import Iptfs.Proofs.Python.Reports
import Iptfs.Proofs.Python.Inner
import Iptfs.Proofs.Python.Reassembler
import Iptfs.Proofs.Python.Forget
import Iptfs.Proofs.Python.Delivery
import Iptfs.Proofs.Python.Interop
import Iptfs.Python.Egress
import Iptfs.Proofs.Python.Egress
import Iptfs.Proofs.Python.EgressProgress
import Iptfs.Python.QueueLock
import Iptfs.Proofs.Python.QueueWakeups
import Iptfs.Proofs.Python.QueueLinear
import Iptfs.Proofs.Python.IngressSimulation
import Iptfs.Python.Ingress
import Iptfs.Python.Link
import Iptfs.Proofs.Python.MixedTunnel
import Iptfs.Lib.Slices
import Iptfs.Proofs.Python.EgressRefinement
import Iptfs.Proofs.Python.EgressDrain
import Iptfs.Python.Line
import Iptfs.Proofs.Python.Tunnels
