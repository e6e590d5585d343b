import Iptfs.Lib.Framing
import Iptfs.Spec.Delivery

/-!
# `Iptfs.Spec.Format`: the IP-TFS format of the sender's stream

What the draft asks of the datagrams, stated over a run of the sender. The inner packets are
laid end to end, in the order they were taken from the queue, and the stream is cut into
payloads. `Sender.data` is the part of it that has gone out, and `Sender.owed` what the
packet cut at its end still owes. `Formatted` says that one more datagram has the format.
-/

set_option autoImplicit false

namespace Iptfs

open Iptfs.Lib.Framing

/-- The bytes of inner packets in one entry. -/
def Iov.data : Iov → List UInt8
  | .hdr _ => []
  | .pad _ => []
  | .mbuf m len => m.data.take len

/-- The bytes of inner packets in some entries. -/
def iovData (iov : List Iov) : List UInt8 := (iov.map Iov.data).flatten

/-- The payload of a datagram without its padding. -/
def WriteOut.data (out : WriteOut) : List UInt8 := iovData out.iov

/-- The length of the padding, which is the rest of the datagram. -/
def WriteOut.padding (cfg : Config) (out : WriteOut) : Nat := cfg.tfsmtu - 8 - out.data.length

namespace Sender

/-- The payloads of a run without their padding, one after the other. -/
def data (s : Sender) : List UInt8 := (s.calls.map fun c => c.2.data).flatten

/-- What is still owed, where the stream was cut, of the packet begun before the cut. -/
def owed (s : Sender) : Nat := (underway s.packets s.data.length).2

end Sender

/-- The datagram of one more call has the format. `begins` is about the packets taken in
the call: each begins after what is owed and the packets before it. A `mqueue_trypop` of the
call came back with nothing when there were more of them than packets taken. -/
structure Formatted (cfg : Config) (s : Sender) (call : WriteCall) (out : WriteOut) : Prop where
  datagram : ∃ d, out.datagram = some d ∧ d.length = cfg.tfsmtu ∧ get16 d 6 = .ok s.owed ∧
    d.drop 8 = out.data ++ List.replicate (out.padding cfg) 0
  begins : ∀ ps p qs, out.taken = ps ++ p :: qs →
    6 < cfg.tfsmtu - 8 - (s.owed + (ps.map Mbuf.data).flatten.length)
  padded : 0 < out.padding cfg →
    out.padding cfg ≤ 6 ∨
      out.taken.length < (writeTfsAsks cfg s.leftover call.answers).length

end Iptfs
