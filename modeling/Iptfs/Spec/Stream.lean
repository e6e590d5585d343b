import Iptfs.Lib.Framing
import Iptfs.Model.ReadTfs
import Iptfs.Model.WriteTfs

/-!
# `Iptfs.Spec.Stream`: datagrams that all arrive in order

When the datagrams come with consecutive sequence numbers and no ACK is in between,
`read_tfs_pkts` does nothing but hand them to `add_to_inner_packet` one after the other,
each with the packet in progress that the call before returned. `innerStep` is that, and
`confinedInner` is the same with the arrays of the miovs and the pool of mbufs.

`cutDatagrams` is a stream of packets cut at arbitrary places: each payload gets the next
sequence number, and as BlockOffset the bytes that the packet under way there still owes.
-/

set_option autoImplicit false

namespace Iptfs

/-- The reassembler between two datagrams: the packet in progress, and what it pushed. -/
structure Inner where
  m : Option Miov
  outq : List Miov
  deriving DecidableEq, Repr

/-- Before the first datagram. -/
def Inner.init : Inner := ⟨none, []⟩

/-- One datagram, with the address of the buffer it was read into. -/
def innerStep (s : Inner) (d : Nat × List UInt8) : Res Inner :=
  match addToInnerPacket d.2.length (Tbuf.fresh d.1 d.2) true s.m with
  | .error e => .error e
  | .ok a => .ok ⟨a.m, s.outq ++ a.outq⟩

/-- No inner packet has more entries than its arrays have room for. -/
def Inner.Fits (cfg : Config) (s : Inner) : Prop :=
  ∀ m ∈ s.m.toList ++ s.outq, m.niov ≤ cfg.maxiov

instance (cfg : Config) (s : Inner) : Decidable (s.Fits cfg) :=
  inferInstanceAs (Decidable (∀ m ∈ s.m.toList ++ s.outq, m.niov ≤ cfg.maxiov))

/-- One datagram, where a write past the arrays of a miov brings the thread down. -/
def boundedInner (cfg : Config) (s : Inner) (d : Nat × List UInt8) : Res Inner :=
  match innerStep s d with
  | .error e => .error e
  | .ok t => if t.Fits cfg then .ok t else .error .iovOverflow

/-- One datagram, with the pool of mbufs and the arrays of the miovs. -/
def confinedInner (cfg : Config) : Inner → Nat × List UInt8 → Except Stop Inner :=
  pooled Inner.m (boundedInner cfg)

open Iptfs.Lib.Framing

/-- The payloads with the position in the stream where each of them starts. -/
def pieces : Nat → List (List UInt8) → List (Nat × List UInt8)
  | _, [] => []
  | pos, q :: qs => (pos, q) :: pieces (pos + q.length) qs

/-- The bytes since a packet began, at the end of the piece. It is 0 at the end of a packet. -/
def begunAfter (ps : List (List UInt8)) (piece : Nat × List UInt8) : Nat :=
  (underway ps (piece.1 + piece.2.length)).1

/-- How many of the pieces `xs` carry some of the packet that is cut at the end of the piece,
up to there. It is 0 at the end of a packet. -/
def carriedAfter (ps : List (List UInt8)) (xs : List (Nat × List UInt8))
    (piece : Nat × List UInt8) : Nat :=
  let stop := piece.1 + piece.2.length
  (xs.filter fun x =>
    decide (x.1 < stop) && decide (stop - begunAfter ps piece < x.1 + x.2.length)).length

end Iptfs
