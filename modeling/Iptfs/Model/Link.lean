import Iptfs.Model.Observed

/-!
# `Iptfs.Model.Link`: one direction of a tunnel

The ingress of one end, the egress of the other end, and the network between them: four threads,
and any interleaving of their steps.

The network is what UDP promises. A datagram whose `sendmsg` succeeded may come any number of
times, at any time after that, and in any order, or not at all. `recvfrom` may fail, and it may
return a datagram that has nothing for `add_to_inner_packet`, such as the ACKs that the other
direction sends.
-/

set_option autoImplicit false

namespace Iptfs

/-- What the network does at a `recvfrom`: it fails, it returns a copy of the datagram number `n`,
or some other datagram. `limited` is the answer of the rate limiter. -/
inductive NetEvent
  | failed
  | copy (n : Nat) (limited : Bool)
  | other (bytes : List UInt8) (limited : Bool)
  deriving DecidableEq, Repr

/-- What `recvfrom` returns, where the network can do that. `sent` are the datagrams so far, each
with the success of its `sendmsg`. -/
def NetEvent.input (sent : List (List UInt8 × Bool)) :
    NetEvent → Option (Option (List UInt8 × Bool))
  | .failed => some none
  | .copy n limited =>
      match sent[n]? with
      | some (bytes, true) => some (some (bytes, limited))
      | _ => none
  | .other bytes limited =>
      if (Recv.got 0 bytes limited).isData then none else some (some (bytes, limited))

/-- The number of the datagram that gets past the limiter. -/
def NetEvent.past : NetEvent → List Nat
  | .copy n false => [n]
  | _ => []

/-- The two ends. `copies` are the numbers of the datagrams that got past the limiter, in the order
in which `recvfrom` returned them. -/
structure Link where
  sender : ObservedIngress
  receiver : Observed
  copies : List Nat

/-- Before any thread has taken a step. -/
def Link.init (pps : Pps) (mem : Nat → List UInt8) : Link := ⟨.init, .init pps mem, []⟩

/-- The copies after a step of `read_tfs_pkts`. -/
def Link.passed (l : Link) (net : NetEvent) : List Nat :=
  match l.receiver.egress.reader with
  | .recv _ _ => l.copies ++ net.past
  | _ => l.copies

/-- One step of the link: the thread that takes it, with what the world does. -/
inductive LinkEvent
  | ingress (e : IngressEvent)
  | reader (timer : Option Timespec) (net : NetEvent)
  | writer
  deriving DecidableEq, Repr

/-- One step of any of the four threads. The two ends have configurations of their own. -/
def linkStep (here there : Config) (maxiov : Nat) (l : Link) : LinkEvent → Except Stop Link
  | .ingress e =>
      match observedIngressStep here l.sender e with
      | .error f => .error f
      | .ok sender => .ok { l with sender := sender }
  | .reader timer net =>
      match net.input l.sender.sent with
      | none => .error .waits
      | some input =>
          match observedStep there maxiov l.receiver (.reader timer input) with
          | .error f => .error f
          | .ok receiver => .ok { l with receiver := receiver, copies := l.passed net }
  | .writer =>
      match observedStep there maxiov l.receiver .writer with
      | .error f => .error f
      | .ok receiver => .ok { l with receiver := receiver }

end Iptfs
