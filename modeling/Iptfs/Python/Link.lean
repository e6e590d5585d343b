import Iptfs.Model.Link
import Iptfs.Python.Ingress

/-!
# `Iptfs.Python.Link`: a tunnel with the Python program at one end

The ingress of the Python program here, the egress of the C program there, and the network of
`Iptfs.Model.Link` between them: four threads, and any interleaving of their steps. The ACKs that
the other direction sends, those of `send_ack_infos`, are among the datagrams without data.
-/

set_option autoImplicit false

namespace Iptfs.Py

/-- The two ends, and the numbers of the datagrams that got past the limiter, as in `Iptfs.Link`. -/
structure Link where
  sender : ObservedIngress
  receiver : Iptfs.Observed
  copies : List Nat

/-- Before any thread has taken a step. -/
def Link.init (pps : Pps) (mem : Nat → List UInt8) : Link := ⟨.init, .init pps mem, []⟩

/-- The copies after a step of `read_tfs_pkts`. -/
def Link.passed (l : Link) (net : NetEvent) : List Nat :=
  match l.receiver.egress.reader with
  | .recv _ _ => l.copies ++ net.past
  | _ => l.copies

/-- One step of the link: the thread that takes it, with what the world does. -/
inductive LinkEvent
  | ingress (e : IngressEvent)
  | reader (timer : Option Timespec) (net : NetEvent)
  | writer
  deriving DecidableEq, Repr

/-- One step of any of the four threads. -/
def linkStep (mtu : Nat) (there : Config) (maxiov : Nat) (l : Link) :
    LinkEvent → Except (Stop ⊕ Iptfs.Stop) Link
  | .ingress e =>
      match observedIngressStep mtu l.sender e with
      | .error f => .error (.inl f)
      | .ok sender => .ok { l with sender := sender }
  | .reader timer net =>
      match net.input l.sender.sent with
      | none => .error (.inr .waits)
      | some input =>
          match Iptfs.observedStep there maxiov l.receiver (.reader timer input) with
          | .error f => .error (.inr f)
          | .ok receiver => .ok { l with receiver := receiver, copies := l.passed net }
  | .writer =>
      match Iptfs.observedStep there maxiov l.receiver .writer with
      | .error f => .error (.inr f)
      | .ok receiver => .ok { l with receiver := receiver }

end Iptfs.Py
