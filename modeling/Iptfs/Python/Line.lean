import Iptfs.Python.Ingress
import Iptfs.Python.Observed

/-!
# `Iptfs.Python.Line`: one direction of a tunnel that ends at the Python program

The three threads of the Python egress, the threads of an ingress at the other end, and the network
between them, as in `Iptfs.Model.Link`. The ingress is that of either program, so `lineStep` takes
its step function, and the record of what it has handed to `sendmsg`.

A `recvfrom_into` that fails raises an exception, and is not a step.
-/

set_option autoImplicit false

namespace Iptfs.Py

/-- What `recvfrom_into` returns: a copy of the datagram number `n`, or some other datagram.
`limited` is the answer of `rxlimit.limit(n)`. -/
inductive Transit
  | copy (n : Nat) (limited : Bool)
  | other (bytes : List UInt8) (limited : Bool)
  deriving DecidableEq, Repr

/-- The datagram gets past the tests of the loop, to `add_to_inner_packet` or to the test for a late
one. -/
def isData (bytes : List UInt8) (limited : Bool) : Bool :=
  match classify (recvBytes bytes) limited with
  | .ok (.data _) => true
  | _ => false

/-- The datagram, where the network can bring it. `sent` are the datagrams so far, each with the
success of its `sendmsg`. -/
def Transit.input (sent : List (List UInt8 × Bool)) : Transit → Option (List UInt8 × Bool)
  | .copy n limited =>
      match sent[n]? with
      | some (bytes, true) => some (bytes, limited)
      | _ => none
  | .other bytes limited => if isData bytes limited then none else some (bytes, limited)

/-- The number of the datagram that gets past the limiter. -/
def Transit.past : Transit → List Nat
  | .copy n false => [n]
  | _ => []

/-- The two ends. `copies` are the numbers of the datagrams that got past the limiter, in the order
in which `recvfrom_into` returned them. -/
structure Line (σ : Type) where
  sender : σ
  receiver : Observed
  copies : List Nat

/-- Before any thread has taken a step. -/
def Line.init {σ : Type} (sender : σ) (pps : ℚ) (mem : Nat → List UInt8) : Line σ :=
  ⟨sender, .init pps mem, []⟩

/-- The copies after a step of `read_tfs_packets`. -/
def Line.passed {σ : Type} (l : Line σ) (net : Transit) : List Nat :=
  match l.receiver.egress.reader with
  | .recv _ _ => l.copies ++ net.past
  | _ => l.copies

/-- One step of the line: the thread that takes it, with what the world does. -/
inductive LineEvent (ε : Type)
  | ingress (e : ε)
  | reader (net : Transit)
  | writer
  | ackInfos (ns : Nat)
  deriving DecidableEq, Repr

/-- One step of any thread. `send` is a step of the ingress, and `sent` its record. -/
def lineStep {σ ε φ : Type} (send : σ → ε → Except φ σ) (sent : σ → List (List UInt8 × Bool))
    (target : ℚ) (l : Line σ) : LineEvent ε → Except (φ ⊕ Stop) (Line σ)
  | .ingress e =>
      match send l.sender e with
      | .error f => .error (.inl f)
      | .ok sender => .ok { l with sender := sender }
  | .reader net =>
      match net.input (sent l.sender) with
      | none => .error (.inr .waits)
      | some (bytes, limited) =>
          match observedStep target l.receiver (.reader bytes limited) with
          | .error f => .error (.inr f)
          | .ok receiver => .ok { l with receiver := receiver, copies := l.passed net }
  | .writer =>
      match observedStep target l.receiver .writer with
      | .error f => .error (.inr f)
      | .ok receiver => .ok { l with receiver := receiver }
  | .ackInfos ns =>
      match observedStep target l.receiver (.ackInfos ns) with
      | .error f => .error (.inr f)
      | .ok receiver => .ok { l with receiver := receiver }

/-- The Python program at both ends. -/
def pyToPyStep (mtu : Nat) (target : ℚ) :
    Line ObservedIngress → LineEvent IngressEvent → Except (Stop ⊕ Stop) (Line ObservedIngress) :=
  lineStep (observedIngressStep mtu) ObservedIngress.sent target

/-- The C program at the near end. -/
def cToPyStep (here : Config) (target : ℚ) : Line Iptfs.ObservedIngress →
    LineEvent Iptfs.IngressEvent → Except (Iptfs.Stop ⊕ Stop) (Line Iptfs.ObservedIngress) :=
  lineStep (Iptfs.observedIngressStep here) Iptfs.ObservedIngress.sent target

end Iptfs.Py
