import Iptfs.Model.Egress
import Iptfs.Model.Ingress

/-!
# `Iptfs.Model.Pools`: the pools as `malloc` left them

`tfs_tunnel_ingress` and `tfs_tunnel_egress` (`src/src/iptfs.c`, lines 805-855) with
`mqueue_new_freeq` and `miovq_new_freeq` (`src/src/mbuf.c`, lines 92-118 and 228-251). The
mbufs and the miovs are in memory from `malloc`. `mqueue_new_freeq` writes `space`, `espace`,
`start` and `end` of each mbuf, and `miovq_new_freeq` writes `iov`, `mbufs` and `maxiov` of
each miov. The other fields keep what was in the memory (`Malloc`). `Ingress.init` and
`Egress.init` are the states that begin with zeros there.

`Ptrs` are `start` and `end` of an mbuf. `Iptfs.Model.Ingress` and `Iptfs.Model.Egress` follow
the bytes between the two. Here the pointers run along: each function whose name ends in `Ptrs`
says what a step writes to them. `tunnelStep` is a step of any of the four threads.
-/

set_option autoImplicit false

namespace Iptfs

/-- `start` and `end` of a `struct mbuf`, as distances from `space`. -/
structure Ptrs where
  start : Nat
  fin : Nat
  deriving DecidableEq, Repr

namespace Ptrs

/-- What `mqueue_new_freeq` and `mbuf_reset` write: `m->end = m->start = &m->space[hdrspace]`. -/
def reset : Ptrs := ⟨HDRSPACE, HDRSPACE⟩

/-- `m->end = m->start + n`. -/
def fill (p : Ptrs) (n : Nat) : Ptrs := { p with fin := p.start + n }

/-- `m->start += n`. -/
def advance (p : Ptrs) (n : Nat) : Ptrs := { p with start := p.start + n }

@[simp] theorem start_reset : reset.start = HDRSPACE := rfl

@[simp] theorem fin_reset : reset.fin = HDRSPACE := rfl

@[simp] theorem start_fill (p : Ptrs) (n : Nat) : (p.fill n).start = p.start := rfl

@[simp] theorem fin_fill (p : Ptrs) (n : Nat) : (p.fill n).fin = p.start + n := rfl

@[simp] theorem start_advance (p : Ptrs) (n : Nat) : (p.advance n).start = p.start + n := rfl

@[simp] theorem fin_advance (p : Ptrs) (n : Nat) : (p.advance n).fin = p.fin := rfl

end Ptrs

/-! ### The memory -/

/-- What the memory from `malloc` holds in the fields that no constructor writes: `refcnt` of
the mbufs of either pool, and `niov`, `len` and `left` of the miovs. The `iov` of a miov are the
`niov` entries, whatever stands there, and a word is read as it stands, without a sign. -/
structure Malloc where
  inner : Fin INNERQSZ → UInt32
  outer : Fin OUTERQSZ → UInt32
  miov : Fin OUTERQSZ → Miov

/-- The cell `i` of a pool of `n`, and `zero` outside it. -/
def cell {α : Type} {n : Nat} (zero : α) (pool : Fin n → α) (i : Nat) : α :=
  if h : i < n then pool ⟨i, h⟩ else zero

/-- An index into the pool reads the pool. -/
theorem cell_of_lt {α : Type} {n : Nat} (zero : α) (pool : Fin n → α) (i : Fin n) :
    cell zero pool i.val = pool i := dif_pos i.isLt

/-- Where the pool is all zero, every index reads a zero, those past the pool too. -/
theorem cell_eq_zero {α : Type} {n : Nat} {zero : α} {pool : Fin n → α} (h : ∀ i, pool i = zero)
    (i : Nat) : cell zero pool i = zero := by
  by_cases hi : i < n
  · rw [cell, dif_pos hi]
    exact h ⟨i, hi⟩
  · rw [cell, dif_neg hi]

/-- The memory is zero in these fields. -/
structure Malloc.Zeroed (mem : Malloc) : Prop where
  inner : ∀ i, mem.inner i = 0
  outer : ∀ b, mem.outer b = 0
  miov : ∀ k, mem.miov k = Miov.clean

/-- `tfs_tunnel_ingress`, before either thread has taken a step. -/
def tfsTunnelIngress (mem : Malloc) : Ingress :=
  { Ingress.init with
    freeq := mqueueNewFreeq INNERQSZ fun id => ⟨id, [], (cell 0 mem.inner id).toNat⟩ }

/-- `tfs_tunnel_egress`, before either thread has taken a step. It divides `MAXBUF` by
`g_tfsmtu`. -/
def tfsTunnelEgress (cfg : Config) (pps : Pps) (mem : Malloc) : Res Egress :=
  if cfg.tfsmtu = 0 then .error .divZero
  else
    .ok { Egress.init pps with
      refcnt := fun b => (cell 0 mem.outer b).toNat
      miov := cell Miov.clean mem.miov }

/-! ### The pointers -/

/-- What a step of `read_intf_pkts` writes to the pointers. -/
def readIntfPtrs (s : Ingress) (result : Option (List UInt8)) (ptrs : Nat → Ptrs) : Nat → Ptrs :=
  match s.reader with
  | .pop => ptrs
  | .read m =>
      match result with
      | none => ptrs
      | some bytes =>
          let data := bytes.take (MAXBUF - HDRSPACE)
          if data = [] then ptrs
          else Function.update ptrs m.id ((ptrs m.id).fill data.length)
  | .pushFree m => Function.update ptrs m.id .reset
  | .pushOut _ => ptrs

/-- What a pass of the packing loop writes to them: `m->start += mtu`, where there is room for
a part of the packet. -/
def packPtrs (l : Wtfs) (ptrs : Nat → Ptrs) : Nat → Ptrs :=
  match l.m with
  | none => ptrs
  | some m =>
      if 6 < l.mtu ∧ l.mtu < m.len then Function.update ptrs m.id ((ptrs m.id).advance l.mtu)
      else ptrs

/-- What a step of `write_tfs_pkts` writes to the pointers. -/
def writeTfsPtrs (s : Ingress) (ptrs : Nat → Ptrs) : Nat → Ptrs :=
  match s.writer with
  | .pack _ l => packPtrs l ptrs
  | .free _ (m :: _) => Function.update ptrs m.id .reset
  | _ => ptrs

/-- What a step of the ingress writes to the pointers. -/
def ingressPtrs (s : Ingress) (ptrs : Nat → Ptrs) : IngressEvent → Nat → Ptrs
  | .reader result => readIntfPtrs s result ptrs
  | .writer _ => writeTfsPtrs s ptrs

/-- `tbuf->end = &tbuf->start[n]`, past the tests of the length and of the limiter. -/
def recvPtrs (p : Ptrs) : Option (List UInt8 × Bool) → Ptrs
  | none => p
  | some (bytes, limited) =>
      let data := recvBytes bytes
      if data.length < 8 ∨ limited then p else p.fill data.length

/-- `tbuf->start += 8` in `add_to_inner_packet`, where the step has got there: `r` is where it
leaves the reader. -/
def enterPtrs (p : Ptrs) (r : TfsReader) : Ptrs :=
  match r with
  | .inner _ _ _ => p.advance 8
  | _ => p

/-- What a pass of `add_to_inner_packet` on the miov `m` writes to `tbuf->start`. -/
def passPtrs (p : Ptrs) (tbuf : Tbuf) (offset : Nat) (m : Miov) : Ptrs :=
  match innerPass tbuf offset m with
  | .error _ => p
  | .ok pass => p.advance (pass.rest.start - tbuf.start)

/-- What a step of `read_tfs_pkts` from `s` to `t` writes to the pointers. -/
def readTfsPtrs (s t : Egress) (input : Option (List UInt8 × Bool)) (ptrs : Nat → Ptrs) :
    Nat → Ptrs :=
  match s.reader with
  | .reset b _ => Function.update ptrs b .reset
  | .recv b _ => Function.update ptrs b (enterPtrs (recvPtrs (ptrs b) input) t.reader)
  | .deref tbuf _ => Function.update ptrs tbuf.id (enterPtrs (ptrs tbuf.id) t.reader)
  | .derefReset _ _ b => Function.update ptrs b .reset
  | .inner tbuf offset (some k) =>
      Function.update ptrs tbuf.id (passPtrs (ptrs tbuf.id) tbuf offset (s.miov k))
  | _ => ptrs

/-- What a step of `write_intf_pkts` writes to the pointers. -/
def writeIntfPtrs (s : Egress) (ptrs : Nat → Ptrs) : Nat → Ptrs :=
  match s.writer with
  | .derefReset _ b => Function.update ptrs b .reset
  | _ => ptrs

/-- What a step of the egress from `s` to `t` writes to the pointers. -/
def egressPtrs (s t : Egress) (ptrs : Nat → Ptrs) : EgressEvent → Nat → Ptrs
  | .reader _ input => readTfsPtrs s t input ptrs
  | .writer => writeIntfPtrs s ptrs

/-! ### The tunnel -/

/-- The two tunnels, with the pointers of the mbufs of each. -/
structure Tunnel where
  ingress : Ingress
  egress : Egress
  innerPtrs : Nat → Ptrs
  outerPtrs : Nat → Ptrs

/-- Both tunnels are built. -/
def tfsTunnel (cfg : Config) (pps : Pps) (mem : Malloc) : Res Tunnel :=
  match tfsTunnelEgress cfg pps mem with
  | .error f => .error f
  | .ok egress =>
      .ok {
        ingress := tfsTunnelIngress mem
        egress := egress
        innerPtrs := fun _ => .reset
        outerPtrs := fun _ => .reset }

/-- A step of a thread of the ingress, or of the egress. -/
inductive TunnelEvent
  | ingress (e : IngressEvent)
  | egress (e : EgressEvent)
  deriving DecidableEq, Repr

/-- One step of any of the four threads. The two tunnels share no buffers. -/
def tunnelStep (cfg : Config) (s : Tunnel) : TunnelEvent → Except Stop Tunnel
  | .ingress e =>
      match ingressStep cfg s.ingress e with
      | .error f => .error f
      | .ok t => .ok { s with ingress := t, innerPtrs := ingressPtrs s.ingress s.innerPtrs e }
  | .egress e =>
      match egressStep cfg cfg.maxiov s.egress e with
      | .error f => .error f
      | .ok t => .ok { s with egress := t, outerPtrs := egressPtrs s.egress t s.outerPtrs e }

/-- The step that the reader comes to is the `miovq_pop` of `add_to_inner_packet`, and it hands
out the miov `k`. -/
def Egress.HandsOut (s : Egress) (k : Nat) : Prop :=
  (∃ tbuf offset, s.reader = .inner tbuf offset none) ∧
    ∃ iovfreeq, miovqPop s.iovfreeq = some (k, iovfreeq)

/-- What is free is clean: the mbufs in either free queue, and the miov that is handed out. -/
structure Tunnel.Clean (s : Tunnel) : Prop where
  inner : ∀ m ∈ s.ingress.freeq.queue, m.refcnt = 0 ∧ s.innerPtrs m.id = .reset
  outer : ∀ b ∈ s.egress.freeq.queue, s.egress.refcnt b = 0 ∧ s.outerPtrs b = .reset
  miov : ∀ k, s.egress.HandsOut k →
    (s.egress.miov k).niov = 0 ∧ (s.egress.miov k).len = 0 ∧ (s.egress.miov k).left = 0

end Iptfs
