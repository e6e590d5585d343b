import Iptfs.Lib.Depot
import Iptfs.Lib.Run
import Iptfs.Proofs.Python.Inner
import Iptfs.Python.Egress

/-!
# `Iptfs.Proofs.Python.Egress`: the buffers of the Python egress

The egress is a depot in the sense of `Iptfs.Lib.Depot`: the buffers are the `MBuf`s, the boxes are
the `MIOVBuf`s, and the threads are `read_tfs_packets` and `write_intf_packets`. `Conserves` is the
invariant, and `egressStep_conserves` its step lemma. Each step of a thread is one of the lemmas of
the library, or changes nothing that the books are about.
-/

set_option autoImplicit false

namespace Iptfs.Py

open Iptfs.Lib

/-- What `read_tfs_packets` has. -/
def TfsReader.holding : TfsReader → Holding Nat
  | .start => ⟨[], [], [], []⟩
  | .startRef b => ⟨[], [b], [], []⟩
  | .top b m => ⟨[b], [], m.toList, []⟩
  | .topPush b m => ⟨[], [b], m.toList, []⟩
  | .pop m => ⟨[], [], m.toList, []⟩
  | .ref b m => ⟨[], [b], m.toList, []⟩
  | .recv b m => ⟨[b], [], m.toList, []⟩
  | .record tmbuf m _ => ⟨[tmbuf.id], [], m.toList, []⟩
  | .reset tmbuf m _ => ⟨[tmbuf.id], [], [m], []⟩
  | .resetPush tmbuf m _ b => ⟨[tmbuf.id], [b], [m], []⟩
  | .inner tmbuf _ m => ⟨[tmbuf.id], [], m.toList, []⟩
  | .push tmbuf m _ => ⟨[tmbuf.id], [], [m], []⟩

/-- What `write_intf_packets` has. -/
def IntfWriter.holding : IntfWriter → Holding Nat
  | .pop => ⟨[], [], [], []⟩
  | .write m => ⟨[], [], [m], []⟩
  | .reset m => ⟨[], [], [m], []⟩
  | .resetPush m b => ⟨[], [b], [m], []⟩
  | .push m => ⟨[], [], [], [m]⟩

/-- The buffers that the entries of a `MIOVBuf` refer to. -/
def MIOVBuf.mbufs (m : MIOVBuf) : List Nat := m.iov.map Iovec.mbuf

/-- What the threads share. -/
def Egress.depot (s : Egress) : Depot Nat where
  free := s.freeq.queue
  rc := s.refcnt
  cells := fun k => (s.miov k).mbufs
  idle := s.iovfreeq.queue
  sent := s.outq.queue

/-- The number of the datagram in hand, where it may be consumed. -/
def Access.seq : Access → Option Nat
  | .test seq | .start seq | .advance seq => some seq
  | .count _ seq | .counted _ seq => seq

/-- The datagram in the buffer has a header. -/
def TfsReader.Long : TfsReader → Prop
  | .record tmbuf _ access => access.seq.isSome → 8 ≤ tmbuf.len
  | .reset tmbuf _ _ => 8 ≤ tmbuf.len
  | .resetPush tmbuf _ _ _ => 8 ≤ tmbuf.len
  | _ => True

/-- The datagram after a pass. -/
def Pass.rest : Pass → Tbuf
  | .keep tmbuf => tmbuf
  | .part _ _ _ tmbuf => tmbuf
  | .full _ _ tmbuf _ => tmbuf

namespace Proofs

open Iptfs.Lib.Depot
open Iptfs.Proofs (Tbuf.Same)

/-! ### The buffer of a datagram -/

/-- The header is read in place, and a datagram with one is not taken for a short packet. -/
theorem enterInner_some {tmbuf : Tbuf} {new : Bool} {entered : Option (Tbuf × Nat)}
    (hlong : new = true → 8 ≤ tmbuf.len) (h : enterInner tmbuf new = .ok entered) :
    ∃ tmbuf' offset, entered = some (tmbuf', offset) ∧ Tbuf.Same tmbuf tmbuf' := by
  unfold enterInner at h
  split at h
  · cases h
  · cases new with
    | false =>
        cases h
        exact ⟨_, _, rfl, rfl, rfl⟩
    | true =>
        -- Fewer than 8 bytes would be a short packet, but there is a header.
        have hge := hlong rfl
        rw [if_pos rfl, if_neg (by omega)] at h
        split at h
        · cases h
        · cases h
          exact ⟨_, _, rfl, rfl, rfl⟩

/-- A packet that goes on in the next datagram takes this one to its end. -/
theorem morePass_same {tmbuf : Tbuf} {tmlen : Nat} {left : Option Nat} {pass : Pass}
    (h : morePass tmbuf tmlen left = .ok pass) : Tbuf.Same tmbuf pass.rest := by
  unfold morePass at h
  dsimp only at h
  split at h
  · cases h
    exact ⟨rfl, rfl⟩
  · cases h

/-- A packet that ends here moves the start to its end. -/
theorem finishPass_same {tmbuf : Tbuf} {left tmlen : Nat} {pass : Pass}
    (h : finishPass tmbuf left tmlen = .ok pass) : Tbuf.Same tmbuf pass.rest := by
  unfold finishPass at h
  split at h
  · exact morePass_same h
  · cases h
    exact ⟨rfl, rfl⟩

/-- No branch of a start leaves the buffer of its datagram: padding, a start that is too short,
and a packet with its length. -/
theorem startPass_same {tmbuf : Tbuf} {offset : Nat} {m : MIOVBuf} {pass : Pass}
    (h : startPass tmbuf offset m = .ok pass) : Tbuf.Same tmbuf pass.rest := by
  unfold startPass at h
  split at h
  · cases h
    exact ⟨rfl, rfl⟩
  · dsimp only at h
    split at h
    · cases h
    · split at h
      · cases h
        exact ⟨rfl, rfl⟩
      · split at h
        · -- The length field of an IPv4 packet.
          split at h
          · cases h
          · have hsame := finishPass_same h
            exact hsame
        · split at h
          · -- The one of an IPv6 packet.
            split at h
            · cases h
            · have hsame := finishPass_same h
              exact hsame
          · have hsame := morePass_same h
            exact hsame

/-- A pass stays in the same buffer, with the same datagram. -/
theorem innerPass_same {tmbuf : Tbuf} {offset : Nat} {m : MIOVBuf} {pass : Pass}
    (h : innerPass tmbuf offset m = .ok pass) : Tbuf.Same tmbuf pass.rest := by
  unfold innerPass at h
  dsimp only at h
  split at h
  · exact startPass_same h
  · split at h
    · cases h
    · split at h
      · split at h
        · exact morePass_same h
        · cases h
          exact ⟨rfl, rfl⟩
      · split at h
        · exact finishPass_same h
        · cases h

/-! ### The invariant -/

/-- The `MBuf`s of the pool. -/
def outerPool (b : Nat) : Nat := if b < MAXQSZ then 1 else 0

/-- The egress between two steps. -/
structure Conserves (s : Egress) : Prop where
  balanced : Balanced outerPool MAXQSZ s.depot s.reader.holding s.writer.holding
  long : s.reader.Long
  freeq : s.freeq.size = MAXQSZ
  iovfreeq : s.iovfreeq.size = MAXQSZ
  outq : s.outq.size = MAXQSZ

/-- At first all the `MBuf`s and all the `MIOVBuf`s are free. Nothing refers to a buffer. -/
theorem conserves_init (pps : ℚ) : Conserves (.init pps) where
  balanced := by
    have hqueue : (mqueueNewFreeq MAXQSZ (id : Nat → Nat)).queue = (List.range MAXQSZ).reverse :=
      List.map_id _
    -- `freeq` is made with all the buffers and `iovfreeq` with all the boxes.
    have hle : ∀ b, outerPool b ≤ 1 := by
      intro b
      unfold outerPool
      split <;> omega
    have hall : ∀ b, (mqueueNewFreeq MAXQSZ (id : Nat → Nat)).queue.count b = outerPool b := by
      intro b
      rw [hqueue, List.count_reverse, List.count_range]
      rfl
    exact balanced_init hle hall (hqueue ▸ List.reverse_perm (List.range MAXQSZ))
  long := trivial
  freeq := rfl
  iovfreeq := rfl
  outq := rfl

section Step

variable {s : Egress}

/-- What the threads share, after a `MIOVBuf` is written. -/
theorem depot_setMiov (s : Egress) (k : Nat) (m : MIOVBuf) :
    (s.setMiov k m).depot = { s.depot with
      cells := Function.update s.depot.cells k m.mbufs } := by
  have hcells : (fun j => (Function.update s.miov k m j).mbufs) =
      Function.update (fun j => (s.miov j).mbufs) k m.mbufs := by
    funext j
    rcases eq_or_ne j k with rfl | hne
    · rw [Function.update_self, Function.update_self]
    · rw [Function.update_of_ne hne, Function.update_of_ne hne]
  show (⟨_, _, fun j => (Function.update s.miov k m j).mbufs, _, _⟩ : Depot Nat) = _
  rw [hcells]
  rfl

/-- What a `MIOVBuf` refers to are the buffers of its entries. -/
theorem cells_eq {k : Nat} {iov : List Iovec} (hiov : (s.miov k).iov = iov) :
    s.depot.cells k = iov.map Iovec.mbuf := congrArg (List.map Iovec.mbuf) hiov

/-- Clearing a `MIOVBuf` without entries changes nothing that is shared. -/
theorem depot_clear {k : Nat} (hiov : (s.miov k).iov = []) :
    (s.setMiov k (s.miov k).reset).depot = s.depot := by
  have hempty : s.depot.cells k = (s.miov k).reset.mbufs := cells_eq hiov
  rw [depot_setMiov, ← hempty, Function.update_eq_self]

/-! ### The steps of `read_tfs_packets` -/

/-- The reader goes on with what it has. -/
theorem Conserves.goto {r r' : TfsReader} {ack : AckRecord} {congest : AckState}
    (h : Conserves { s with reader := r }) (hholding : r'.holding = r.holding) (hlong : r'.Long) :
    Conserves { s with reader := r', ack := ack, congest := congest } where
  balanced := by
    show Balanced outerPool MAXQSZ s.depot r'.holding s.writer.holding
    rw [hholding]
    exact h.balanced
  long := hlong
  freeq := h.freeq
  iovfreeq := h.iovfreeq
  outq := h.outq

/-- A buffer is popped from `freeq`. -/
theorem Conserves.popFreeq {r r' : TfsReader} {b : Nat} {freeq : Queue Nat}
    (h : Conserves { s with reader := r }) (hpop : s.freeq.pop = some (b, freeq))
    (hholding : r'.holding = { r.holding with hands := b :: r.holding.hands }) (hlong : r'.Long) :
    Conserves { s with freeq := freeq, reader := r' } where
  balanced := by
    have htake := h.balanced.take (Queue.pop_eq_some.mp hpop).1
    show Balanced outerPool MAXQSZ { s.depot with free := freeq.queue } r'.holding s.writer.holding
    rw [hholding]
    exact htake
  long := hlong
  freeq := (Queue.pop_eq_some.mp hpop).2.trans h.freeq
  iovfreeq := h.iovfreeq
  outq := h.outq

/-- A buffer without references is pushed on `freeq`. -/
theorem Conserves.pushFreeq {r r' : TfsReader} {b : Nat} {freeq : Queue Nat}
    (h : Conserves { s with reader := r }) (hpush : s.freeq.push b = some freeq)
    (hholding : r.holding = { r'.holding with hands := b :: r'.holding.hands }) (hlong : r'.Long) :
    Conserves { s with freeq := freeq, reader := r' } where
  balanced := by
    have hhands : r.holding.hands = b :: r'.holding.hands := by rw [hholding]
    have hput := h.balanced.put hhands
    show Balanced outerPool MAXQSZ { s.depot with free := freeq.queue } r'.holding s.writer.holding
    rw [(Queue.push_eq_some.mp hpush).1]
    -- Only the hands of the reader have changed.
    have hsame : r'.holding = { r.holding with hands := r'.holding.hands } := by rw [hholding]
    rw [hsame]
    exact hput
  long := hlong
  freeq := (Queue.push_eq_some.mp hpush).2.trans h.freeq
  iovfreeq := h.iovfreeq
  outq := h.outq

/-- `addref` on the buffer that the reader has just popped. -/
theorem Conserves.claim {r r' : TfsReader} {b : Nat} (h : Conserves { s with reader := r })
    (hholding : r.holding = ⟨[], [b], r'.holding.boxes, []⟩)
    (hholding' : r'.holding = ⟨[b], [], r'.holding.boxes, []⟩) (hlong : r'.Long) :
    Conserves { s.addref b with reader := r' } where
  balanced := by
    have hbooks : Balanced outerPool MAXQSZ s.depot r.holding s.writer.holding := h.balanced
    rw [hholding] at hbooks
    show Balanced outerPool MAXQSZ { s.depot with rc := _ } r'.holding s.writer.holding
    rw [hholding']
    exact hbooks.claim rfl
  long := hlong
  freeq := h.freeq
  iovfreeq := h.iovfreeq
  outq := h.outq

/-- `tmbuf.deref(freeq)` at the top of the loop. -/
theorem Conserves.dropRef {b : Nat} {m : Option Nat}
    (h : Conserves { s with reader := .top b m }) :
    Conserves { s.deref b with
      reader := if s.refcnt b - 1 ≠ 0 then .pop m else .topPush b m } := by
  by_cases hlast : s.refcnt b - 1 ≠ 0
  · rw [if_pos hlast]
    have hrc : s.refcnt b ≠ 1 := by omega
    exact ⟨h.balanced.release rfl hrc, trivial, h.freeq, h.iovfreeq, h.outq⟩
  · rw [if_neg hlast]
    have hrc : s.refcnt b = 1 := by omega
    exact ⟨h.balanced.releaseLast rfl hrc, trivial, h.freeq, h.iovfreeq, h.outq⟩

/-- The start of a datagram, or of the rest of one. -/
theorem Conserves.enter {r : TfsReader} {tmbuf : Tbuf} {new : Bool} {m : Option Nat} {t : Egress}
    {ack : AckRecord} (h : Conserves { s with reader := r })
    (hholding : r.holding = ⟨[tmbuf.id], [], m.toList, []⟩) (hlong : new = true → 8 ≤ tmbuf.len)
    (hstep : enterStep { s with ack := ack } tmbuf new m = .ok t) : Conserves t := by
  unfold enterStep at hstep
  cases henter : enterInner tmbuf new with
  | error e =>
      rw [henter] at hstep
      cases hstep
  | ok entered =>
      -- A short packet would lose `m`.
      rcases enterInner_some hlong henter with ⟨tmbuf', offset, rfl, hid, -⟩
      rw [henter] at hstep
      cases hstep
      refine h.goto ?_ trivial
      rw [hholding, TfsReader.holding, hid]

/-- Where a received datagram goes: back to the top of the loop, or to the attributes of the outq.
Only a datagram with a header may be consumed. -/
inductive Dispatched (b : Nat) (m : Option Nat) (bytes : List UInt8) : TfsReader → Prop
  | top : Dispatched b m bytes (.top b m)
  | record {access : Access}
      (hlong : access.seq.isSome → 8 ≤ (Tbuf.fresh b (recvBytes bytes)).len) :
      Dispatched b m bytes (.record (Tbuf.fresh b (recvBytes bytes)) m access)

/-- The step that receives a datagram raises an exception, or it goes one of these two ways. -/
theorem recvStep_cases (target : ℚ) (s : Egress) (b : Nat) (m : Option Nat) (bytes : List UInt8)
    (limited : Bool) :
    (∃ e, recvStep target s b m bytes limited = .error (.raises e)) ∨
      ∃ congest r, Dispatched b m bytes r ∧
        recvStep target s b m bytes limited = .ok { s with congest := congest, reader := r } := by
  unfold recvStep
  dsimp only
  cases hclass : classify (recvBytes bytes) limited with
  | error e => exact .inl ⟨e, rfl⟩
  | ok verdict =>
      cases verdict with
      | short | limited | version =>
          -- What is dropped is not consumed.
          have hdrop : (Access.count 1 none).seq.isSome →
              8 ≤ (Tbuf.fresh b (recvBytes bytes)).len := fun hseq => absurd hseq (by decide)
          exact .inr ⟨_, _, .record hdrop, rfl⟩
      | ack =>
          dsimp only
          cases recvAck target (recvBytes bytes) s.congest with
          | error e => exact .inl ⟨e, rfl⟩
          | ok congest => exact .inr ⟨congest, _, .top, rfl⟩
      | data seq =>
          -- A data datagram has more than 8 bytes.
          have hlen : 8 ≤ (Tbuf.fresh b (recvBytes bytes)).len :=
            Nat.le_of_lt (length_of_classify hclass)
          have hdata : (Access.test seq).seq.isSome →
              8 ≤ (Tbuf.fresh b (recvBytes bytes)).len := fun _ => hlen
          exact .inr ⟨_, _, .record hdata, rfl⟩

/-- `recvfrom_into`, and the tests up to the first access to the attributes of the outq. -/
theorem Conserves.recv {target : ℚ} {b : Nat} {m : Option Nat} {bytes : List UInt8} {limited : Bool}
    {t : Egress} (h : Conserves { s with reader := .recv b m })
    (hstep : recvStep target { s with reader := .recv b m } b m bytes limited = .ok t) :
    Conserves t := by
  rcases recvStep_cases target { s with reader := .recv b m } b m bytes limited with
    ⟨e, hres⟩ | ⟨congest, r, hr, hres⟩
  · rw [hres] at hstep
    cases hstep
  · rw [hres] at hstep
    cases hstep
    cases hr with
    | top => exact h.goto rfl trivial
    | record hlong => exact h.goto rfl hlong

/-- Where an access to the attributes of the outq leads: to the next turn of the loop, to the next
access, or to the abandonment of the packet in progress. -/
inductive Accessed (tmbuf : Tbuf) (m : Option Nat) (access : Access) : TfsReader → Prop
  | top : Accessed tmbuf m access (.top tmbuf.id m)
  | record {next : Access} (hseq : next.seq = access.seq) :
      Accessed tmbuf m access (.record tmbuf m next)
  | reset {k seq : Nat} (hm : m = some k) (hseq : access.seq = some seq) :
      Accessed tmbuf m access (.reset tmbuf k seq)

/-- Behind the test for an old datagram, the reader is done with it or goes on to the next
attribute. -/
theorem accessed_pastStart (outq : AckRecord) (tmbuf : Tbuf) (m : Option Nat) {access : Access}
    {seq : Nat} (hseq : access.seq = some seq) :
    Accessed tmbuf m access (pastStart outq tmbuf m seq) := by
  unfold pastStart
  split
  · exact .top
  · split
    · exact .record hseq.symm
    · exact .record hseq.symm

/-- Behind the count of the drops, a packet in progress is abandoned, if there is one. -/
theorem accessed_pastCount (tmbuf : Tbuf) (m : Option Nat) (access : Access) :
    Accessed tmbuf m access (pastCount tmbuf m access.seq) := by
  cases hseq : access.seq with
  | none => exact .top
  | some seq =>
      cases m with
      | none => exact .record hseq.symm
      | some k => exact .reset rfl hseq

/-- An access changes the record and goes on, or it consumes the datagram. -/
theorem recordStep_cases (s : Egress) (tmbuf : Tbuf) (m : Option Nat) (access : Access) :
    (∃ ack r, Accessed tmbuf m access r ∧
        recordStep s tmbuf m access = .ok { s with ack := ack, reader := r }) ∨
      ∃ seq, access = .advance seq ∧ recordStep s tmbuf m access = consume s tmbuf seq m := by
  cases access with
  | test seq =>
      have hstart : Accessed tmbuf m (.test seq) (.record tmbuf m (.start seq)) := .record rfl
      rw [recordStep]
      split
      · exact .inl ⟨_, _, hstart, rfl⟩
      · exact .inl ⟨_, _, accessed_pastStart s.ack tmbuf m rfl, rfl⟩
  | start seq => exact .inl ⟨_, _, accessed_pastStart s.ack tmbuf m rfl, rfl⟩
  | count n seq =>
      have hcounted : Accessed tmbuf m (.count n seq)
          (.record tmbuf m (.counted (s.ack.dropcnt + n) seq)) := .record rfl
      exact .inl ⟨_, _, hcounted, rfl⟩
  | counted dropcnt seq => exact .inl ⟨_, _, accessed_pastCount tmbuf m (.counted dropcnt seq), rfl⟩
  | advance seq => exact .inr ⟨seq, rfl, rfl⟩

/-- An access to the attributes of the outq. -/
theorem Conserves.record {tmbuf : Tbuf} {m : Option Nat} {access : Access} {t : Egress}
    (h : Conserves { s with reader := .record tmbuf m access })
    (hstep : recordStep { s with reader := .record tmbuf m access } tmbuf m access = .ok t) :
    Conserves t := by
  have hlong : access.seq.isSome → 8 ≤ tmbuf.len := h.long
  rcases recordStep_cases { s with reader := .record tmbuf m access } tmbuf m access with
    ⟨ack, r, hr, hres⟩ | ⟨seq, rfl, hres⟩
  · rw [hres] at hstep
    cases hstep
    cases hr with
    | top => exact h.goto rfl trivial
    | record hseq => exact h.goto rfl fun hnext => hlong (hseq ▸ hnext)
    | reset hm hseq =>
        subst hm
        refine h.goto rfl (hlong ?_)
        rw [hseq]
        rfl
  · rw [hres] at hstep
    exact h.enter rfl (fun _ => hlong rfl) hstep

/-- The `MIOVBuf` number `k` without its first entry, and the count of the buffer `b` one down. -/
def cutEntry (s : Egress) (k b : Nat) (rest : List Iovec) : Egress :=
  (s.setMiov k { s.miov k with iov := rest }).deref b

/-- The three ends of a turn of the loop in `reset`. -/
theorem resetTurn_cases (s : Egress) (k : Nat) :
    ((s.miov k).iov = [] ∧ resetTurn s k = (s.setMiov k (s.miov k).reset, .ended)) ∨
      ∃ v rest, (s.miov k).iov = v :: rest ∧
        (s.refcnt v.mbuf ≠ 1 ∧ resetTurn s k = (cutEntry s k v.mbuf rest, .dropped) ∨
          s.refcnt v.mbuf = 1 ∧ resetTurn s k = (cutEntry s k v.mbuf rest, .last v.mbuf)) := by
  unfold resetTurn
  cases hiov : (s.miov k).iov with
  | nil => exact Or.inl ⟨rfl, rfl⟩
  | cons v rest =>
      refine Or.inr ⟨v, rest, rfl, ?_⟩
      by_cases hlast : s.refcnt v.mbuf = 1
      · have hzero : ¬ s.refcnt v.mbuf - 1 ≠ 0 := by omega
        dsimp only
        rw [if_neg hzero]
        exact Or.inr ⟨hlast, rfl⟩
      · have hnonzero : s.refcnt v.mbuf - 1 ≠ 0 := by omega
        dsimp only
        rw [if_pos hnonzero]
        exact Or.inl ⟨hlast, rfl⟩

/-- What the threads share, after the first entry of a `MIOVBuf` is dropped. -/
theorem depot_cutEntry (s : Egress) (k b : Nat) (rest : List Iovec) :
    (cutEntry s k b rest).depot = { s.depot with
      rc := Function.update s.depot.rc b (s.depot.rc b - 1)
      cells := Function.update s.depot.cells k (rest.map Iovec.mbuf) } := by
  show { (s.setMiov k { s.miov k with iov := rest }).depot with
    rc := Function.update s.refcnt b (s.refcnt b - 1) } = _
  rw [depot_setMiov]
  rfl

/-- One turn of the loop in the `reset` of the reader. -/
theorem Conserves.readerReset {tmbuf : Tbuf} {k seq : Nat} {t : Egress}
    (h : Conserves { s with reader := .reset tmbuf k seq })
    (hstep : (match resetTurn { s with reader := .reset tmbuf k seq } k with
      | (s, .ended) => consume s tmbuf seq (some k)
      | (s, .dropped) => .ok { s with reader := .reset tmbuf k seq }
      | (s, .last b) => .ok { s with reader := .resetPush tmbuf k seq b }) = .ok t) :
    Conserves t := by
  have hlong : 8 ≤ tmbuf.len := h.long
  rcases resetTurn_cases { s with reader := .reset tmbuf k seq } k with
    ⟨hiov, hturn⟩ | ⟨v, rest, hiov, ⟨hrc, hturn⟩ | ⟨hrc, hturn⟩⟩
  · -- All references are dropped.
    have hiov : (s.miov k).iov = [] := hiov
    rw [hturn] at hstep
    have hclear : Conserves { s.setMiov k (s.miov k).reset with reader := .reset tmbuf k seq } := by
      refine ⟨?_, hlong, h.freeq, h.iovfreeq, h.outq⟩
      show Balanced outerPool MAXQSZ (s.setMiov k (s.miov k).reset).depot _ _
      rw [depot_clear hiov]
      exact h.balanced
    exact hclear.enter rfl (fun _ => hlong) hstep
  · rw [hturn] at hstep
    cases hstep
    refine ⟨?_, hlong, h.freeq, h.iovfreeq, h.outq⟩
    have hcut := h.balanced.cut (List.mem_singleton.mpr rfl) (cells_eq hiov) hrc
    rw [← depot_cutEntry] at hcut
    exact hcut
  · rw [hturn] at hstep
    cases hstep
    refine ⟨?_, hlong, h.freeq, h.iovfreeq, h.outq⟩
    have hcut := h.balanced.cutLast (List.mem_singleton.mpr rfl) (cells_eq hiov) hrc
    rw [← depot_cutEntry] at hcut
    exact hcut

/-- A `MIOVBuf` is popped from `iovfreeq`. -/
theorem Conserves.popIovfreeq {tmbuf : Tbuf} {offset k : Nat} {iovfreeq : Queue Nat}
    (h : Conserves { s with reader := .inner tmbuf offset none })
    (hpop : s.iovfreeq.pop = some (k, iovfreeq)) :
    Conserves { s with iovfreeq := iovfreeq, reader := .inner tmbuf offset (some k) } where
  balanced := h.balanced.takeBox (Queue.pop_eq_some.mp hpop).1
  long := trivial
  freeq := h.freeq
  iovfreeq := (Queue.pop_eq_some.mp hpop).2.trans h.iovfreeq
  outq := h.outq

/-- The packet in progress is pushed on the outq. -/
theorem Conserves.pushOutq {tmbuf : Tbuf} {k : Nat} {recurse : Bool} {outq : Queue Nat}
    (h : Conserves { s with reader := .push tmbuf k recurse })
    (hpush : s.outq.push k = some outq) :
    Conserves { s with outq := outq, reader := .top tmbuf.id none } where
  balanced := by
    have hsend : Balanced outerPool MAXQSZ { s.depot with sent := k :: s.outq.queue } _ _ :=
      h.balanced.send rfl
    rw [← (Queue.push_eq_some.mp hpush).1] at hsend
    exact hsend
  long := trivial
  freeq := h.freeq
  iovfreeq := h.iovfreeq
  outq := (Queue.push_eq_some.mp hpush).2.trans h.outq

/-- `addmbuf`: an entry and a reference more. -/
theorem Conserves.addmbuf {tmbuf : Tbuf} {offset k start len : Nat} {left : Option Nat}
    (h : Conserves { s with reader := .inner tmbuf offset (some k) }) :
    Conserves { addmbufStep s k tmbuf start len left with
      reader := .inner tmbuf offset (some k) } where
  balanced := by
    have hshare := h.balanced.share (List.mem_singleton.mpr rfl) (List.mem_singleton.mpr rfl)
    have hdepot : (addmbufStep s k tmbuf start len left).depot = { s.depot with
        rc := Function.update s.depot.rc tmbuf.id (s.depot.rc tmbuf.id + 1)
        cells := Function.update s.depot.cells k (s.depot.cells k ++ [tmbuf.id]) } := by
      -- The new entry refers to the buffer of the datagram.
      have hmbufs : MIOVBuf.mbufs { (s.miov k).addmbuf tmbuf start len with left := left } =
          s.depot.cells k ++ [tmbuf.id] := List.map_append
      have hset := depot_setMiov s k { (s.miov k).addmbuf tmbuf start len with left := left }
      rw [hmbufs] at hset
      show { (s.setMiov k { (s.miov k).addmbuf tmbuf start len with left := left }).depot with
        rc := Function.update s.refcnt tmbuf.id (s.refcnt tmbuf.id + 1) } = _
      rw [hset]
      rfl
    show Balanced outerPool MAXQSZ (addmbufStep s k tmbuf start len left).depot _ _
    rw [hdepot]
    exact hshare
  long := trivial
  freeq := h.freeq
  iovfreeq := h.iovfreeq
  outq := h.outq

/-- A pass of `add_to_inner_packet`. -/
theorem Conserves.inner {tmbuf : Tbuf} {offset k : Nat} {t : Egress}
    (h : Conserves { s with reader := .inner tmbuf offset (some k) })
    (hstep : innerStepOn { s with reader := .inner tmbuf offset (some k) } tmbuf offset k = .ok t) :
    Conserves t := by
  unfold innerStepOn at hstep
  cases hpass : innerPass tmbuf offset (s.miov k) with
  | error e =>
      dsimp only at hstep
      rw [hpass] at hstep
      cases hstep
  | ok pass =>
      -- The reader keeps its reference, since the pass stays in the same buffer.
      have hid := (innerPass_same hpass).1
      dsimp only at hstep
      rw [hpass] at hstep
      cases pass with
      | keep rest =>
          cases hstep
          refine h.goto ?_ trivial
          rw [TfsReader.holding, TfsReader.holding, show rest.id = tmbuf.id from hid]
      | part start len left rest =>
          cases hstep
          refine h.addmbuf.goto ?_ trivial
          rw [TfsReader.holding, TfsReader.holding, show rest.id = tmbuf.id from hid]
      | full start len rest recurse =>
          cases hstep
          refine h.addmbuf.goto ?_ trivial
          rw [TfsReader.holding, TfsReader.holding, show rest.id = tmbuf.id from hid]
          rfl

/-- The state with its own control point, for the lemmas that are stated about a state at a given
one. -/
theorem with_reader {r : TfsReader} (hr : s.reader = r) : s = { s with reader := r } := by
  rw [← hr]

/-- Every step of `read_tfs_packets` keeps the invariant. -/
theorem readTfsStep_conserves {target : ℚ} {bytes : List UInt8} {limited : Bool} {t : Egress}
    (h : Conserves s) (hstep : readTfsStep target s bytes limited = .ok t) : Conserves t := by
  cases hr : s.reader with
  | start =>
      rw [with_reader hr] at h hstep
      dsimp only [readTfsStep] at hstep
      split at hstep
      · cases hstep
      · rename_i b freeq hpop
        cases hstep
        exact h.popFreeq hpop rfl trivial
  | startRef b =>
      rw [with_reader hr] at h hstep
      cases hstep
      exact h.claim rfl rfl trivial
  | top b m =>
      rw [with_reader hr] at h hstep
      cases hstep
      exact h.dropRef
  | topPush b m =>
      rw [with_reader hr] at h hstep
      dsimp only [readTfsStep] at hstep
      split at hstep
      · cases hstep
      · rename_i freeq hpush
        cases hstep
        exact h.pushFreeq hpush rfl trivial
  | pop m =>
      rw [with_reader hr] at h hstep
      dsimp only [readTfsStep] at hstep
      split at hstep
      · cases hstep
      · rename_i b freeq hpop
        cases hstep
        exact h.popFreeq hpop rfl trivial
  | ref b m =>
      rw [with_reader hr] at h hstep
      cases hstep
      exact h.claim rfl rfl trivial
  | recv b m =>
      rw [with_reader hr] at h hstep
      exact h.recv hstep
  | record tmbuf m access =>
      rw [with_reader hr] at h hstep
      exact h.record hstep
  | reset tmbuf k seq =>
      rw [with_reader hr] at h hstep
      exact h.readerReset hstep
  | resetPush tmbuf k seq b =>
      rw [with_reader hr] at h hstep
      have hlong : 8 ≤ tmbuf.len := h.long
      dsimp only [readTfsStep] at hstep
      split at hstep
      · cases hstep
      · rename_i freeq hpush
        cases hstep
        exact h.pushFreeq hpush rfl hlong
  | inner tmbuf offset m =>
      rw [with_reader hr] at h hstep
      cases m with
      | none =>
          dsimp only [readTfsStep] at hstep
          split at hstep
          · cases hstep
          · rename_i k iovfreeq hpop
            cases hstep
            exact h.popIovfreeq hpop
      | some k => exact h.inner hstep
  | push tmbuf k recurse =>
      rw [with_reader hr] at h hstep
      dsimp only [readTfsStep] at hstep
      split at hstep
      · cases hstep
      · rename_i outq hpush
        have hpushed := h.pushOutq hpush
        cases recurse with
        | false =>
            cases hstep
            exact hpushed
        | true =>
            rw [if_pos rfl] at hstep
            -- The call for the rest of the datagram reads no header.
            exact Conserves.enter (s := { s with outq := outq, reader := .push tmbuf k true })
              hpushed rfl (fun h0 => absurd h0 Bool.false_ne_true) hstep

/-! ### The steps of `write_intf_packets` -/

/-- The same for the writer. -/
theorem with_writer {w : IntfWriter} (hw : s.writer = w) : s = { s with writer := w } := by
  rw [← hw]

/-- What the writer does, from what it does to the shared part and to its own. -/
theorem Conserves.ofWriter (h : Conserves s) {t : Egress} (hreader : t.reader = s.reader)
    (hbalanced : Balanced outerPool MAXQSZ t.depot t.writer.holding t.reader.holding)
    (hfreeq : t.freeq.size = s.freeq.size) (hiovfreeq : t.iovfreeq.size = s.iovfreeq.size)
    (houtq : t.outq.size = s.outq.size) : Conserves t where
  balanced := hbalanced.symm
  long := hreader ▸ h.long
  freeq := hfreeq.trans h.freeq
  iovfreeq := hiovfreeq.trans h.iovfreeq
  outq := houtq.trans h.outq

/-- One turn of the loop in the `reset` of the writer. -/
theorem Conserves.writerReset {k : Nat} {t : Egress}
    (h : Conserves { s with writer := .reset k })
    (hstep : (match resetTurn { s with writer := .reset k } k with
      | (s, .ended) => .ok { s with writer := .push k }
      | (s, .dropped) => .ok { s with writer := .reset k }
      | (s, .last b) => .ok { s with writer := .resetPush k b }) = (.ok t : Except Stop Egress)) :
    Conserves t := by
  have hbooks := h.balanced.symm
  rcases resetTurn_cases { s with writer := .reset k } k with
    ⟨hiov, hturn⟩ | ⟨v, rest, hiov, ⟨hrc, hturn⟩ | ⟨hrc, hturn⟩⟩
  · -- All references are dropped.
    have hiov : (s.miov k).iov = [] := hiov
    rw [hturn] at hstep
    cases hstep
    refine h.ofWriter rfl ?_ rfl rfl rfl
    have hfinish : Balanced outerPool MAXQSZ s.depot _ _ := hbooks.finish rfl (cells_eq hiov)
    rw [← depot_clear hiov] at hfinish
    exact hfinish
  · rw [hturn] at hstep
    cases hstep
    refine h.ofWriter rfl ?_ rfl rfl rfl
    have hcut := hbooks.cut (List.mem_singleton.mpr rfl) (cells_eq hiov) hrc
    rw [← depot_cutEntry] at hcut
    exact hcut
  · rw [hturn] at hstep
    cases hstep
    refine h.ofWriter rfl ?_ rfl rfl rfl
    have hcut := hbooks.cutLast (List.mem_singleton.mpr rfl) (cells_eq hiov) hrc
    rw [← depot_cutEntry] at hcut
    exact hcut

/-- Every step of `write_intf_packets` keeps the invariant. -/
theorem writeIntfStep_conserves {t : Egress} (h : Conserves s) (hstep : writeIntfStep s = .ok t) :
    Conserves t := by
  cases hw : s.writer with
  | pop =>
      rw [with_writer hw] at h hstep
      dsimp only [writeIntfStep] at hstep
      split at hstep
      · cases hstep
      · rename_i k outq hpop
        cases hstep
        exact h.ofWriter rfl (h.balanced.symm.receive (Queue.pop_eq_some.mp hpop).1) rfl rfl
          (Queue.pop_eq_some.mp hpop).2
  | write k =>
      rw [with_writer hw] at h hstep
      cases hstep
      exact h.ofWriter rfl h.balanced.symm rfl rfl rfl
  | reset k =>
      rw [with_writer hw] at h hstep
      exact h.writerReset hstep
  | resetPush k b =>
      rw [with_writer hw] at h hstep
      dsimp only [writeIntfStep] at hstep
      split at hstep
      · cases hstep
      · rename_i freeq hpush
        cases hstep
        have hput : Balanced outerPool MAXQSZ { s.depot with free := b :: s.freeq.queue } _ _ :=
          h.balanced.symm.put rfl
        rw [← (Queue.push_eq_some.mp hpush).1] at hput
        exact h.ofWriter rfl hput (Queue.push_eq_some.mp hpush).2 rfl rfl
  | push k =>
      rw [with_writer hw] at h hstep
      dsimp only [writeIntfStep] at hstep
      split at hstep
      · cases hstep
      · rename_i iovfreeq hpush
        cases hstep
        have hgive : Balanced outerPool MAXQSZ { s.depot with idle := k :: s.iovfreeq.queue } _ _ :=
          h.balanced.symm.giveBack rfl
        rw [← (Queue.push_eq_some.mp hpush).1] at hgive
        exact h.ofWriter rfl hgive rfl (Queue.push_eq_some.mp hpush).2 rfl

/-! ### The steps of `send_ack_infos` -/

/-- `send_ack_infos` works on the attributes of the outq, and on nothing else that is shared. -/
theorem sendAckInfosStep_eq (s : Egress) : ∃ ack acker,
    sendAckInfosStep s = { s with ack := ack, acker := acker } ∧ ack.lastseq = s.ack.lastseq := by
  unfold sendAckInfosStep
  cases s.acker <;> exact ⟨_, _, rfl, rfl⟩

/-- Every step of any thread keeps the invariant. -/
theorem egressStep_conserves {target : ℚ} (s : Egress) (e : EgressEvent) (t : Egress)
    (h : Conserves s) (hstep : egressStep target s e = .ok t) : Conserves t := by
  cases e with
  | reader bytes limited => exact readTfsStep_conserves h hstep
  | writer => exact writeIntfStep_conserves h hstep
  | ackInfos ns =>
      obtain ⟨ack, acker, heq, -⟩ := sendAckInfosStep_eq s
      cases hstep
      rw [heq]
      exact ⟨h.balanced, h.long, h.freeq, h.iovfreeq, h.outq⟩

end Step

end Proofs

end Iptfs.Py
