import Iptfs.Proofs.Python.EgressProgress
import Iptfs.Python.Observed

/-!
# `Iptfs.Proofs.Python.EgressSteps`: the steps of the Python egress, taken apart

As `Iptfs.Proofs.EgressSteps` for the C program: `ReaderStep` has one constructor for each way in
which a step of `read_tfs_packets` can go, with all that the step knows and changes, and
`WriterStep` is the same for `write_intf_packets`. `RecvStep` is for the step that receives a
datagram, and `RecordStep` for the accesses to the attributes of the outq.
-/

set_option autoImplicit false

namespace Iptfs.Py.Proofs

open Iptfs.Lib

/-- How the step that receives a datagram goes. -/
inductive RecvStep (target : ℚ) (s : Egress) (b : Nat) (m : Option Nat) (bytes : List UInt8)
    (limited : Bool) : Egress → Prop
  | drop {verdict : Verdict} (hclass : classify (recvBytes bytes) limited = .ok verdict)
      (hdrop : verdict = .short ∨ verdict = .limited ∨ verdict = .version) :
      RecvStep target s b m bytes limited
        { s with reader := .record (Tbuf.fresh b (recvBytes bytes)) m (.count 1 none) }
  | ack {congest : AckState} (hclass : classify (recvBytes bytes) limited = .ok .ack)
      (hack : recvAck target (recvBytes bytes) s.congest = .ok congest) :
      RecvStep target s b m bytes limited { s with congest := congest, reader := .top b m }
  | data {seq : Nat} (hclass : classify (recvBytes bytes) limited = .ok (.data seq)) :
      RecvStep target s b m bytes limited
        { s with reader := .record (Tbuf.fresh b (recvBytes bytes)) m (.test seq) }

/-- How an access to the attributes of the outq goes. In `start`, `startseq` has been set, by this
step or before. -/
inductive RecordStep (s : Egress) (tmbuf : Tbuf) (m : Option Nat) : Access → Egress → Prop
  | test {seq : Nat} (hzero : s.ack.startseq = 0) :
      RecordStep s tmbuf m (.test seq) { s with reader := .record tmbuf m (.start seq) }
  | start {access : Access} {seq startseq : Nat}
      (haccess : access = .test seq ∨ access = .start seq) :
      RecordStep s tmbuf m access
        { s with
          ack := { s.ack with startseq := startseq }
          reader := pastStart s.ack tmbuf m seq }
  | count {n : Nat} {seq : Option Nat} :
      RecordStep s tmbuf m (.count n seq)
        { s with reader := .record tmbuf m (.counted (s.ack.dropcnt + n) seq) }
  | counted {dropcnt : Nat} {seq : Option Nat} :
      RecordStep s tmbuf m (.counted dropcnt seq)
        { s with
          ack := { s.ack with dropcnt := dropcnt }
          reader := pastCount tmbuf m seq }
  | advance {seq offset : Nat} {tmbuf' : Tbuf}
      (henter : enterInner tmbuf true = .ok (some (tmbuf', offset))) :
      RecordStep s tmbuf m (.advance seq)
        { s with ack := { s.ack with lastseq := seq }, reader := .inner tmbuf' offset m }

/-- How a step of `read_tfs_packets` goes. -/
inductive ReaderStep (target : ℚ) (s : Egress) (bytes : List UInt8) (limited : Bool) :
    Egress → Prop
  | start {b : Nat} {freeq : Queue Nat} (hr : s.reader = .start)
      (hpop : s.freeq.pop = some (b, freeq)) :
      ReaderStep target s bytes limited { s with freeq := freeq, reader := .startRef b }
  | startRef {b : Nat} (hr : s.reader = .startRef b) :
      ReaderStep target s bytes limited { s.addref b with reader := .top b none }
  | top {b : Nat} {m : Option Nat} {r : TfsReader} (hr : s.reader = .top b m)
      (hnext : r = .pop m ∨ r = .topPush b m) :
      ReaderStep target s bytes limited { s.deref b with reader := r }
  | topPush {b : Nat} {m : Option Nat} {freeq : Queue Nat} (hr : s.reader = .topPush b m)
      (hpush : s.freeq.push b = some freeq) :
      ReaderStep target s bytes limited { s with freeq := freeq, reader := .pop m }
  | pop {b : Nat} {m : Option Nat} {freeq : Queue Nat} (hr : s.reader = .pop m)
      (hpop : s.freeq.pop = some (b, freeq)) :
      ReaderStep target s bytes limited { s with freeq := freeq, reader := .ref b m }
  | ref {b : Nat} {m : Option Nat} (hr : s.reader = .ref b m) :
      ReaderStep target s bytes limited { s.addref b with reader := .recv b m }
  | recv {b : Nat} {m : Option Nat} {t : Egress} (hr : s.reader = .recv b m)
      (hstep : RecvStep target s b m bytes limited t) : ReaderStep target s bytes limited t
  | record {tmbuf : Tbuf} {m : Option Nat} {access : Access} {t : Egress}
      (hr : s.reader = .record tmbuf m access) (hstep : RecordStep s tmbuf m access t) :
      ReaderStep target s bytes limited t
  | resetTurn {tmbuf : Tbuf} {k seq : Nat} {v : Iovec} {rest : List Iovec} {r : TfsReader}
      (hr : s.reader = .reset tmbuf k seq) (hiov : (s.miov k).iov = v :: rest)
      (hnext : r = .reset tmbuf k seq ∨ r = .resetPush tmbuf k seq v.mbuf) :
      ReaderStep target s bytes limited { cutEntry s k v.mbuf rest with reader := r }
  | resetEnded {tmbuf tmbuf' : Tbuf} {k seq offset : Nat} (hr : s.reader = .reset tmbuf k seq)
      (hiov : (s.miov k).iov = []) (henter : enterInner tmbuf true = .ok (some (tmbuf', offset))) :
      ReaderStep target s bytes limited
        { s.setMiov k (s.miov k).reset with
          ack := { s.ack with lastseq := seq }
          reader := .inner tmbuf' offset (some k) }
  | resetPush {tmbuf : Tbuf} {k seq b : Nat} {freeq : Queue Nat}
      (hr : s.reader = .resetPush tmbuf k seq b) (hpush : s.freeq.push b = some freeq) :
      ReaderStep target s bytes limited { s with freeq := freeq, reader := .reset tmbuf k seq }
  | popIov {tmbuf : Tbuf} {offset k : Nat} {iovfreeq : Queue Nat}
      (hr : s.reader = .inner tmbuf offset none) (hpop : s.iovfreeq.pop = some (k, iovfreeq)) :
      ReaderStep target s bytes limited
        { s with iovfreeq := iovfreeq, reader := .inner tmbuf offset (some k) }
  | keep {tmbuf rest : Tbuf} {offset k : Nat} (hr : s.reader = .inner tmbuf offset (some k))
      (hpass : innerPass tmbuf offset (s.miov k) = .ok (.keep rest)) :
      ReaderStep target s bytes limited { s with reader := .top rest.id (some k) }
  | part {tmbuf rest : Tbuf} {offset k start len : Nat} {left : Option Nat}
      (hr : s.reader = .inner tmbuf offset (some k))
      (hpass : innerPass tmbuf offset (s.miov k) = .ok (.part start len left rest)) :
      ReaderStep target s bytes limited
        { addmbufStep s k tmbuf start len left with reader := .top rest.id (some k) }
  | full {tmbuf rest : Tbuf} {offset k start len : Nat} {recurse : Bool}
      (hr : s.reader = .inner tmbuf offset (some k))
      (hpass : innerPass tmbuf offset (s.miov k) = .ok (.full start len rest recurse)) :
      ReaderStep target s bytes limited
        { addmbufStep s k tmbuf start len (some 0) with reader := .push rest k recurse }
  | pushDone {tmbuf : Tbuf} {k : Nat} {outq : Queue Nat} (hr : s.reader = .push tmbuf k false)
      (hpush : s.outq.push k = some outq) :
      ReaderStep target s bytes limited { s with outq := outq, reader := .top tmbuf.id none }
  | pushEnter {tmbuf tmbuf' : Tbuf} {k offset : Nat} {outq : Queue Nat}
      (hr : s.reader = .push tmbuf k true) (hpush : s.outq.push k = some outq)
      (henter : enterInner tmbuf false = .ok (some (tmbuf', offset))) :
      ReaderStep target s bytes limited
        { s with outq := outq, reader := .inner tmbuf' offset none }

/-- How a step of `write_intf_packets` goes. -/
inductive WriterStep (s : Egress) : Egress → Prop
  | pop {k : Nat} {outq : Queue Nat} (hw : s.writer = .pop)
      (hpop : s.outq.pop = some (k, outq)) :
      WriterStep s { s with outq := outq, writer := .write k }
  | write {k : Nat} (hw : s.writer = .write k) : WriterStep s { s with writer := .reset k }
  | resetTurn {k : Nat} {v : Iovec} {rest : List Iovec} {w : IntfWriter}
      (hw : s.writer = .reset k) (hiov : (s.miov k).iov = v :: rest)
      (hnext : w = .reset k ∨ w = .resetPush k v.mbuf) :
      WriterStep s { cutEntry s k v.mbuf rest with writer := w }
  | resetEnded {k : Nat} (hw : s.writer = .reset k) (hiov : (s.miov k).iov = []) :
      WriterStep s { s.setMiov k (s.miov k).reset with writer := .push k }
  | resetPush {k b : Nat} {freeq : Queue Nat} (hw : s.writer = .resetPush k b)
      (hpush : s.freeq.push b = some freeq) :
      WriterStep s { s with freeq := freeq, writer := .reset k }
  | push {k : Nat} {iovfreeq : Queue Nat} (hw : s.writer = .push k)
      (hpush : s.iovfreeq.push k = some iovfreeq) :
      WriterStep s { s with iovfreeq := iovfreeq, writer := .pop }

section Step

variable {target : ℚ} {s t : Egress} {bytes : List UInt8} {limited : Bool}

/-- A datagram with a header, or the rest of one, goes to `iovfreeq.pop()` or past it. -/
theorem enterStep_ok {tmbuf : Tbuf} {new : Bool} {m : Option Nat}
    (hlong : new = true → 8 ≤ tmbuf.len) (h : enterStep s tmbuf new m = .ok t) :
    ∃ tmbuf' offset, enterInner tmbuf new = .ok (some (tmbuf', offset)) ∧
      t = { s with reader := .inner tmbuf' offset m } := by
  unfold enterStep at h
  cases henter : enterInner tmbuf new with
  | error e =>
      rw [henter] at h
      cases h
  | ok entered =>
      obtain ⟨tmbuf', offset, rfl, -⟩ := enterInner_some hlong henter
      rw [henter] at h
      cases h
      exact ⟨tmbuf', offset, rfl, rfl⟩

/-- Every datagram goes one of these ways, but for those that bring the thread down. -/
theorem recvStep_of_step {b : Nat} {m : Option Nat}
    (h : recvStep target s b m bytes limited = .ok t) :
    RecvStep target s b m bytes limited t := by
  unfold recvStep at h
  dsimp only at h
  cases hclass : classify (recvBytes bytes) limited with
  | error e =>
      rw [hclass] at h
      cases h
  | ok verdict =>
      rw [hclass] at h
      cases verdict with
      | short =>
          cases h
          exact .drop hclass (.inl rfl)
      | limited =>
          cases h
          exact .drop hclass (.inr (.inl rfl))
      | version =>
          cases h
          exact .drop hclass (.inr (.inr rfl))
      | ack =>
          dsimp only at h
          split at h
          · cases h
          · rename_i congest hack
            cases h
            exact .ack hclass hack
      | data seq =>
          cases h
          exact .data hclass

/-- Every access goes one of these ways. -/
theorem recordStep_of_step {tmbuf : Tbuf} {m : Option Nat} {access : Access}
    (hlong : access.seq.isSome → 8 ≤ tmbuf.len) (h : recordStep s tmbuf m access = .ok t) :
    RecordStep s tmbuf m access t := by
  cases access with
  | test seq =>
      rw [recordStep] at h
      split at h
      · rename_i hzero
        cases h
        exact .test hzero
      · -- `startseq` stays as it is.
        cases h
        exact .start (.inl rfl)
  | start seq =>
      cases h
      exact .start (.inr rfl)
  | count n seq =>
      cases h
      exact .count
  | counted dropcnt seq =>
      cases h
      exact .counted
  | advance seq =>
      obtain ⟨tmbuf', offset, henter, rfl⟩ := enterStep_ok (fun _ => hlong rfl) h
      exact .advance henter

/-- A turn of the loop in `reset`, for the reader. -/
theorem resetStep_step {tmbuf : Tbuf} {k seq : Nat} (hr : s.reader = .reset tmbuf k seq)
    (hlong : 8 ≤ tmbuf.len)
    (h : (match resetTurn s k with
      | (s, .ended) => consume s tmbuf seq (some k)
      | (s, .dropped) => .ok { s with reader := .reset tmbuf k seq }
      | (s, .last b) => .ok { s with reader := .resetPush tmbuf k seq b }) = .ok t) :
    ReaderStep target s bytes limited t := by
  rcases resetTurn_cases s k with ⟨hiov, hturn⟩ | ⟨v, rest, hiov, ⟨-, hturn⟩ | ⟨-, hturn⟩⟩
  · rw [hturn] at h
    obtain ⟨tmbuf', offset, henter, rfl⟩ := enterStep_ok (fun _ => hlong) h
    exact .resetEnded hr hiov henter
  · rw [hturn] at h
    cases h
    exact .resetTurn hr hiov (.inl rfl)
  · rw [hturn] at h
    cases h
    exact .resetTurn hr hiov (.inr rfl)

/-- A pass of `add_to_inner_packet` on the `MIOVBuf` number `k`. -/
theorem innerStepOn_step {tmbuf : Tbuf} {offset k : Nat}
    (hr : s.reader = .inner tmbuf offset (some k))
    (h : innerStepOn s tmbuf offset k = .ok t) : ReaderStep target s bytes limited t := by
  unfold innerStepOn at h
  split at h
  · cases h
  · rename_i rest hpass
    cases h
    exact .keep hr hpass
  · rename_i start len left rest hpass
    cases h
    exact .part hr hpass
  · rename_i start len rest recurse hpass
    cases h
    exact .full hr hpass

/-- Every step of `read_tfs_packets` goes in one of these ways. -/
theorem readerStep_of_step (hlong : s.reader.Long)
    (h : readTfsStep target s bytes limited = .ok t) : ReaderStep target s bytes limited t := by
  unfold readTfsStep at h
  cases hr : s.reader with
  | start =>
      simp only [hr] at h
      split at h
      · cases h
      · rename_i b freeq hpop
        cases h
        exact .start hr hpop
  | startRef b =>
      simp only [hr] at h
      cases h
      exact .startRef hr
  | top b m =>
      simp only [hr] at h
      cases h
      refine .top hr ?_
      split
      · exact .inl rfl
      · exact .inr rfl
  | topPush b m =>
      simp only [hr] at h
      split at h
      · cases h
      · rename_i freeq hpush
        cases h
        exact .topPush hr hpush
  | pop m =>
      simp only [hr] at h
      split at h
      · cases h
      · rename_i b freeq hpop
        cases h
        exact .pop hr hpop
  | ref b m =>
      simp only [hr] at h
      cases h
      exact .ref hr
  | recv b m =>
      simp only [hr] at h
      exact .recv hr (recvStep_of_step h)
  | record tmbuf m access =>
      simp only [hr] at h
      rw [hr] at hlong
      exact .record hr (recordStep_of_step hlong h)
  | reset tmbuf k seq =>
      simp only [hr] at h
      rw [hr] at hlong
      exact resetStep_step hr hlong h
  | resetPush tmbuf k seq b =>
      simp only [hr] at h
      split at h
      · cases h
      · rename_i freeq hpush
        cases h
        exact .resetPush hr hpush
  | inner tmbuf offset m =>
      cases m with
      | none =>
          simp only [hr] at h
          split at h
          · cases h
          · rename_i k iovfreeq hpop
            cases h
            exact .popIov hr hpop
      | some k =>
          simp only [hr] at h
          exact innerStepOn_step hr h
  | push tmbuf k recurse =>
      simp only [hr] at h
      split at h
      · cases h
      · rename_i outq hpush
        cases recurse with
        | false =>
            cases h
            exact .pushDone hr hpush
        | true =>
            rw [if_pos rfl] at h
            obtain ⟨tmbuf', offset, henter, rfl⟩ :=
              enterStep_ok (fun h0 => absurd h0 Bool.false_ne_true) h
            exact .pushEnter hr hpush henter

/-- Every step of `write_intf_packets` goes in one of these ways. -/
theorem writerStep_of_step (h : writeIntfStep s = .ok t) : WriterStep s t := by
  unfold writeIntfStep at h
  cases hw : s.writer with
  | pop =>
      simp only [hw] at h
      split at h
      · cases h
      · rename_i k outq hpop
        cases h
        exact .pop hw hpop
  | write k =>
      simp only [hw] at h
      cases h
      exact .write hw
  | reset k =>
      simp only [hw] at h
      rcases resetTurn_cases s k with ⟨hiov, hturn⟩ | ⟨v, rest, hiov, ⟨-, hturn⟩ | ⟨-, hturn⟩⟩
      · rw [hturn] at h
        cases h
        exact .resetEnded hw hiov
      · rw [hturn] at h
        cases h
        exact .resetTurn hw hiov (.inl rfl)
      · rw [hturn] at h
        cases h
        exact .resetTurn hw hiov (.inr rfl)
  | resetPush k b =>
      simp only [hw] at h
      split at h
      · cases h
      · rename_i freeq hpush
        cases h
        exact .resetPush hw hpush
  | push k =>
      simp only [hw] at h
      split at h
      · cases h
      · rename_i iovfreeq hpush
        cases h
        exact .push hw hpush

end Step

end Iptfs.Py.Proofs
