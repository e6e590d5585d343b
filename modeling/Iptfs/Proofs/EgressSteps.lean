import Iptfs.Proofs.EgressPointers

/-!
# `Iptfs.Proofs.EgressSteps`: the steps of the egress, taken apart

`ReaderStep` has one constructor for each way in which a step of `read_tfs_pkts` can go, with all
that the step knows and changes, and `WriterStep` is the same for `write_intf_pkts`. An invariant
of the egress is proved by cases on these. What a step does from `recvfrom` on stays in
`recvStep`: `recvStep_cases` takes that apart for the buffers.
-/

set_option autoImplicit false

namespace Iptfs.Proofs

open Iptfs.Lib

/-- How a step of `read_tfs_pkts` goes. -/
inductive ReaderStep (cfg : Config) (maxiov : Nat) (s : Egress) (timer : Option Timespec)
    (input : Option (List UInt8 × Bool)) : Egress → Prop
  | start {b : Nat} {freeq : Queue Nat} (hr : s.reader = .start)
      (hpop : mqueuePop s.freeq = some (b, freeq)) :
      ReaderStep cfg maxiov s timer input { s with freeq := freeq, reader := .startRef b }
  | startRef {b : Nat} (hr : s.reader = .startRef b) :
      ReaderStep cfg maxiov s timer input { s.fetchAdd b with reader := .top b none }
  | top {b : Nat} {m : Option Nat} {ack : Ackinfo} {r : TfsReader} (hr : s.reader = .top b m)
      (hack : ackTimerRecord cfg timer s.ack = .ok ack) (hnext : r = .reset b m ∨ r = .pop m) :
      ReaderStep cfg maxiov s timer input { s.fetchSub b with ack := ack, reader := r }
  | reset {b : Nat} {m : Option Nat} (hr : s.reader = .reset b m) :
      ReaderStep cfg maxiov s timer input { s with reader := .store b m }
  | pop {b : Nat} {m : Option Nat} {freeq : Queue Nat} (hr : s.reader = .pop m)
      (hpop : mqueuePop s.freeq = some (b, freeq)) :
      ReaderStep cfg maxiov s timer input { s with freeq := freeq, reader := .store b m }
  | store {b : Nat} {m : Option Nat} (hr : s.reader = .store b m) :
      ReaderStep cfg maxiov s timer input { s.storeOne b with reader := .recv b m }
  | recv {b : Nat} {m : Option Nat} {t : Egress} (hr : s.reader = .recv b m)
      (hstep : recvStep cfg s b m input = .ok t) : ReaderStep cfg maxiov s timer input t
  | derefTurn {tbuf : Tbuf} {k : Nat} {v : Iovec} {rest : List Iovec} {r : TfsReader}
      (hr : s.reader = .deref tbuf k) (hiov : (s.miov k).iov = v :: rest)
      (hnext : r = .deref tbuf k ∨ r = .derefReset tbuf k v.mbuf) :
      ReaderStep cfg maxiov s timer input
        { (s.setMiov k { s.miov k with iov := rest }).fetchSub v.mbuf with reader := r }
  | derefEnded {tbuf tbuf' : Tbuf} {k offset : Nat} (hr : s.reader = .deref tbuf k)
      (hiov : (s.miov k).iov = []) (henter : enterInner tbuf true = .ok (tbuf', offset)) :
      ReaderStep cfg maxiov s timer input
        { s.setMiov k .clean with reader := .inner tbuf' offset (some k) }
  | derefReset {tbuf : Tbuf} {k b : Nat} (hr : s.reader = .derefReset tbuf k b) :
      ReaderStep cfg maxiov s timer input { s with reader := .derefPush tbuf k b }
  | derefPush {tbuf : Tbuf} {k b : Nat} {freeq : Queue Nat} (hr : s.reader = .derefPush tbuf k b)
      (hpush : mqueuePush s.freeq b = some freeq) :
      ReaderStep cfg maxiov s timer input { s with freeq := freeq, reader := .deref tbuf k }
  | popMiov {tbuf : Tbuf} {offset k : Nat} {iovfreeq : Queue Nat}
      (hr : s.reader = .inner tbuf offset none) (hpop : miovqPop s.iovfreeq = some (k, iovfreeq)) :
      ReaderStep cfg maxiov s timer input
        { s with iovfreeq := iovfreeq, reader := .inner tbuf offset (some k) }
  | keep {tbuf rest : Tbuf} {offset k : Nat} (hr : s.reader = .inner tbuf offset (some k))
      (hpass : innerPass tbuf offset (s.miov k) = .ok (.keep rest)) :
      ReaderStep cfg maxiov s timer input { s with reader := .top rest.id (some k) }
  | part {tbuf rest : Tbuf} {offset k start len left : Nat} {m : Miov}
      (hr : s.reader = .inner tbuf offset (some k))
      (hpass : innerPass tbuf offset (s.miov k) = .ok (.part start len left rest))
      (hadd : miovAddmbuf (s.miov k) tbuf start len = .ok m) :
      ReaderStep cfg maxiov s timer input
        { (s.setMiov k { m with left := left }).fetchAdd tbuf.id with
          reader := .top rest.id (some k) }
  | full {tbuf rest : Tbuf} {offset k start len : Nat} {recurse : Bool} {m : Miov}
      (hr : s.reader = .inner tbuf offset (some k))
      (hpass : innerPass tbuf offset (s.miov k) = .ok (.full start len rest recurse))
      (hadd : miovAddmbuf (s.miov k) tbuf start len = .ok m) :
      ReaderStep cfg maxiov s timer input
        { (s.setMiov k { m with left := 0 }).fetchAdd tbuf.id with
          reader := .push rest k recurse }
  | pushDone {tbuf : Tbuf} {k : Nat} {outq : Queue Nat} (hr : s.reader = .push tbuf k false)
      (hpush : miovqPush s.outq k = some outq) :
      ReaderStep cfg maxiov s timer input
        { s with outq := outq, reader := .top tbuf.id none }
  | pushEnter {tbuf tbuf' : Tbuf} {k offset : Nat} {outq : Queue Nat}
      (hr : s.reader = .push tbuf k true) (hpush : miovqPush s.outq k = some outq)
      (henter : enterInner tbuf false = .ok (tbuf', offset)) :
      ReaderStep cfg maxiov s timer input
        { s with outq := outq, reader := .inner tbuf' offset none }

/-- How a step of `write_intf_pkts` goes. -/
inductive WriterStep (s : Egress) : Egress → Prop
  | pop {k : Nat} {outq : Queue Nat} (hw : s.writer = .pop)
      (hpop : miovqPop s.outq = some (k, outq)) :
      WriterStep s { s with outq := outq, writer := .write k }
  | write {k : Nat} (hw : s.writer = .write k) : WriterStep s { s with writer := .deref k }
  | derefTurn {k : Nat} {v : Iovec} {rest : List Iovec} {w : IntfWriter}
      (hw : s.writer = .deref k) (hiov : (s.miov k).iov = v :: rest)
      (hnext : w = .deref k ∨ w = .derefReset k v.mbuf) :
      WriterStep s
        { (s.setMiov k { s.miov k with iov := rest }).fetchSub v.mbuf with writer := w }
  | derefEnded {k : Nat} (hw : s.writer = .deref k) (hiov : (s.miov k).iov = []) :
      WriterStep s { s.setMiov k .clean with writer := .push k }
  | derefReset {k b : Nat} (hw : s.writer = .derefReset k b) :
      WriterStep s { s with writer := .derefPush k b }
  | derefPush {k b : Nat} {freeq : Queue Nat} (hw : s.writer = .derefPush k b)
      (hpush : mqueuePush s.freeq b = some freeq) :
      WriterStep s { s with freeq := freeq, writer := .deref k }
  | push {k : Nat} {iovfreeq : Queue Nat} (hw : s.writer = .push k)
      (hpush : miovqPush s.iovfreeq k = some iovfreeq) :
      WriterStep s { s with iovfreeq := iovfreeq, writer := .pop }

variable {cfg : Config} {maxiov : Nat} {s t : Egress} {timer : Option Timespec}
  {input : Option (List UInt8 × Bool)}

/-- The two ways in which a turn of the loop in `miov_reset` goes. -/
theorem miovResetTurn_turn (s : Egress) (k : Nat) :
    ((s.miov k).iov = [] ∧ miovResetTurn s k = (s.setMiov k .clean, .ended)) ∨
      ∃ v rest turn, (s.miov k).iov = v :: rest ∧ (turn = .dropped ∨ turn = .last v.mbuf) ∧
        miovResetTurn s k =
          ((s.setMiov k { s.miov k with iov := rest }).fetchSub v.mbuf, turn) := by
  cases hiov : (s.miov k).iov with
  | nil =>
      left
      rw [miovResetTurn, hiov]
      exact ⟨rfl, rfl⟩
  | cons v rest =>
      right
      rw [miovResetTurn, hiov]
      refine ⟨v, rest, _, rfl, ?_, rfl⟩
      split
      · exact .inr rfl
      · exact .inl rfl

/-- What `addmbufStep` does where the arrays of the miov have room. -/
theorem addmbufStep_ok {k start len left : Nat} {tbuf : Tbuf}
    (h : addmbufStep maxiov s k tbuf start len left = .ok t) :
    ∃ m, miovAddmbuf (s.miov k) tbuf start len = .ok m ∧
      t = (s.setMiov k { m with left := left }).fetchAdd tbuf.id := by
  rw [addmbufStep] at h
  split at h
  · split at h
    · cases h
    · rename_i m hm
      cases h
      exact ⟨m, hm, rfl⟩
  · cases h

/-- A pass of `add_to_inner_packet` on the miov `k`. -/
theorem innerStepOn_step {tbuf : Tbuf} {offset k : Nat}
    (hr : s.reader = .inner tbuf offset (some k))
    (h : innerStepOn maxiov s tbuf offset k = .ok t) : ReaderStep cfg maxiov s timer input t := by
  rw [innerStepOn] at h
  split at h
  · cases h
  · rename_i rest hpass
    cases h
    exact .keep hr hpass
  · rename_i start len left rest hpass
    split at h
    · cases h
    · rename_i u hu
      obtain ⟨m, hadd, rfl⟩ := addmbufStep_ok hu
      cases h
      exact .part hr hpass hadd
  · rename_i start len rest recurse hpass
    split at h
    · cases h
    · rename_i u hu
      obtain ⟨m, hadd, rfl⟩ := addmbufStep_ok hu
      cases h
      exact .full hr hpass hadd

/-- Every step of `read_tfs_pkts` goes in one of these ways. -/
theorem readerStep_of_step (h : readTfsStep cfg maxiov s timer input = .ok t) :
    ReaderStep cfg maxiov s timer input t := by
  rw [readTfsStep] at h
  cases hr : s.reader with
  | start =>
      simp only [hr] at h
      split at h
      · cases h
      · rename_i b freeq hpop
        cases h
        exact .start hr hpop
  | startRef b =>
      simp only [hr] at h
      cases h
      exact .startRef hr
  | top b m =>
      simp only [hr] at h
      split at h
      · cases h
      · rename_i ack hack
        cases h
        -- With the last reference gone the same mbuf is used again, else another one is popped.
        refine .top hr hack ?_
        split
        · exact .inl rfl
        · exact .inr rfl
  | reset b m =>
      simp only [hr] at h
      split at h
      · cases h
      · rename_i u hu
        cases h
        rw [assertUnref_ok hu]
        exact .reset hr
  | pop m =>
      simp only [hr] at h
      split at h
      · cases h
      · rename_i b freeq hpop
        cases h
        exact .pop hr hpop
  | store b m =>
      simp only [hr] at h
      cases h
      exact .store hr
  | recv b m =>
      simp only [hr] at h
      exact .recv hr h
  | deref tbuf k =>
      simp only [hr] at h
      -- A turn of `miov_reset`: no entry is left, a reference was not the last one, or it was.
      rcases miovResetTurn_turn s k with ⟨hiov, hturn⟩ | ⟨v, rest, turn, hiov, rfl | rfl, hturn⟩
      · rw [hturn] at h
        obtain ⟨tbuf', offset, henter, rfl⟩ := enterStep_ok h
        exact .derefEnded hr hiov henter
      · rw [hturn] at h
        cases h
        exact .derefTurn hr hiov (.inl rfl)
      · rw [hturn] at h
        cases h
        exact .derefTurn hr hiov (.inr rfl)
  | derefReset tbuf k b =>
      simp only [hr] at h
      split at h
      · cases h
      · rename_i u hu
        cases h
        rw [assertUnref_ok hu]
        exact .derefReset hr
  | derefPush tbuf k b =>
      simp only [hr] at h
      split at h
      · cases h
      · rename_i freeq hpush
        cases h
        exact .derefPush hr hpush
  | inner tbuf offset m =>
      cases m with
      | none =>
          simp only [hr] at h
          split at h
          · cases h
          · rename_i k iovfreeq hpop
            cases h
            exact .popMiov hr hpop
      | some k =>
          simp only [hr] at h
          exact innerStepOn_step hr h
  | push tbuf k recurse =>
      simp only [hr] at h
      split at h
      · cases h
      · rename_i outq hpush
        -- `add_to_inner_packet` calls itself where the datagram goes on, else it returns.
        cases recurse with
        | false =>
            cases h
            exact .pushDone hr hpush
        | true =>
            obtain ⟨tbuf', offset, henter, rfl⟩ := enterStep_ok h
            exact .pushEnter hr hpush henter

/-- Every step of `write_intf_pkts` goes in one of these ways. -/
theorem writerStep_of_step (h : writeIntfStep s = .ok t) : WriterStep s t := by
  rw [writeIntfStep] at h
  cases hw : s.writer with
  | pop =>
      simp only [hw] at h
      split at h
      · cases h
      · rename_i k outq hpop
        cases h
        exact .pop hw hpop
  | write k =>
      simp only [hw] at h
      cases h
      exact .write hw
  | deref k =>
      simp only [hw] at h
      rcases miovResetTurn_turn s k with ⟨hiov, hturn⟩ | ⟨v, rest, turn, hiov, rfl | rfl, hturn⟩
      · rw [hturn] at h
        cases h
        exact .derefEnded hw hiov
      · rw [hturn] at h
        cases h
        exact .derefTurn hw hiov (.inl rfl)
      · rw [hturn] at h
        cases h
        exact .derefTurn hw hiov (.inr rfl)
  | derefReset k b =>
      simp only [hw] at h
      split at h
      · cases h
      · rename_i u hu
        cases h
        rw [assertUnref_ok hu]
        exact .derefReset hw
  | derefPush k b =>
      simp only [hw] at h
      split at h
      · cases h
      · rename_i freeq hpush
        cases h
        exact .derefPush hw hpush
  | push k =>
      simp only [hw] at h
      split at h
      · cases h
      · rename_i iovfreeq hpush
        cases h
        exact .push hw hpush

end Iptfs.Proofs
