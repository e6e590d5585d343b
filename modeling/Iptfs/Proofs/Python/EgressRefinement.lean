import Iptfs.Lib.Conserve
import Iptfs.Proofs.Python.ZeroCopy

/-!
# `Iptfs.Proofs.Python.EgressRefinement`: three threads do what the loop does

`Iptfs.Python.Read` has `read_tfs_packets` as a loop with one step for each datagram.
`Iptfs.Python.Egress` has the threads in small steps. This module connects the two, as
`Iptfs.Proofs.EgressRefinement` does for the C program.

`Refines` is the relation. Between two passes the reader has what the loop has (`Sync`). From a data
datagram on, what the pass has still to do (`callRest`), with what it has pushed already, is what
the pass of the loop does (`InCall`). Two things are open until the pass ends: the values of `left`
that it will find, and how deep the calls of `add_to_inner_packet` will nest. So `InCall.pass` is
for all of them.

Of the attributes of the outq only `lastseq` is the same on both sides. `read_tfs_packets` and
`send_ack_infos` both write `startseq` and `dropcnt`, and not under a common lock, so what is there
depends on how their accesses fall. Nothing that the loop does with a datagram depends on these two.
-/

set_option autoImplicit false

namespace Iptfs.Py

/-- The `MIOVBuf` that `write_intf_packets` has taken from the outq and not written yet. -/
def IntfWriter.unwritten : IntfWriter → List Nat
  | .write k => [k]
  | _ => []

/-- The `MIOVBuf`s on the way from `read_tfs_packets` to the interface. -/
def Egress.onTheWay (s : Egress) : List Nat := s.outq.queue ++ s.writer.unwritten

/-- What comes out in front of what the rest of a call pushes. -/
def Added.prepend (ms : List MIOVBuf) (a : Added) : Added := { a with outq := ms ++ a.outq }

/-- The packet in progress, where no datagram is in hand that may be consumed: between two passes of
the loop, or while a drop is counted. -/
def TfsReader.between : TfsReader → Option (Option Nat)
  | .start | .startRef _ => some none
  | .top _ m | .topPush _ m | .pop m | .ref _ m | .recv _ m => some m
  | .record _ m (.count _ none) | .record _ m (.counted _ none) => some m
  | _ => none

/-- `outq.lastseq` after the accesses that are still to come. -/
def Access.lastseq (last : Nat) : Access → Nat
  | .test seq | .start seq => max last seq
  | .count _ seq | .counted _ seq => seq.getD last
  | .advance seq => seq

/-- `outq.lastseq` after the pass under way. -/
def TfsReader.pending (r : TfsReader) (last : Nat) : Nat :=
  match r with
  | .record _ _ access => access.lastseq last
  | .reset _ _ seq | .resetPush _ _ seq _ => seq
  | _ => last

/-- The packet in progress that a datagram comes to, unless it is ignored. -/
def Access.keep (outq : AckRecord) (m : Option MIOVBuf) : Access → Option (Option MIOVBuf)
  | .test seq | .start seq => if seq ≤ outq.lastseq then none else some (outq.keep seq m)
  | .count _ seq | .counted _ seq => seq.map fun _ => m.map MIOVBuf.reset
  | .advance _ => some m

/-- The record after a datagram with the number `seq`. -/
def AckRecord.accept (outq : AckRecord) (seq : Nat) : AckRecord :=
  if seq ≤ outq.lastseq then outq.begin seq else (outq.begin seq).advance seq

/-- The pops of `iovfreeq` find new objects, and packets that were pushed on the outq before. -/
def Pooled (target : ℚ) (limit : Nat) (s : Rx) : RxEvent → Prop
  | .recv id bytes limited lefts =>
      ∀ t, readTfsPacketsStep target limit s (.recv id bytes limited lefts) = .ok t →
        ∀ l ∈ lefts, l = none ∨ ∃ v ∈ t.outq, v.left = l
  | .ackInfos _ => True

namespace Proofs

open Iptfs.Lib

/-! ### The rest of a call -/

/-- What `add_to_inner_packet` does from the test on `m.len()` on. -/
def innerRest (depth : Nat) (tmbuf : Tbuf) (offset : Nat) (m : MIOVBuf)
    (lefts : List (Option Nat)) : Res Added :=
  match innerPass tmbuf offset m with
  | .error e => .error e
  | .ok pass => applyPass (fun rest => addToInnerPacket depth rest false none lefts) tmbuf m pass

/-- The header is passed over, and the rest follows. -/
theorem addToInnerPacket_enter (depth : Nat) {tmbuf tmbuf' : Tbuf} {new : Bool} {offset : Nat}
    (m : Option MIOVBuf) (lefts : List (Option Nat))
    (h : enterInner tmbuf new = .ok (some (tmbuf', offset))) :
    addToInnerPacket (depth + 1) tmbuf new m lefts =
      innerRest depth tmbuf' offset (popIov m lefts).1 (popIov m lefts).2 := by
  rw [addToInnerPacket, h]
  rfl

/-- What is left to do with a datagram, once it is known whether it is ignored. -/
def keepRest (depth : Nat) (tmbuf : Tbuf) (lefts : List (Option Nat)) (m : Option MIOVBuf) :
    Option (Option MIOVBuf) → Res Added
  | none => .ok ⟨tmbuf, m, []⟩
  | some m => addToInnerPacket (depth + 1) tmbuf true m lefts

/-- What the pass under way has still to do. `depth` is how deep the calls of `add_to_inner_packet`
can nest from here, and `lefts` are the values of `left` that the pops will find. -/
def callRest (s : Egress) (depth : Nat) (lefts : List (Option Nat)) : Res Added :=
  match s.reader with
  | .record tmbuf m access =>
      keepRest depth tmbuf lefts (m.map s.miov) (access.keep s.ack (m.map s.miov))
  | .reset tmbuf k _ | .resetPush tmbuf k _ _ =>
      addToInnerPacket (depth + 1) tmbuf true (some (s.miov k).reset) lefts
  | .inner tmbuf offset m =>
      let (m, lefts) := popIov (m.map s.miov) lefts
      innerRest depth tmbuf offset m lefts
  | .push tmbuf k true =>
      (addToInnerPacket depth tmbuf false none lefts).map (Added.cons (s.miov k))
  | .push tmbuf k false => .ok ⟨tmbuf, none, [s.miov k]⟩
  | _ => .error .recursion

/-- What is left of the call, with the control point written out. -/
theorem callRest_reader {s : Egress} {r : TfsReader} (hr : s.reader = r) (depth : Nat)
    (lefts : List (Option Nat)) :
    callRest s depth lefts = callRest { s with reader := r } depth lefts := by
  subst hr
  rfl

/-- A pass of `add_to_inner_packet` on the `MIOVBuf` number `k`. -/
theorem callRest_pass {s : Egress} {tmbuf : Tbuf} {offset k : Nat} {pass : Pass}
    (hr : s.reader = .inner tmbuf offset (some k))
    (hpass : innerPass tmbuf offset (s.miov k) = .ok pass) (depth : Nat)
    (lefts : List (Option Nat)) :
    callRest s depth lefts = applyPass (fun rest => addToInnerPacket depth rest false none lefts)
      tmbuf (s.miov k) pass := by
  rw [callRest_reader hr]
  show innerRest depth tmbuf offset (s.miov k) lefts = _
  rw [innerRest, hpass]

/-- A pass of `add_to_inner_packet` that pushes the packet `k`. -/
theorem callRest_full {s t : Egress} {tmbuf rest : Tbuf} {offset k start len : Nat}
    {recurse : Bool} (hr : s.reader = .inner tmbuf offset (some k))
    (hpass : innerPass tmbuf offset (s.miov k) = .ok (.full start len rest recurse))
    (hreader : t.reader = .push rest k recurse)
    (hmiov : t.miov k = { (s.miov k).addmbuf tmbuf start len with left := some 0 }) (depth : Nat)
    (lefts : List (Option Nat)) : callRest t depth lefts = callRest s depth lefts := by
  rw [callRest_pass hr hpass, callRest_reader hreader, applyPass]
  cases recurse with
  | true =>
      show (addToInnerPacket depth rest false none lefts).map (Added.cons (t.miov k)) = _
      rw [hmiov]
      rfl
  | false =>
      show Except.ok (⟨rest, none, [t.miov k]⟩ : Added) = _
      rw [hmiov]
      rfl

/-- The packets that went out before come in front of those of the rest. -/
theorem prepend_cons (ms : List MIOVBuf) (m : MIOVBuf) (r : Res Added) :
    (r.map (Added.cons m)).map (Added.prepend ms) = r.map (Added.prepend (ms ++ [m])) := by
  cases r with
  | error e => rfl
  | ok a =>
      show Except.ok _ = Except.ok _
      congr 1
      simp [Added.prepend, Added.cons]

/-! ### The attributes of the outq -/

/-- Whether a packet is abandoned depends on `lastseq` alone. -/
theorem keep_congr {outq outq' : AckRecord} (h : outq.lastseq = outq'.lastseq) (seq : Nat)
    (m : Option MIOVBuf) : outq.keep seq m = outq'.keep seq m := by
  simp only [AckRecord.keep, AckRecord.gap, h]

/-- The same of a datagram that the reader is in the middle of, at any of its accesses. -/
theorem Access.keep_congr {outq outq' : AckRecord} (h : outq.lastseq = outq'.lastseq)
    (m : Option MIOVBuf) (access : Access) : access.keep outq m = access.keep outq' m := by
  cases access with
  | test seq | start seq => simp only [Access.keep, h, Proofs.keep_congr h]
  | _ => rfl

/-- The last number after a datagram is the larger one, whether it was accepted or old. -/
theorem accept_lastseq (outq : AckRecord) (seq : Nat) :
    (outq.accept seq).lastseq = max outq.lastseq seq := by
  unfold AckRecord.accept
  split
  · rename_i hold
    exact (Nat.max_eq_left hold).symm
  · rename_i hnew
    exact (Nat.max_eq_right (Nat.le_of_not_le hnew)).symm

/-! ### The record of the pops -/

/-- The pop belongs to the last datagram. -/
theorem addLeft_concat (left : Option Nat) (es : List RxEvent) (e : RxEvent) :
    addLeft left (es ++ [e]) = es ++ [e.withLeft left] := by
  induction es with
  | nil => rfl
  | cons d es ih =>
      obtain ⟨f, fs, hcons⟩ := List.exists_cons_of_ne_nil (List.append_ne_nil_of_right_ne_nil es
        (List.cons_ne_nil e []))
      rw [List.cons_append, hcons, addLeft, ← hcons, ih]
      · rfl
      · exact List.cons_ne_nil f fs

/-! ### The relation -/

/-- No pass for a data datagram is under way, and the reader has what the loop has. -/
structure Sync (o : Observed) (rx : Rx) : Prop where
  pushed : o.pushed = rx.outq
  lastseq : o.egress.ack.lastseq = rx.ack.lastseq
  congest : o.egress.congest = rx.congest
  here : ∃ m, o.egress.reader.between = some m ∧ rx.m = m.map o.egress.miov

/-- The reader is in the pass for a data datagram, whose pops have found `lefts` so far. `base` is
the loop after the pass, but for what `add_to_inner_packet` returns. `calls` is how deep its calls
are nested, and `ms` are the packets that they have pushed. -/
structure InCall (target : ℚ) (o : Observed) (rx : Rx) (id : Nat) (bytes : List UInt8)
    (limited : Bool) (lefts : List (Option Nat)) (calls : Nat) (base : Rx)
    (ms : List MIOVBuf) : Prop where
  popped : ∀ l ∈ lefts, l = none ∨ ∃ v ∈ o.pushed, v.left = l
  isData : ∃ seq, classify (recvBytes bytes) limited = .ok (.data seq)
  inside : o.egress.reader.between = none
  pushed : o.pushed = rx.outq ++ ms
  outq : base.outq = rx.outq
  lastseq : o.egress.reader.pending o.egress.ack.lastseq = base.ack.lastseq
  congest : o.egress.congest = base.congest
  pass : ∀ depth more,
    readTfsPacketsStep target (depth + calls) rx (.recv id bytes limited (lefts ++ more)) =
      ((callRest o.egress depth more).map (Added.prepend ms)).map fun a =>
        { base with m := a.m, outq := base.outq ++ a.outq }

/-- The loop comes to `rx`, where its calls can nest as deep as they have. What its pops find was
pushed before. -/
def LoopRuns (target pps : ℚ) (es : List RxEvent) (rx : Rx) : Prop :=
  ∃ deep, ∀ limit ≥ deep, run (readTfsPacketsStep target limit) (Rx.init pps) es = .ok rx ∧
    Along (readTfsPacketsStep target limit) (Pooled target limit) (Rx.init pps) es

/-- The egress is where the loop is after the passes so far. -/
def Refines (target pps : ℚ) (o : Observed) : Prop :=
  (∃ rx, LoopRuns target pps o.passes rx ∧ Sync o rx) ∨
    ∃ es rx id bytes limited lefts calls base ms,
      o.passes = es ++ [.recv id bytes limited lefts] ∧ LoopRuns target pps es rx ∧
        InCall target o rx id bytes limited lefts calls base ms

/-- Nothing has been received, and the loop has not begun. Any depth of calls is enough. -/
theorem refines_init (target pps : ℚ) (mem : Nat → List UInt8) :
    Refines target pps (.init pps mem) :=
  .inl ⟨Rx.init pps, ⟨0, fun _ _ => ⟨rfl, trivial⟩⟩, rfl, rfl, rfl, none, rfl, rfl⟩

/-- Between two passes. -/
theorem Refines.sync {target pps : ℚ} {o : Observed} (h : Refines target pps o) {m : Option Nat}
    (hbetween : o.egress.reader.between = some m) :
    ∃ rx, LoopRuns target pps o.passes rx ∧ Sync o rx ∧ rx.m = m.map o.egress.miov := by
  rcases h with ⟨rx, hloop, hs⟩ | ⟨_, _, _, _, _, _, _, _, _, -, -, hc⟩
  · obtain ⟨m', hm', hrx⟩ := hs.here
    rw [hbetween] at hm'
    cases hm'
    exact ⟨rx, hloop, hs, hrx⟩
  · have hno := hc.inside
    rw [hbetween] at hno
    cases hno

/-- In a pass. -/
theorem Refines.inCall {target pps : ℚ} {o : Observed} (h : Refines target pps o)
    (hcall : o.egress.reader.between = none) :
    ∃ es rx id bytes limited lefts calls base ms,
      o.passes = es ++ [.recv id bytes limited lefts] ∧ LoopRuns target pps es rx ∧
        InCall target o rx id bytes limited lefts calls base ms := by
  rcases h with ⟨rx, -, hs⟩ | hin
  · obtain ⟨m, hm, -⟩ := hs.here
    rw [hcall] at hm
    cases hm
  · exact hin

/-- One more datagram that no pop belongs to, and that is the same at any depth. -/
theorem LoopRuns.concat {target pps : ℚ} {es : List RxEvent} {id : Nat} {bytes : List UInt8}
    {limited : Bool} {rx rx' : Rx} (h : LoopRuns target pps es rx)
    (hstep : ∀ limit,
      readTfsPacketsStep target limit rx (.recv id bytes limited []) = .ok rx') :
    LoopRuns target pps (es ++ [.recv id bytes limited []]) rx' := by
  obtain ⟨deep, hdeep⟩ := h
  refine ⟨deep, fun limit hlimit => ?_⟩
  obtain ⟨hrun, hpooled⟩ := hdeep limit hlimit
  refine ⟨run_concat.mpr ⟨rx, hrun, hstep limit⟩, along_concat.mpr ⟨hpooled, ?_⟩⟩
  intro _ _ _ _ l hl
  cases hl

/-- A free `MIOVBuf` is empty. -/
def Tidy (s : Egress) : Prop :=
  ∀ k ∈ s.iovfreeq.queue ++ s.writer.holding.emptied, (s.miov k).mlen = 0

/-- Every `MIOVBuf` is as it was made. -/
theorem tidy_init (pps : ℚ) : Tidy (.init pps) := fun _ _ => rfl

/-- A `MIOVBuf` that the reader does not have is as it was made, or it has the `left` of a packet
that went out. -/
def Reused (o : Observed) : Prop :=
  ∀ k ∉ o.egress.reader.holding.boxes,
    (o.egress.miov k).left = none ∨ ∃ v ∈ o.pushed, v.left = (o.egress.miov k).left

/-- None of them has a `left` yet. -/
theorem reused_init (pps : ℚ) (mem : Nat → List UInt8) : Reused (.init pps mem) :=
  fun _ _ => .inl rfl

section Frame

variable {target : ℚ} {s t : Egress} {bytes : List UInt8} {limited : Bool}

/-- A step of the reader leaves all but its own `MIOVBuf` alone. -/
theorem readTfsStep_frame (hlong : s.reader.Long)
    (hstep : readTfsStep target s bytes limited = .ok t) :
    (t.writer = s.writer ∧ t.iovfreeq.queue ⊆ s.iovfreeq.queue) ∧
      ∀ k ∉ s.reader.holding.boxes, t.miov k = s.miov k := by
  have hone : ∀ {j : Nat} {m : MIOVBuf}, s.reader.holding.boxes = [j] →
      ∀ k ∉ s.reader.holding.boxes, Function.update s.miov j m k = s.miov k := by
    intro j m hj k hk
    rw [hj, List.mem_singleton] at hk
    exact Function.update_of_ne hk _ _
  cases readerStep_of_step hlong hstep with
  | start _ _ | startRef _ | top _ _ | topPush _ _ | pop _ _ | ref _ | resetPush _ _
  | keep _ _ | pushDone _ _ | pushEnter _ _ _ => exact ⟨⟨rfl, fun _ hk => hk⟩, fun _ _ => rfl⟩
  | recv hr hrecv => cases hrecv <;> exact ⟨⟨rfl, fun _ hk => hk⟩, fun _ _ => rfl⟩
  | record hr hrecord => cases hrecord <;> exact ⟨⟨rfl, fun _ hk => hk⟩, fun _ _ => rfl⟩
  | popIov _ hpop =>
      refine ⟨⟨rfl, fun k hk => ?_⟩, fun _ _ => rfl⟩
      rw [(Queue.pop_eq_some.mp hpop).1]
      exact List.mem_cons_of_mem _ hk
  | resetTurn hr _ _ | resetEnded hr _ _ | part hr _ | full hr _ =>
      exact ⟨⟨rfl, fun _ hk => hk⟩, hone (by rw [hr]; rfl)⟩

/-- A step of the writer leaves all but its own `MIOVBuf` alone, and the variables of the reader. -/
theorem writeIntfStep_frame (hstep : writeIntfStep s = .ok t) :
    (t.reader = s.reader ∧ t.ack = s.ack ∧ t.congest = s.congest) ∧
      ∀ k ∉ s.writer.holding.boxes, t.miov k = s.miov k := by
  have hone : ∀ {j : Nat} {m : MIOVBuf}, s.writer.holding.boxes = [j] →
      ∀ k ∉ s.writer.holding.boxes, Function.update s.miov j m k = s.miov k := by
    intro j m hj k hk
    rw [hj, List.mem_singleton] at hk
    exact Function.update_of_ne hk _ _
  cases writerStep_of_step hstep with
  | pop _ _ | write _ | resetPush _ _ | push _ _ => exact ⟨⟨rfl, rfl, rfl⟩, fun _ _ => rfl⟩
  | resetTurn hw _ _ | resetEnded hw _ =>
      exact ⟨⟨rfl, rfl, rfl⟩, hone (by rw [hw]; rfl)⟩

/-- What is free is not in the hands of the reader, or of the writer. -/
theorem Tidy.read (h : Tidy s) (hcons : Conserves s)
    (hstep : readTfsStep target s bytes limited = .ok t) : Tidy t := by
  obtain ⟨⟨hwriter, hfree⟩, hframe⟩ := readTfsStep_frame hcons.long hstep
  intro k hk
  rw [hwriter] at hk
  have hold : k ∈ s.iovfreeq.queue ++ s.writer.holding.emptied := by
    rcases List.mem_append.mp hk with hk | hk
    · exact List.mem_append_left _ (hfree hk)
    · exact List.mem_append_right _ hk
  -- It was free before the step, so the reader did not have it.
  have hnot : k ∉ s.reader.holding.boxes := by
    intro hmine
    obtain ⟨hidle, -, -, hemptied⟩ := hcons.balanced.only hmine
    exact (List.mem_append.mp hold).elim hidle hemptied
  rw [hframe k hnot]
  exact h k hold

/-- A step of the writer. The last turn of its `reset` empties the `MIOVBuf`, and only then is it
pushed on `iovfreeq`. -/
theorem Tidy.write (h : Tidy s) (hcons : Conserves s) (hstep : writeIntfStep s = .ok t) :
    Tidy t := by
  obtain ⟨-, hframe⟩ := writeIntfStep_frame hstep
  have hidle : ∀ k ∈ s.iovfreeq.queue, (t.miov k).mlen = 0 := by
    intro k hk
    rw [hframe k fun hmine => (hcons.balanced.symm.only hmine).1 hk]
    exact h k (List.mem_append_left _ hk)
  -- The writer has emptied no other one.
  have hnone : t.iovfreeq = s.iovfreeq → t.writer.holding.emptied = [] → Tidy t := by
    intro hfree hemptied k hk
    rw [hfree, hemptied, List.append_nil] at hk
    exact hidle k hk
  cases writerStep_of_step hstep with
  | pop _ _ | write _ | resetPush _ _ => exact hnone rfl rfl
  | resetTurn _ _ hnext =>
      refine hnone rfl ?_
      rcases hnext with rfl | rfl <;> rfl
  | @resetEnded j hw hiov =>
      intro k hk
      rcases List.mem_append.mp hk with hk | hk
      · exact hidle k hk
      · rw [List.mem_singleton.mp hk]
        show (Function.update s.miov j (s.miov j).reset j).mlen = 0
        rw [Function.update_self]
        rfl
  | @push j iovfreeq hw hpush =>
      intro k hk
      rw [(Queue.push_eq_some.mp hpush).1] at hk
      -- What goes back to `iovfreeq` was emptied in an earlier step.
      have hemptied : s.writer.holding.emptied = [j] := by
        rw [hw]
        rfl
      refine h k ?_
      rw [hemptied]
      rcases List.mem_append.mp hk with hk | hk
      · rcases List.mem_cons.mp hk with rfl | hk
        · exact List.mem_append_right _ (List.mem_singleton.mpr rfl)
        · exact List.mem_append_left _ hk
      · cases hk

/-- What `iovfreeq` hands over is empty, but for its `left`. -/
theorem Tidy.eq_empty (h : Tidy s) (hcons : Conserves s) {k : Nat} (hk : k ∈ s.iovfreeq.queue) :
    s.miov k = .empty (s.miov k).left := by
  have hmbufs : (s.miov k).mbufs = [] := hcons.balanced.cells_idle hk
  have hiov : (s.miov k).iov = [] := List.map_eq_nil_iff.mp hmbufs
  have hmlen : (s.miov k).mlen = 0 := h k (List.mem_append_left _ hk)
  cases hm : s.miov k with
  | mk iov mlen left =>
      rw [hm] at hiov hmlen
      rw [MIOVBuf.empty]
      congr 1

end Frame

/-! ### The steps of the reader -/

section Step

variable {target pps : ℚ} {o : Observed} {t : Egress} {bytes : List UInt8} {limited : Bool}

/-- The reader moves on between two passes, and nothing that the loop knows changes. -/
theorem Refines.goto {m : Option Nat} (h : Refines target pps o)
    (hbetween : o.egress.reader.between = some m) (hnext : t.reader.between = some m)
    (hrec : o.read bytes limited = o) (hmiov : t.miov = o.egress.miov)
    (hlast : t.ack.lastseq = o.egress.ack.lastseq) (hcongest : t.congest = o.egress.congest) :
    Refines target pps { o.read bytes limited with egress := t } := by
  rw [hrec]
  obtain ⟨rx, hloop, hs, hrx⟩ := h.sync hbetween
  refine .inl ⟨rx, hloop, hs.pushed, hlast.trans hs.lastseq, hcongest.trans hs.congest, m, hnext,
    ?_⟩
  show rx.m = m.map t.miov
  rw [hmiov]
  exact hrx

/-- The reader moves on in its pass, and what the pass has still to do stays the same. -/
theorem Refines.within (h : Refines target pps o) (hcall : o.egress.reader.between = none)
    (hnext : t.reader.between = none) (hrec : o.read bytes limited = o)
    (hlast : t.reader.pending t.ack.lastseq = o.egress.reader.pending o.egress.ack.lastseq)
    (hcongest : t.congest = o.egress.congest)
    (hrest : ∀ depth lefts, callRest t depth lefts = callRest o.egress depth lefts) :
    Refines target pps { o.read bytes limited with egress := t } := by
  rw [hrec]
  obtain ⟨es, rx, id, data, limited', lefts, calls, base, ms, hes, hloop, hc⟩ := h.inCall hcall
  refine .inr ⟨es, rx, id, data, limited', lefts, calls, base, ms, hes, hloop, hc.popped,
    hc.isData, hnext, hc.pushed, hc.outq, hlast.trans hc.lastseq, hcongest.trans hc.congest, ?_⟩
  intro depth more
  rw [hc.pass]
  show _ = ((callRest t depth more).map _).map _
  rw [hrest]

/-- The pass ends. `a` is what its last step leaves. -/
theorem Refines.finish {b : Nat} {m : Option Nat} {a : Added} (h : Refines target pps o)
    (hcall : o.egress.reader.between = none)
    (hrest : ∀ depth lefts, callRest o.egress depth lefts = .ok a)
    (hpasses : (o.read bytes limited).passes = o.passes)
    (hpushed : (o.read bytes limited).pushed = o.pushed ++ a.outq)
    (hlast : t.ack.lastseq = o.egress.reader.pending o.egress.ack.lastseq)
    (hcongest : t.congest = o.egress.congest) (hreader : t.reader = .top b m)
    (hm : a.m = m.map t.miov) :
    Refines target pps { o.read bytes limited with egress := t } := by
  obtain ⟨es, rx, id, data, limited', lefts, calls, base, ms, hes, hloop, hc⟩ := h.inCall hcall
  obtain ⟨deep, hdeep⟩ := hloop
  -- No pop and no call is left, so the values of `left` are all known, and `calls` is deep enough.
  have hpass : ∀ limit ≥ calls, readTfsPacketsStep target limit rx
      (.recv id data limited' lefts) =
        .ok { base with m := a.m, outq := base.outq ++ (ms ++ a.outq) } := by
    intro limit hlimit
    have hstep := hc.pass (limit - calls) []
    rw [List.append_nil, Nat.sub_add_cancel hlimit, hrest] at hstep
    exact hstep
  have hpushed' : (o.read bytes limited).pushed = base.outq ++ (ms ++ a.outq) := by
    rw [hpushed, hc.pushed, hc.outq, List.append_assoc]
  refine .inl ⟨{ base with m := a.m, outq := base.outq ++ (ms ++ a.outq) },
    ⟨max deep calls, ?_⟩, hpushed', hlast.trans hc.lastseq, hcongest.trans hc.congest, m, ?_, hm⟩
  · intro limit hlimit
    obtain ⟨hrun, hpooled⟩ := hdeep limit (le_trans (le_max_left _ _) hlimit)
    have hlast' := hpass limit (le_trans (le_max_right _ _) hlimit)
    show run _ _ (o.read bytes limited).passes = _ ∧ Along _ _ _ (o.read bytes limited).passes
    rw [hpasses, hes]
    refine ⟨run_concat.mpr ⟨rx, hrun, hlast'⟩, along_concat.mpr ⟨hpooled, ?_⟩⟩
    -- What the pops found had been pushed by then, so it is among what the pass leaves.
    intro rx' hrx' t ht l hl
    rw [hrun] at hrx'
    cases hrx'
    rw [hlast'] at ht
    cases ht
    rcases hc.popped l hl with hnone | ⟨v, hv, hleft⟩
    · exact .inl hnone
    · refine .inr ⟨v, ?_, hleft⟩
      rw [← hpushed', hpushed]
      exact List.mem_append_left _ hv
  · show t.reader.between = some m
    rw [hreader]
    rfl

/-- What the loop does with a data datagram, in the terms of `callRest`. -/
theorem acceptData_eq (depth seq : Nat) (tmbuf : Tbuf) (lefts : List (Option Nat)) (rx : Rx) :
    acceptData (depth + 1) tmbuf seq lefts rx =
      (keepRest depth tmbuf lefts rx.m ((Access.test seq).keep rx.ack rx.m)).map fun a =>
        { rx with ack := rx.ack.accept seq, m := a.m, outq := rx.outq ++ a.outq } := by
  unfold acceptData AckRecord.accept Access.keep
  dsimp only
  by_cases hold : seq ≤ rx.ack.lastseq
  · -- Nothing is pushed, and the packet in progress stays.
    rw [if_pos hold, if_pos hold, if_pos (show seq ≤ (rx.ack.begin seq).lastseq from hold)]
    show _ = Except.ok { rx with ack := rx.ack.begin seq, outq := rx.outq ++ [] }
    rw [List.append_nil]
  · rw [if_neg hold, if_neg hold, if_neg (show ¬ seq ≤ (rx.ack.begin seq).lastseq from hold)]
    rw [keep_congr (show (rx.ack.begin seq).lastseq = rx.ack.lastseq from rfl), keepRest]
    cases addToInnerPacket (depth + 1) tmbuf true (rx.ack.keep seq rx.m) lefts <;> rfl

/-- Nothing that went out before. -/
theorem map_prepend_nil (r : Res Added) : r.map (Added.prepend []) = r := by
  cases r <;> rfl

/-- What the loop does with a datagram is what the tests say. -/
theorem step_classified {verdict : Verdict}
    (hclass : classify (recvBytes bytes) limited = .ok verdict) (limit b : Nat) (rx : Rx)
    (lefts : List (Option Nat)) :
    readTfsPacketsStep target limit rx (.recv b bytes limited lefts) =
      dispatch target limit (Tbuf.fresh b (recvBytes bytes)) lefts rx verdict := by
  unfold readTfsPacketsStep
  dsimp only
  rw [hclass]

section Recv

variable {b : Nat} {m : Option Nat} {rx : Rx}

/-- The datagram is in the record. -/
theorem read_recv (hr : o.egress.reader = .recv b m) : o.read bytes limited = { o with
    mem := recvMem o.mem b bytes
    passes := o.passes ++ [.recv b bytes limited []] } := by
  rw [Observed.read, hr]

/-- Where the datagram is not consumed, the pass of the loop is over with this step. -/
theorem Sync.recvDone (h : Sync o rx) (hloop : LoopRuns target pps o.passes rx)
    (hr : o.egress.reader = .recv b m) (rx' : Rx)
    (hpass : ∀ limit, readTfsPacketsStep target limit rx (.recv b bytes limited []) = .ok rx')
    (hm : rx'.m = rx.m) (houtq : rx'.outq = rx.outq) (hlast : rx'.ack.lastseq = rx.ack.lastseq)
    (hlast' : t.ack.lastseq = o.egress.ack.lastseq) (hcongest : rx'.congest = t.congest)
    (hmiov : t.miov = o.egress.miov) (hbetween : t.reader.between = some m) :
    Refines target pps { o.read bytes limited with egress := t } := by
  obtain ⟨m', hm', hrx⟩ := h.here
  rw [hr] at hm'
  cases hm'
  rw [read_recv hr]
  refine .inl ⟨rx', hloop.concat hpass, h.pushed.trans houtq.symm, ?_, hcongest.symm, m, hbetween,
    ?_⟩
  · exact (hlast'.trans h.lastseq).trans hlast.symm
  · show rx'.m = m.map t.miov
    rw [hm, hmiov]
    exact hrx

/-- A data datagram: all of its pass is still to be done. -/
theorem Sync.recvData {seq : Nat} (h : Sync o rx) (hloop : LoopRuns target pps o.passes rx)
    (hr : o.egress.reader = .recv b m)
    (hclass : classify (recvBytes bytes) limited = .ok (.data seq)) :
    Refines target pps { o.read bytes limited with
      egress := { o.egress with
        reader := .record (Tbuf.fresh b (recvBytes bytes)) m (.test seq) } } := by
  obtain ⟨m', hm', hrx⟩ := h.here
  rw [hr] at hm'
  cases hm'
  rw [read_recv hr]
  refine .inr ⟨o.passes, rx, b, bytes, limited, [], 1, { rx with ack := rx.ack.accept seq }, [],
    rfl, hloop, ?_, ⟨seq, hclass⟩, rfl, ?_, rfl, ?_, h.congest, ?_⟩
  · intro l hl
    cases hl
  · rw [List.append_nil]
    exact h.pushed
  · show max o.egress.ack.lastseq seq = (rx.ack.accept seq).lastseq
    rw [accept_lastseq, h.lastseq]
  · intro depth more
    rw [step_classified hclass, map_prepend_nil]
    show acceptData (depth + 1) _ seq more rx = _
    rw [acceptData_eq, hrx, ← Access.keep_congr h.lastseq]
    rfl

/-- The step that receives a datagram ends the pass of the loop, or it begins the one for a data
datagram. -/
theorem Sync.recv (h : Sync o rx) (hloop : LoopRuns target pps o.passes rx)
    (hr : o.egress.reader = .recv b m) (hstep : RecvStep target o.egress b m bytes limited t) :
    Refines target pps { o.read bytes limited with egress := t } := by
  cases hstep with
  | drop hclass hdrop =>
      -- The drop is counted in the next two steps.
      refine h.recvDone hloop hr { rx with ack := rx.ack.drop } ?_ rfl rfl rfl rfl h.congest.symm
        rfl rfl
      intro limit
      rw [step_classified hclass]
      rcases hdrop with rfl | rfl | rfl <;> rfl
  | @ack congest hclass hack =>
      refine h.recvDone hloop hr { rx with congest := congest } ?_ rfl rfl rfl rfl rfl rfl rfl
      intro limit
      rw [step_classified hclass]
      show (recvAck target (recvBytes bytes) rx.congest).map _ = _
      rw [← h.congest, hack]
      rfl
  | data hclass => exact h.recvData hloop hr hclass

end Recv

section Record

variable {tmbuf : Tbuf} {m : Option Nat}

/-- With `startseq` set, the datagram is ignored, or the drops before it are counted, or it is
consumed. -/
theorem Refines.started {access : Access} {seq startseq : Nat} (h : Refines target pps o)
    (hr : o.egress.reader = .record tmbuf m access)
    (haccess : access = .test seq ∨ access = .start seq) :
    Refines target pps { o.read bytes limited with
      egress := { o.egress with
        ack := { o.egress.ack with startseq := startseq }
        reader := pastStart o.egress.ack tmbuf m seq } } := by
  have hrec : o.read bytes limited = o := by rw [Observed.read, hr]
  have hcall : o.egress.reader.between = none := by
    rw [hr]
    rcases haccess with rfl | rfl <;> rfl
  have hpending : o.egress.reader.pending o.egress.ack.lastseq = max o.egress.ack.lastseq seq := by
    rw [hr]
    rcases haccess with rfl | rfl <;> rfl
  -- The two accesses have the same rest.
  have hrest : ∀ depth lefts, callRest o.egress depth lefts =
      callRest { o.egress with reader := .record tmbuf m (.test seq) } depth lefts := by
    intro depth lefts
    rw [callRest_reader hr]
    rcases haccess with rfl | rfl <;> rfl
  have hkeep : ¬ seq ≤ o.egress.ack.lastseq → ∀ depth lefts, callRest o.egress depth lefts =
      addToInnerPacket (depth + 1) tmbuf true (o.egress.ack.keep seq (m.map o.egress.miov))
        lefts := by
    intro hnew depth lefts
    rw [hrest, callRest]
    dsimp only [Access.keep]
    rw [if_neg hnew, keepRest]
  unfold pastStart
  by_cases hold : seq ≤ o.egress.ack.lastseq
  · rw [if_pos hold]
    refine h.finish (a := ⟨tmbuf, m.map o.egress.miov, []⟩) hcall ?_ (by rw [hrec])
      (by rw [hrec, List.append_nil]) ?_ rfl rfl rfl
    · intro depth lefts
      rw [hrest, callRest]
      dsimp only [Access.keep]
      rw [if_pos hold, keepRest]
    · rw [hpending, Nat.max_eq_left hold]
  · have hmax : max o.egress.ack.lastseq seq = seq := Nat.max_eq_right (Nat.le_of_not_le hold)
    rw [if_neg hold]
    by_cases hgap : o.egress.ack.gap seq
    · rw [if_pos hgap]
      refine h.within hcall rfl hrec ?_ rfl ?_
      · rw [hpending, hmax]
        rfl
      · intro depth lefts
        rw [hkeep hold, AckRecord.keep, if_pos hgap]
        rfl
    · rw [if_neg hgap]
      refine h.within hcall rfl hrec ?_ rfl ?_
      · rw [hpending, hmax]
        rfl
      · intro depth lefts
        rw [hkeep hold, AckRecord.keep, if_neg hgap]
        rfl

/-- With the drops counted, the packet in progress is abandoned, if there were any. -/
theorem Refines.counted {dropcnt : Nat} {seq : Option Nat} (h : Refines target pps o)
    (hr : o.egress.reader = .record tmbuf m (.counted dropcnt seq)) :
    Refines target pps { o.read bytes limited with
      egress := { o.egress with
        ack := { o.egress.ack with dropcnt := dropcnt }
        reader := pastCount tmbuf m seq } } := by
  have hrec : o.read bytes limited = o := by rw [Observed.read, hr]
  cases seq with
  | none => exact h.goto (congrArg TfsReader.between hr) rfl hrec rfl rfl rfl
  | some seq =>
      cases m with
      | none =>
          refine h.within (congrArg TfsReader.between hr) rfl hrec (by rw [hr]; rfl) rfl ?_
          intro depth lefts
          rw [callRest_reader hr]
          rfl
      | some k =>
          refine h.within (congrArg TfsReader.between hr) rfl hrec (by rw [hr]; rfl) rfl ?_
          intro depth lefts
          rw [callRest_reader hr]
          rfl

/-- An access to the attributes of the outq. -/
theorem Refines.record {access : Access} (h : Refines target pps o)
    (hr : o.egress.reader = .record tmbuf m access)
    (hstep : RecordStep o.egress tmbuf m access t) :
    Refines target pps { o.read bytes limited with egress := t } := by
  have hrec : o.read bytes limited = o := by rw [Observed.read, hr]
  have hgo : o.egress.reader.between = TfsReader.between (.record tmbuf m access) :=
    congrArg TfsReader.between hr
  cases hstep with
  | test _ =>
      refine h.within hgo rfl hrec (by rw [hr]; rfl) rfl ?_
      intro depth lefts
      rw [callRest_reader hr]
      rfl
  | start haccess => exact h.started hr haccess
  | @count n seq =>
      cases seq with
      | none => exact h.goto hgo rfl hrec rfl rfl rfl
      | some seq =>
          refine h.within hgo rfl hrec (by rw [hr]; rfl) rfl ?_
          intro depth lefts
          rw [callRest_reader hr]
          rfl
  | counted => exact h.counted hr
  | @advance seq offset tmbuf' henter =>
      refine h.within hgo rfl hrec (by rw [hr]; rfl) rfl ?_
      intro depth lefts
      rw [callRest_reader hr]
      show innerRest depth tmbuf' offset (popIov (m.map o.egress.miov) lefts).1
          (popIov (m.map o.egress.miov) lefts).2 =
        addToInnerPacket (depth + 1) tmbuf true (m.map o.egress.miov) lefts
      rw [addToInnerPacket_enter depth _ _ henter]

end Record

/-- The call of `add_to_inner_packet` takes the `MIOVBuf` number `k` from `iovfreeq`. It is empty,
and the loop learns its `left` with this step. -/
theorem Refines.popIov {tmbuf : Tbuf} {offset k : Nat} {iovfreeq : Queue Nat}
    (h : Refines target pps o) (hr : o.egress.reader = .inner tmbuf offset none)
    (hpop : o.egress.iovfreeq.pop = some (k, iovfreeq))
    (hempty : o.egress.miov k = .empty (o.egress.miov k).left) (hreused : Reused o) :
    Refines target pps { o.read bytes limited with
      egress := { o.egress with
        iovfreeq := iovfreeq
        reader := .inner tmbuf offset (some k) } } := by
  have hcall : o.egress.reader.between = none := by
    rw [hr]
    rfl
  obtain ⟨es, rx, id, data, limited', lefts, calls, base, ms, hes, hloop, hc⟩ := h.inCall hcall
  have hread : o.read bytes limited =
      { o with passes := addLeft (o.egress.miov k).left o.passes } := by
    rw [Observed.read, hr]
    dsimp only
    rw [hpop]
  rw [hread]
  refine .inr ⟨es, rx, id, data, limited', lefts ++ [(o.egress.miov k).left], calls, base, ms,
    ?_, hloop, ?_, hc.isData, rfl, hc.pushed, hc.outq, ?_, hc.congest, ?_⟩
  · show addLeft (o.egress.miov k).left o.passes = _
    rw [hes]
    exact addLeft_concat _ es _
  · intro l hl
    rcases List.mem_append.mp hl with hl | hl
    · exact hc.popped l hl
    · -- The reader has no `MIOVBuf` yet, so the one that it gets is not in its hands.
      rw [List.mem_singleton.mp hl]
      refine hreused k ?_
      rw [hr]
      exact List.not_mem_nil
  · have hlast := hc.lastseq
    rw [hr] at hlast
    exact hlast
  · -- The loop pops the next of `lefts` and has a new `MIOVBuf()` with it, the reader has `k`.
    intro depth more
    rw [List.append_assoc, List.singleton_append, hc.pass, callRest_reader hr]
    show ((innerRest depth tmbuf offset (.empty (o.egress.miov k).left) more).map _).map _ =
      ((innerRest depth tmbuf offset (o.egress.miov k) more).map _).map _
    rw [← hempty]

/-- The call pushes the packet `k`, and goes on with the rest of the datagram in another call. -/
theorem Refines.pushEnter {tmbuf tmbuf' : Tbuf} {k offset : Nat} {outq : Queue Nat}
    (h : Refines target pps o) (hr : o.egress.reader = .push tmbuf k true)
    (henter : enterInner tmbuf false = .ok (some (tmbuf', offset))) :
    Refines target pps { o.read bytes limited with
      egress := { o.egress with outq := outq, reader := .inner tmbuf' offset none } } := by
  have hcall : o.egress.reader.between = none := by
    rw [hr]
    rfl
  obtain ⟨es, rx, id, data, limited', lefts, calls, base, ms, hes, hloop, hc⟩ := h.inCall hcall
  have hread : o.read bytes limited = { o with pushed := o.pushed ++ [o.egress.miov k] } := by
    rw [Observed.read, hr]
  rw [hread]
  refine .inr ⟨es, rx, id, data, limited', lefts, calls + 1, base, ms ++ [o.egress.miov k], hes,
    hloop, ?_, hc.isData, rfl, ?_, hc.outq, ?_, hc.congest, ?_⟩
  · intro l hl
    rcases hc.popped l hl with hnone | ⟨v, hv, hleft⟩
    · exact .inl hnone
    · exact .inr ⟨v, List.mem_append_left _ hv, hleft⟩
  · show o.pushed ++ [o.egress.miov k] = rx.outq ++ (ms ++ [o.egress.miov k])
    rw [hc.pushed, List.append_assoc]
  · have hlast := hc.lastseq
    rw [hr] at hlast
    exact hlast
  · -- The next call is one deeper, and its packets come after `k`.
    intro depth more
    have hdepth : depth + (calls + 1) = depth + 1 + calls := by omega
    rw [hdepth, hc.pass, callRest_reader hr]
    show (((addToInnerPacket (depth + 1) tmbuf false none more).map
      (Added.cons (o.egress.miov k))).map (Added.prepend ms)).map _ = _
    rw [prepend_cons, addToInnerPacket_enter depth none more henter]
    rfl

/-- Only three kinds of steps are recorded: a `recvfrom_into`, a pop from `iovfreeq`, and a push to
the outq. -/
theorem read_quiet (hrecv : ∀ b m, o.egress.reader ≠ .recv b m)
    (hinner : ∀ tmbuf offset, o.egress.reader ≠ .inner tmbuf offset none)
    (hpush : ∀ tmbuf k r, o.egress.reader ≠ .push tmbuf k r) : o.read bytes limited = o := by
  unfold Observed.read
  cases hr : o.egress.reader with
  | recv b m => exact absurd hr (hrecv b m)
  | inner tmbuf offset m =>
      cases m with
      | none => exact absurd hr (hinner tmbuf offset)
      | some k => rfl
  | push tmbuf k r => exact absurd hr (hpush tmbuf k r)
  | _ => rfl

/-- A turn of the loop in `reset`. It empties the `MIOVBuf`, whatever is in it. -/
theorem Refines.resetTurn {tmbuf : Tbuf} {k seq : Nat} {v : Iovec} {rest : List Iovec}
    {r : TfsReader} (h : Refines target pps o) (hr : o.egress.reader = .reset tmbuf k seq)
    (hnext : r = .reset tmbuf k seq ∨ r = .resetPush tmbuf k seq v.mbuf) :
    Refines target pps { o.read bytes limited with
      egress := { cutEntry o.egress k v.mbuf rest with reader := r } } := by
  have hgo : o.egress.reader.between = none := congrArg TfsReader.between hr
  have hrec : o.read bytes limited = o := read_quiet (by simp [hr]) (by simp [hr]) (by simp [hr])
  have hmiov : ((cutEntry o.egress k v.mbuf rest).miov k).reset = (o.egress.miov k).reset := by
    show (Function.update o.egress.miov k { o.egress.miov k with iov := rest } k).reset = _
    rw [Function.update_self]
    rfl
  have hrest : ∀ depth lefts, addToInnerPacket (depth + 1) tmbuf true
      (some ((cutEntry o.egress k v.mbuf rest).miov k).reset) lefts =
        callRest o.egress depth lefts := by
    intro depth lefts
    rw [callRest_reader hr, hmiov]
    rfl
  rcases hnext with rfl | rfl
  · exact h.within hgo rfl hrec (by rw [hr]; rfl) rfl hrest
  · exact h.within hgo rfl hrec (by rw [hr]; rfl) rfl hrest

/-- The loop in `reset` has ended, and the datagram is consumed. -/
theorem Refines.resetEnded {tmbuf tmbuf' : Tbuf} {k seq offset : Nat} (h : Refines target pps o)
    (hr : o.egress.reader = .reset tmbuf k seq)
    (henter : enterInner tmbuf true = .ok (some (tmbuf', offset))) :
    Refines target pps { o.read bytes limited with
      egress := { o.egress.setMiov k (o.egress.miov k).reset with
        ack := { o.egress.ack with lastseq := seq }
        reader := .inner tmbuf' offset (some k) } } := by
  refine h.within (congrArg TfsReader.between hr) rfl
    (read_quiet (by simp [hr]) (by simp [hr]) (by simp [hr])) (by rw [hr]; rfl) rfl ?_
  intro depth lefts
  rw [callRest_reader hr]
  show innerRest depth tmbuf' offset
      (Function.update o.egress.miov k (o.egress.miov k).reset k) lefts =
    addToInnerPacket (depth + 1) tmbuf true (some (o.egress.miov k).reset) lefts
  rw [Function.update_self, addToInnerPacket_enter depth _ _ henter]
  rfl

/-- The datagram ends without an entry for the packet in progress. -/
theorem Refines.keep {tmbuf rest : Tbuf} {offset k : Nat} (h : Refines target pps o)
    (hr : o.egress.reader = .inner tmbuf offset (some k))
    (hpass : innerPass tmbuf offset (o.egress.miov k) = .ok (.keep rest)) :
    Refines target pps { o.read bytes limited with
      egress := { o.egress with reader := .top rest.id (some k) } } := by
  have hrec : o.read bytes limited = o := read_quiet (by simp [hr]) (by simp [hr]) (by simp [hr])
  refine h.finish (a := ⟨rest, some (o.egress.miov k), []⟩) (congrArg TfsReader.between hr) ?_
    (by rw [hrec]) (by rw [hrec, List.append_nil]) (by rw [hr]; rfl) rfl rfl rfl
  intro depth lefts
  rw [callRest_pass hr hpass, applyPass]

/-- The datagram ends with an entry for it, and the packet is not complete. -/
theorem Refines.part {tmbuf rest : Tbuf} {offset k start len : Nat} {left : Option Nat}
    (h : Refines target pps o) (hr : o.egress.reader = .inner tmbuf offset (some k))
    (hpass : innerPass tmbuf offset (o.egress.miov k) = .ok (.part start len left rest)) :
    Refines target pps { o.read bytes limited with
      egress := { addmbufStep o.egress k tmbuf start len left with
        reader := .top rest.id (some k) } } := by
  have hrec : o.read bytes limited = o := read_quiet (by simp [hr]) (by simp [hr]) (by simp [hr])
  refine h.finish
    (a := ⟨rest, some { (o.egress.miov k).addmbuf tmbuf start len with left := left }, []⟩)
    (congrArg TfsReader.between hr) ?_ (by rw [hrec]) (by rw [hrec, List.append_nil])
    (by rw [hr]; rfl) rfl rfl ?_
  · intro depth lefts
    rw [callRest_pass hr hpass, applyPass]
  · show _ = some (Function.update o.egress.miov k
      { (o.egress.miov k).addmbuf tmbuf start len with left := left } k)
    rw [Function.update_self]

/-- The packet is pushed, and the call returns. -/
theorem Refines.pushDone {tmbuf : Tbuf} {k : Nat} {outq : Queue Nat} (h : Refines target pps o)
    (hr : o.egress.reader = .push tmbuf k false) :
    Refines target pps { o.read bytes limited with
      egress := { o.egress with outq := outq, reader := .top tmbuf.id none } } := by
  have hread : o.read bytes limited = { o with pushed := o.pushed ++ [o.egress.miov k] } := by
    rw [Observed.read, hr]
  refine h.finish (a := ⟨tmbuf, none, [o.egress.miov k]⟩) (congrArg TfsReader.between hr) ?_
    (by rw [hread]) (by rw [hread]) (by rw [hr]; rfl) rfl rfl rfl
  intro depth lefts
  rw [callRest_reader hr]
  rfl

/-- A step of the reader, by where it is. -/
theorem Refines.read (h : Refines target pps o) (hcons : Conserves o.egress)
    (htidy : Tidy o.egress) (hreused : Reused o)
    (hstep : readTfsStep target o.egress bytes limited = .ok t) :
    Refines target pps { o.read bytes limited with egress := t } := by
  have hgo : ∀ {r : TfsReader}, o.egress.reader = r → o.egress.reader.between = r.between :=
    congrArg TfsReader.between
  cases readerStep_of_step hcons.long hstep with
  | start hr _ | startRef hr | topPush hr _ | pop hr _ | ref hr =>
      exact h.goto (hgo hr) rfl (read_quiet (by simp [hr]) (by simp [hr]) (by simp [hr])) rfl rfl
        rfl
  | top hr hnext =>
      have hrec : o.read bytes limited = o :=
        read_quiet (by simp [hr]) (by simp [hr]) (by simp [hr])
      rcases hnext with rfl | rfl
      · exact h.goto (hgo hr) rfl hrec rfl rfl rfl
      · exact h.goto (hgo hr) rfl hrec rfl rfl rfl
  | recv hr hrecv =>
      obtain ⟨rx, hloop, hs, -⟩ := h.sync (hgo hr)
      exact hs.recv hloop hr hrecv
  | record hr hrecord => exact h.record hr hrecord
  | resetTurn hr _ hnext => exact h.resetTurn hr hnext
  | resetEnded hr _ henter => exact h.resetEnded hr henter
  | resetPush hr _ =>
      -- A buffer on its way to `freeq` is no part of the pass.
      refine h.within (hgo hr) rfl (read_quiet (by simp [hr]) (by simp [hr]) (by simp [hr]))
        (by rw [hr]; rfl) rfl ?_
      intro depth lefts
      rw [callRest_reader hr]
      rfl
  | @popIov tmbuf offset k iovfreeq hr hpop =>
      have hfree : k ∈ o.egress.iovfreeq.queue := by
        rw [(Queue.pop_eq_some.mp hpop).1]
        exact List.mem_cons_self
      exact h.popIov hr hpop (htidy.eq_empty hcons hfree) hreused
  | keep hr hpass => exact h.keep hr hpass
  | part hr hpass => exact h.part hr hpass
  | full hr hpass =>
      exact h.within (hgo hr) rfl (read_quiet (by simp [hr]) (by simp [hr]) (by simp [hr]))
        (by rw [hr]; rfl) rfl (callRest_full hr hpass rfl (Function.update_self ..))
  | pushDone hr _ => exact h.pushDone hr
  | pushEnter hr _ henter => exact h.pushEnter hr henter

end Step

/-! ### The steps of the other threads -/

section Others

variable {target pps : ℚ} {o : Observed} {t : Egress}

/-- Between two passes the reader has no other `MIOVBuf` than the one in progress. -/
theorem boxes_between {r : TfsReader} {m : Option Nat} (h : r.between = some m) :
    r.holding.boxes = m.toList := by
  cases r with
  | reset _ _ _ | resetPush _ _ _ _ | inner _ _ _ | push _ _ _ => cases h
  | record tmbuf m' access =>
      cases access with
      | test _ | start _ | advance _ => cases h
      | count n seq | counted n seq =>
          cases seq with
          | none =>
              cases h
              rfl
          | some seq => cases h
  | _ =>
      cases h
      rfl

/-- What a pass has still to do depends on the `MIOVBuf` in hand, and on no other, and of the
attributes of the outq on `lastseq`. -/
theorem callRest_congr {s : Egress} (hreader : t.reader = s.reader)
    (hlast : t.ack.lastseq = s.ack.lastseq)
    (h : ∀ k ∈ s.reader.holding.boxes, t.miov k = s.miov k) (depth : Nat)
    (lefts : List (Option Nat)) : callRest t depth lefts = callRest s depth lefts := by
  rw [callRest, callRest, hreader]
  -- What is left of the call reads the miov in hand and `lastseq`, at the control points below.
  cases hr : s.reader with
  | record tmbuf m access =>
      rw [hr] at h
      have hm : m.map t.miov = m.map s.miov :=
        Option.map_congr fun k hk => h k (Option.mem_toList.mpr hk)
      dsimp only
      rw [hm, Access.keep_congr hlast]
  | reset tmbuf k seq | resetPush tmbuf k seq b =>
      rw [hr] at h
      have hk : t.miov k = s.miov k := h k (List.mem_singleton.mpr rfl)
      dsimp only
      rw [hk]
  | inner tmbuf offset m =>
      cases m with
      | none => rfl
      | some k =>
          rw [hr] at h
          have hk : t.miov k = s.miov k := h k (List.mem_singleton.mpr rfl)
          dsimp only [Option.map_some]
          rw [hk]
  | push tmbuf k recurse =>
      rw [hr] at h
      have hk : t.miov k = s.miov k := h k (List.mem_singleton.mpr rfl)
      cases recurse with
      | true =>
          dsimp only
          rw [hk]
      | false =>
          dsimp only
          rw [hk]
  | _ => rfl

/-- A step of the writer adds to what is written, and to nothing else of the record. -/
theorem write_record (o : Observed) : o.write.pushed = o.pushed ∧ o.write.passes = o.passes := by
  unfold Observed.write
  cases o.egress.writer <;> exact ⟨rfl, rfl⟩

/-- A step of the writer. -/
theorem Refines.write (h : Refines target pps o) (hcons : Conserves o.egress)
    (hstep : writeIntfStep o.egress = .ok t) :
    Refines target pps { o.write with egress := t } := by
  obtain ⟨⟨hreader, hack, hcongest⟩, hframe⟩ := writeIntfStep_frame hstep
  obtain ⟨hpushed, hpasses⟩ := write_record o
  -- All that `Refines` says of the `MIOVBuf`s is about those that the reader has.
  have hmine : ∀ k ∈ o.egress.reader.holding.boxes, t.miov k = o.egress.miov k := fun k hk =>
    hframe k (hcons.balanced.only hk).2.2.1
  rcases h with ⟨rx, hloop, hs⟩ |
    ⟨es, rx, id, data, limited, lefts, calls, base, ms, hes, hloop, hc⟩
  · obtain ⟨m, hm, hrx⟩ := hs.here
    refine .inl ⟨rx, ?_, hpushed.trans hs.pushed, ?_, hcongest.trans hs.congest, m, ?_, ?_⟩
    · show LoopRuns target pps o.write.passes rx
      rw [hpasses]
      exact hloop
    · show t.ack.lastseq = rx.ack.lastseq
      rw [hack]
      exact hs.lastseq
    · show t.reader.between = some m
      rw [hreader]
      exact hm
    · show rx.m = m.map t.miov
      rw [boxes_between hm] at hmine
      rw [hrx]
      exact (Option.map_congr fun k hk => hmine k (Option.mem_toList.mpr hk)).symm
  · refine .inr ⟨es, rx, id, data, limited, lefts, calls, base, ms, hpasses.trans hes, hloop, ?_,
      hc.isData, ?_, hpushed.trans hc.pushed, hc.outq, ?_, hcongest.trans hc.congest, ?_⟩
    · show ∀ l ∈ lefts, l = none ∨ ∃ v ∈ o.write.pushed, v.left = l
      rw [hpushed]
      exact hc.popped
    · show t.reader.between = none
      rw [hreader]
      exact hc.inside
    · show t.reader.pending t.ack.lastseq = _
      rw [hreader, hack]
      exact hc.lastseq
    · intro depth more
      rw [hc.pass]
      show _ = ((callRest t depth more).map _).map _
      rw [callRest_congr hreader (congrArg AckRecord.lastseq hack) hmine]

/-- A turn of `send_ack_infos` that nothing comes between is the one of `Iptfs.Python.Ack`. -/
theorem ackInfos_alone (ns : Nat) (hacker : o.egress.acker = .test)
    (hstart : o.egress.ack.startseq ≠ 0) :
    run (observedStep target) o (List.replicate 6 (.ackInfos ns)) =
      .ok { o with
        egress := { o.egress with ack := (sendAckInfos ns o.egress.ack).2 }
        acks := o.acks ++ (sendAckInfos ns o.egress.ack).1.toList } := by
  simp [run, observedStep, egressStep, sendAckInfosStep, Observed.report, hacker, hstart,
    sendAckInfos]

/-- A step of `send_ack_infos`, wherever the reader is. -/
theorem Refines.ackInfos {ack : AckRecord} {acker : AckSender} {acks : List (List UInt8)}
    (h : Refines target pps o) (hlast : ack.lastseq = o.egress.ack.lastseq) :
    Refines target pps
      { o with egress := { o.egress with ack := ack, acker := acker }, acks := acks } := by
  rcases h with ⟨rx, hloop, hs⟩ |
    ⟨es, rx, id, data, limited, lefts, calls, base, ms, hes, hloop, hc⟩
  · exact .inl ⟨rx, hloop, hs.pushed, hlast.trans hs.lastseq, hs.congest, hs.here⟩
  · refine .inr ⟨es, rx, id, data, limited, lefts, calls, base, ms, hes, hloop, hc.popped,
      hc.isData, hc.inside, hc.pushed, hc.outq, ?_, hc.congest, ?_⟩
    · show o.egress.reader.pending ack.lastseq = _
      rw [hlast]
      exact hc.lastseq
    · -- What is left of the pass does not depend on what it has changed.
      intro depth more
      rw [hc.pass]
      have hrest : callRest { o.egress with ack := ack, acker := acker } depth more =
          callRest o.egress depth more :=
        callRest_congr (t := { o.egress with ack := ack, acker := acker }) (s := o.egress) rfl hlast
          (fun _ _ => rfl) depth more
      rw [hrest]

end Others

/-! ### What is written -/

section Written

variable {target : ℚ} {o : Observed} {t : Egress} {bytes : List UInt8} {limited : Bool}

/-- Each packet that was pushed has been written once, or it is on the way. -/
def Delivered (o : Observed) : Prop :=
  (o.written ++ o.egress.onTheWay.map fun k => (o.egress.miov k).bytes).Perm
    (o.pushed.map MIOVBuf.bytes)

/-- Nothing has been pushed, and nothing is written or on the way. -/
theorem delivered_init (pps : ℚ) (mem : Nat → List UInt8) : Delivered (.init pps mem) :=
  List.Perm.refl []

/-- The `MIOVBuf`s on the way are not those of the reader. -/
theorem Conserves.not_onTheWay {s : Egress} (h : Conserves s) {k : Nat} (hk : k ∈ s.onTheWay) :
    k ∉ s.reader.holding.boxes := by
  intro hmine
  obtain ⟨-, houtq, hwriter, -⟩ := h.balanced.only hmine
  rcases List.mem_append.mp hk with hk | hk
  · exact houtq hk
  · cases hw : s.writer with
    | write j =>
        rw [hw] at hk hwriter
        exact hwriter hk
    | _ =>
        rw [hw] at hk
        cases hk

/-- The step of the reader that pushes the packet `k`, or another one. -/
theorem readTfsStep_pushes (hlong : o.egress.reader.Long)
    (hstep : readTfsStep target o.egress bytes limited = .ok t) :
    ((∀ tmbuf k r, o.egress.reader ≠ .push tmbuf k r) ∧ t.outq = o.egress.outq ∧
        (o.read bytes limited).pushed = o.pushed) ∨
      ∃ tmbuf k r, o.egress.reader = .push tmbuf k r ∧ t.miov = o.egress.miov ∧
        t.outq.queue = k :: o.egress.outq.queue ∧
        (o.read bytes limited).pushed = o.pushed ++ [o.egress.miov k] := by
  -- The log of packets pushed grows at `push` only.
  have hsame : (∀ tmbuf k r, o.egress.reader ≠ .push tmbuf k r) →
      (o.read bytes limited).pushed = o.pushed := by
    intro hpush
    unfold Observed.read
    cases hr : o.egress.reader with
    | push tmbuf k r => exact absurd hr (hpush tmbuf k r)
    | inner tmbuf offset m =>
        cases m with
        | none =>
            dsimp only
            split <;> rfl
        | some k => rfl
    | _ => rfl
  have hpush : ∀ {tmbuf k r}, o.egress.reader = .push tmbuf k r →
      (o.read bytes limited).pushed = o.pushed ++ [o.egress.miov k] := by
    intro tmbuf k r hr
    rw [Observed.read, hr]
  -- Every other step keeps the outq as it is.
  cases readerStep_of_step hlong hstep with
  | recv hr hrecv =>
      refine .inl ⟨by simp [hr], ?_, hsame (by simp [hr])⟩
      cases hrecv <;> rfl
  | record hr hrecord =>
      refine .inl ⟨by simp [hr], ?_, hsame (by simp [hr])⟩
      cases hrecord <;> rfl
  | pushDone hr hq => exact .inr ⟨_, _, _, hr, rfl, (Queue.push_eq_some.mp hq).1, hpush hr⟩
  | pushEnter hr hq _ => exact .inr ⟨_, _, _, hr, rfl, (Queue.push_eq_some.mp hq).1, hpush hr⟩
  | start hr _ | startRef hr | top hr _ | topPush hr _ | pop hr _ | ref hr | resetTurn hr _ _
  | resetEnded hr _ _ | resetPush hr _ | popIov hr _ | keep hr _ | part hr _ | full hr _ =>
      exact .inl ⟨by simp [hr], rfl, hsame (by simp [hr])⟩

/-- An access to the attributes of the outq leaves the reader with its `MIOVBuf`. -/
theorem recordStep_boxes {s : Egress} {tmbuf : Tbuf} {m : Option Nat} {access : Access}
    (h : RecordStep s tmbuf m access t) : t.reader.holding.boxes = m.toList := by
  have hgoes : ∀ {r : TfsReader} {access : Access}, Accessed tmbuf m access r →
      r.holding.boxes = m.toList := by
    intro r access haccessed
    cases haccessed with
    | top | record _ => rfl
    | reset hm _ =>
        rw [hm]
        rfl
  cases h with
  | test _ | count | advance _ => rfl
  | @start _ seq _ _ =>
      have hseq : (Access.test seq).seq = some seq := rfl
      exact hgoes (accessed_pastStart s.ack tmbuf m hseq)
  | @counted dropcnt seq => exact hgoes (accessed_pastCount tmbuf m (.counted dropcnt seq))

/-- The reader keeps its `MIOVBuf` until it pushes it. -/
theorem readTfsStep_boxes (hlong : o.egress.reader.Long)
    (hstep : readTfsStep target o.egress bytes limited = .ok t)
    (hpush : ∀ tmbuf k r, o.egress.reader ≠ .push tmbuf k r) {k : Nat}
    (hk : k ∈ o.egress.reader.holding.boxes) : k ∈ t.reader.holding.boxes := by
  cases readerStep_of_step hlong hstep with
  | start hr _ | startRef hr | popIov hr _ =>
      rw [hr] at hk
      cases hk
  | topPush hr _ | pop hr _ | ref hr | resetEnded hr _ _ | resetPush hr _ | keep hr _
  | part hr _ | full hr _ =>
      rw [hr] at hk
      exact hk
  | top hr hnext | resetTurn hr _ hnext =>
      rw [hr] at hk
      rcases hnext with rfl | rfl <;> exact hk
  | recv hr hrecv =>
      rw [hr] at hk
      cases hrecv <;> exact hk
  | record hr hrecord =>
      rw [hr] at hk
      rw [recordStep_boxes hrecord]
      exact hk
  | pushDone hr _ | pushEnter hr _ _ => exact absurd hr (hpush _ _ _)

/-- A step of the reader. It writes only to the `MIOVBuf` that it has, which leaves its hands at
the push, and from then on its `left` is that of a packet pushed. -/
theorem Reused.read (h : Reused o) (hcons : Conserves o.egress)
    (hstep : readTfsStep target o.egress bytes limited = .ok t) :
    Reused { o.read bytes limited with egress := t } := by
  obtain ⟨-, hframe⟩ := readTfsStep_frame hcons.long hstep
  intro k hk
  show (t.miov k).left = none ∨ ∃ v ∈ (o.read bytes limited).pushed, v.left = (t.miov k).left
  rcases readTfsStep_pushes hcons.long hstep with
    ⟨hpush, -, hpushed⟩ | ⟨tmbuf, j, r, hr, hmiov, -, hpushed⟩
  · have hnot : k ∉ o.egress.reader.holding.boxes :=
      fun hmine => hk (readTfsStep_boxes hcons.long hstep hpush hmine)
    rw [hpushed, hframe k hnot]
    exact h k hnot
  · rw [hpushed, hmiov]
    by_cases hkj : k = j
    · -- It is the packet pushed by this step.
      rw [hkj]
      exact .inr ⟨_, List.mem_append_right _ (List.mem_singleton.mpr rfl), rfl⟩
    · have hnot : k ∉ o.egress.reader.holding.boxes := by
        rw [hr]
        exact fun hmine => hkj (List.mem_singleton.mp hmine)
      rcases h k hnot with hnone | ⟨v, hv, hleft⟩
      · exact .inl hnone
      · exact .inr ⟨v, List.mem_append_left _ hv, hleft⟩

/-- `reset` does not touch `left`, and nothing else that the writer does is about it. -/
theorem Reused.write (h : Reused o) (hstep : writeIntfStep o.egress = .ok t) :
    Reused { o.write with egress := t } := by
  have hreader := (writeIntfStep_frame hstep).1.1
  have hleft : ∀ k, (t.miov k).left = (o.egress.miov k).left := by
    have hset : ∀ (j : Nat) (m : MIOVBuf), m.left = (o.egress.miov j).left → ∀ k,
        (Function.update o.egress.miov j m k).left = (o.egress.miov k).left := by
      intro j m hm k
      rcases eq_or_ne k j with rfl | hne
      · rw [Function.update_self]
        exact hm
      · rw [Function.update_of_ne hne]
    cases writerStep_of_step hstep with
    | pop _ _ | write _ | resetPush _ _ | push _ _ => exact fun _ => rfl
    | resetTurn _ _ _ | resetEnded _ _ => exact hset _ _ rfl
  intro k hk
  have hnot : k ∉ o.egress.reader.holding.boxes := by
    rw [← hreader]
    exact hk
  show (t.miov k).left = none ∨ ∃ v ∈ o.write.pushed, v.left = (t.miov k).left
  rw [hleft, (write_record o).1]
  exact h k hnot

/-- The reader writes nothing to the interface. -/
theorem read_written (o : Observed) : (o.read bytes limited).written = o.written := by
  unfold Observed.read
  cases o.egress.reader with
  | inner tmbuf offset m =>
      cases m with
      | none =>
          dsimp only
          split <;> rfl
      | some k => rfl
  | _ => rfl

/-- A step of the reader leaves the packets on the way as they are, for they are in `MIOVBuf`s
that it does not have. A push puts one more packet on the way. -/
theorem Delivered.read (h : Delivered o) (hcons : Conserves o.egress)
    (hstep : readTfsStep target o.egress bytes limited = .ok t) :
    Delivered { o.read bytes limited with egress := t } := by
  obtain ⟨⟨hwriter, -⟩, hother⟩ := readTfsStep_frame hcons.long hstep
  have hconveyed : Conveyed o.written (fun k => (t.miov k).bytes) o.egress.onTheWay
      (o.pushed.map MIOVBuf.bytes) :=
    Conveyed.congr h fun k hk => by rw [hother k (hcons.not_onTheWay hk)]
  show Conveyed (o.read bytes limited).written _ t.onTheWay
    ((o.read bytes limited).pushed.map MIOVBuf.bytes)
  rw [read_written]
  rcases readTfsStep_pushes hcons.long hstep with
    ⟨-, houtq, hpushed⟩ | ⟨tmbuf, k, r, -, hmiov, houtq, hpushed⟩
  · have hway : t.onTheWay = o.egress.onTheWay := by
      rw [Egress.onTheWay, Egress.onTheWay, houtq, hwriter]
    rw [hpushed, hway]
    exact hconveyed
  · -- The packet `k` is new on both sides, with the bytes that it has at the push.
    have hway : t.onTheWay = k :: o.egress.onTheWay := by
      rw [Egress.onTheWay, Egress.onTheWay, houtq, hwriter, List.cons_append]
    rw [hpushed, hway, List.map_append, ← hmiov]
    exact hconveyed.put k

/-- A step of the writer. The pop moves a packet from the outq to the hands of the writer, where
it is still on the way, and `writev` writes the bytes that its entries gather. After that the
`MIOVBuf` is reset by the writer alone. -/
theorem Delivered.write (h : Delivered o) (hintact : Intact o)
    (hstep : writeIntfStep o.egress = .ok t) : Delivered { o.write with egress := t } := by
  have hkept : ∀ k ∈ o.egress.outq.queue, t.miov k = o.egress.miov k := fun k hk =>
    (writeIntfStep_frame hstep).2 k fun hmine =>
      (hintact.conserves.balanced.symm.only hmine).2.1 hk
  -- `reset` comes after `writev`, and it has the `MIOVBuf` to itself.
  have hwalk : (∀ k, o.egress.writer ≠ .write k) → o.egress.writer.unwritten = [] →
      t.writer.unwritten = [] → t.outq = o.egress.outq →
      Delivered { o.write with egress := t } := by
    intro hwrite hnone hnone' houtq
    have hrec : o.write = o := by
      unfold Observed.write
      cases hw : o.egress.writer with
      | write k => exact absurd hw (hwrite k)
      | _ => rfl
    rw [Delivered, Egress.onTheWay, hnone, List.append_nil] at h
    rw [hrec, Delivered, Egress.onTheWay, hnone', List.append_nil, houtq]
    exact Conveyed.congr h fun k hk => by rw [hkept k hk]
  cases writerStep_of_step hstep with
  | @pop k outq hw hpop =>
      -- The packet leaves the outq, but it is still on the way.
      have hqueue := (Queue.pop_eq_some.mp hpop).1
      have hrec : o.write = o := by rw [Observed.write, hw]
      rw [Delivered, Egress.onTheWay, hw, hqueue] at h
      rw [hrec]
      refine Conveyed.moved h ?_
      show (outq.queue ++ [k]).Perm (k :: outq.queue ++ [])
      rw [List.append_nil]
      exact List.perm_append_singleton _ _
  | @write k hw =>
      -- `writev` takes the bytes from the memory, where no later datagram has touched them.
      have hrec : o.write = { o with written := o.written ++ [(o.egress.miov k).bytes] } := by
        rw [Observed.write, hw, ← hintact.gather k]
      rw [Delivered, Egress.onTheWay, hw] at h
      rw [hrec]
      show Conveyed (o.written ++ [(o.egress.miov k).bytes]) (fun k => (o.egress.miov k).bytes)
        (o.egress.outq.queue ++ []) (o.pushed.map MIOVBuf.bytes)
      rw [List.append_nil]
      exact Conveyed.comes_out h
  | resetTurn hw _ hnext =>
      refine hwalk (by simp [hw]) (by rw [hw]; rfl) ?_ rfl
      rcases hnext with rfl | rfl <;> rfl
  | resetEnded hw _ | resetPush hw _ | push hw _ =>
      exact hwalk (by simp [hw]) (by rw [hw]; rfl) rfl rfl

end Written

/-! ### Runs -/

section Run

variable {target pps : ℚ} {o : Observed}

/-- What the threads keep, with what they have done so far. -/
structure Faithful (target pps : ℚ) (o : Observed) : Prop where
  intact : Intact o
  tidy : Tidy o.egress
  reused : Reused o
  refines : Refines target pps o
  delivered : Delivered o

/-- The initial state of the egress, whatever is in the memory of the buffers. -/
theorem faithful_init (target pps : ℚ) (mem : Nat → List UInt8) :
    Faithful target pps (.init pps mem) where
  intact := intact_init pps mem
  tidy := tidy_init pps
  reused := reused_init pps mem
  refines := refines_init target pps mem
  delivered := delivered_init pps mem

/-- Each step of any of the three threads keeps all five. `send_ack_infos` writes to `startseq` and
`dropcnt`, on which no packet depends, and leaves `lastseq`. -/
theorem Faithful.step {p : Observed} {e : EgressEvent} (h : Faithful target pps o)
    (hstep : observedStep target o e = .ok p) : Faithful target pps p := by
  have hintact : Intact p := h.intact.step hstep
  obtain ⟨hegress, ⟨bytes, limited, rfl, hp⟩ | ⟨rfl, hp⟩ | ⟨ns, rfl, hp⟩⟩ :=
    observedStep_cases hstep
  · have hcons := h.intact.conserves
    refine ⟨hintact, h.tidy.read hcons hegress, ?_, ?_, ?_⟩
    · rw [hp]
      exact h.reused.read hcons hegress
    · rw [hp]
      exact h.refines.read hcons h.tidy h.reused hegress
    · rw [hp]
      exact h.delivered.read hcons hegress
  · have hcons := h.intact.conserves
    refine ⟨hintact, h.tidy.write hcons hegress, ?_, ?_, ?_⟩
    · rw [hp]
      exact h.reused.write hegress
    · rw [hp]
      exact h.refines.write hcons hegress
    · rw [hp]
      exact h.delivered.write h.intact hegress
  · obtain ⟨ack, acker, acks, rfl, hlast⟩ := ackInfos_eq hegress hp
    exact ⟨hintact, h.tidy, h.reused, h.refines.ackInfos hlast, h.delivered⟩

/-- The three threads together keep it in every state that they reach. -/
theorem faithful_of_reachable {mem : Nat → List UInt8}
    (h : Reachable (observedStep target) (.init pps mem) o) : Faithful target pps o :=
  h.induct (faithful_init target pps mem) fun _ _ _ hs hst => hs.step hst

end Run

/-- Whatever the order of the steps, whenever `read_tfs_packets` has no datagram in hand that it may
consume, it is where the sequential loop is after the same datagrams: with the same last number, the
same rate, and the same packet in progress. The loop needs no more than some depth of calls for it.
Each packet that the loop has put out by then has been written to the interface once, byte by byte,
or it is on its way there. Nothing is said of `startseq` and `dropcnt`, which `send_ack_infos` can
change between two accesses of `read_tfs_packets` to them. -/
theorem py_egress_refines (target pps : ℚ) (mem : Nat → List UInt8) {o : Observed}
    (h : Reachable (observedStep target) (.init pps mem) o) {m : Option Nat}
    (hbetween : o.egress.reader.between = some m) :
    ∃ deep rx, (∀ limit ≥ deep,
        run (readTfsPacketsStep target limit) (Rx.init pps) o.passes = .ok rx) ∧
      rx.ack.lastseq = o.egress.ack.lastseq ∧ rx.congest = o.egress.congest ∧
      rx.m = m.map o.egress.miov ∧
      (o.written ++ o.egress.onTheWay.map fun k => (o.egress.miov k).bytes).Perm
        (rx.outq.map MIOVBuf.bytes) := by
  obtain ⟨-, -, -, hrefines, hdelivered⟩ := faithful_of_reachable h
  obtain ⟨rx, ⟨deep, hdeep⟩, hs, hrx⟩ := hrefines.sync hbetween
  refine ⟨deep, rx, fun limit hlimit => (hdeep limit hlimit).1, hs.lastseq.symm,
    hs.congest.symm, hrx, ?_⟩
  rw [← hs.pushed]
  exact hdelivered

/-- What the pops of `iovfreeq` find in such a run of the loop: new objects, and packets that were
pushed on the outq before. -/
theorem py_egress_pooled (target pps : ℚ) (mem : Nat → List UInt8) {o : Observed}
    (h : Reachable (observedStep target) (.init pps mem) o) {m : Option Nat}
    (hbetween : o.egress.reader.between = some m) :
    ∃ deep, ∀ limit ≥ deep,
      Along (readTfsPacketsStep target limit) (Pooled target limit) (Rx.init pps) o.passes := by
  obtain ⟨rx, ⟨deep, hdeep⟩, -, -⟩ := (faithful_of_reachable h).refines.sync hbetween
  exact ⟨deep, fun limit hlimit => (hdeep limit hlimit).2⟩

/-- The datagram number 1, and then number 3. `send_ack_infos` takes the record after number 3 has
passed the test of `startseq`, and before the drop is counted. -/
def ackInGap : List EgressEvent :=
  [turn, turn, turn, turn, turn, turn,
    .reader [0, 0, 0, 1, 0, 0, 0, 0, 0x45, 0, 0, 5, 9, 0x45, 0, 0, 7, 8] false] ++
    List.replicate 8 turn ++ [.writer, .writer] ++
    [turn, turn, turn, .reader [0, 0, 0, 3, 0, 0, 0, 0, 0x45, 0, 0, 6] false, turn] ++ ackTurn ++
    [turn, turn, turn, turn, turn, turn]

/-- The drop goes into the next ACK, whose first number is not known yet. The loop is at number 3,
with the same packet in progress. -/
theorem py_egress_refines_gap : ∃ o deep rx,
    run (observedStep 1) (.init 1 fun _ => [0, 0]) ackInGap = .ok o ∧
      o.egress.ack = ⟨0, 3, 1⟩ ∧ o.written = [[0x45, 0, 0, 5, 9]] ∧
      (∀ limit ≥ deep, run (readTfsPacketsStep 1 limit) (Rx.init 1) o.passes = .ok rx) ∧
      rx.ack.lastseq = 3 ∧ rx.m = some (o.egress.miov 30) ∧
      (o.written ++ o.egress.onTheWay.map fun k => (o.egress.miov k).bytes).Perm
        (rx.outq.map MIOVBuf.bytes) := by
  have hends : (run (observedStep 1) (.init 1 fun _ => [0, 0]) ackInGap).map
      (fun o => (o.egress.reader.between, o.egress.ack, o.written)) =
        .ok (some (some 30), ⟨0, 3, 1⟩, [[0x45, 0, 0, 5, 9]]) := by decide +kernel
  obtain ⟨o, ho, hout⟩ := map_eq_ok.mp hends
  obtain ⟨hbetween, hout⟩ := Prod.mk.inj hout
  obtain ⟨hack, hwritten⟩ := Prod.mk.inj hout
  obtain ⟨deep, rx, hrun, hlast, -, hm, hperm⟩ := py_egress_refines 1 1 _ ⟨_, ho⟩ hbetween
  rw [hack] at hlast
  exact ⟨o, deep, rx, ho, hack, hwritten, hrun, hlast, hm, hperm⟩

end Proofs

end Iptfs.Py
