import Iptfs.Lib.Conserve
import Iptfs.Proofs.Receiver
import Iptfs.Proofs.ZeroCopy

/-!
# `Iptfs.Proofs.EgressRefinement`: two threads do what the loop does

`Iptfs.Model.ReadTfs` has `read_tfs_pkts` as a loop with one step for each datagram, where the
packets of a datagram go out at once. `Iptfs.Model.Egress` has it in small steps, which interleave
with those of `write_intf_pkts`, with miovs that are taken from a queue, shared, and reset. This
module connects the two: whatever the writer does in between, the reader takes the passes of the
loop.

`Refines` is the relation. Between two passes, or up to `recvfrom`, the reader has what the loop has
(`Sync`). In a call of `add_to_inner_packet`, what the call has still to do (`callRest`), with what
it has pushed already, is what the pass of the loop does (`InCall`).

`egress_refines` is the result for the reader, and `written_perm` is the one for the writer: what it
has written, with what is on the way to it, are the packets that the loop has pushed.
-/

set_option autoImplicit false

namespace Iptfs

/-- The miov that `write_intf_pkts` has taken from the outq and not written yet. -/
def IntfWriter.unwritten : IntfWriter → List Nat
  | .write k => [k]
  | _ => []

/-- The miovs on the way from `read_tfs_pkts` to the interface. -/
def Egress.onTheWay (s : Egress) : List Nat := s.outq.queue ++ s.writer.unwritten

namespace Proofs

open Iptfs.Lib

/-! ### The rest of a call -/

/-- What `add_to_inner_packet` does past the header, on the packet in hand. `fuel` is left for the
calls that follow. -/
def innerRest (fuel : Nat) (tbuf : Tbuf) (offset : Nat) (m : Miov) : Res Added :=
  match innerPass tbuf offset m with
  | .error e => .error e
  | .ok pass => applyPass (fun rest => addToInnerPacket fuel rest false none) tbuf m pass

/-- The header is passed over, and the rest follows. -/
theorem addToInnerPacket_enter (fuel : Nat) {tbuf tbuf' : Tbuf} {new : Bool} {offset : Nat}
    (m : Option Miov) (h : enterInner tbuf new = .ok (tbuf', offset)) :
    addToInnerPacket (fuel + 1) tbuf new m = innerRest fuel tbuf' offset (m.getD Miov.clean) := by
  rw [addToInnerPacket, h]
  rfl

/-- What the call of `add_to_inner_packet` under way has still to do. -/
def callRest (s : Egress) (fuel : Nat) : Res Added :=
  match s.reader with
  | .deref tbuf _ | .derefReset tbuf _ _ | .derefPush tbuf _ _ =>
      addToInnerPacket (fuel + 1) tbuf true (some Miov.clean)
  | .inner tbuf offset m => innerRest fuel tbuf offset ((m.map s.miov).getD Miov.clean)
  | .push tbuf k true => (addToInnerPacket fuel tbuf false none).map (Added.cons (s.miov k))
  | .push tbuf k false => .ok ⟨tbuf, none, [s.miov k]⟩
  | _ => .error .fuel

/-- `fuel` is enough for the rest of the call. -/
def CallFuel (fuel : Nat) : TfsReader → Prop
  | .deref tbuf _ | .derefReset tbuf _ _ | .derefPush tbuf _ _ => tbuf.rest.length ≤ fuel + 1
  | .inner tbuf _ _ => tbuf.rest ≠ [] ∧ tbuf.rest.length ≤ fuel + 1
  | .push tbuf _ recurse => recurse = true → tbuf.rest ≠ [] ∧ tbuf.rest.length ≤ fuel
  | _ => False

/-- What is left of a datagram past its header. -/
theorem callFuel_enter {fuel : Nat} {tbuf tbuf' : Tbuf} {new : Bool} {offset : Nat}
    (m : Option Nat) (h : enterInner tbuf new = .ok (tbuf', offset))
    (hle : tbuf.rest.length ≤ fuel + 1) : CallFuel fuel (.inner tbuf' offset m) := by
  obtain ⟨rfl, hne⟩ := enterInner_start h
  refine ⟨hne, ?_⟩
  simp only [Tbuf.rest, List.length_drop] at hle ⊢
  omega

/-- The packets that went out before come in front of those of the rest. -/
theorem prepend_cons (ms : List Miov) (m : Miov) (r : Res Added) :
    (r.map (Added.cons m)).map (Added.prepend ms) = r.map (Added.prepend (ms ++ [m])) := by
  cases r with
  | error e => rfl
  | ok a =>
      show Except.ok _ = Except.ok _
      congr 1
      simp [Added.prepend, Added.cons]

/-! ### The relation -/

/-- What the loop has, where the reader is between two passes of it, or on the way to `recvfrom`.
The ACK timer is checked at the top, and the loop does it with the rest of the pass. -/
def InLoop (cfg : Config) (rx : Rx) (timer : Option Timespec) (ack : Ackinfo)
    (miov : Nat → Miov) : TfsReader → Prop
  | .start | .startRef _ => rx.m = none ∧ ack = rx.ack
  | .top _ m => rx.m = m.map miov ∧ ack = rx.ack
  | .reset _ m | .pop m | .store _ m | .recv _ m =>
      rx.m = m.map miov ∧ ackTimerRecord cfg timer rx.ack = .ok ack
  | _ => False

/-- The reader is in no call, and it has what the loop has. -/
structure Sync (cfg : Config) (o : Observed) (rx : Rx) : Prop where
  pushed : o.pushed = rx.outq
  congest : o.egress.congest = rx.congest
  here : InLoop cfg rx o.timer o.egress.ack o.egress.miov o.egress.reader

/-- The reader is in the call of `add_to_inner_packet` for the pass `e`. `base` is the loop after
the pass, but for what the call returns, and `ms` are the packets that the call has pushed. -/
structure InCall (cfg : Config) (o : Observed) (rx : Rx) (e : RxEvent) (fuel : Nat) (base : Rx)
    (ms : List Miov) : Prop where
  isData : e.recv.isData = true
  enough : CallFuel fuel o.egress.reader
  pushed : o.pushed = rx.outq ++ ms
  outq : base.outq = rx.outq
  ack : base.ack = o.egress.ack
  congest : base.congest = o.egress.congest
  pass : readTfsPktsStep cfg rx e =
    ((callRest o.egress fuel).map (Added.prepend ms)).map fun a =>
      { base with m := a.m, outq := base.outq ++ a.outq }

/-- The egress is where the loop is after the passes so far. -/
def Refines (cfg : Config) (pps : Pps) (o : Observed) : Prop :=
  (∃ rx, run (readTfsPktsStep cfg) (Rx.init pps) o.passes = .ok rx ∧ Sync cfg o rx) ∨
    ∃ es e rx fuel base ms, o.passes = es ++ [e] ∧
      run (readTfsPktsStep cfg) (Rx.init pps) es = .ok rx ∧ InCall cfg o rx e fuel base ms

/-- Nothing has been received, and the loop has not begun. -/
theorem refines_init (cfg : Config) (pps : Pps) (mem : Nat → List UInt8) :
    Refines cfg pps (.init pps mem) :=
  .inl ⟨Rx.init pps, rfl, rfl, rfl, rfl, rfl⟩

/-- The check of the ACK timer does the same in both models. -/
theorem ackTimer_record {cfg : Config} {timer : Option Timespec} {rx : Rx} {ack : Ackinfo}
    (h : ackTimerRecord cfg timer rx.ack = .ok ack) :
    ∃ rx', ackTimer cfg timer rx = .ok rx' ∧ rx'.ack = ack ∧ rx'.m = rx.m ∧
      rx'.congest = rx.congest ∧ rx'.outq = rx.outq := by
  obtain ⟨rx', hok, htimed⟩ := ackTimer_ok cfg timer rx
  refine ⟨rx', hok, ?_, htimed.m, htimed.congest, htimed.outq⟩
  rw [htimed.ack]
  cases timer with
  | none =>
      cases h
      rfl
  | some now =>
      by_cases hone : cfg.oneonly = true
      · simp only [ackTimerRecord, hone, if_true] at h
        cases h
        simp [ackAfter, hone]
      · by_cases hstart : rx.ack.start = 0
        · simp only [ackTimerRecord, hone, sendAck, hstart, if_true] at h
          cases h
          simp [ackAfter, hstart]
        · simp only [ackTimerRecord, hone, sendAck, hstart] at h
          cases h
          simp [ackAfter, hstart, hone]

/-! ### The steps of the reader -/

section Step

variable {cfg : Config} {maxiov : Nat} {pps : Pps} {o : Observed} {t : Egress} {rx : Rx}
  {timer : Option Timespec} {input : Option (List UInt8 × Bool)}

/-- The reader moves on before `recvfrom`, and nothing that the loop knows changes. -/
theorem Refines.goto (h : Refines cfg pps o)
    (hloop : ∀ fuel, ¬ CallFuel fuel o.egress.reader) (hrec : o.read timer input = o)
    (hmiov : t.miov = o.egress.miov) (hack : t.ack = o.egress.ack)
    (hcongest : t.congest = o.egress.congest)
    (hhere : ∀ rx, InLoop cfg rx o.timer o.egress.ack o.egress.miov o.egress.reader →
      InLoop cfg rx o.timer o.egress.ack o.egress.miov t.reader) :
    Refines cfg pps { o.read timer input with egress := t } := by
  rcases h with ⟨rx, hrun, hs⟩ | ⟨es, e, rx, fuel, base, ms, -, -, hc⟩
  · rw [hrec]
    refine .inl ⟨rx, hrun, hs.pushed, hcongest.trans hs.congest, ?_⟩
    show InLoop cfg rx o.timer t.ack t.miov t.reader
    rw [hmiov, hack]
    exact hhere rx hs.here
  · exact absurd hc.enough (hloop fuel)

/-- The reader moves on in its call, and what the call has still to do stays the same. -/
theorem Refines.within (h : Refines cfg pps o)
    (hcall : ∀ rx, ¬ InLoop cfg rx o.timer o.egress.ack o.egress.miov o.egress.reader)
    (hrec : o.read timer input = o) (hack : t.ack = o.egress.ack)
    (hcongest : t.congest = o.egress.congest)
    (hnext : ∀ fuel, CallFuel fuel o.egress.reader →
      CallFuel fuel t.reader ∧ callRest t fuel = callRest o.egress fuel) :
    Refines cfg pps { o.read timer input with egress := t } := by
  rcases h with ⟨rx, -, hs⟩ | ⟨es, e, rx, fuel, base, ms, hpasses, hrun, hc⟩
  · exact absurd hs.here (hcall rx)
  · obtain ⟨henough, hrest⟩ := hnext fuel hc.enough
    rw [hrec]
    refine .inr ⟨es, e, rx, fuel, base, ms, hpasses, hrun, hc.isData, henough, hc.pushed, hc.outq,
      hc.ack.trans hack.symm, hc.congest.trans hcongest.symm, ?_⟩
    rw [hc.pass]
    show _ = ((callRest t fuel).map _).map _
    rw [hrest]

/-- The call returns, and with it the pass of the loop ends. `a` is what the last step of the call
leaves. -/
theorem Refines.finish {b : Nat} {m : Option Nat} {a : Added} (h : Refines cfg pps o)
    (hcall : ∀ rx, ¬ InLoop cfg rx o.timer o.egress.ack o.egress.miov o.egress.reader)
    (hrest : ∀ fuel, CallFuel fuel o.egress.reader → callRest o.egress fuel = .ok a)
    (hpasses : (o.read timer input).passes = o.passes)
    (hpushed : (o.read timer input).pushed = o.pushed ++ a.outq) (hack : t.ack = o.egress.ack)
    (hcongest : t.congest = o.egress.congest) (hreader : t.reader = .top b m)
    (hm : a.m = m.map t.miov) : Refines cfg pps { o.read timer input with egress := t } := by
  rcases h with ⟨rx, -, hs⟩ | ⟨es, e, rx, fuel, base, ms, hes, hrun, hc⟩
  · exact absurd hs.here (hcall rx)
  · have hpass := hc.pass
    rw [hrest fuel hc.enough] at hpass
    refine .inl ⟨{ base with m := a.m, outq := base.outq ++ (ms ++ a.outq) }, ?_, ?_, ?_, ?_⟩
    · show run (readTfsPktsStep cfg) (Rx.init pps) (o.read timer input).passes = _
      rw [hpasses, hes]
      exact run_concat.mpr ⟨rx, hrun, hpass⟩
    · show (o.read timer input).pushed = base.outq ++ (ms ++ a.outq)
      rw [hpushed, hc.pushed, hc.outq, List.append_assoc]
    · exact hcongest.trans hc.congest.symm
    · show InLoop cfg _ _ t.ack t.miov t.reader
      rw [hreader]
      exact ⟨hm, hack.trans hc.ack.symm⟩

/-- The pass of the loop in which `recvfrom` returns a datagram. -/
theorem readTfsPktsStep_got {rx₁ : Rx} {b : Nat} {bytes : List UInt8} {limited : Bool}
    {verdict : Verdict} (htimer : ackTimer cfg timer rx = .ok rx₁)
    (hclass : classify (recvBytes bytes) limited = .ok verdict) :
    readTfsPktsStep cfg rx ⟨timer, .got b bytes limited⟩ =
      dispatch cfg (Tbuf.fresh b (recvBytes bytes)) rx₁ verdict := by
  simp only [readTfsPktsStep, htimer, hclass]

/-- The loop accepts a datagram: the call of `add_to_inner_packet` decides on the packets. -/
theorem acceptData_eq {tbuf : Tbuf} {seq : Nat} (h : ¬ seq ≤ (rx.ack.begin seq).last) :
    acceptData tbuf seq rx =
      (addToInnerPacket tbuf.data.length tbuf true ((rx.ack.begin seq).keep seq rx.m)).map
        fun a => { rx with
          ack := (rx.ack.begin seq).advance seq
          m := a.m
          outq := rx.outq ++ a.outq
          accepted := rx.accepted ++ [seq] } := by
  rw [acceptData, if_neg h]
  cases addToInnerPacket tbuf.data.length tbuf true ((rx.ack.begin seq).keep seq rx.m) <;> rfl

/-! The step at `recvfrom`, by what it receives. -/

/-- The reader is at `recvfrom`, and the loop `rx` comes to `rx₁` there, past the ACK timer. -/
structure AtRecv (cfg : Config) (o : Observed) (b : Nat) (m : Option Nat) (rx rx₁ : Rx) :
    Prop where
  reader : o.egress.reader = .recv b m
  timer : ackTimer cfg o.timer rx = .ok rx₁
  ack : rx₁.ack = o.egress.ack
  m : rx₁.m = m.map o.egress.miov
  congest : rx₁.congest = o.egress.congest
  outq : rx₁.outq = o.pushed
  before : rx₁.outq = rx.outq

/-- The reader comes to `recvfrom` past the check of the ACK timer, and the loop with it. What the
loop has there is what the egress has. -/
theorem Sync.atRecv {b : Nat} {m : Option Nat} (h : Sync cfg o rx)
    (hr : o.egress.reader = .recv b m) : ∃ rx₁, AtRecv cfg o b m rx rx₁ := by
  have hhere := h.here
  rw [hr] at hhere
  obtain ⟨hm, hrecord⟩ := hhere
  obtain ⟨rx₁, htimer, hack, hm₁, hcongest, houtq⟩ := ackTimer_record hrecord
  exact ⟨rx₁, hr, htimer, hack, hm₁.trans hm, hcongest.trans h.congest.symm,
    houtq.trans h.pushed.symm, houtq⟩

section AtRecv

variable {b : Nat} {m : Option Nat} {rx₁ : Rx} {bytes : List UInt8} {limited : Bool}

/-- What is received is in the record. -/
theorem AtRecv.read (h : AtRecv cfg o b m rx rx₁) : o.read timer input = { o with
    mem := recvMem o.mem b input
    passes := o.passes ++ [⟨o.timer, recvInput b input⟩] } := by
  rw [Observed.read, h.reader]

/-- Where the buffer is left for the next datagram, the pass has ended. -/
theorem AtRecv.done (h : AtRecv cfg o b m rx rx₁)
    (hrun : run (readTfsPktsStep cfg) (Rx.init pps) o.passes = .ok rx) (rx' : Rx)
    (hpass : readTfsPktsStep cfg rx ⟨o.timer, recvInput b input⟩ = .ok rx') (hm : rx'.m = rx₁.m)
    (houtq : rx'.outq = rx₁.outq)
    (ht : t = { o.egress with ack := rx'.ack, congest := rx'.congest, reader := .top b m }) :
    Refines cfg pps { o.read timer input with egress := t } := by
  subst ht
  rw [h.read]
  refine .inl ⟨rx', run_concat.mpr ⟨rx, hrun, hpass⟩, ?_, rfl, ?_, rfl⟩
  · exact h.outq.symm.trans houtq.symm
  · exact hm.trans h.m

/-- The pass in which `recvfrom` returns this datagram. -/
theorem AtRecv.got (h : AtRecv cfg o b m rx rx₁) {verdict : Verdict}
    (hclass : classify (recvBytes bytes) limited = .ok verdict) :
    readTfsPktsStep cfg rx ⟨o.timer, recvInput b (some (bytes, limited))⟩ =
      dispatch cfg (Tbuf.fresh b (recvBytes bytes)) rx₁ verdict :=
  readTfsPktsStep_got h.timer hclass

/-- `recvfrom` has failed, or it has returned a datagram without bytes. -/
theorem AtRecv.nothing (h : AtRecv cfg o b m rx rx₁)
    (hrun : run (readTfsPktsStep cfg) (Rx.init pps) o.passes = .ok rx)
    (hpass : readTfsPktsStep cfg rx ⟨o.timer, recvInput b input⟩ = .ok rx₁)
    (hstep : Except.ok { o.egress with reader := .top b m } = (.ok t : Except Stop Egress)) :
    Refines cfg pps { o.read timer input with egress := t } := by
  cases hstep
  refine h.done hrun rx₁ hpass rfl rfl ?_
  rw [h.ack, h.congest]

/-- The datagram is dropped, and counted. -/
theorem AtRecv.drop (h : AtRecv cfg o b m rx rx₁)
    (hrun : run (readTfsPktsStep cfg) (Rx.init pps) o.passes = .ok rx)
    (hpass : readTfsPktsStep cfg rx ⟨o.timer, recvInput b input⟩ = .ok rx₁.drop)
    (hstep : Except.ok { o.egress with ack := o.egress.ack.drop, reader := .top b m } =
      (.ok t : Except Stop Egress)) :
    Refines cfg pps { o.read timer input with egress := t } := by
  cases hstep
  refine h.done hrun rx₁.drop hpass rfl rfl ?_
  show _ = { o.egress with ack := rx₁.ack.drop, congest := rx₁.congest, reader := .top b m }
  rw [h.ack, h.congest]

/-- An ACK goes to `recv_ack`. -/
theorem AtRecv.acked (h : AtRecv cfg o b m rx rx₁)
    (hrun : run (readTfsPktsStep cfg) (Rx.init pps) o.passes = .ok rx)
    (hclass : classify (recvBytes bytes) limited = .ok .ack) {congest : Congest}
    (hack : recvAck cfg (recvBytes bytes) o.egress.congest = .ok congest) :
    Refines cfg pps { o.read timer (some (bytes, limited)) with
      egress := { o.egress with congest := congest, reader := .top b m } } := by
  refine h.done hrun { rx₁ with congest := congest } ?_ rfl rfl ?_
  · rw [h.got hclass]
    show (recvAck cfg (recvBytes bytes) rx₁.congest).map _ = _
    rw [h.congest, hack]
    rfl
  · rw [h.ack]

/-- A late or repeated datagram is ignored. -/
theorem AtRecv.old (h : AtRecv cfg o b m rx rx₁)
    (hrun : run (readTfsPktsStep cfg) (Rx.init pps) o.passes = .ok rx) {seq : Nat}
    (hclass : classify (recvBytes bytes) limited = .ok (.data seq))
    (hold : seq ≤ (o.egress.ack.begin seq).last) :
    Refines cfg pps { o.read timer (some (bytes, limited)) with
      egress := { o.egress with ack := o.egress.ack.begin seq, reader := .top b m } } := by
  refine h.done hrun { rx₁ with ack := rx₁.ack.begin seq } ?_ rfl rfl ?_
  · rw [h.got hclass]
    show acceptData _ seq rx₁ = _
    rw [acceptData, h.ack, if_pos hold]
  · rw [h.ack, h.congest]

/-- A new datagram: what the call of `add_to_inner_packet` has still to do is all of it. -/
theorem AtRecv.call (h : AtRecv cfg o b m rx rx₁)
    (hrun : run (readTfsPktsStep cfg) (Rx.init pps) o.passes = .ok rx) {seq fuel : Nat}
    (hclass : classify (recvBytes bytes) limited = .ok (.data seq))
    (hnew : ¬ seq ≤ (rx₁.ack.begin seq).last) (hfuel : (recvBytes bytes).length = fuel + 1)
    (henough : CallFuel fuel t.reader) (hack : t.ack = (rx₁.ack.begin seq).advance seq)
    (hcongest : t.congest = o.egress.congest)
    (hrest : callRest t fuel = addToInnerPacket (fuel + 1) (Tbuf.fresh b (recvBytes bytes)) true
      ((rx₁.ack.begin seq).keep seq rx₁.m)) :
    Refines cfg pps { o.read timer (some (bytes, limited)) with egress := t } := by
  have hpass : readTfsPktsStep cfg rx ⟨o.timer, recvInput b (some (bytes, limited))⟩ =
      acceptData (Tbuf.fresh b (recvBytes bytes)) seq rx₁ := h.got hclass
  rw [acceptData_eq hnew] at hpass
  have hdata : (recvInput b (some (bytes, limited))).isData = true := by
    rw [recvInput, Recv.isData, hclass]
  rw [h.read]
  refine .inr ⟨o.passes, _, rx, fuel, { rx₁ with
    ack := (rx₁.ack.begin seq).advance seq
    accepted := rx₁.accepted ++ [seq] }, [], rfl, hrun, hdata, henough, ?_, h.before, hack.symm,
    h.congest.trans hcongest.symm, ?_⟩
  · rw [List.append_nil]
    exact h.outq.symm.trans h.before
  · rw [hpass, map_prepend_nil, hrest, ← hfuel]
    rfl

/-- A new datagram: after a gap the packet in progress is abandoned, and else the datagram is added
to it. -/
theorem AtRecv.new (h : AtRecv cfg o b m rx rx₁)
    (hrun : run (readTfsPktsStep cfg) (Rx.init pps) o.passes = .ok rx) {seq : Nat}
    (hclass : classify (recvBytes bytes) limited = .ok (.data seq))
    (hnew : ¬ seq ≤ (rx₁.ack.begin seq).last)
    (hstep : (match m with
      | some k =>
          if (rx₁.ack.begin seq).gap seq then
            Except.ok { o.egress with
              ack := (rx₁.ack.begin seq).advance seq
              reader := .deref (Tbuf.fresh b (recvBytes bytes)) k }
          else
            enterStep { o.egress with ack := (rx₁.ack.begin seq).advance seq }
              (Tbuf.fresh b (recvBytes bytes)) true (some k)
      | none =>
          enterStep { o.egress with ack := (rx₁.ack.begin seq).advance seq }
            (Tbuf.fresh b (recvBytes bytes)) true none) = .ok t) :
    Refines cfg pps { o.read timer (some (bytes, limited)) with egress := t } := by
  obtain ⟨-, hlong, -⟩ := classify_data hclass
  -- The datagram bounds the recursion of `add_to_inner_packet`, each call of which takes bytes.
  obtain ⟨fuel, hfuel⟩ : ∃ fuel, (recvBytes bytes).length = fuel + 1 :=
    ⟨(recvBytes bytes).length - 1, by omega⟩
  have hle : (Tbuf.fresh b (recvBytes bytes)).rest.length ≤ fuel + 1 := by
    rw [← hfuel]
    exact Nat.le_refl _
  have hm := h.m
  cases m with
  | none =>
      obtain ⟨tbuf', offset, henter, rfl⟩ := enterStep_ok hstep
      refine h.call hrun hclass hnew hfuel (callFuel_enter none henter hle) rfl rfl ?_
      -- With no packet in progress there is nothing for a gap to drop.
      have hkeep : (rx₁.ack.begin seq).keep seq rx₁.m = none := by
        rw [hm, Ackinfo.keep]
        split <;> rfl
      rw [hkeep, addToInnerPacket_enter fuel none henter]
      rfl
  | some k =>
      dsimp only at hstep
      split at hstep
      · -- A gap: the thread gives the miov back first, where the loop drops the packet at once.
        rename_i hgap
        cases hstep
        refine h.call hrun hclass hnew hfuel hle rfl rfl ?_
        rw [Ackinfo.keep, if_pos hgap, hm]
        rfl
      · rename_i hgap
        obtain ⟨tbuf', offset, henter, rfl⟩ := enterStep_ok hstep
        refine h.call hrun hclass hnew hfuel (callFuel_enter (some k) henter hle) rfl rfl ?_
        rw [keep_of_not_gap hgap, hm, addToInnerPacket_enter fuel _ henter]
        rfl

/-- The step at `recvfrom` ends the pass, or it begins the call of `add_to_inner_packet`. -/
theorem AtRecv.step (h : AtRecv cfg o b m rx rx₁)
    (hrun : run (readTfsPktsStep cfg) (Rx.init pps) o.passes = .ok rx)
    (hstep : recvStep cfg o.egress b m input = .ok t) :
    Refines cfg pps { o.read timer input with egress := t } := by
  unfold recvStep at hstep
  cases input with
  | none =>
      refine h.nothing hrun ?_ hstep
      rw [recvInput, readTfsPktsStep, h.timer]
  | some p =>
      obtain ⟨bytes, limited⟩ := p
      dsimp only at hstep
      cases hclass : classify (recvBytes bytes) limited with
      | error f =>
          simp only [hclass] at hstep
          cases hstep
      | ok verdict =>
          simp only [hclass] at hstep
          -- The verdict on the datagram decides the branch; each one is a lemma of its own.
          cases verdict with
          | zero => exact h.nothing hrun (h.got hclass) hstep
          | short | limited | version => exact h.drop hrun (h.got hclass) hstep
          | ack =>
              dsimp only at hstep
              split at hstep
              · cases hstep
              · rename_i congest hack
                cases hstep
                exact h.acked hrun hclass hack
          | data seq =>
              dsimp only at hstep
              split at hstep
              · rename_i hold
                cases hstep
                exact h.old hrun hclass hold
              · rename_i hnew
                rw [← h.ack] at hnew hstep
                exact h.new hrun hclass hnew hstep

end AtRecv

/-! The other steps, by where the reader is. -/

/-- What is left of the call, with the control point written out. -/
theorem callRest_reader {s : Egress} {r : TfsReader} (hr : s.reader = r) (fuel : Nat) :
    callRest s fuel = callRest { s with reader := r } fuel := by
  subst hr
  rfl

/-- A pass of `add_to_inner_packet` on the miov `k`. -/
theorem callRest_pass {tbuf : Tbuf} {offset k : Nat} {pass : Pass} {s : Egress}
    (hr : s.reader = .inner tbuf offset (some k))
    (hpass : innerPass tbuf offset (s.miov k) = .ok pass) (fuel : Nat) :
    callRest s fuel =
      applyPass (fun rest => addToInnerPacket fuel rest false none) tbuf (s.miov k) pass := by
  rw [callRest_reader hr]
  show innerRest fuel tbuf offset (s.miov k) = _
  rw [innerRest, hpass]

/-- A pass of `add_to_inner_packet` that pushes the packet `k`. -/
theorem callRest_full {tbuf rest : Tbuf} {offset k start len : Nat} {recurse : Bool} {m : Miov}
    {fuel : Nat} {s : Egress} (hr : s.reader = .inner tbuf offset (some k))
    (hpass : innerPass tbuf offset (s.miov k) = .ok (.full start len rest recurse))
    (hadd : miovAddmbuf (s.miov k) tbuf start len = .ok m)
    (hreader : t.reader = .push rest k recurse) (hmiov : t.miov k = { m with left := 0 }) :
    callRest t fuel = callRest s fuel := by
  rw [callRest_pass hr hpass, applyPass, hadd, callRest, hreader]
  cases recurse with
  | true =>
      show (addToInnerPacket fuel rest false none).map (Added.cons (t.miov k)) = _
      rw [hmiov]
      rfl
  | false =>
      show Except.ok (⟨rest, none, [t.miov k]⟩ : Added) = _
      rw [hmiov]
      rfl

/-- Only three kinds of steps are recorded: the clock reading at the top of the loop, a `recvfrom`,
and a push to the outq. -/
theorem read_quiet (htop : ∀ b m, o.egress.reader ≠ .top b m)
    (hrecv : ∀ b m, o.egress.reader ≠ .recv b m)
    (hpush : ∀ tbuf k r, o.egress.reader ≠ .push tbuf k r) : o.read timer input = o := by
  unfold Observed.read
  cases hr : o.egress.reader with
  | top b m => exact absurd hr (htop b m)
  | recv b m => exact absurd hr (hrecv b m)
  | push tbuf k r => exact absurd hr (hpush tbuf k r)
  | _ => rfl

/-- The check of the ACK timer, with which the pass of the loop begins. -/
theorem Refines.top {b : Nat} {m : Option Nat} {ack : Ackinfo} {r : TfsReader}
    (h : Refines cfg pps o) (hr : o.egress.reader = .top b m)
    (hack : ackTimerRecord cfg timer o.egress.ack = .ok ack)
    (hnext : r = .reset b m ∨ r = .pop m) :
    Refines cfg pps { o.read timer input with
      egress := { o.egress.fetchSub b with ack := ack, reader := r } } := by
  rcases h with ⟨rx, hrun, hs⟩ | ⟨es, e, rx, fuel, base, ms, -, -, hc⟩
  · have hhere := hs.here
    rw [hr] at hhere
    obtain ⟨hm, hold⟩ := hhere
    have hread : o.read timer input = { o with timer := timer } := by rw [Observed.read, hr]
    rw [hread]
    rw [hold] at hack
    refine .inl ⟨rx, hrun, hs.pushed, hs.congest, ?_⟩
    show InLoop cfg rx timer ack o.egress.miov r
    rcases hnext with rfl | rfl
    · exact ⟨hm, hack⟩
    · exact ⟨hm, hack⟩
  · have hno := hc.enough
    rw [hr] at hno
    exact hno.elim

/-- `recvfrom`. -/
theorem Refines.recv {b : Nat} {m : Option Nat} (h : Refines cfg pps o)
    (hr : o.egress.reader = .recv b m) (hstep : recvStep cfg o.egress b m input = .ok t) :
    Refines cfg pps { o.read timer input with egress := t } := by
  rcases h with ⟨rx, hrun, hs⟩ | ⟨es, e, rx, fuel, base, ms, -, -, hc⟩
  · obtain ⟨rx₁, hat⟩ := hs.atRecv hr
    exact hat.step hrun hstep
  · have hno := hc.enough
    rw [hr] at hno
    exact hno.elim

/-- `miov_reset` drops the reference of one entry. The call is still to come. -/
theorem Refines.derefTurn {tbuf : Tbuf} {k : Nat} {v : Iovec} {rest : List Iovec} {r : TfsReader}
    (h : Refines cfg pps o) (hr : o.egress.reader = .deref tbuf k)
    (hnext : r = .deref tbuf k ∨ r = .derefReset tbuf k v.mbuf) :
    Refines cfg pps { o.read timer input with
      egress :=
        { (o.egress.setMiov k { o.egress.miov k with iov := rest }).fetchSub v.mbuf with
          reader := r } } := by
  refine h.within (by simp [hr, InLoop]) (read_quiet (by simp [hr]) (by simp [hr]) (by simp [hr]))
    rfl rfl ?_
  intro fuel hfuel
  rw [hr] at hfuel
  rw [callRest_reader hr]
  rcases hnext with rfl | rfl
  · exact ⟨hfuel, rfl⟩
  · exact ⟨hfuel, rfl⟩

/-- The miov is clean, and the call of `add_to_inner_packet` begins with it. -/
theorem Refines.derefEnded {tbuf tbuf' : Tbuf} {k offset : Nat} (h : Refines cfg pps o)
    (hr : o.egress.reader = .deref tbuf k) (henter : enterInner tbuf true = .ok (tbuf', offset)) :
    Refines cfg pps { o.read timer input with
      egress := { o.egress.setMiov k .clean with reader := .inner tbuf' offset (some k) } } := by
  refine h.within (by simp [hr, InLoop]) (read_quiet (by simp [hr]) (by simp [hr]) (by simp [hr]))
    rfl rfl ?_
  intro fuel hfuel
  rw [hr] at hfuel
  refine ⟨callFuel_enter _ henter hfuel, ?_⟩
  rw [callRest_reader hr]
  show innerRest fuel tbuf' offset (Function.update o.egress.miov k Miov.clean k) =
    addToInnerPacket (fuel + 1) tbuf true (some Miov.clean)
  rw [Function.update_self, addToInnerPacket_enter fuel _ henter]
  rfl

/-- A miov comes from the free queue. It is clean, as the one of the loop is. -/
theorem Refines.popMiov {tbuf : Tbuf} {offset k : Nat} {iovfreeq : Queue Nat}
    (h : Refines cfg pps o) (hintact : Intact maxiov o)
    (hr : o.egress.reader = .inner tbuf offset none)
    (hpop : miovqPop o.egress.iovfreeq = some (k, iovfreeq)) :
    Refines cfg pps { o.read timer input with
      egress := { o.egress with
        iovfreeq := iovfreeq
        reader := .inner tbuf offset (some k) } } := by
  have hclean : o.egress.miov k = Miov.clean := by
    apply hintact.clean.free
    rw [(Queue.pop_eq_some.mp hpop).1]
    exact List.mem_cons_self
  refine h.within (by simp [hr, InLoop]) (read_quiet (by simp [hr]) (by simp [hr]) (by simp [hr]))
    rfl rfl ?_
  intro fuel hfuel
  rw [hr] at hfuel
  refine ⟨hfuel, ?_⟩
  rw [callRest_reader hr]
  show innerRest fuel tbuf offset (o.egress.miov k) = innerRest fuel tbuf offset Miov.clean
  rw [hclean]

/-- The datagram ends without an entry for the packet in progress. -/
theorem Refines.keep {tbuf rest : Tbuf} {offset k : Nat} (h : Refines cfg pps o)
    (hr : o.egress.reader = .inner tbuf offset (some k))
    (hpass : innerPass tbuf offset (o.egress.miov k) = .ok (.keep rest)) :
    Refines cfg pps { o.read timer input with
      egress := { o.egress with reader := .top rest.id (some k) } } := by
  have hrec : o.read timer input = o := read_quiet (by simp [hr]) (by simp [hr]) (by simp [hr])
  refine h.finish (a := ⟨rest, some (o.egress.miov k), []⟩) (by simp [hr, InLoop]) ?_
    (by rw [hrec]) (by rw [hrec]; simp) rfl rfl rfl rfl
  intro fuel _
  rw [callRest_pass hr hpass, applyPass]

/-- The datagram ends with an entry for it, and the packet is not complete. -/
theorem Refines.part {tbuf rest : Tbuf} {offset k start len left : Nat} {m : Miov}
    (h : Refines cfg pps o) (hr : o.egress.reader = .inner tbuf offset (some k))
    (hpass : innerPass tbuf offset (o.egress.miov k) = .ok (.part start len left rest))
    (hadd : miovAddmbuf (o.egress.miov k) tbuf start len = .ok m) :
    Refines cfg pps { o.read timer input with
      egress := { (o.egress.setMiov k { m with left := left }).fetchAdd tbuf.id with
        reader := .top rest.id (some k) } } := by
  have hrec : o.read timer input = o := read_quiet (by simp [hr]) (by simp [hr]) (by simp [hr])
  refine h.finish (a := ⟨rest, some { m with left := left }, []⟩) (by simp [hr, InLoop]) ?_
    (by rw [hrec]) (by rw [hrec]; simp) rfl rfl rfl ?_
  · intro fuel _
    rw [callRest_pass hr hpass, applyPass, hadd]
  · show _ = some (Function.update o.egress.miov k { m with left := left } k)
    rw [Function.update_self]

/-- The packet is complete. It has taken at least one byte of the datagram, so the rest of it needs
no more fuel than there is. -/
theorem Refines.full {tbuf rest : Tbuf} {offset k start len : Nat} {recurse : Bool} {m : Miov}
    (h : Refines cfg pps o) (hr : o.egress.reader = .inner tbuf offset (some k))
    (hpass : innerPass tbuf offset (o.egress.miov k) = .ok (.full start len rest recurse))
    (hadd : miovAddmbuf (o.egress.miov k) tbuf start len = .ok m) :
    Refines cfg pps { o.read timer input with
      egress := { (o.egress.setMiov k { m with left := 0 }).fetchAdd tbuf.id with
        reader := .push rest k recurse } } := by
  refine h.within (by simp [hr, InLoop]) (read_quiet (by simp [hr]) (by simp [hr]) (by simp [hr]))
    rfl rfl ?_
  intro fuel hfuel
  rw [hr] at hfuel
  obtain ⟨hne, hle⟩ := hfuel
  refine ⟨?_, callRest_full hr hpass hadd rfl (Function.update_self ..)⟩
  rintro rfl
  obtain ⟨n, hpos, hlt, rfl⟩ := recurse_advance hne hpass
  refine ⟨Tbuf.rest_advance_ne_nil hlt, ?_⟩
  rw [Tbuf.rest_advance, List.length_drop]
  omega

/-- The packet is pushed, and nothing of the datagram is left. -/
theorem Refines.pushDone {tbuf : Tbuf} {k : Nat} {outq : Queue Nat} (h : Refines cfg pps o)
    (hr : o.egress.reader = .push tbuf k false) :
    Refines cfg pps { o.read timer input with
      egress := { o.egress with outq := outq, reader := .top tbuf.id none } } := by
  have hread : o.read timer input = { o with pushed := o.pushed ++ [o.egress.miov k] } := by
    rw [Observed.read, hr]
  refine h.finish (a := ⟨tbuf, none, [o.egress.miov k]⟩) (by simp [hr, InLoop]) ?_
    (by rw [hread]) (by rw [hread]) rfl rfl rfl rfl
  intro fuel _
  rw [callRest_reader hr]
  rfl

/-- The packet is pushed, and the rest of the datagram goes into another call. -/
theorem Refines.pushEnter {tbuf tbuf' : Tbuf} {k offset : Nat} {outq : Queue Nat}
    (h : Refines cfg pps o) (hr : o.egress.reader = .push tbuf k true)
    (henter : enterInner tbuf false = .ok (tbuf', offset)) :
    Refines cfg pps { o.read timer input with
      egress := { o.egress with outq := outq, reader := .inner tbuf' offset none } } := by
  rcases h with ⟨rx, -, hs⟩ | ⟨es, e, rx, fuel, base, ms, hpasses, hrun, hc⟩
  · have hno := hs.here
    rw [hr] at hno
    exact hno.elim
  · have henough := hc.enough
    rw [hr] at henough
    obtain ⟨hne, hle⟩ := henough rfl
    have hread : o.read timer input = { o with pushed := o.pushed ++ [o.egress.miov k] } := by
      rw [Observed.read, hr]
    obtain ⟨n, rfl⟩ : ∃ n, fuel = n + 1 := by
      have := List.length_pos_iff.mpr hne
      exact ⟨fuel - 1, by omega⟩
    rw [hread]
    refine .inr ⟨es, e, rx, n, base, ms ++ [o.egress.miov k], hpasses, hrun,
      hc.isData, callFuel_enter _ henter hle, ?_, hc.outq, hc.ack, hc.congest, ?_⟩
    · show o.pushed ++ [o.egress.miov k] = rx.outq ++ (ms ++ [o.egress.miov k])
      rw [hc.pushed, List.append_assoc]
    · rw [hc.pass, callRest_reader hr]
      show (((addToInnerPacket (n + 1) tbuf false none).map
        (Added.cons (o.egress.miov k))).map (Added.prepend ms)).map _ = _
      rw [prepend_cons, addToInnerPacket_enter n none henter]
      rfl

/-- A step of the reader, by where it is. -/
theorem Refines.read (h : Refines cfg pps o) (hintact : Intact maxiov o)
    (hstep : readTfsStep cfg maxiov o.egress timer input = .ok t) :
    Refines cfg pps { o.read timer input with egress := t } := by
  cases readerStep_of_step hstep with
  | start hr _ | startRef hr | pop hr _ | reset hr | store hr =>
      refine h.goto (by simp [hr, CallFuel]) (read_quiet (by simp [hr]) (by simp [hr])
        (by simp [hr])) rfl rfl rfl ?_
      intro rx hhere
      rw [hr] at hhere
      exact hhere
  | top hr hack hnext => exact h.top hr hack hnext
  | recv hr hrecv => exact h.recv hr hrecv
  | derefTurn hr _ hnext => exact h.derefTurn hr hnext
  | derefEnded hr _ henter => exact h.derefEnded hr henter
  | derefReset hr | derefPush hr _ =>
      -- An mbuf on its way to the free queue is no part of the call.
      refine h.within (by simp [hr, InLoop]) (read_quiet (by simp [hr]) (by simp [hr])
        (by simp [hr])) rfl rfl ?_
      intro fuel hfuel
      rw [hr] at hfuel
      rw [callRest_reader hr]
      exact ⟨hfuel, rfl⟩
  | popMiov hr hpop => exact h.popMiov hintact hr hpop
  | keep hr hpass => exact h.keep hr hpass
  | part hr hpass hadd => exact h.part hr hpass hadd
  | full hr hpass hadd => exact h.full hr hpass hadd
  | pushDone hr _ => exact h.pushDone hr
  | pushEnter hr _ henter => exact h.pushEnter hr henter

/-! ### The steps of the writer -/

/-- A miov that the reader has is in no queue, and the writer does not have it. -/
theorem Conserves.reader_only {s : Egress} (h : Conserves maxiov s) {k : Nat}
    (hk : k ∈ s.reader.miovs) : k ∉ s.outq.queue ∧ k ∉ s.writer.miovs := by
  have hnodup := h.nodup
  rw [Egress.miovs, List.nodup_append, List.nodup_append, List.nodup_append] at hnodup
  obtain ⟨-, ⟨-, ⟨-, -, hrw⟩, houtq⟩, -⟩ := hnodup
  exact ⟨fun hmem => houtq k hmem k (List.mem_append_left _ hk) rfl,
    fun hmem => hrw k hk k hmem rfl⟩

/-- The miov in the variable of the reader. -/
theorem inLoop_congr {miov miov' : Nat → Miov} {ack : Ackinfo} {r : TfsReader}
    (h : ∀ k ∈ r.miovs, miov' k = miov k) (hr : InLoop cfg rx timer ack miov r) :
    InLoop cfg rx timer ack miov' r := by
  have hmap : ∀ m : Option Nat, (∀ k ∈ m.toList, miov' k = miov k) → m.map miov' = m.map miov := by
    intro m hm
    cases m with
    | none => rfl
    | some k => exact congrArg some (hm k (List.mem_singleton.mpr rfl))
  cases r with
  | start | startRef _ => exact hr
  | top _ m | reset _ m | pop m | store _ m | recv _ m =>
      obtain ⟨hm, hack⟩ := hr
      exact ⟨hm.trans (hmap m h).symm, hack⟩
  | _ => exact hr.elim

/-- What a call has still to do depends on the miov in hand, and on no other. -/
theorem callRest_congr {s : Egress} (hreader : t.reader = s.reader)
    (h : ∀ k ∈ s.reader.miovs, t.miov k = s.miov k) (fuel : Nat) :
    callRest t fuel = callRest s fuel := by
  rw [callRest, callRest, hreader]
  cases hr : s.reader with
  | inner tbuf offset m =>
      cases m with
      | none => rfl
      | some k =>
          rw [hr] at h
          show innerRest fuel tbuf offset (t.miov k) = innerRest fuel tbuf offset (s.miov k)
          rw [h k (List.mem_singleton.mpr rfl)]
  | push tbuf k recurse =>
      rw [hr] at h
      have hk := h k (List.mem_singleton.mpr rfl)
      cases recurse with
      | true =>
          show (addToInnerPacket fuel tbuf false none).map (Added.cons (t.miov k)) = _
          rw [hk]
      | false =>
          show Except.ok (⟨tbuf, none, [t.miov k]⟩ : Added) = _
          rw [hk]
  | _ => rfl

/-- `write_intf_pkts` changes none of the variables of `read_tfs_pkts`. -/
theorem writeIntfStep_frame {s : Egress} (h : writeIntfStep s = .ok t) :
    t.reader = s.reader ∧ t.ack = s.ack ∧ t.congest = s.congest := by
  cases writerStep_of_step h <;> exact ⟨rfl, rfl, rfl⟩

/-- A step of the writer adds to what is written, and to nothing else of the record. -/
theorem write_record (o : Observed) :
    o.write.pushed = o.pushed ∧ o.write.passes = o.passes ∧ o.write.timer = o.timer := by
  unfold Observed.write
  cases o.egress.writer <;> exact ⟨rfl, rfl, rfl⟩

/-- A step of the writer. -/
theorem Refines.write (h : Refines cfg pps o) (hcons : Conserves maxiov o.egress)
    (hstep : writeIntfStep o.egress = .ok t) :
    Refines cfg pps { o.write with egress := t } := by
  obtain ⟨hreader, hack, hcongest⟩ := writeIntfStep_frame hstep
  obtain ⟨hpushed, hpasses, htimer⟩ := write_record o
  have hmine : ∀ k ∈ o.egress.reader.miovs, t.miov k = o.egress.miov k := fun k hk =>
    (writeIntfStep_miovs hstep).1 k (hcons.reader_only hk).2
  rcases h with ⟨rx, hrun, hs⟩ | ⟨es, e, rx, fuel, base, ms, hes, hrun, hc⟩
  · refine .inl ⟨rx, ?_, hpushed.trans hs.pushed, hcongest.trans hs.congest, ?_⟩
    · show run _ _ o.write.passes = _
      rw [hpasses]
      exact hrun
    · show InLoop cfg rx o.write.timer t.ack t.miov t.reader
      rw [htimer, hack, hreader]
      exact inLoop_congr hmine hs.here
  · refine .inr ⟨es, e, rx, fuel, base, ms, hpasses.trans hes, hrun, hc.isData, ?_,
      hpushed.trans hc.pushed, hc.outq, hc.ack.trans hack.symm, hc.congest.trans hcongest.symm, ?_⟩
    · show CallFuel fuel t.reader
      rw [hreader]
      exact hc.enough
    · rw [hc.pass]
      show _ = ((callRest t fuel).map _).map _
      rw [callRest_congr hreader hmine]

/-- Each step of either thread keeps the egress where the loop is after the passes so far. -/
theorem Refines.step {p : Observed} {e : EgressEvent} (h : Refines cfg pps o)
    (hintact : Intact maxiov o) (hstep : observedStep cfg maxiov o e = .ok p) :
    Refines cfg pps p := by
  obtain ⟨hegress, ⟨timer, input, rfl, hp⟩ | ⟨rfl, hp⟩⟩ := observedStep_cases hstep
  · rw [hp]
    exact h.read hintact hegress
  · rw [hp]
    exact h.write hintact.conserves hegress

/-! ### What is written -/

/-- Each packet that was pushed has been written once, or it is on the way. -/
def Delivered (o : Observed) : Prop :=
  (o.written ++ o.egress.onTheWay.map fun k => (o.egress.miov k).bytes).Perm
    (o.pushed.map Miov.bytes)

/-- Nothing has been pushed, and nothing is written or on the way. -/
theorem delivered_init (pps : Pps) (mem : Nat → List UInt8) : Delivered (.init pps mem) :=
  List.Perm.refl []

/-- The miovs on the way are not those of the reader. -/
theorem Conserves.not_onTheWay {s : Egress} (h : Conserves maxiov s) {k : Nat}
    (hk : k ∈ s.onTheWay) : k ∉ s.reader.miovs := by
  intro hmine
  obtain ⟨houtq, hwriter⟩ := h.reader_only hmine
  rcases List.mem_append.mp hk with hk | hk
  · exact houtq hk
  · cases hw : s.writer with
    | write j =>
        rw [hw] at hk hwriter
        exact hwriter hk
    | _ =>
        rw [hw] at hk
        cases hk

/-- The step of the reader that pushes the packet `k`, or another one. -/
theorem readTfsStep_pushes (hstep : readTfsStep cfg maxiov o.egress timer input = .ok t) :
    (t.outq = o.egress.outq ∧ (o.read timer input).pushed = o.pushed) ∨
      ∃ tbuf k r, o.egress.reader = .push tbuf k r ∧ t.miov = o.egress.miov ∧
        t.outq.queue = k :: o.egress.outq.queue ∧
        (o.read timer input).pushed = o.pushed ++ [o.egress.miov k] := by
  have hsame : (∀ tbuf k r, o.egress.reader ≠ .push tbuf k r) →
      (o.read timer input).pushed = o.pushed := by
    intro hpush
    unfold Observed.read
    cases hr : o.egress.reader with
    | push tbuf k r => exact absurd hr (hpush tbuf k r)
    | _ => rfl
  have hpush : ∀ {tbuf k r}, o.egress.reader = .push tbuf k r →
      (o.read timer input).pushed = o.pushed ++ [o.egress.miov k] := by
    intro tbuf k r hr
    rw [Observed.read, hr]
  cases readerStep_of_step hstep with
  | recv hr hrecv =>
      refine .inl ⟨?_, hsame (by simp [hr])⟩
      obtain ⟨ack, congest, rfl | ⟨-, -, -, ⟨k, -, rfl⟩ | ⟨tbuf, offset, -, rfl⟩⟩⟩ :=
        recvStep_cases hrecv <;> rfl
  | pushDone hr hq => exact .inr ⟨_, _, _, hr, rfl, (Queue.push_eq_some.mp hq).1, hpush hr⟩
  | pushEnter hr hq _ => exact .inr ⟨_, _, _, hr, rfl, (Queue.push_eq_some.mp hq).1, hpush hr⟩
  | start hr _ | startRef hr | top hr _ _ | reset hr | pop hr _ | store hr | derefTurn hr _ _
  | derefEnded hr _ _ | derefReset hr | derefPush hr _ | popMiov hr _ | keep hr _
  | part hr _ _ | full hr _ _ => exact .inl ⟨rfl, hsame (by simp [hr])⟩

/-- The reader writes nothing to the interface. -/
theorem read_written (o : Observed) : (o.read timer input).written = o.written := by
  unfold Observed.read
  cases o.egress.reader <;> rfl

/-- A step of the reader leaves the packets on the way as they are, for they are in miovs that it
does not have. A push puts one more packet on the way. -/
theorem Delivered.read (h : Delivered o) (hcons : Conserves maxiov o.egress)
    (hstep : readTfsStep cfg maxiov o.egress timer input = .ok t) :
    Delivered { o.read timer input with egress := t } := by
  obtain ⟨hwriter, hother, -⟩ := readTfsStep_miovs hstep
  have hconveyed : Conveyed o.written (fun k => (t.miov k).bytes) o.egress.onTheWay
      (o.pushed.map Miov.bytes) :=
    Conveyed.congr h fun k hk => by rw [hother k (hcons.not_onTheWay hk)]
  show Conveyed (o.read timer input).written _ t.onTheWay
    ((o.read timer input).pushed.map Miov.bytes)
  rw [read_written]
  rcases readTfsStep_pushes hstep with ⟨houtq, hpushed⟩ | ⟨tbuf, k, r, -, hmiov, houtq, hpushed⟩
  · have hway : t.onTheWay = o.egress.onTheWay := by
      rw [Egress.onTheWay, Egress.onTheWay, houtq, hwriter]
    rw [hpushed, hway]
    exact hconveyed
  · have hway : t.onTheWay = k :: o.egress.onTheWay := by
      rw [Egress.onTheWay, Egress.onTheWay, houtq, hwriter, List.cons_append]
    rw [hpushed, hway, List.map_append, ← hmiov]
    exact hconveyed.put k

/-- A miov that the writer has is not on the outq. -/
theorem Conserves.writer_only {s : Egress} (h : Conserves maxiov s) {k : Nat}
    (hk : k ∈ s.outq.queue) : k ∉ s.writer.miovs := by
  have hnodup := h.nodup
  rw [Egress.miovs, List.nodup_append, List.nodup_append] at hnodup
  obtain ⟨-, ⟨-, -, houtq⟩, -⟩ := hnodup
  exact fun hmem => houtq k hk k (List.mem_append_right _ hmem) rfl

/-- A step of the writer. The pop moves a packet from the outq to the hands of the writer, where
it is still on the way, and `writev` writes the bytes that its entries gather. After that the miov
is cleared by the writer alone. -/
theorem Delivered.write (h : Delivered o) (hintact : Intact maxiov o)
    (hstep : writeIntfStep o.egress = .ok t) : Delivered { o.write with egress := t } := by
  have hcons := hintact.conserves
  have hkept : ∀ k ∈ o.egress.outq.queue, t.miov k = o.egress.miov k := fun k hk =>
    (writeIntfStep_miovs hstep).1 k (hcons.writer_only hk)
  -- The walk of `miov_reset` comes after `writev`, and it has the miov to itself.
  have hwalk : (∀ k, o.egress.writer ≠ .write k) → o.egress.writer.unwritten = [] →
      t.writer.unwritten = [] → t.outq = o.egress.outq →
      Delivered { o.write with egress := t } := by
    intro hwrite hnone hnone' houtq
    have hrec : o.write = o := by
      unfold Observed.write
      cases hw : o.egress.writer with
      | write k => exact absurd hw (hwrite k)
      | _ => rfl
    rw [Delivered, Egress.onTheWay, hnone, List.append_nil] at h
    rw [hrec, Delivered, Egress.onTheWay, hnone', List.append_nil, houtq]
    exact Conveyed.congr h fun k hk => by rw [hkept k hk]
  cases writerStep_of_step hstep with
  | @pop k outq hw hpop =>
      have hqueue := (Queue.pop_eq_some.mp hpop).1
      have hrec : o.write = o := by rw [Observed.write, hw]
      rw [Delivered, Egress.onTheWay, hw, hqueue] at h
      rw [hrec]
      refine Conveyed.moved h ?_
      show (outq.queue ++ [k]).Perm (k :: outq.queue ++ [])
      rw [List.append_nil]
      exact List.perm_append_singleton _ _
  | @write k hw =>
      have hk : k < OUTERQSZ := by
        refine (hcons.of_writer ?_).1
        rw [hw]
        exact List.mem_singleton.mpr rfl
      have hrec : o.write = { o with written := o.written ++ [(o.egress.miov k).bytes] } := by
        rw [Observed.write, hw, ← hintact.gather hk]
      rw [Delivered, Egress.onTheWay, hw] at h
      rw [hrec]
      show Conveyed (o.written ++ [(o.egress.miov k).bytes]) (fun k => (o.egress.miov k).bytes)
        (o.egress.outq.queue ++ []) (o.pushed.map Miov.bytes)
      rw [List.append_nil]
      exact Conveyed.comes_out h
  | derefTurn hw _ hnext =>
      refine hwalk (by simp [hw]) (by rw [hw]; rfl) ?_ rfl
      rcases hnext with rfl | rfl <;> rfl
  | derefEnded hw _ | derefReset hw | derefPush hw _ | push hw _ =>
      exact hwalk (by simp [hw]) (by rw [hw]; rfl) rfl rfl

/-! ### Runs -/

/-- What the two threads keep, with what they have done so far. -/
structure Faithful (cfg : Config) (pps : Pps) (maxiov : Nat) (o : Observed) : Prop where
  intact : Intact maxiov o
  refines : Refines cfg pps o
  delivered : Delivered o

/-- Each step of either thread keeps all three. The refinement and the delivery both need that the
buffers in use are not overwritten, which the first one says. -/
theorem Faithful.step (hfits : RefcntFits maxiov) {p : Observed} {e : EgressEvent}
    (h : Faithful cfg pps maxiov o) (hstep : observedStep cfg maxiov o e = .ok p) :
    Faithful cfg pps maxiov p := by
  refine ⟨h.intact.step hfits hstep, h.refines.step h.intact hstep, ?_⟩
  obtain ⟨hegress, ⟨timer, input, rfl, hp⟩ | ⟨rfl, hp⟩⟩ := observedStep_cases hstep
  · rw [hp]
    exact h.delivered.read h.intact.conserves hegress
  · rw [hp]
    exact h.delivered.write h.intact hegress

/-- The initial state of the egress, whatever is in the memory of the buffers. -/
theorem faithful_init (cfg : Config) (pps : Pps) (maxiov : Nat) (mem : Nat → List UInt8) :
    Faithful cfg pps maxiov (.init pps mem) :=
  ⟨intact_init maxiov pps mem, refines_init cfg pps mem, delivered_init pps mem⟩

/-- Both threads together keep it in every state that they reach. -/
theorem faithful_of_reachable (hfits : RefcntFits maxiov) {mem : Nat → List UInt8}
    (h : Reachable (observedStep cfg maxiov) (.init pps mem) o) : Faithful cfg pps maxiov o :=
  h.induct (faithful_init cfg pps maxiov mem) fun _ _ _ hs hst => hs.step hfits hst

end Step

/-- Whatever the order of the steps, whenever `read_tfs_pkts` is at the top of its loop, it has
what the sequential loop has after the same passes: the record of arrivals, the rate, and the packet
in progress. Each packet that the loop has put out by then has been written to the interface once,
byte by byte, or it is on its way there. -/
theorem egress_refines (cfg : Config) {maxiov : Nat} (hfits : RefcntFits maxiov) (pps : Pps)
    (mem : Nat → List UInt8) {o : Observed}
    (h : Reachable (observedStep cfg maxiov) (.init pps mem) o) {b : Nat} {m : Option Nat}
    (htop : o.egress.reader = .top b m) :
    ∃ rx, run (readTfsPktsStep cfg) (Rx.init pps) o.passes = .ok rx ∧
      rx.ack = o.egress.ack ∧ rx.congest = o.egress.congest ∧ rx.m = m.map o.egress.miov ∧
      (o.written ++ o.egress.onTheWay.map fun k => (o.egress.miov k).bytes).Perm
        (rx.outq.map Miov.bytes) := by
  obtain ⟨-, hrefines, hdelivered⟩ := faithful_of_reachable hfits h
  rcases hrefines with ⟨rx, hrun, hs⟩ | ⟨es, e, rx, fuel, base, ms, -, -, hc⟩
  · have hhere := hs.here
    rw [htop] at hhere
    refine ⟨rx, hrun, hhere.2.symm, hs.congest.symm, hhere.1, ?_⟩
    rw [← hs.pushed]
    exact hdelivered
  · have hno := hc.enough
    rw [htop] at hno
    exact hno.elim

/-- Applied where one packet is written and a part of the next one has come. -/
theorem egress_refines_part : ∃ o rx,
    run (observedStep ⟨1500, false, false⟩ 8) (.init ⟨100, 100, 10000000⟩ fun _ => [])
      packetAndPart = .ok o ∧
      o.written = [[0x45, 0, 0, 5, 9]] ∧
      run (readTfsPktsStep ⟨1500, false, false⟩) (Rx.init ⟨100, 100, 10000000⟩) o.passes = .ok rx ∧
      rx.m = some (o.egress.miov 254) ∧
      (o.written ++ o.egress.onTheWay.map fun k => (o.egress.miov k).bytes).Perm
        (rx.outq.map Miov.bytes) := by
  have hends : (run (observedStep ⟨1500, false, false⟩ 8)
      (.init ⟨100, 100, 10000000⟩ fun _ => []) packetAndPart).map
        (fun o => (o.egress.reader, o.written)) =
          .ok (.top 255 (some 254), [[0x45, 0, 0, 5, 9]]) := by decide +kernel
  cases hrun : run (observedStep ⟨1500, false, false⟩ 8)
      (.init ⟨100, 100, 10000000⟩ fun _ => []) packetAndPart with
  | error e =>
      rw [hrun] at hends
      cases hends
  | ok o =>
      rw [hrun] at hends
      obtain ⟨htop, hwritten⟩ := Prod.mk.inj (Except.ok.inj hends)
      obtain ⟨rx, hok, -, -, hm, hperm⟩ :=
        egress_refines ⟨1500, false, false⟩ (by unfold RefcntFits; decide) _ _ ⟨_, hrun⟩ htop
      exact ⟨o, rx, rfl, hwritten, hok, hm, hperm⟩

end Proofs

end Iptfs
