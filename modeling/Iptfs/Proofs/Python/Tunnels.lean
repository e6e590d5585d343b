import Iptfs.Proofs.EndToEnd
import Iptfs.Proofs.Python.EgressDrain
import Iptfs.Proofs.Python.IngressSimulation
import Iptfs.Proofs.Python.Interop
import Iptfs.Python.Line

/-!
# `Iptfs.Proofs.Python.Tunnels`: to the interface of the Python program

What `Iptfs.Proofs.EndToEnd` has for the C program at the far end, for the Python program there.
`Attached` is what the far end keeps: it makes the passes of the loop in `read_tfs_packets`
(`Faithful`), and what the passes receive is what the network brings (`Received`). The loop does on
them what the loop of the C program does between two ACKs (`Alike`), so it follows the channel of
the frames.

`send_ack_infos` leaves `outq.lastseq` as it is, and what the loop does with a datagram depends on
no other attribute of the outq. So nothing is said here about when ACKs go out, where the results on
the C program have to exclude them.

The near end is any ingress whose calls are those of a sender: `pyToPyStep` has the Python program
there, `cToPyStep` the C program.
-/

set_option autoImplicit false

namespace Iptfs.Py

open Iptfs.Lib Iptfs.Lib.Framing

/-- The pass brings something for `add_to_inner_packet`. -/
def RxEvent.isData : RxEvent → Bool
  | .recv _ bytes limited _ => Iptfs.Py.isData bytes limited
  | .ackInfos _ => false

namespace Proofs

open Iptfs.Proofs (Ipv4 Framed Follows Calls accepts arrivals_sublist copiesOf datagram_of_handed
  ends_of_one ipv4Packet passed_copiesOf)

/-! ### What the network brings -/

/-- What the passes received: copies of the datagrams in `sent`, those numbered `ns` past the
limiter, and others that have no data. -/
inductive Received (sent : List (List UInt8 × Bool)) : List RxEvent → List Nat → Prop
  | nil : Received sent [] []
  | copy {es : List RxEvent} {ns : List Nat} {id n : Nat} {bytes : List UInt8} {limited : Bool}
      {lefts : List (Option Nat)} (h : Received sent es ns)
      (hsent : sent[n]? = some (bytes, true)) :
      Received sent (es ++ [.recv id bytes limited lefts]) (ns ++ if limited then [] else [n])
  | other {es : List RxEvent} {ns : List Nat} {e : RxEvent} (h : Received sent es ns)
      (hdata : e.isData = false) : Received sent (es ++ [e]) ns

section Network

variable {sent : List (List UInt8 × Bool)} {es : List RxEvent} {ns : List Nat}

/-- More datagrams are sent. -/
theorem Received.mono {sent' : List (List UInt8 × Bool)} (h : Received sent es ns)
    (hgrown : sent <+: sent') : Received sent' es ns := by
  induction h with
  | nil => exact .nil
  | copy _ hsent ih =>
      obtain ⟨more, rfl⟩ := hgrown
      refine ih.copy ?_
      rw [List.getElem?_append_left (List.getElem?_eq_some_iff.mp hsent).1]
      exact hsent
  | other _ hdata ih => exact ih.other hdata

/-- One more value of `left` comes to light. -/
theorem Received.popped (h : Received sent es ns) (left : Option Nat) :
    Received sent (addLeft left es) ns := by
  induction h with
  | nil => exact .nil
  | copy h hsent _ =>
      rw [addLeft_concat]
      exact h.copy hsent
  | @other es ns e h hdata _ =>
      rw [addLeft_concat]
      refine h.other ?_
      cases e <;> exact hdata

/-- What `recvfrom_into` returns is what the network can bring. -/
theorem Received.recv (h : Received sent es ns) {net : Transit} {bytes : List UInt8}
    {limited : Bool} (hinput : net.input sent = some (bytes, limited)) (b : Nat)
    (lefts : List (Option Nat)) :
    Received sent (es ++ [.recv b bytes limited lefts]) (ns ++ net.past) := by
  cases net with
  | copy n limited' =>
      rw [Transit.input] at hinput
      split at hinput
      · rename_i bytes' hsent
        cases hinput
        have hcopy : Received sent (es ++ [.recv b bytes limited lefts])
            (ns ++ if limited then [] else [n]) := h.copy hsent
        cases limited with
        | true => exact hcopy
        | false => exact hcopy
      · cases hinput
  | other bytes' limited' =>
      rw [Transit.input] at hinput
      split at hinput
      · cases hinput
      · rename_i hdata
        cases hinput
        show Received sent _ (ns ++ [])
        rw [List.append_nil]
        exact h.other (Bool.not_eq_true _ ▸ hdata)

/-- The last event: a copy of a datagram that was sent, or one without data. -/
theorem Received.last {e : RxEvent} (h : Received sent (es ++ [e]) ns) :
    (∃ ms id n bytes limited lefts, e = .recv id bytes limited lefts ∧
        sent[n]? = some (bytes, true) ∧ Received sent es ms ∧
        ns = ms ++ if limited then [] else [n]) ∨
      e.isData = false ∧ Received sent es ns := by
  generalize hpasses : es ++ [e] = passes at h
  cases h with
  | nil => exact absurd hpasses (by simp)
  | copy h hsent =>
      obtain ⟨rfl, hlast⟩ := List.append_inj' hpasses rfl
      cases hlast
      exact .inl ⟨_, _, _, _, _, _, rfl, hsent, h, rfl⟩
  | other h hno =>
      obtain ⟨rfl, hlast⟩ := List.append_inj' hpasses rfl
      cases hlast
      exact .inr ⟨hno, h⟩

end Network

/-! ### The loop over the network -/

section Follow

variable {cfg : Config} {s : Sender} {ks : List (Cut UInt8)} {target pps : ℚ} {limit : Nat}

/-- A pass with a copy of a datagram, at both receivers. -/
theorem Alike.copy (target : ℚ) (h9 : 8 < cfg.tfsmtu) (hmax : cfg.tfsmtu ≤ 9000)
    (hf : Framed Ipv4 cfg s ks) (hcount : ks.length < 2 ^ 32)
    (hlimit : cfg.tfsmtu + 12 < 20 * limit) {r : Rx} {t : Track} {ns : List Nat}
    (h : Alike r t.rx) (hlast : t.rx.ack.last = t.next)
    (hfollows : Follows ks t (Iptfs.records ns)) {n : Nat} {bytes : List UInt8}
    (hsent : s.handed[n]? = some (bytes, true)) (id : Nat) (limited : Bool)
    (lefts : List (Option Nat)) :
    ∃ r' u, readTfsPacketsStep target limit r (.recv id bytes limited lefts) = .ok r' ∧
      Alike r' u.rx ∧ u.rx.ack.last = u.next ∧
      Follows ks u (Iptfs.records (ns ++ if limited then [] else [n])) := by
  have hdatagram := datagram_of_handed hsent
  have hsome : (s.datagram n).isSome := by
    rw [hdatagram]
    rfl
  rw [← passed_copiesOf ns] at hfollows
  obtain ⟨u, hu, hnext, hfollows'⟩ := hfollows.step_records h9 (Nat.le_trans hmax (by decide)) hf
    hcount hlast (a := ⟨none, id, n, limited⟩) rfl hsome
  rw [Iptfs.Proofs.passed_concat, passed_copiesOf] at hfollows'
  obtain ⟨r', hr', halike⟩ := Alike.step h9 hmax hf hcount target hlimit hfollows hlast h id limited
    lefts hsome hu
  rw [hdatagram, Option.getD_some] at hr'
  exact ⟨r', u, hr', halike, hnext, hfollows'⟩

/-- A pass with something else leaves the reassembly alone. -/
theorem other_pass {r r' : Rx} {e : RxEvent} (hdata : e.isData = false)
    (h : readTfsPacketsStep target limit r e = .ok r') :
    r'.ack.lastseq = r.ack.lastseq ∧ r'.m = r.m ∧ r'.outq = r.outq := by
  cases e with
  | ackInfos ns =>
      cases h
      refine ⟨?_, rfl, rfl⟩
      show (sendAckInfos ns r.ack).2.lastseq = r.ack.lastseq
      unfold sendAckInfos
      split <;> rfl
  | recv id bytes limited lefts =>
      unfold readTfsPacketsStep at h
      dsimp only at h
      split at h
      · cases h
      · rename_i verdict hclass
        cases verdict with
        | short | limited | version =>
            cases h
            exact ⟨rfl, rfl, rfl⟩
        | ack =>
            obtain ⟨g, -, rfl⟩ := map_eq_ok.mp h
            exact ⟨rfl, rfl, rfl⟩
        | data seq =>
            -- Only here would `add_to_inner_packet` be called.
            rw [RxEvent.isData, isData, hclass] at hdata
            cases hdata

/-- The loop over what the network brings. Induction on the passes, at their end. -/
theorem follows_received (h9 : 8 < cfg.tfsmtu) (hmax : cfg.tfsmtu ≤ 9000)
    (hf : Framed Ipv4 cfg s ks) (hcount : ks.length < 2 ^ 32)
    (hlimit : cfg.tfsmtu + 12 < 20 * limit) {es : List RxEvent} {ns : List Nat}
    (h : Received s.handed es ns) :
    ∀ {r : Rx}, run (readTfsPacketsStep target limit) (Rx.init pps) es = .ok r →
      ∃ t : Track, Alike r t.rx ∧ t.rx.ack.last = t.next ∧ Follows ks t (Iptfs.records ns) := by
  induction h with
  | nil =>
      intro r hrun
      cases hrun
      exact ⟨⟨Iptfs.Rx.init ⟨1, 1, 1⟩, 0⟩, ⟨rfl, trivial, rfl⟩, rfl,
        Iptfs.Proofs.follows_init ks ⟨1, 1, 1⟩⟩
  | @copy es ns id n bytes limited lefts h hsent ih =>
      intro r hrun
      obtain ⟨r₀, hrun₀, hpass⟩ := run_concat.mp hrun
      obtain ⟨t, halike, hlast, hfollows⟩ := ih hrun₀
      obtain ⟨r', u, hr', halike', hnext, hfollows'⟩ :=
        Alike.copy target h9 hmax hf hcount hlimit halike hlast hfollows hsent id limited lefts
      rw [hr'] at hpass
      cases hpass
      exact ⟨u, halike', hnext, hfollows'⟩
  | @other es ns e h hdata ih =>
      intro r hrun
      obtain ⟨r₀, hrun₀, hpass⟩ := run_concat.mp hrun
      obtain ⟨t, halike, hlast, hfollows⟩ := ih hrun₀
      obtain ⟨hseq, hm, houtq⟩ := other_pass hdata hpass
      refine ⟨t, ⟨hseq.trans halike.last, ?_, ?_⟩, hlast, hfollows⟩
      · rw [hm]
        exact halike.m
      · rw [houtq]
        exact halike.outq

end Follow

/-! ### The far end -/

/-- What the far end keeps: it does what the loop does, and it receives what the network brings. -/
structure Attached (target pps : ℚ) (sent : List (List UInt8 × Bool)) (o : Observed)
    (copies : List Nat) : Prop where
  faithful : Faithful target pps o
  received : Received sent o.passes copies

section FarEnd

variable {target pps : ℚ} {sent : List (List UInt8 × Bool)} {o p : Observed} {copies : List Nat}

/-- The far end before the first datagram. -/
theorem attached_init (target pps : ℚ) (sent : List (List UInt8 × Bool))
    (mem : Nat → List UInt8) : Attached target pps sent (.init pps mem) [] where
  faithful := faithful_init target pps mem
  received := .nil

/-- A step of `read_tfs_packets` adds a datagram to the record, or the `left` that a pop found, or
nothing. -/
theorem read_passes (o : Observed) (bytes : List UInt8) (limited : Bool) :
    (∃ b m, o.egress.reader = .recv b m ∧
        (o.read bytes limited).passes = o.passes ++ [.recv b bytes limited []]) ∨
      (∀ b m, o.egress.reader ≠ .recv b m) ∧
        ((o.read bytes limited).passes = o.passes ∨
          ∃ left, (o.read bytes limited).passes = addLeft left o.passes) := by
  unfold Observed.read
  cases hr : o.egress.reader with
  | recv b m => exact .inl ⟨b, m, rfl, rfl⟩
  | inner tmbuf offset m =>
      refine .inr ⟨by simp, ?_⟩
      cases m with
      | some k => exact .inl rfl
      | none =>
          dsimp only
          split
          · exact .inl rfl
          · exact .inr ⟨_, rfl⟩
  | _ => exact .inr ⟨by simp, .inl rfl⟩

/-- A step of `read_tfs_packets`, with what the network brings. -/
theorem Attached.read {σ : Type} {l : Line σ} (h : Attached target pps sent l.receiver l.copies)
    {net : Transit} {bytes : List UInt8} {limited : Bool}
    (hinput : net.input sent = some (bytes, limited))
    (hstep : observedStep target l.receiver (.reader bytes limited) = .ok p) :
    Attached target pps sent p (l.passed net) := by
  refine ⟨h.faithful.step hstep, ?_⟩
  obtain ⟨-, ⟨bytes', limited', heq, hp⟩ | ⟨heq, -⟩ | ⟨_, heq, -⟩⟩ := observedStep_cases hstep
  · cases heq
    rw [hp]
    show Received sent (l.receiver.read bytes limited).passes _
    rcases read_passes l.receiver bytes limited with ⟨b, m, hr, hpasses⟩ | ⟨hno, hpasses⟩
    · rw [hpasses, Line.passed, hr]
      exact h.received.recv hinput b []
    · have hcopies : l.passed net = l.copies := by
        unfold Line.passed
        cases hr : l.receiver.egress.reader with
        | recv b m => exact absurd hr (hno b m)
        | _ => rfl
      rw [hcopies]
      rcases hpasses with hsame | ⟨left, hleft⟩
      · rw [hsame]
        exact h.received
      · rw [hleft]
        exact h.received.popped left
  · cases heq
  · cases heq

/-- A step of `write_intf_packets`. -/
theorem Attached.write (h : Attached target pps sent o copies)
    (hstep : observedStep target o .writer = .ok p) : Attached target pps sent p copies := by
  refine ⟨h.faithful.step hstep, ?_⟩
  obtain ⟨-, ⟨_, _, heq, -⟩ | ⟨-, hp⟩ | ⟨_, heq, -⟩⟩ := observedStep_cases hstep
  · cases heq
  · rw [hp]
    show Received sent o.write.passes copies
    rw [(write_record o).2]
    exact h.received
  · cases heq

/-- A step of `send_ack_infos`. -/
theorem Attached.ackInfos (h : Attached target pps sent o copies) {ns : Nat}
    (hstep : observedStep target o (.ackInfos ns) = .ok p) : Attached target pps sent p copies := by
  refine ⟨h.faithful.step hstep, ?_⟩
  obtain ⟨hegress, ⟨_, _, heq, -⟩ | ⟨heq, -⟩ | ⟨ns', heq, hp⟩⟩ := observedStep_cases hstep
  · cases heq
  · cases heq
  · cases heq
    obtain ⟨ack, acker, acks, rfl, -⟩ := ackInfos_eq hegress hp
    exact h.received

variable {cfg : Config} {s : Sender} {ks : List (Cut UInt8)}

/-- What the far end has pushed, at any time: what the network let through, or the first packets of
it while a datagram is dealt with. -/
theorem Attached.arrived (h : Attached target pps s.handed o copies) (h9 : 8 < cfg.tfsmtu)
    (hmax : cfg.tfsmtu ≤ 9000) (hf : Framed Ipv4 cfg s ks) (hcount : ks.length < 2 ^ 32) :
    ∃ rx : Rx,
      rx.outq.map MIOVBuf.bytes = arrivals (accepts (Iptfs.records copies)) s.ledger.shipments ∧
      o.pushed <+: rx.outq ∧ ∀ m, o.egress.reader.between = some m → o.pushed = rx.outq := by
  rcases h.faithful.refines with
    ⟨rx, ⟨deep, hdeep⟩, hs⟩ |
      ⟨es, rx, id, bytes, limited, lefts, calls, base, ms, hes, ⟨deep, hdeep⟩, hc⟩
  · -- So deep that the calls for a datagram have room.
    have hrun := (hdeep (deep + cfg.tfsmtu + 13) (by omega)).1
    obtain ⟨t, halike, -, hfollows⟩ :=
      follows_received h9 hmax hf hcount (by omega) h.received hrun
    refine ⟨rx, ?_, ?_, fun _ _ => hs.pushed⟩
    · rw [alike_bytes halike]
      exact hfollows.delivered hf
    · rw [hs.pushed]
  · -- The pass under way is for a copy of a datagram, so it will come to its end.
    have hreceived := h.received
    rw [hes] at hreceived
    rcases hreceived.last with
      ⟨ms', id', n, bytes', limited', lefts', heq, hsent, hbefore, hcopies⟩ | ⟨hno, -⟩
    · cases heq
      obtain ⟨t, halike, hlast, hfollows⟩ := follows_received h9 hmax hf hcount (by omega) hbefore
        (hdeep (deep + cfg.tfsmtu + 13) (by omega)).1
      have hlimit : cfg.tfsmtu + 12 < 20 * (cfg.tfsmtu + 13 + calls) := by omega
      obtain ⟨r', u, hr', halike', -, hfollows'⟩ :=
        Alike.copy target h9 hmax hf hcount hlimit halike hlast hfollows hsent id limited lefts
      -- `r'` is the loop after that pass. It has in front what the call has pushed by now.
      have hpass := hc.pass (cfg.tfsmtu + 13) []
      rw [List.append_nil, hr'] at hpass
      obtain ⟨a', ha', hrx⟩ := map_eq_ok.mp hpass.symm
      obtain ⟨a, -, rfl⟩ := map_eq_ok.mp ha'
      have houtq : r'.outq = rx.outq ++ ms ++ a.outq := by
        rw [← hrx, List.append_assoc]
        show base.outq ++ (Added.prepend ms a).outq = _
        rw [hc.outq]
        rfl
      refine ⟨r', ?_, ?_, ?_⟩
      · rw [alike_bytes halike', hcopies]
        exact hfollows'.delivered hf
      · rw [houtq, hc.pushed]
        exact List.prefix_append _ _
      · intro m hm
        rw [hc.inside] at hm
        cases hm
    · -- Something without data begins no call.
      obtain ⟨seq, hclass⟩ := hc.isData
      rw [RxEvent.isData, isData, hclass] at hno
      cases hno

/-- What is written there is what the sender took. -/
theorem Attached.integrity (h : Attached target pps s.handed o copies) (h9 : 8 < cfg.tfsmtu)
    (hmax : cfg.tfsmtu ≤ 9000) (hf : Framed Ipv4 cfg s ks) (hcount : ks.length < 2 ^ 32) :
    o.written.Subperm s.packets := by
  obtain ⟨rx, houtq, hpushed, -⟩ := h.arrived h9 hmax hf hcount
  have hwritten : o.written.Subperm (o.pushed.map MIOVBuf.bytes) :=
    Conveyed.subperm h.faithful.delivered
  -- In the middle of a call the loop is ahead.
  have hpushed' : (o.pushed.map MIOVBuf.bytes).Subperm (rx.outq.map MIOVBuf.bytes) :=
    (hpushed.sublist.map _).subperm
  have htook : (rx.outq.map MIOVBuf.bytes).Subperm s.packets := by
    rw [houtq]
    exact (arrivals_sublist hf _).subperm
  exact hwritten.trans (hpushed'.trans htook)

/-- What is written or on the way there is what the network let through. -/
theorem Attached.delivers (h : Attached target pps s.handed o copies) (h9 : 8 < cfg.tfsmtu)
    (hmax : cfg.tfsmtu ≤ 9000) (hf : Framed Ipv4 cfg s ks) (hcount : ks.length < 2 ^ 32)
    {m : Option Nat} (hbetween : o.egress.reader.between = some m) :
    (o.written ++ o.egress.onTheWay.map fun k => (o.egress.miov k).bytes).Perm
      (arrivals (accepts (Iptfs.records copies)) s.ledger.shipments) := by
  obtain ⟨rx, houtq, -, hbetween'⟩ := h.arrived h9 hmax hf hcount
  rw [← houtq, ← hbetween' m hbetween]
  exact h.faithful.delivered

end FarEnd

/-! ### The two ends -/

section Ends

variable {here : Config} {o : Iptfs.ObservedIngress} {s : Sender} {target pps : ℚ} {r : Observed}
  {copies : List Nat}

/-- What is written there was read here. -/
theorem Attached.of_calls (h : Attached target pps o.sent r copies) (hs : Calls here o s)
    (h9 : 8 < here.tfsmtu) (hmax : here.tfsmtu ≤ 9000) (hipv4 : ∀ p ∈ o.came, Ipv4 p.data)
    (hcount : o.sent.length < 2 ^ 32) : r.written.Subperm (o.came.map Mbuf.data) := by
  obtain ⟨ks, hf, hks⟩ := hs.framed h9 (Nat.le_trans hmax (by decide)) hipv4 hcount
  rw [← hs.handed] at h
  exact (h.integrity h9 hmax hf hks).trans hs.packets_subperm

variable {m : Option Nat}

/-- What is written or on the way there is what the network let through. -/
theorem Attached.delivered (h : Attached target pps o.sent r copies) (hs : Calls here o s)
    (h15 : 14 < here.tfsmtu) (hmax : here.tfsmtu ≤ 9000) (hipv4 : ∀ p ∈ o.came, Ipv4 p.data)
    (hcount : o.sent.length < 2 ^ 32) (hbetween : r.egress.reader.between = some m) :
    (r.written ++ r.egress.onTheWay.map fun k => (r.egress.miov k).bytes).Perm
      (arrivals (accepts (Iptfs.records copies)) s.ledger.shipments) ∧
    s.ledger.shipments.map Shipment.block = s.packets := by
  obtain ⟨ks, hf, hks⟩ := hs.framed (by omega) (Nat.le_trans hmax (by decide)) hipv4 hcount
  rw [← hs.handed] at h
  refine ⟨h.delivers (by omega) hmax hf hks hbetween, ?_⟩
  rw [hf.ledger]
  exact hf.begun_eq h15

/-- And when the datagrams have come in order, it is all that came. -/
theorem Attached.lossless (h : Attached target pps o.sent r copies) (hs : Calls here o s)
    (h15 : 14 < here.tfsmtu) (hmax : here.tfsmtu ≤ 9000) (hipv4 : ∀ p ∈ o.came, Ipv4 p.data)
    (hcount : o.sent.length < 2 ^ 32) (hidle : o.ingress.writer = .call none)
    (hempty : o.ingress.outq.queue = []) (hsent : ∀ d ∈ o.sent, d.2 = true)
    (hcopies : Iptfs.records copies = List.range o.sent.length)
    (hbetween : r.egress.reader.between = some m) :
    (r.written ++ r.egress.onTheWay.map fun k => (r.egress.miov k).bytes).Perm
      (o.came.map Mbuf.data) := by
  obtain ⟨ks, hf, -⟩ := hs.framed (by omega) (Nat.le_trans hmax (by decide)) hipv4 hcount
  exact (h.delivered hs h15 hmax hipv4 hcount hbetween).1.trans
    (hs.all_arrive hf h15 hidle hempty hsent hcopies)

/-- And when `write_intf_packets` has written what is on the way. -/
theorem Attached.completes (h : Attached target pps o.sent r copies) (hs : Calls here o s)
    (h15 : 14 < here.tfsmtu) (hmax : here.tfsmtu ≤ 9000) (hipv4 : ∀ p ∈ o.came, Ipv4 p.data)
    (hcount : o.sent.length < 2 ^ 32) (hidle : o.ingress.writer = .call none)
    (hempty : o.ingress.outq.queue = []) (hsent : ∀ d ∈ o.sent, d.2 = true)
    (hcopies : Iptfs.records copies = List.range o.sent.length)
    (hbetween : r.egress.reader.between = some m) :
    ∃ n ≤ r.egress.writeSteps, ∃ p,
      run (observedStep target) r (List.replicate n .writer) = .ok p ∧
        p.written.Perm (o.came.map Mbuf.data) := by
  obtain ⟨n, hn, p, hdrain, hfaithful, hpasses, hreader, hdrained⟩ := h.faithful.drain
  -- Nothing has been received since, so it is enough that `lossless` holds there, too.
  have hafter : Attached target pps o.sent p copies := by
    refine ⟨hfaithful, ?_⟩
    rw [hpasses]
    exact h.received
  have hbetween' : p.egress.reader.between = some m := by
    rw [hreader]
    exact hbetween
  have hall := hafter.lossless hs h15 hmax hipv4 hcount hidle hempty hsent hcopies hbetween'
  rw [hdrained.onTheWay, List.map_nil, List.append_nil] at hall
  exact ⟨n, hn, p, hdrain, hall⟩

end Ends

/-- The writer there takes its steps in the line. Induction on them. -/
theorem line_writes {σ ε φ : Type} {send : σ → ε → Except φ σ}
    {sent : σ → List (List UInt8 × Bool)} {target : ℚ} {l : Line σ} {n : Nat} {p : Observed}
    (h : run (observedStep target) l.receiver (List.replicate n .writer) = .ok p) :
    run (lineStep send sent target) l (List.replicate n .writer) =
      .ok { l with receiver := p } := by
  induction n generalizing l with
  | zero =>
      cases h
      rfl
  | succ n ih =>
      rw [List.replicate_succ] at h ⊢
      obtain ⟨q, hq, hrest⟩ := run_cons_eq_ok.mp h
      have hstep : lineStep send sent target l .writer = .ok { l with receiver := q } := by
        rw [lineStep, hq]
      rw [run_cons_ok _ hstep]
      exact ih (l := { l with receiver := q }) hrest

/-- A run of the line. `Q` is what the ingress keeps. -/
theorem attached_of_run {σ ε φ : Type} {send : σ → ε → Except φ σ}
    {sent : σ → List (List UInt8 × Bool)} {Q : σ → Prop}
    (hsend : ∀ s e t, Q s → send s e = .ok t → Q t ∧ sent s <+: sent t) {sender : σ}
    (hbegin : Q sender) {target pps : ℚ} {mem : Nat → List UInt8} {es : List (LineEvent ε)}
    {l : Line σ} (hrun : run (lineStep send sent target) (.init sender pps mem) es = .ok l) :
    Q l.sender ∧ Attached target pps (sent l.sender) l.receiver l.copies := by
  refine run_invariant (P := fun l : Line σ =>
    Q l.sender ∧ Attached target pps (sent l.sender) l.receiver l.copies) ?_
      ⟨hbegin, attached_init target pps _ mem⟩ hrun
  rintro k e m ⟨hQ, h⟩ hstep
  -- The two ends share nothing but the datagrams that were sent, and these only become more.
  cases e with
  | ingress e =>
      rw [lineStep] at hstep
      split at hstep
      · cases hstep
      · rename_i t ht
        cases hstep
        obtain ⟨hQ', hgrown⟩ := hsend _ _ _ hQ ht
        exact ⟨hQ', h.faithful, h.received.mono hgrown⟩
  | reader net =>
      rw [lineStep] at hstep
      split at hstep
      · cases hstep
      · rename_i bytes limited hinput
        split at hstep
        · cases hstep
        · rename_i p hp
          cases hstep
          exact ⟨hQ, h.read hinput hp⟩
  | writer =>
      rw [lineStep] at hstep
      split at hstep
      · cases hstep
      · rename_i p hp
        cases hstep
        exact ⟨hQ, h.write hp⟩
  | ackInfos ns =>
      rw [lineStep] at hstep
      split at hstep
      · cases hstep
      · rename_i p hp
        cases hstep
        exact ⟨hQ, h.ackInfos hp⟩

/-! ### The Python program at both ends -/

section PyToPy

variable (mtu : Nat) (target pps : ℚ) (mem : Nat → List UInt8)
  {es : List (LineEvent IngressEvent)} {l : Line ObservedIngress}

/-- The invariants of the two ends in every state of the link, with the Python program at both. -/
theorem attached_pyToPy {mtu : Nat} {target pps : ℚ} {mem : Nat → List UInt8} (h15 : 14 < mtu)
    (hmax : mtu ≤ 9000) (hrun : run (pyToPyStep mtu target) (.init .init pps mem) es = .ok l) :
    Simulated mtu l.sender ∧ Attached target pps l.sender.sent l.receiver l.copies := by
  refine attached_of_run ?_ (simulated_init mtu) hrun
  intro s e t hs hst
  obtain ⟨hC, hsim⟩ := hs.step h15 hmax hst
  exact ⟨hsim, Iptfs.Proofs.observedIngressStep_sent hC⟩

/-- Whatever the five threads and the network do, and whenever `send_ack_infos` takes its turns: the
packets written to the interface there are packets that were read from the interface here, byte for
byte, and none is written more often than it was read. -/
theorem py_tunnel_integrity (h15 : 14 < mtu) (hmax : mtu ≤ 9000)
    (hrun : run (pyToPyStep mtu target) (.init .init pps mem) es = .ok l)
    (hipv4 : ∀ p ∈ l.sender.came, Ipv4 p.data) (hcount : l.sender.sent.length < 2 ^ 32) :
    l.receiver.written.Subperm (l.sender.came.map Mbuf.data) := by
  obtain ⟨hsim, h⟩ := attached_pyToPy h15 hmax hrun
  -- The C program without options could have made the same calls.
  obtain ⟨s, -, -, hC⟩ := hsim.calls h15 hmax
  have h9 : 8 < (plain mtu).tfsmtu := by
    show 8 < mtu
    omega
  exact h.of_calls hC h9 hmax hipv4 hcount

/-- And they are exactly what the network let through. Whenever `read_tfs_packets` has no datagram
in hand that it may still consume, the packets written or on the way to the interface there are
those all of whose datagrams were accepted. `s` is the record of the calls of `write_tfs_packet`,
and what they took was read here. -/
theorem py_tunnel_delivers (h15 : 14 < mtu) (hmax : mtu ≤ 9000)
    (hrun : run (pyToPyStep mtu target) (.init .init pps mem) es = .ok l)
    (hipv4 : ∀ p ∈ l.sender.came, Ipv4 p.data) (hcount : l.sender.sent.length < 2 ^ 32)
    {m : Option Nat} (hbetween : l.receiver.egress.reader.between = some m) :
    ∃ s, run (writeTfsPacketsStep mtu) Sender.init l.sender.calls = .ok s ∧
      (l.receiver.written ++
          l.receiver.egress.onTheWay.map fun k => (l.receiver.egress.miov k).bytes).Perm
        (arrivals (accepts (Iptfs.records l.copies)) s.ledger.shipments) ∧
      s.ledger.shipments.map Shipment.block = s.packets ∧
      (s.taken ++ (l.sender.ingress.writer.took ++ l.sender.ingress.outq.queue)).Perm
        l.sender.came := by
  obtain ⟨hsim, h⟩ := attached_pyToPy h15 hmax hrun
  obtain ⟨s, hs, -, hC⟩ := hsim.calls h15 hmax
  obtain ⟨hperm, hblocks⟩ := h.delivered hC h15 hmax hipv4 hcount hbetween
  rw [ledger_wrap] at hperm hblocks
  rw [packets_wrap] at hblocks
  exact ⟨s, hs, hperm, hblocks, took_wrap hC⟩

/-- Nothing is lost on either side. When `write_tfs_packets` has sent all that came (it is between
two calls, so no `sendmsg` has failed), and the datagrams have come in order, late or repeated
copies apart, then with nothing but steps of `write_intf_packets` each packet that was read here is
written there, exactly once. -/
theorem py_tunnel_completes (h15 : 14 < mtu) (hmax : mtu ≤ 9000)
    (hrun : run (pyToPyStep mtu target) (.init .init pps mem) es = .ok l)
    (hipv4 : ∀ p ∈ l.sender.came, Ipv4 p.data) (hcount : l.sender.sent.length < 2 ^ 32)
    (hidle : l.sender.ingress.writer = .call none) (hempty : l.sender.ingress.outq.queue = [])
    (hcopies : Iptfs.records l.copies = List.range l.sender.sent.length)
    {m : Option Nat} (hbetween : l.receiver.egress.reader.between = some m) :
    ∃ n ≤ l.receiver.egress.writeSteps, ∃ k,
      run (pyToPyStep mtu target) l (List.replicate n .writer) = .ok k ∧
        k.receiver.written.Perm (l.sender.came.map Mbuf.data) := by
  obtain ⟨hsim, h⟩ := attached_pyToPy h15 hmax hrun
  obtain ⟨s, -, -, hC⟩ := hsim.calls h15 hmax
  -- The C program that makes the same calls is between two of them, too.
  have hidleC : l.sender.toC.ingress.writer = .call none := by
    show l.sender.ingress.writer.toC = .call none
    rw [hidle]
    rfl
  obtain ⟨n, hn, p, hdrain, hperm⟩ :=
    h.completes hC h15 hmax hipv4 hcount hidleC hempty hsim.succeeded hcopies hbetween
  exact ⟨n, hn, _, line_writes hdrain, hperm⟩

end PyToPy

/-- A packet is read here after a `readinto` that returns zero, and sent. Its datagram comes, with a
turn of `send_ack_infos` in the middle of it, and the packet is written. Then an ACK comes, and the
datagram again. -/
def pyComesAgain : List (LineEvent IngressEvent) :=
  let read (bytes : List UInt8) : LineEvent IngressEvent := .ingress (.reader bytes)
  let send : LineEvent IngressEvent := .ingress (.writer true)
  let turn : LineEvent IngressEvent := .reader (.other [] false)
  let copy : LineEvent IngressEvent := .reader (.copy 0 false)
  let acks : List (LineEvent IngressEvent) := List.replicate 6 (.ackInfos 3)
  let ack : LineEvent IngressEvent := .reader (.other (ackInfo 0 0 1 1) false)
  [read [], read [], read [], read [], read (ipv4Packet 0), read []] ++
    [send, send, send, send, send, send, send, send] ++
    [turn, turn, turn, turn, turn, turn, copy, turn, turn, turn, turn, turn] ++ acks ++
    [turn, turn, turn, .writer, .writer, turn, turn, turn, ack, turn, turn, turn, turn, copy] ++
    [turn, turn]

/-- Where it ends, as the results need it. -/
structure PyComesAgain (l : Line ObservedIngress) : Prop where
  ran : run (pyToPyStep 40 1) (.init .init 1 fun _ => []) pyComesAgain = .ok l
  between : l.receiver.egress.reader.between = some (some 30)
  written : l.receiver.written = [ipv4Packet 0]
  came : l.sender.came.map Mbuf.data = [ipv4Packet 0]
  ipv4 : ∀ p ∈ l.sender.came, Ipv4 p.data
  count : l.sender.sent.length < 2 ^ 32
  idle : l.sender.ingress.writer = .call none
  empty : l.sender.ingress.outq.queue = []
  inOrder : Iptfs.records l.copies = List.range l.sender.sent.length

/-- The run ends with both copies received, and the packet written once. -/
theorem pyComesAgain_ends : ∃ l, PyComesAgain l := by
  have hthere : (run (pyToPyStep 40 1) (.init .init 1 fun _ => []) pyComesAgain).map
      (fun l => (l.receiver.egress.reader.between, l.receiver.written, l.copies)) =
      .ok (some (some 30), [ipv4Packet 0], [0, 0]) := by decide +kernel
  have hhere : (run (pyToPyStep 40 1) (.init .init 1 fun _ => []) pyComesAgain).map
      (fun l => (l.sender.came.map Mbuf.data, l.sender.sent.map Prod.snd, l.sender.ingress.writer,
        l.sender.ingress.outq.queue)) = .ok ([ipv4Packet 0], [true], .call none, []) := by
    decide +kernel
  obtain ⟨l, hrun, hl⟩ := map_eq_ok.mp hthere
  rw [hrun] at hhere
  simp only [Except.map, Except.ok.injEq, Prod.mk.injEq] at hl hhere
  obtain ⟨hbetween, hwritten, hcopies⟩ := hl
  obtain ⟨hcame, hsent, hidle, hempty⟩ := hhere
  obtain ⟨hlength, hipv4, -⟩ := ends_of_one hcame hsent
  refine ⟨l, hrun, hbetween, hwritten, hcame, hipv4, ?_, hidle, hempty, ?_⟩
  · rw [hlength]
    decide
  · rw [hcopies, hlength]
    decide

/-- Applied to the run in which the datagram comes again behind an ACK. -/
theorem py_tunnel_integrity_again : ∃ l, PyComesAgain l ∧
    l.receiver.written.Subperm (l.sender.came.map Mbuf.data) := by
  obtain ⟨l, hl⟩ := pyComesAgain_ends
  exact ⟨l, hl, py_tunnel_integrity 40 1 1 _ (by decide) (by decide) hl.ran hl.ipv4 hl.count⟩

/-- The same run: what the network let through is the one datagram. -/
theorem py_tunnel_delivers_again : ∃ (l : Line ObservedIngress) (s : Sender), PyComesAgain l ∧
    (l.receiver.written ++
        l.receiver.egress.onTheWay.map fun k => (l.receiver.egress.miov k).bytes).Perm
      (arrivals (accepts (Iptfs.records l.copies)) s.ledger.shipments) ∧
    s.ledger.shipments.map Shipment.block = s.packets := by
  obtain ⟨l, hl⟩ := pyComesAgain_ends
  obtain ⟨s, -, hperm, hblocks, -⟩ := py_tunnel_delivers 40 1 1 _ (by decide) (by decide) hl.ran
    hl.ipv4 hl.count hl.between
  exact ⟨l, s, hl, hperm, hblocks⟩

/-- The same run, from its end on. -/
theorem py_tunnel_completes_again : ∃ (l : Line ObservedIngress) (n : Nat)
    (k : Line ObservedIngress), PyComesAgain l ∧
      run (pyToPyStep 40 1) l (List.replicate n .writer) = .ok k ∧
      k.receiver.written = [ipv4Packet 0] := by
  obtain ⟨l, hl⟩ := pyComesAgain_ends
  obtain ⟨n, -, k, hwrites, hperm⟩ := py_tunnel_completes 40 1 1 _ (by decide) (by decide) hl.ran
    hl.ipv4 hl.count hl.idle hl.empty hl.inOrder hl.between
  rw [hl.came] at hperm
  exact ⟨l, n, k, hl, hwrites, List.perm_singleton.mp hperm⟩

/-! ### The C program at the near end -/

section CToPy

variable (here : Config) (target pps : ℚ) (mem : Nat → List UInt8)
  {es : List (LineEvent Iptfs.IngressEvent)} {l : Line Iptfs.ObservedIngress}

/-- The invariants of the two ends, with the C program at the near one. -/
theorem attached_cToPy {here : Config} {target pps : ℚ} {mem : Nat → List UInt8}
    (hrun : run (cToPyStep here target) (.init .init pps mem) es = .ok l) :
    (∃ s, Calls here l.sender s) ∧ Attached target pps l.sender.sent l.receiver l.copies := by
  refine attached_of_run (Q := fun o => ∃ s, Calls here o s) ?_
    ⟨_, Iptfs.Proofs.calls_init here⟩ hrun
  rintro o e p ⟨s, hs⟩ hst
  exact ⟨hs.step hst, Iptfs.Proofs.observedIngressStep_sent hst⟩

/-- The C program sends with any of its options, and the Python program receives. The packets
written to the interface there are packets that `read_intf_pkts` read here, byte for byte, and none
is written more often than it was read. Whenever `read_tfs_packets` has no datagram in hand that it
may still consume, those written or on the way are exactly what the network let through. -/
theorem c_to_py_delivers (h15 : 14 < here.tfsmtu) (hmax : here.tfsmtu ≤ 9000)
    (hrun : run (cToPyStep here target) (.init .init pps mem) es = .ok l)
    (hipv4 : ∀ p ∈ l.sender.came, Ipv4 p.data) (hcount : l.sender.sent.length < 2 ^ 32) :
    l.receiver.written.Subperm (l.sender.came.map Mbuf.data) ∧
      ∃ s, run (writeTfsPktsStep here) Sender.init l.sender.calls = .ok s ∧
        s.ledger.shipments.map Shipment.block = s.packets ∧
        (s.taken ++ (l.sender.ingress.writer.took ++ l.sender.ingress.outq.queue)).Perm
          l.sender.came ∧
        ∀ m, l.receiver.egress.reader.between = some m →
          (l.receiver.written ++
              l.receiver.egress.onTheWay.map fun k => (l.receiver.egress.miov k).bytes).Perm
            (arrivals (accepts (Iptfs.records l.copies)) s.ledger.shipments) := by
  obtain ⟨⟨s, hs⟩, h⟩ := attached_cToPy hrun
  obtain ⟨ks, hf, -⟩ := hs.framed (by omega) (Nat.le_trans hmax (by decide)) hipv4 hcount
  refine ⟨h.of_calls hs (by omega) hmax hipv4 hcount, s, hs.ran, ?_, hs.took, fun m hbetween => ?_⟩
  · rw [hf.ledger]
    exact hf.begun_eq h15
  · exact (h.delivered hs h15 hmax hipv4 hcount hbetween).1

/-- And nothing is lost on either side, as in `py_tunnel_completes`. -/
theorem c_to_py_completes (h15 : 14 < here.tfsmtu) (hmax : here.tfsmtu ≤ 9000)
    (hrun : run (cToPyStep here target) (.init .init pps mem) es = .ok l)
    (hipv4 : ∀ p ∈ l.sender.came, Ipv4 p.data) (hcount : l.sender.sent.length < 2 ^ 32)
    (hidle : l.sender.ingress.writer = .call none) (hempty : l.sender.ingress.outq.queue = [])
    (hsent : ∀ d ∈ l.sender.sent, d.2 = true)
    (hcopies : Iptfs.records l.copies = List.range l.sender.sent.length)
    {m : Option Nat} (hbetween : l.receiver.egress.reader.between = some m) :
    ∃ n ≤ l.receiver.egress.writeSteps, ∃ k,
      run (cToPyStep here target) l (List.replicate n .writer) = .ok k ∧
        k.receiver.written.Perm (l.sender.came.map Mbuf.data) := by
  obtain ⟨⟨s, hs⟩, h⟩ := attached_cToPy hrun
  obtain ⟨n, hn, p, hdrain, hperm⟩ :=
    h.completes hs h15 hmax hipv4 hcount hidle hempty hsent hcopies hbetween
  exact ⟨n, hn, _, line_writes hdrain, hperm⟩

end CToPy

/-- The same with the C program here: a `read` fails, and a packet is read and sent. What comes in
between is an ACK of the C program. -/
def cComesAgain : List (LineEvent Iptfs.IngressEvent) :=
  let read (bytes : Option (List UInt8)) : LineEvent Iptfs.IngressEvent := .ingress (.reader bytes)
  let send : LineEvent Iptfs.IngressEvent := .ingress (.writer true)
  let turn : LineEvent Iptfs.IngressEvent := .reader (.other [] false)
  let copy : LineEvent Iptfs.IngressEvent := .reader (.copy 0 false)
  let acks : List (LineEvent Iptfs.IngressEvent) := List.replicate 6 (.ackInfos 3)
  let ack : LineEvent Iptfs.IngressEvent := .reader (.other (Iptfs.Proofs.ackDatagram 0 1 1) false)
  [read none, read (some (ipv4Packet 0)), read none] ++
    [send, send, send, send, send, send, send, send] ++
    [turn, turn, turn, turn, turn, turn, copy, turn, turn, turn, turn, turn] ++ acks ++
    [turn, turn, turn, .writer, .writer, turn, turn, turn, ack, turn, turn, turn, turn, copy] ++
    [turn, turn]

/-- Where it ends, as the results need it. -/
structure CComesAgain (l : Line Iptfs.ObservedIngress) : Prop where
  ran : run (cToPyStep ⟨40, false, false⟩ 1) (.init .init 1 fun _ => []) cComesAgain = .ok l
  between : l.receiver.egress.reader.between = some (some 30)
  written : l.receiver.written = [ipv4Packet 0]
  came : l.sender.came.map Mbuf.data = [ipv4Packet 0]
  ipv4 : ∀ p ∈ l.sender.came, Ipv4 p.data
  count : l.sender.sent.length < 2 ^ 32
  idle : l.sender.ingress.writer = .call none
  empty : l.sender.ingress.outq.queue = []
  succeeded : ∀ d ∈ l.sender.sent, d.2 = true
  inOrder : Iptfs.records l.copies = List.range l.sender.sent.length

/-- The run ends with both copies received, and the packet written once. -/
theorem cComesAgain_ends : ∃ l, CComesAgain l := by
  have hthere : (run (cToPyStep ⟨40, false, false⟩ 1) (.init .init 1 fun _ => []) cComesAgain).map
      (fun l => (l.receiver.egress.reader.between, l.receiver.written, l.copies)) =
      .ok (some (some 30), [ipv4Packet 0], [0, 0]) := by decide +kernel
  have hhere : (run (cToPyStep ⟨40, false, false⟩ 1) (.init .init 1 fun _ => []) cComesAgain).map
      (fun l => (l.sender.came.map Mbuf.data, l.sender.sent.map Prod.snd, l.sender.ingress.writer,
        l.sender.ingress.outq.queue)) = .ok ([ipv4Packet 0], [true], .call none, []) := by
    decide +kernel
  obtain ⟨l, hrun, hl⟩ := map_eq_ok.mp hthere
  rw [hrun] at hhere
  simp only [Except.map, Except.ok.injEq, Prod.mk.injEq] at hl hhere
  obtain ⟨hbetween, hwritten, hcopies⟩ := hl
  obtain ⟨hcame, hsent, hidle, hempty⟩ := hhere
  obtain ⟨hlength, hipv4, hsucceeded⟩ := ends_of_one hcame hsent
  refine ⟨l, hrun, hbetween, hwritten, hcame, hipv4, ?_, hidle, hempty, hsucceeded, ?_⟩
  · rw [hlength]
    decide
  · rw [hcopies, hlength]
    decide

/-- Applied to the run in which the datagram comes again behind an ACK. -/
theorem c_to_py_delivers_again : ∃ l : Line Iptfs.ObservedIngress, CComesAgain l ∧
    l.receiver.written.Subperm (l.sender.came.map Mbuf.data) ∧
    ∃ s : Sender, (l.receiver.written ++
        l.receiver.egress.onTheWay.map fun k => (l.receiver.egress.miov k).bytes).Perm
      (arrivals (accepts (Iptfs.records l.copies)) s.ledger.shipments) := by
  obtain ⟨l, hl⟩ := cComesAgain_ends
  obtain ⟨hwritten, s, -, -, -, hperm⟩ := c_to_py_delivers ⟨40, false, false⟩ 1 1 _ (by decide)
    (by decide) hl.ran hl.ipv4 hl.count
  exact ⟨l, hl, hwritten, s, hperm _ hl.between⟩

/-- The same run, from its end on. -/
theorem c_to_py_completes_again : ∃ (l : Line Iptfs.ObservedIngress) (n : Nat)
    (k : Line Iptfs.ObservedIngress), CComesAgain l ∧
      run (cToPyStep ⟨40, false, false⟩ 1) l (List.replicate n .writer) = .ok k ∧
      k.receiver.written = [ipv4Packet 0] := by
  obtain ⟨l, hl⟩ := cComesAgain_ends
  obtain ⟨n, -, k, hwrites, hperm⟩ := c_to_py_completes ⟨40, false, false⟩ 1 1 _ (by decide)
    (by decide) hl.ran hl.ipv4 hl.count hl.idle hl.empty hl.succeeded hl.inOrder hl.between
  rw [hl.came] at hperm
  exact ⟨l, n, k, hl, hwrites, List.perm_singleton.mp hperm⟩

end Proofs

end Iptfs.Py
