import Iptfs.Model.Link
import Iptfs.Proofs.Delivery
import Iptfs.Proofs.EgressDrain
import Iptfs.Proofs.IngressRefinement

/-!
# `Iptfs.Proofs.EndToEnd`: from the interface here to the interface there

The ingress makes calls of `write_tfs_pkt` (`Calls`). The egress makes passes of the loop in
`read_tfs_pkts` (`Refines`), and `write_intf_pkts` writes what they push (`Delivered`). Between the
two loops, the receiver follows the channel of the frames (`Follows`). `Joined` puts these together
over a network: `Wired` says that what `recvfrom` returned are copies of what `sendmsg` took, and
datagrams without data.

* `tunnel_integrity`: whatever is written to the interface there was read from the interface here,
  and no more often.
* `tunnel_delivers`: and it is exactly what the network let through.

Neither holds across an ACK, which makes the receiver forget the last datagram. In single-only mode
no ACKs are sent.
-/

set_option autoImplicit false

namespace Iptfs

/-- No ACK goes out: the ACK timer is not checked, or it has not expired. -/
def Quiet (there : Config) (timer : Option Timespec) : Prop := there.oneonly = true ∨ timer = none

/-- A step in which no ACK goes out. -/
def LinkEvent.QuietAt (there : Config) : LinkEvent → Prop
  | .reader timer _ => Quiet there timer
  | _ => True

namespace Proofs

open Iptfs.Lib Iptfs.Lib.Framing

/-! ### The two configurations -/

/-- The loop looks at `g_oneonly`, and at nothing else of the configuration. -/
theorem readTfsPktsStep_congr {cfg cfg' : Config} (h : cfg.oneonly = cfg'.oneonly) :
    readTfsPktsStep cfg = readTfsPktsStep cfg' := by
  have hsend : sendAck cfg = sendAck cfg' := by
    funext now ack
    rw [sendAck, sendAck, h]
  have hrecv : recvAck cfg = recvAck cfg' := by
    funext data g
    rw [recvAck, recvAck, h]
  have htimer : ackTimer cfg = ackTimer cfg' := by
    funext timer s
    unfold ackTimer
    rw [h, hsend]
  have hdispatch : dispatch cfg = dispatch cfg' := by
    funext tbuf s verdict
    unfold dispatch
    rw [hrecv]
  funext s e
  unfold readTfsPktsStep
  rw [htimer, hdispatch]

/-- The frames of a sender depend on `g_tfsmtu`, and on nothing else of the configuration. -/
theorem Framed.congr {P : List UInt8 → Prop} {cfg cfg' : Config} {s : Sender}
    {ks : List (Cut UInt8)} (h : Framed P cfg s ks) (hmtu : cfg.tfsmtu = cfg'.tfsmtu) :
    Framed P cfg' s ks where
  chained := h.chained
  leftover := h.leftover
  room := by
    rw [← hmtu]
    exact h.room
  carry := h.carry
  seq := h.seq
  length := h.length
  sends := by
    intro i c k hc hk
    obtain ⟨hleft, hdatagram, hlength, howes, hsound⟩ := h.sends i c k hc hk
    exact ⟨hleft, hdatagram, by rw [← hmtu]; exact hlength, howes, hsound⟩
  ledger := h.ledger
  begun := h.begun
  begun_eq := by
    rw [← hmtu]
    exact h.begun_eq

/-! ### What the network brings -/

/-- What the passes received: copies of the datagrams in `sent`, those numbered `ns` past the
limiter, and others that have no data. -/
inductive Wired (sent : List (List UInt8 × Bool)) : List RxEvent → List Nat → Prop
  | nil : Wired sent [] []
  | copy {es : List RxEvent} {ns : List Nat} {timer : Option Timespec} {b n : Nat}
      {bytes : List UInt8} {limited : Bool} (h : Wired sent es ns)
      (hsent : sent[n]? = some (bytes, true)) :
      Wired sent (es ++ [⟨timer, .got b bytes limited⟩]) (ns ++ if limited then [] else [n])
  | other {es : List RxEvent} {ns : List Nat} {e : RxEvent} (h : Wired sent es ns)
      (hdata : e.recv.isData = false) : Wired sent (es ++ [e]) ns

/-- More datagrams are sent. -/
theorem Wired.mono {sent sent' : List (List UInt8 × Bool)} {es : List RxEvent} {ns : List Nat}
    (h : Wired sent es ns) (hgrown : sent <+: sent') : Wired sent' es ns := by
  induction h with
  | nil => exact .nil
  | copy _ hsent ih =>
      obtain ⟨more, rfl⟩ := hgrown
      refine ih.copy ?_
      rw [List.getElem?_append_left (List.getElem?_eq_some_iff.mp hsent).1]
      exact hsent
  | other _ hdata ih => exact ih.other hdata

/-- What `recvfrom` returned does not depend on the ACK timer. -/
def untimed (e : RxEvent) : RxEvent := { e with timer := none }

/-- The network brings the same datagrams, whether the timer is checked or not. -/
theorem Wired.untimed {sent : List (List UInt8 × Bool)} {es : List RxEvent} {ns : List Nat}
    (h : Wired sent es ns) : Wired sent (es.map untimed) ns := by
  induction h with
  | nil => exact .nil
  | copy _ hsent ih =>
      rw [List.map_append]
      exact ih.copy hsent
  | @other _ _ e _ hdata ih =>
      rw [List.map_append]
      exact ih.other (e := Proofs.untimed e) hdata

/-- A datagram of the record is one of the sender. -/
theorem datagram_of_handed {s : Sender} {n : Nat} {bytes : List UInt8}
    (h : s.handed[n]? = some (bytes, true)) : s.datagram n = some bytes := by
  rw [Sender.handed, List.getElem?_map, Option.map_eq_some_iff] at h
  obtain ⟨c, hc, hpair⟩ := h
  obtain ⟨hbytes, hsent⟩ := Prod.mk.inj hpair
  have hsome : c.2.datagram.isSome := (List.mem_filter.mp (List.mem_of_getElem? hc)).2
  obtain ⟨d, hd⟩ := Option.isSome_iff_exists.mp hsome
  rw [hd] at hbytes
  rw [Sender.datagram, hc, Option.bind_some, if_pos hsent, hd]
  exact congrArg some hbytes

/-! ### The receiver over the network -/

/-- The copies with the numbers `ns`, all past the limiter. -/
def copiesOf (ns : List Nat) : List Arrival := ns.map fun n => ⟨none, 0, n, false⟩

/-- All the copies pass the limiter. -/
theorem passed_copiesOf (ns : List Nat) : passed (copiesOf ns) = ns := by
  induction ns with
  | nil => rfl
  | cons n ns ih => exact congrArg (n :: ·) ih

section Follow

variable {cfg : Config} {s : Sender} {ks : List (Cut UInt8)}

/-- A pass with a copy of a datagram. -/
theorem Follows.copy (h9 : 8 < cfg.tfsmtu) (hmax : cfg.tfsmtu ≤ MAXBUF - HDRSPACE)
    (hf : Framed Ipv4 cfg s ks) (hcount : ks.length < 2 ^ 32) {t : Track} {ns : List Nat}
    (h : Follows ks t (records ns)) (hlast : t.rx.ack.last = t.next) {b n : Nat}
    {bytes : List UInt8} (hsent : s.handed[n]? = some (bytes, true)) (limited : Bool) :
    ∃ u : Track, readTfsPktsStep cfg t.rx ⟨none, .got b bytes limited⟩ = .ok u.rx ∧
      u.rx.ack.last = u.next ∧ Follows ks u (records (ns ++ if limited then [] else [n])) := by
  have hdatagram := datagram_of_handed hsent
  rw [← passed_copiesOf ns] at h
  obtain ⟨u, hu, hnext, hfollows⟩ := h.step_records h9 hmax hf hcount hlast
    (a := ⟨none, b, n, limited⟩) rfl (by rw [hdatagram]; rfl)
  rw [passed_concat, passed_copiesOf] at hfollows
  refine ⟨u, ?_, hnext, hfollows⟩
  rw [trackStep, Arrival.event] at hu
  simp only [hdatagram, Option.getD_some] at hu
  split at hu
  · cases hu
  · rename_i rx hrx
    cases hu
    exact hrx

/-- A pass with something else. -/
theorem Follows.other {t : Track} {idx : List Nat} (h : Follows ks t idx)
    (hlast : t.rx.ack.last = t.next) {e : RxEvent} (htimer : e.timer = none)
    (hdata : e.recv.isData = false) {rx : Rx} (hpass : readTfsPktsStep cfg t.rx e = .ok rx) :
    rx.ack.last = t.next ∧ Follows ks ⟨rx, t.next⟩ idx := by
  obtain ⟨rx', htimed, hcase⟩ := readTfsPktsStep_cases hpass
  have hack : rx'.ack = t.rx.ack := by
    rw [htimed.ack, htimer]
    rfl
  have hkeep : ∀ rx'' : Rx, rx''.ack.last = rx'.ack.last → rx''.m = rx'.m →
      rx''.outq = rx'.outq → rx''.ack.last = t.next ∧ Follows ks ⟨rx'', t.next⟩ idx := by
    intro rx'' hlast' hm houtq
    rw [hack] at hlast'
    refine ⟨hlast'.trans hlast, h.next_le, h.next, ?_, h.left, ?_, ?_, ?_⟩
    · show rx''.ack.last = 0 ∨ rx''.ack.last = t.next % 2 ^ 32
      rw [hlast']
      exact h.last
    · show rx''.outq.map Miov.bytes = _
      rw [houtq, htimed.outq]
      exact h.out
    · show Holds rx''.m _
      rw [hm, htimed.m]
      exact h.held
    · show entries rx''.m = _
      rw [hm, htimed.m]
      exact h.aboard
  rcases hcase with rfl | rfl | ⟨g, rfl⟩ | ⟨id, bytes, seq, hrecv, hclass, -⟩
  · exact hkeep _ rfl rfl rfl
  · exact hkeep _ rfl rfl rfl
  · exact hkeep _ rfl rfl rfl
  · rw [hrecv, Recv.isData, hclass] at hdata
    cases hdata

/-- The loop over what the network brings. Induction on the passes, at their end. -/
theorem follows_wired (h9 : 8 < cfg.tfsmtu) (hmax : cfg.tfsmtu ≤ MAXBUF - HDRSPACE)
    (hf : Framed Ipv4 cfg s ks) (hcount : ks.length < 2 ^ 32) (pps : Pps) {es : List RxEvent}
    {ns : List Nat} (h : Wired s.handed es ns) (htimer : ∀ e ∈ es, e.timer = none) :
    ∀ {rx : Rx}, run (readTfsPktsStep cfg) (Rx.init pps) es = .ok rx →
      ∃ t : Track, t.rx = rx ∧ t.rx.ack.last = t.next ∧ Follows ks t (records ns) := by
  induction h with
  | nil =>
      intro rx hrun
      cases hrun
      exact ⟨⟨Rx.init pps, 0⟩, rfl, rfl, follows_init ks pps⟩
  | @copy es ns timer b n bytes limited h hsent ih =>
      intro rx hrun
      obtain ⟨rx₀, hrun₀, hpass⟩ := run_concat.mp hrun
      obtain ⟨t, rfl, hlast, hfollows⟩ :=
        ih (fun e he => htimer e (List.mem_append_left _ he)) hrun₀
      obtain rfl : timer = none := htimer _ (List.mem_append_right _ (List.mem_singleton.mpr rfl))
      obtain ⟨u, hu, hnext, hfollows'⟩ := hfollows.copy h9 hmax hf hcount hlast hsent limited
      rw [hu] at hpass
      exact ⟨u, Except.ok.inj hpass, hnext, hfollows'⟩
  | @other es ns e h hdata ih =>
      intro rx hrun
      obtain ⟨rx₀, hrun₀, hpass⟩ := run_concat.mp hrun
      obtain ⟨t, rfl, hlast, hfollows⟩ :=
        ih (fun e he => htimer e (List.mem_append_left _ he)) hrun₀
      obtain ⟨hnext, hfollows'⟩ := hfollows.other hlast (htimer e (by simp)) hdata hpass
      exact ⟨⟨rx, t.next⟩, rfl, hnext, hfollows'⟩

end Follow

/-! ### The two ends -/

/-- What the link keeps: the ingress makes calls of the sender, the egress does what the loop does,
and it receives what the network brings. -/
structure Joined (here there : Config) (pps : Pps) (maxiov : Nat) (l : Link) : Prop where
  calls : ∃ s, Calls here l.sender s
  faithful : Faithful there pps maxiov l.receiver
  wired : Wired l.sender.sent l.receiver.passes l.copies
  timer : Quiet there l.receiver.timer
  quiet : ∀ e ∈ l.receiver.passes, Quiet there e.timer

/-- The egress has not begun, and the sender has made the calls of some sender. -/
theorem joined_init (here there : Config) (pps : Pps) (maxiov : Nat) (mem : Nat → List UInt8)
    {sender : ObservedIngress} (h : ∃ s, Calls here sender s) :
    Joined here there pps maxiov ⟨sender, .init pps mem, []⟩ where
  calls := h
  faithful := faithful_init there pps maxiov mem
  wired := .nil
  timer := .inr rfl
  quiet := by simp [Observed.init]

section Join

variable {here there : Config} {pps : Pps} {maxiov : Nat} {l : Link}

/-- What `recvfrom` returns is what the network can bring. -/
theorem Wired.recv {sent : List (List UInt8 × Bool)} {es : List RxEvent} {ns : List Nat}
    (h : Wired sent es ns) {net : NetEvent} {input : Option (List UInt8 × Bool)}
    (hinput : net.input sent = some input) (timer : Option Timespec) (b : Nat) :
    Wired sent (es ++ [⟨timer, recvInput b input⟩]) (ns ++ net.past) := by
  cases net with
  | failed =>
      cases hinput
      show Wired sent _ (ns ++ [])
      rw [List.append_nil]
      exact h.other rfl
  | copy n limited =>
      rw [NetEvent.input] at hinput
      split at hinput
      · rename_i bytes hsent
        cases hinput
        have hcopy : Wired sent (es ++ [⟨timer, .got b bytes limited⟩])
            (ns ++ if limited then [] else [n]) := h.copy hsent
        cases limited with
        | true => exact hcopy
        | false => exact hcopy
      · cases hinput
  | other bytes limited =>
      rw [NetEvent.input] at hinput
      split at hinput
      · cases hinput
      · rename_i hdata
        cases hinput
        show Wired sent _ (ns ++ [])
        rw [List.append_nil]
        exact h.other (by simpa [recvInput, Recv.isData] using hdata)

/-- A step of `read_tfs_pkts` adds the pass of its `recvfrom` to the record, or none. -/
theorem read_passes (o : Observed) (timer : Option Timespec)
    (input : Option (List UInt8 × Bool)) :
    (∃ b m, o.egress.reader = .recv b m ∧ (o.read timer input).timer = o.timer ∧
        (o.read timer input).passes = o.passes ++ [⟨o.timer, recvInput b input⟩]) ∨
      (∀ b m, o.egress.reader ≠ .recv b m) ∧ (o.read timer input).passes = o.passes ∧
        ((o.read timer input).timer = o.timer ∨ (o.read timer input).timer = timer) := by
  unfold Observed.read
  cases hr : o.egress.reader with
  | recv b m => exact .inl ⟨b, m, rfl, rfl, rfl⟩
  | top b m => exact .inr ⟨by simp, rfl, .inr rfl⟩
  | _ => exact .inr ⟨by simp, rfl, .inl rfl⟩

/-- A step of the receiver in which no pass ends: the datagrams that came are the same, and the
timer of the pass under way has to be a quiet one. -/
theorem Joined.same {receiver : Observed} (h : Joined here there pps maxiov l)
    (hfaithful : Faithful there pps maxiov receiver)
    (hpasses : receiver.passes = l.receiver.passes) (htimer : Quiet there receiver.timer) :
    Joined here there pps maxiov { l with receiver := receiver } where
  calls := h.calls
  faithful := hfaithful
  wired := by
    show Wired l.sender.sent receiver.passes l.copies
    rw [hpasses]
    exact h.wired
  timer := htimer
  quiet := by
    show ∀ e ∈ receiver.passes, Quiet there e.timer
    rw [hpasses]
    exact h.quiet

/-- The reader is in `recvfrom`: one pass more is on the record, with the timer it began with, and
the datagram that the network brought for it is a copy of one that was sent, or it has no data. -/
theorem Joined.recv {receiver : Observed} {net : NetEvent} {input : Option (List UInt8 × Bool)}
    {b : Nat} {m : Option Nat} (h : Joined here there pps maxiov l)
    (hinput : net.input l.sender.sent = some input) (hr : l.receiver.egress.reader = .recv b m)
    (hfaithful : Faithful there pps maxiov receiver)
    (hpasses : receiver.passes = l.receiver.passes ++ [⟨l.receiver.timer, recvInput b input⟩])
    (htimer : receiver.timer = l.receiver.timer) :
    Joined here there pps maxiov { l with receiver := receiver, copies := l.passed net } where
  calls := h.calls
  faithful := hfaithful
  wired := by
    have hcopies : l.passed net = l.copies ++ net.past := by rw [Link.passed, hr]
    show Wired l.sender.sent receiver.passes (l.passed net)
    rw [hpasses, hcopies]
    exact h.wired.recv hinput _ b
  timer := by
    show Quiet there receiver.timer
    rw [htimer]
    exact h.timer
  quiet := by
    show ∀ e ∈ receiver.passes, Quiet there e.timer
    rw [hpasses]
    intro e he
    rcases List.mem_append.mp he with he | he
    · exact h.quiet e he
    · rw [List.mem_singleton.mp he]
      exact h.timer

/-- One step of `read_tfs_pkts` keeps the two ends joined, whatever the network brings. It is told
apart by whether the reader is in `recvfrom`: only there does the record of the passes grow. -/
theorem Joined.read (hfits : RefcntFits maxiov) {receiver : Observed} {timer : Option Timespec}
    {net : NetEvent} {input : Option (List UInt8 × Bool)} (h : Joined here there pps maxiov l)
    (hquiet : Quiet there timer) (hinput : net.input l.sender.sent = some input)
    (hstep : observedStep there maxiov l.receiver (.reader timer input) = .ok receiver) :
    Joined here there pps maxiov { l with receiver := receiver, copies := l.passed net } := by
  have hfaithful := h.faithful.step hfits hstep
  obtain ⟨-, ⟨timer', input', heq, hp⟩ | ⟨heq, -⟩⟩ := observedStep_cases hstep
  · cases heq
    have hsame : receiver.passes = (l.receiver.read timer input).passes := by rw [hp]
    have hkept : receiver.timer = (l.receiver.read timer input).timer := by rw [hp]
    rcases read_passes l.receiver timer input with
      ⟨b, m, hr, htimer, hpasses⟩ | ⟨hr, hpasses, htimer⟩
    · exact h.recv hinput hr hfaithful (hsame.trans hpasses) (hkept.trans htimer)
    · have hcopies : l.passed net = l.copies := by
        unfold Link.passed
        cases hreader : l.receiver.egress.reader with
        | recv b m => exact absurd hreader (hr b m)
        | _ => rfl
      rw [hcopies]
      refine h.same hfaithful (hsame.trans hpasses) ?_
      rw [hkept]
      rcases htimer with hold | hnew
      · rw [hold]
        exact h.timer
      · rw [hnew]
        exact hquiet
  · cases heq

/-- One step of `write_intf_pkts` touches neither the passes nor the timer. -/
theorem Joined.write (hfits : RefcntFits maxiov) {receiver : Observed}
    (h : Joined here there pps maxiov l)
    (hstep : observedStep there maxiov l.receiver .writer = .ok receiver) :
    Joined here there pps maxiov { l with receiver := receiver } := by
  have hfaithful := h.faithful.step hfits hstep
  obtain ⟨-, ⟨_, _, heq, -⟩ | ⟨-, hp⟩⟩ := observedStep_cases hstep
  · cases heq
  · obtain ⟨-, hpasses, htimer⟩ := write_record l.receiver
    have hsame : receiver.passes = l.receiver.passes := by
      rw [hp]
      exact hpasses
    have hkept : receiver.timer = l.receiver.timer := by
      rw [hp]
      exact htimer
    refine h.same hfaithful hsame ?_
    rw [hkept]
    exact h.timer

/-- Each step of any of the four threads keeps the two ends joined, if no ACK goes out in it. The
threads of the ingress only send more, so that what was a copy of a datagram stays one. -/
theorem Joined.step (hfits : RefcntFits maxiov) {m : Link} {e : LinkEvent}
    (h : Joined here there pps maxiov l) (hquiet : e.QuietAt there)
    (hstep : linkStep here there maxiov l e = .ok m) : Joined here there pps maxiov m := by
  cases e with
  | ingress e =>
      rw [linkStep] at hstep
      split at hstep
      · cases hstep
      · rename_i sender hsender
        cases hstep
        obtain ⟨s, hs⟩ := h.calls
        exact ⟨hs.step hsender, h.faithful, h.wired.mono (observedIngressStep_sent hsender),
          h.timer, h.quiet⟩
  | reader timer net =>
      rw [linkStep] at hstep
      split at hstep
      · cases hstep
      · rename_i input hinput
        split at hstep
        · cases hstep
        · rename_i receiver hreceiver
          cases hstep
          exact h.read hfits hquiet hinput hreceiver
  | writer =>
      rw [linkStep] at hstep
      split at hstep
      · cases hstep
      · rename_i receiver hreceiver
        cases hstep
        exact h.write hfits hreceiver

/-- The induction over a run of the link, from any two ends that are joined. -/
theorem Joined.run (hfits : RefcntFits maxiov) {k : Link} {es : List LinkEvent}
    (h : Joined here there pps maxiov k) (hquiet : ∀ e ∈ es, e.QuietAt there)
    (hrun : Lib.run (linkStep here there maxiov) k es = .ok l) : Joined here there pps maxiov l :=
  run_invariant_along (fun _ _ _ h hq hst => h.step hfits hq hst) h (along_of_forall hquiet) hrun

/-- The two ends are joined in every state that the four threads reach. -/
theorem joined_of_run (hfits : RefcntFits maxiov) {mem : Nat → List UInt8} {es : List LinkEvent}
    (hquiet : ∀ e ∈ es, e.QuietAt there)
    (hrun : Lib.run (linkStep here there maxiov) (.init pps mem) es = .ok l) :
    Joined here there pps maxiov l :=
  (joined_init here there pps maxiov mem ⟨_, calls_init here⟩).run hfits hquiet hrun

/-- Where no ACK goes out, the ACK timer makes no difference to a pass. -/
theorem readTfsPktsStep_untimed {cfg : Config} {e : RxEvent} (h : Quiet cfg e.timer) (rx : Rx) :
    readTfsPktsStep cfg rx (untimed e) = readTfsPktsStep cfg rx e := by
  obtain ⟨timer, recv⟩ := e
  have htimer : ackTimer cfg timer rx = .ok rx := by
    cases timer with
    | none => rfl
    | some now =>
        rcases h with hone | hnone
        · rw [ackTimer, if_pos hone]
        · cases hnone
  show readTfsPktsStep cfg rx ⟨none, recv⟩ = _
  rw [readTfsPktsStep, readTfsPktsStep, htimer]
  rfl

/-- The last pass, where its datagram has data: it is a copy of a datagram that was sent. -/
theorem Wired.last {sent : List (List UInt8 × Bool)} {es : List RxEvent} {e : RxEvent}
    {ns : List Nat} (h : Wired sent (es ++ [e]) ns) (hdata : e.recv.isData = true) :
    ∃ ms b n bytes limited, e.recv = .got b bytes limited ∧ sent[n]? = some (bytes, true) ∧
      Wired sent es ms ∧ ns = ms ++ if limited then [] else [n] := by
  generalize hpasses : es ++ [e] = passes at h
  cases h with
  | nil => exact absurd hpasses (by simp)
  | copy h hsent =>
      obtain ⟨rfl, hlast⟩ := List.append_inj' hpasses rfl
      cases hlast
      exact ⟨_, _, _, _, _, rfl, hsent, h, rfl⟩
  | other h hno =>
      obtain ⟨rfl, hlast⟩ := List.append_inj' hpasses rfl
      cases hlast
      rw [hdata] at hno
      cases hno

/-- The datagrams that were handed to `sendmsg` are frames of the packets that came. -/
theorem Calls.framed {o : ObservedIngress} {s : Sender} (hs : Calls here o s)
    (h9 : 8 < here.tfsmtu) (hmax : here.tfsmtu ≤ MAXBUF) (hipv4 : ∀ p ∈ o.came, Ipv4 p.data)
    (hcount : o.sent.length < 2 ^ 32) : ∃ ks, Framed Ipv4 here s ks ∧ ks.length < 2 ^ 32 := by
  obtain ⟨ks, hf⟩ := framed_of_run h9 hmax (fun _ hp => hp.length_lt)
    (fun call hcall p hp => hipv4 p (hs.answered call hcall p hp)) hs.ran
  refine ⟨ks, hf, ?_⟩
  rw [← hf.length, ← List.length_map (f := fun c => (c.2.datagram.getD [], c.1.sent))]
  rw [← hs.handed] at hcount
  exact hcount

/-- What the calls took are packets that came. -/
theorem Calls.packets_subperm {o : ObservedIngress} {s : Sender} (hs : Calls here o s) :
    s.packets.Subperm (o.came.map Mbuf.data) :=
  ((List.sublist_append_left _ _).map _).subperm.trans (hs.took.map _).subperm

/-- What the receiver has pushed, at any time: what the network let through, or the first packets
of it while a call of `add_to_inner_packet` is under way. -/
structure Arrived (here : Config) (l : Link) (s : Sender) (rx : Rx) : Prop where
  framed : ∃ ks, Framed Ipv4 here s ks
  outq : rx.outq.map Miov.bytes = arrivals (accepts (records l.copies)) s.ledger.shipments
  pushed : l.receiver.pushed <+: rx.outq
  atTop : ∀ b m, l.receiver.egress.reader = .top b m → l.receiver.pushed = rx.outq

/-- The loop there over what the network brought: it follows the channel of the frames sent here.
The loop does not look at the size of its own datagrams, and without ACKs not at the timer. -/
theorem follows_of_wired {s : Sender} {ks : List (Cut UInt8)} (hf : Framed Ipv4 here s ks)
    (h9 : 8 < here.tfsmtu) (hmax : here.tfsmtu ≤ MAXBUF - HDRSPACE) (hcount : ks.length < 2 ^ 32)
    {es : List RxEvent} {ns : List Nat} {rx : Rx} (hwired : Wired s.handed es ns)
    (hquiet : ∀ e ∈ es, Quiet there e.timer)
    (hrun : Lib.run (readTfsPktsStep there) (Rx.init pps) es = .ok rx) :
    ∃ t : Track, t.rx = rx ∧ t.rx.ack.last = t.next ∧ Follows ks t (records ns) := by
  -- The loop there, with the size of the datagrams here.
  let cfg : Config := { there with tfsmtu := here.tfsmtu }
  have hcfg : readTfsPktsStep cfg = readTfsPktsStep there := readTfsPktsStep_congr rfl
  have h9' : 8 < cfg.tfsmtu := h9
  have hf' : Framed Ipv4 cfg s ks := hf.congr rfl
  refine follows_wired h9' hmax hf' hcount pps hwired.untimed ?_ ?_
  · intro e he
    obtain ⟨e', -, rfl⟩ := List.mem_map.mp he
    rfl
  · rw [hcfg, run_map fun e he rx => readTfsPktsStep_untimed (hquiet e he) rx]
    exact hrun

/-- The pass there with a copy of a datagram sent here, after which the receiver follows the channel
with that datagram in it. It returns, whatever the threads have done of it so far. -/
theorem Follows.copyThere {s : Sender} {ks : List (Cut UInt8)} {t : Track} {ns : List Nat}
    (h : Follows ks t (records ns)) (hlast : t.rx.ack.last = t.next)
    (hf : Framed Ipv4 here s ks) (h9 : 8 < here.tfsmtu) (hmax : here.tfsmtu ≤ MAXBUF - HDRSPACE)
    (hcount : ks.length < 2 ^ 32) {e : RxEvent} {b n : Nat} {bytes : List UInt8} {limited : Bool}
    (hrecv : e.recv = .got b bytes limited) (hsent : s.handed[n]? = some (bytes, true))
    (hquiet : Quiet there e.timer) :
    ∃ rx, readTfsPktsStep there t.rx e = .ok rx ∧
      rx.outq.map Miov.bytes =
        arrivals (accepts (records (ns ++ if limited then [] else [n]))) s.ledger.shipments := by
  let cfg : Config := { there with tfsmtu := here.tfsmtu }
  have hcfg : readTfsPktsStep cfg = readTfsPktsStep there := readTfsPktsStep_congr rfl
  have h9' : 8 < cfg.tfsmtu := h9
  have hf' : Framed Ipv4 cfg s ks := hf.congr rfl
  obtain ⟨u, hu, -, hfollows⟩ := h.copy h9' hmax hf' hcount hlast hsent limited
  refine ⟨u.rx, ?_, hfollows.delivered hf'⟩
  rw [← readTfsPktsStep_untimed hquiet, untimed, hrecv, ← hcfg]
  exact hu

/-- What has arrived, in every state of the two joined ends: with the reader between two calls it is
what the loop has pushed, and in a call what the loop will have pushed when the call returns. -/
theorem Joined.arrived (h : Joined here there pps maxiov l) (h9 : 8 < here.tfsmtu)
    (hmax : here.tfsmtu ≤ MAXBUF - HDRSPACE) (hipv4 : ∀ p ∈ l.sender.came, Ipv4 p.data)
    (hcount : l.sender.sent.length < 2 ^ 32) {s : Sender} (hs : Calls here l.sender s) :
    ∃ rx, Arrived here l s rx := by
  obtain ⟨ks, hf, hks⟩ := hs.framed h9 (Nat.le_trans hmax (Nat.sub_le _ _)) hipv4 hcount
  have hwired := h.wired
  rw [← hs.handed] at hwired
  rcases h.faithful.refines with ⟨rx, hrun, hsync⟩ | ⟨es, e, rx, fuel, base, ms, hes, hrun, hc⟩
  · obtain ⟨t, rfl, -, hfollows⟩ := follows_of_wired hf h9 hmax hks hwired h.quiet hrun
    refine ⟨t.rx, ⟨ks, hf⟩, hfollows.delivered hf, ?_, fun _ _ _ => hsync.pushed⟩
    rw [hsync.pushed]
  · -- The pass under way has a copy of a datagram, so the call will return.
    rw [hes] at hwired
    obtain ⟨ms', b, n, bytes, limited, hrecv, hsent, hwired', hcopies⟩ := hwired.last hc.isData
    have hquiet : ∀ e' ∈ es ++ [e], Quiet there e'.timer := by
      rw [← hes]
      exact h.quiet
    obtain ⟨t, rfl, hlast, hfollows⟩ := follows_of_wired hf h9 hmax hks hwired'
      (fun e' he' => hquiet e' (List.mem_append_left _ he')) hrun
    obtain ⟨rx, hpass, hdelivered⟩ := hfollows.copyThere hlast hf h9 hmax hks hrecv hsent
      (hquiet e (by simp))
    rw [hc.pass] at hpass
    obtain ⟨a', ha', hrx⟩ := map_eq_ok.mp hpass
    obtain ⟨a, -, rfl⟩ := map_eq_ok.mp ha'
    have houtq : rx.outq = t.rx.outq ++ ms ++ a.outq := by
      rw [← hrx, List.append_assoc]
      show base.outq ++ (Added.prepend ms a).outq = _
      rw [hc.outq]
      rfl
    refine ⟨rx, ⟨ks, hf⟩, ?_, ?_, ?_⟩
    · rw [hcopies]
      exact hdelivered
    · rw [houtq, hc.pushed]
      exact List.prefix_append _ _
    · intro b' m' htop
      have hno := hc.enough
      rw [htop] at hno
      exact hno.elim

/-- What is written there was read here. -/
theorem Joined.integrity (h : Joined here there pps maxiov l) (h9 : 8 < here.tfsmtu)
    (hmax : here.tfsmtu ≤ MAXBUF - HDRSPACE) (hipv4 : ∀ p ∈ l.sender.came, Ipv4 p.data)
    (hcount : l.sender.sent.length < 2 ^ 32) :
    l.receiver.written.Subperm (l.sender.came.map Mbuf.data) := by
  obtain ⟨s, hs⟩ := h.calls
  obtain ⟨rx, harrived⟩ := h.arrived h9 hmax hipv4 hcount hs
  obtain ⟨ks, hf⟩ := harrived.framed
  have hwritten : l.receiver.written.Subperm (l.receiver.pushed.map Miov.bytes) :=
    Conveyed.subperm h.faithful.delivered
  have hpushed : (l.receiver.pushed.map Miov.bytes).Subperm (rx.outq.map Miov.bytes) :=
    (harrived.pushed.sublist.map _).subperm
  have houtq : (rx.outq.map Miov.bytes).Subperm s.packets := by
    rw [harrived.outq]
    exact (arrivals_sublist hf _).subperm
  exact hwritten.trans (hpushed.trans (houtq.trans hs.packets_subperm))

/-- What is written or on the way there is what the network let through. -/
theorem Joined.delivers (h : Joined here there pps maxiov l) (h15 : 15 ≤ here.tfsmtu)
    (hmax : here.tfsmtu ≤ MAXBUF - HDRSPACE) (hipv4 : ∀ p ∈ l.sender.came, Ipv4 p.data)
    (hcount : l.sender.sent.length < 2 ^ 32) {b : Nat} {m : Option Nat}
    (htop : l.receiver.egress.reader = .top b m) {s : Sender} (hs : Calls here l.sender s) :
    (l.receiver.written ++
        l.receiver.egress.onTheWay.map fun k => (l.receiver.egress.miov k).bytes).Perm
      (arrivals (accepts (records l.copies)) s.ledger.shipments) ∧
    s.ledger.shipments.map Shipment.block = s.packets := by
  obtain ⟨rx, harrived⟩ := h.arrived (by omega) hmax hipv4 hcount hs
  obtain ⟨ks, hf⟩ := harrived.framed
  constructor
  · rw [← harrived.outq, ← harrived.atTop b m htop]
    exact h.faithful.delivered
  · rw [hf.ledger]
    exact hf.begun_eq (by omega)

/-- When the sender has sent all that came, every datagram left and every one is accepted, then what
arrives is what came. -/
theorem Calls.all_arrive {o : ObservedIngress} {s : Sender} {ks : List (Cut UInt8)}
    (hs : Calls here o s) (hf : Framed Ipv4 here s ks) (h15 : 15 ≤ here.tfsmtu)
    (hidle : o.ingress.writer = .call none) (hempty : o.ingress.outq.queue = [])
    (hsent : ∀ d ∈ o.sent, d.2 = true) {ns : List Nat} (hns : ns = List.range o.sent.length) :
    (arrivals (accepts ns) s.ledger.shipments).Perm (o.came.map Mbuf.data) := by
  have hlen : ks.length = o.sent.length := by
    rw [← hf.length, ← hs.handed, Sender.handed, List.length_map]
  -- Every datagram left, and no packet is under way.
  have hleft : ∀ k ∈ ks, k.left = true := by
    intro k hk
    obtain ⟨i, hi⟩ := List.getElem?_of_mem hk
    have hlt : i < s.sends.length := by
      rw [hf.length]
      exact (List.getElem?_eq_some_iff.mp hi).1
    have hc := List.getElem?_eq_getElem hlt
    rw [(hf.sends i _ k hc hi).left]
    refine hsent ((s.sends[i].2.datagram.getD [], s.sends[i].1.sent)) ?_
    rw [← hs.handed]
    exact List.mem_map_of_mem (List.getElem_mem hlt)
  have hend : carryAfter none ks = none := by
    have hrest := hs.rest
    rw [hidle] at hrest
    have hcarry := hf.leftover
    rw [show s.leftover = none from hrest] at hcarry
    exact Option.map_eq_none_iff.mp hcarry.symm
  have hall : ∀ n < ks.length, accepts ns n = true := by
    intro n hn
    rw [accepts, hns, decide_eq_true_eq, List.mem_range, ← hlen]
    exact hn
  have htook := hs.took
  rw [hidle, hempty] at htook
  rw [hf.ledger, arrivals_all hf.chained hleft hend hall, hf.begun_eq (by omega), Sender.packets]
  exact (List.append_nil s.taken ▸ htook).map _

/-- What the two ends have done when the sender has sent all that came. -/
theorem Joined.lossless (h : Joined here there pps maxiov l) (h15 : 15 ≤ here.tfsmtu)
    (hmax : here.tfsmtu ≤ MAXBUF - HDRSPACE)
    (hipv4 : ∀ p ∈ l.sender.came, Ipv4 p.data) (hcount : l.sender.sent.length < 2 ^ 32)
    (hidle : l.sender.ingress.writer = .call none) (hempty : l.sender.ingress.outq.queue = [])
    (hsent : ∀ d ∈ l.sender.sent, d.2 = true)
    (hcopies : records l.copies = List.range l.sender.sent.length)
    {b : Nat} {m : Option Nat} (htop : l.receiver.egress.reader = .top b m) :
    (l.receiver.written ++
        l.receiver.egress.onTheWay.map fun k => (l.receiver.egress.miov k).bytes).Perm
      (l.sender.came.map Mbuf.data) := by
  obtain ⟨s, hs⟩ := h.calls
  obtain ⟨rx, harrived⟩ := h.arrived (by omega) hmax hipv4 hcount hs
  obtain ⟨ks, hf⟩ := harrived.framed
  refine List.Perm.trans h.faithful.delivered ?_
  rw [harrived.atTop b m htop, harrived.outq]
  exact hs.all_arrive hf h15 hidle hempty hsent hcopies

/-- The writer there takes its steps in the link. -/
theorem link_writes {n : Nat} {p : Observed}
    (h : run (observedStep there maxiov) l.receiver (List.replicate n .writer) = .ok p) :
    run (linkStep here there maxiov) l (List.replicate n .writer) =
      .ok { l with receiver := p } := by
  induction n generalizing l with
  | zero =>
      cases h
      rfl
  | succ n ih =>
      rw [List.replicate_succ] at h ⊢
      obtain ⟨q, hq, hrest⟩ := run_cons_eq_ok.mp h
      have hstep : linkStep here there maxiov l .writer = .ok { l with receiver := q } := by
        rw [linkStep, hq]
      rw [run_cons_ok _ hstep]
      exact ih (l := { l with receiver := q }) hrest

/-- And when `write_intf_pkts` has written what is on the way. -/
theorem Joined.completes (hfits : RefcntFits maxiov) (h : Joined here there pps maxiov l)
    (h15 : 15 ≤ here.tfsmtu) (hmax : here.tfsmtu ≤ MAXBUF - HDRSPACE)
    (hipv4 : ∀ p ∈ l.sender.came, Ipv4 p.data) (hcount : l.sender.sent.length < 2 ^ 32)
    (hidle : l.sender.ingress.writer = .call none) (hempty : l.sender.ingress.outq.queue = [])
    (hsent : ∀ d ∈ l.sender.sent, d.2 = true)
    (hcopies : records l.copies = List.range l.sender.sent.length)
    {b : Nat} {m : Option Nat} (htop : l.receiver.egress.reader = .top b m) :
    ∃ n ≤ OUTERQSZ * (3 * maxiov + 4), ∃ k,
      Lib.run (linkStep here there maxiov) l (List.replicate n .writer) = .ok k ∧
        k.receiver.written.Perm (l.sender.came.map Mbuf.data) := by
  obtain ⟨n, hn, p, hdrain, -, -, hreader, hdrained⟩ := h.faithful.drain hfits
  have hwrites : Lib.run (linkStep here there maxiov) l (List.replicate n .writer) =
      .ok { l with receiver := p } := link_writes hdrain
  refine ⟨n, hn, _, hwrites, ?_⟩
  have hafter : Joined here there pps maxiov { l with receiver := p } := by
    refine h.run hfits ?_ hwrites
    intro e he
    rw [List.eq_of_mem_replicate he]
    trivial
  have hall := hafter.lossless h15 hmax hipv4 hcount hidle hempty hsent hcopies
    (hreader.trans htop)
  rw [hdrained.onTheWay, List.map_nil, List.append_nil] at hall
  exact hall

end Join

/-! ### The tunnel -/

section Tunnel

variable (here there : Config) {maxiov : Nat} (pps : Pps) (mem : Nat → List UInt8)
  {es : List LinkEvent} {l : Link}

/-- Whatever the four threads and the network do, where no ACK goes out: the packets written to
the interface there are packets that were read from the interface here, byte for byte, and none is
written more often than it was read. -/
theorem tunnel_integrity (hfits : RefcntFits maxiov) (h9 : 8 < here.tfsmtu)
    (hmax : here.tfsmtu ≤ MAXBUF - HDRSPACE) (hquiet : ∀ e ∈ es, e.QuietAt there)
    (hrun : run (linkStep here there maxiov) (.init pps mem) es = .ok l)
    (hipv4 : ∀ p ∈ l.sender.came, Ipv4 p.data) (hcount : l.sender.sent.length < 2 ^ 32) :
    l.receiver.written.Subperm (l.sender.came.map Mbuf.data) :=
  (joined_of_run hfits hquiet hrun).integrity h9 hmax hipv4 hcount

/-- And they are exactly what the network let through. Whenever `read_tfs_pkts` is at the top of its
loop, the packets written or on the way to the interface there are those all of whose datagrams were
accepted. `s` is the sender's record of the calls, and what it took was read here. -/
theorem tunnel_delivers (hfits : RefcntFits maxiov) (h15 : 15 ≤ here.tfsmtu)
    (hmax : here.tfsmtu ≤ MAXBUF - HDRSPACE) (hquiet : ∀ e ∈ es, e.QuietAt there)
    (hrun : run (linkStep here there maxiov) (.init pps mem) es = .ok l)
    (hipv4 : ∀ p ∈ l.sender.came, Ipv4 p.data) (hcount : l.sender.sent.length < 2 ^ 32)
    {b : Nat} {m : Option Nat} (htop : l.receiver.egress.reader = .top b m) :
    ∃ s, run (writeTfsPktsStep here) Sender.init l.sender.calls = .ok s ∧
      (l.receiver.written ++
          l.receiver.egress.onTheWay.map fun k => (l.receiver.egress.miov k).bytes).Perm
        (arrivals (accepts (records l.copies)) s.ledger.shipments) ∧
      s.ledger.shipments.map Shipment.block = s.packets ∧
      (s.taken ++ (l.sender.ingress.writer.took ++ l.sender.ingress.outq.queue)).Perm
        l.sender.came := by
  have hjoined := joined_of_run hfits hquiet hrun
  obtain ⟨s, hs⟩ := hjoined.calls
  obtain ⟨hperm, hblocks⟩ := hjoined.delivers h15 hmax hipv4 hcount htop hs
  exact ⟨s, hs.ran, hperm, hblocks, hs.took⟩

/-- Nothing is lost on either side. When the sender has sent all that came, each `sendmsg` has
succeeded, and the datagrams have come in order, then the packets that were read here are written
there, or they are on the way to the interface, each exactly once. Copies that are late or come
again change nothing. -/
theorem tunnel_lossless (hfits : RefcntFits maxiov) (h15 : 15 ≤ here.tfsmtu)
    (hmax : here.tfsmtu ≤ MAXBUF - HDRSPACE) (hquiet : ∀ e ∈ es, e.QuietAt there)
    (hrun : run (linkStep here there maxiov) (.init pps mem) es = .ok l)
    (hipv4 : ∀ p ∈ l.sender.came, Ipv4 p.data) (hcount : l.sender.sent.length < 2 ^ 32)
    (hidle : l.sender.ingress.writer = .call none) (hempty : l.sender.ingress.outq.queue = [])
    (hsent : ∀ d ∈ l.sender.sent, d.2 = true)
    (hcopies : records l.copies = List.range l.sender.sent.length)
    {b : Nat} {m : Option Nat} (htop : l.receiver.egress.reader = .top b m) :
    (l.receiver.written ++
        l.receiver.egress.onTheWay.map fun k => (l.receiver.egress.miov k).bytes).Perm
      (l.sender.came.map Mbuf.data) := by
  exact (joined_of_run hfits hquiet hrun).lossless h15 hmax hipv4 hcount hidle hempty hsent hcopies
    htop

/-- And what is on the way comes to the interface there, with nothing but steps of
`write_intf_pkts`: each packet that was read here is then written there, exactly once. -/
theorem tunnel_completes (hfits : RefcntFits maxiov) (h15 : 15 ≤ here.tfsmtu)
    (hmax : here.tfsmtu ≤ MAXBUF - HDRSPACE) (hquiet : ∀ e ∈ es, e.QuietAt there)
    (hrun : run (linkStep here there maxiov) (.init pps mem) es = .ok l)
    (hipv4 : ∀ p ∈ l.sender.came, Ipv4 p.data) (hcount : l.sender.sent.length < 2 ^ 32)
    (hidle : l.sender.ingress.writer = .call none) (hempty : l.sender.ingress.outq.queue = [])
    (hsent : ∀ d ∈ l.sender.sent, d.2 = true)
    (hcopies : records l.copies = List.range l.sender.sent.length)
    {b : Nat} {m : Option Nat} (htop : l.receiver.egress.reader = .top b m) :
    ∃ n ≤ OUTERQSZ * (3 * maxiov + 4), ∃ k,
      run (linkStep here there maxiov) l (List.replicate n .writer) = .ok k ∧
        k.receiver.written.Perm (l.sender.came.map Mbuf.data) := by
  exact (joined_of_run hfits hquiet hrun).completes hfits h15 hmax hipv4 hcount hidle hempty hsent
    hcopies htop

end Tunnel

/-- A packet is read here and sent, its datagram comes twice, and the packet is written there. -/
def comesTwice : List LinkEvent :=
  let send : LinkEvent := .ingress (.writer true)
  let turn : LinkEvent := .reader none .failed
  let copy : LinkEvent := .reader none (.copy 0 false)
  [.ingress (.reader none), .ingress (.reader (some (ipv4Packet 0))), .ingress (.reader none)] ++
    [send, send, send, send, send, send, send, send] ++
    [turn, turn, turn, turn, turn, copy, turn, turn, turn, turn, turn, .writer, .writer] ++
    [turn, turn, turn, copy]

/-- The ends of the run, as the results need them. -/
structure ComesTwice (l : Link) : Prop where
  ran : run (linkStep ⟨40, false, false⟩ ⟨1500, false, false⟩ 8)
    (.init ⟨100, 100, 10000000⟩ fun _ => []) comesTwice = .ok l
  top : l.receiver.egress.reader = .top 254 (some 254)
  written : l.receiver.written = [ipv4Packet 0]
  copies : l.copies = [0, 0]
  came : l.sender.came.map Mbuf.data = [ipv4Packet 0]
  sent : l.sender.sent.map Prod.snd = [true]
  idle : l.sender.ingress.writer = .call none
  empty : l.sender.ingress.outq.queue = []

/-- The run ends with both copies received, and the packet written once. -/
theorem comesTwice_ends : ∃ l, ComesTwice l := by
  have hthere : (run (linkStep ⟨40, false, false⟩ ⟨1500, false, false⟩ 8)
      (.init ⟨100, 100, 10000000⟩ fun _ => []) comesTwice).map
        (fun l => (l.receiver.egress.reader, l.receiver.written, l.copies)) =
          .ok (.top 254 (some 254), [ipv4Packet 0], [0, 0]) := by decide +kernel
  have hhere : (run (linkStep ⟨40, false, false⟩ ⟨1500, false, false⟩ 8)
      (.init ⟨100, 100, 10000000⟩ fun _ => []) comesTwice).map
        (fun l => (l.sender.came.map Mbuf.data, l.sender.sent.map Prod.snd,
          l.sender.ingress.writer, l.sender.ingress.outq.queue)) =
          .ok ([ipv4Packet 0], [true], .call none, []) := by decide +kernel
  cases hrun : run (linkStep ⟨40, false, false⟩ ⟨1500, false, false⟩ 8)
      (.init ⟨100, 100, 10000000⟩ fun _ => []) comesTwice with
  | error e =>
      rw [hrun] at hthere
      cases hthere
  | ok l =>
      rw [hrun] at hthere hhere
      simp only [Except.map, Except.ok.injEq, Prod.mk.injEq] at hthere hhere
      obtain ⟨htop, hwritten, hcopies⟩ := hthere
      obtain ⟨hcame, hsent, hidle, hempty⟩ := hhere
      exact ⟨l, hrun, htop, hwritten, hcopies, hcame, hsent, hidle, hempty⟩

/-- The ACK timer is never checked in it. -/
theorem comesTwice_quiet : ∀ e ∈ comesTwice, e.QuietAt ⟨1500, false, false⟩ := by
  simp [comesTwice, LinkEvent.QuietAt, Quiet]

/-- One packet came, and one datagram was sent. -/
theorem ends_of_one {came : List Mbuf} {sent : List (List UInt8 × Bool)}
    (hcame : came.map Mbuf.data = [ipv4Packet 0]) (hsent : sent.map Prod.snd = [true]) :
    sent.length = 1 ∧ (∀ p ∈ came, Ipv4 p.data) ∧ ∀ d ∈ sent, d.2 = true := by
  refine ⟨?_, ?_, ?_⟩
  · rw [← List.length_map (f := Prod.snd), hsent]
    rfl
  · intro p hp
    have hmem := List.mem_map_of_mem (f := Mbuf.data) hp
    rw [hcame, List.mem_singleton] at hmem
    rw [hmem]
    exact ipv4_packet 0 (by decide)
  · intro d hd
    have hmem := List.mem_map_of_mem (f := Prod.snd) hd
    rw [hsent] at hmem
    exact List.mem_singleton.mp hmem

/-- The one packet that came is as long as its own length field says. -/
theorem ComesTwice.ipv4 {l : Link} (h : ComesTwice l) : ∀ p ∈ l.sender.came, Ipv4 p.data :=
  (ends_of_one h.came h.sent).2.1

/-- One datagram takes it. -/
theorem ComesTwice.length {l : Link} (h : ComesTwice l) : l.sender.sent.length = 1 :=
  (ends_of_one h.came h.sent).1

/-- It is far from the wrap of the numbers. -/
theorem ComesTwice.count {l : Link} (h : ComesTwice l) : l.sender.sent.length < 2 ^ 32 := by
  rw [h.length]
  decide

/-- `sendmsg` took the datagram. -/
theorem ComesTwice.succeeded {l : Link} (h : ComesTwice l) : ∀ d ∈ l.sender.sent, d.2 = true :=
  (ends_of_one h.came h.sent).2.2

/-- The second copy is no record, so that the datagrams that count came in order. -/
theorem ComesTwice.inOrder {l : Link} (h : ComesTwice l) :
    records l.copies = List.range l.sender.sent.length := by
  rw [h.copies, h.length]
  decide

/-- Applied to the run in which the datagram comes twice: the packet is written once. -/
theorem tunnel_integrity_twice : ∃ l, ComesTwice l ∧
    l.receiver.written.Subperm (l.sender.came.map Mbuf.data) := by
  obtain ⟨l, hl⟩ := comesTwice_ends
  refine ⟨l, hl, tunnel_integrity ⟨40, false, false⟩ ⟨1500, false, false⟩ _ _
    (by unfold RefcntFits; decide) (by decide) (by decide) comesTwice_quiet hl.ran hl.ipv4 hl.count⟩

/-- The same run: what the network let through is the one datagram. -/
theorem tunnel_delivers_twice : ∃ (l : Link) (s : Sender), ComesTwice l ∧
    (l.receiver.written ++
        l.receiver.egress.onTheWay.map fun k => (l.receiver.egress.miov k).bytes).Perm
      (arrivals (accepts (records l.copies)) s.ledger.shipments) ∧
    s.ledger.shipments.map Shipment.block = s.packets := by
  obtain ⟨l, hl⟩ := comesTwice_ends
  obtain ⟨s, -, hperm, hblocks, -⟩ := tunnel_delivers ⟨40, false, false⟩ ⟨1500, false, false⟩ _ _
    (by unfold RefcntFits; decide) (by decide) (by decide) comesTwice_quiet hl.ran hl.ipv4 hl.count
    hl.top
  exact ⟨l, s, hl, hperm, hblocks⟩

/-- The same run, in which nothing was lost. -/
theorem tunnel_lossless_twice : ∃ l, ComesTwice l ∧
    (l.receiver.written ++
        l.receiver.egress.onTheWay.map fun k => (l.receiver.egress.miov k).bytes).Perm
      (l.sender.came.map Mbuf.data) := by
  obtain ⟨l, hl⟩ := comesTwice_ends
  exact ⟨l, hl, tunnel_lossless ⟨40, false, false⟩ ⟨1500, false, false⟩ _ _
    (by unfold RefcntFits; decide) (by decide) (by decide) comesTwice_quiet hl.ran hl.ipv4 hl.count
    hl.idle hl.empty hl.succeeded hl.inOrder hl.top⟩

/-- The same run, from its end on. -/
theorem tunnel_completes_twice : ∃ (l : Link) (n : Nat) (k : Link), ComesTwice l ∧
    run (linkStep ⟨40, false, false⟩ ⟨1500, false, false⟩ 8) l (List.replicate n .writer) = .ok k ∧
    k.receiver.written = [ipv4Packet 0] := by
  obtain ⟨l, hl⟩ := comesTwice_ends
  obtain ⟨n, -, k, hwrites, hperm⟩ := tunnel_completes ⟨40, false, false⟩ ⟨1500, false, false⟩ _ _
    (by unfold RefcntFits; decide) (by decide) (by decide) comesTwice_quiet hl.ran hl.ipv4 hl.count
    hl.idle hl.empty hl.succeeded hl.inOrder hl.top
  rw [hl.came] at hperm
  exact ⟨l, n, k, hl, hwrites, List.perm_singleton.mp hperm⟩

end Proofs

end Iptfs
