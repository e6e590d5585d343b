import Iptfs.Proofs.EndToEnd
import Iptfs.Proofs.Python.IngressSimulation
import Iptfs.Python.Link

/-!
# `Iptfs.Proofs.Python.MixedTunnel`: from the Python program's interface to that of the C program

`Iptfs.Proofs.Python.Interop` has a loop of one program against a loop of the other. Here are the
threads of both, with their queues and buffers. The Python ingress is a C ingress
(`Simulated.step`), so the link is one of the C program (`link_toC`), and what the C program's two
ends keep (`Joined`) holds of it.

As in `Iptfs.Proofs.EndToEnd`, no ACK of the C program goes out. Those of the Python program may
come in at any time.
-/

set_option autoImplicit false

namespace Iptfs.Py

open Iptfs.Lib Iptfs.Lib.Framing

/-- The link with the C program at both ends. -/
def Link.toC (l : Link) : Iptfs.Link := ⟨l.sender.toC, l.receiver, l.copies⟩

/-- The step of this link. -/
def LinkEvent.toC : LinkEvent → Iptfs.LinkEvent
  | .ingress e => .ingress e.toC
  | .reader timer net => .reader timer net
  | .writer => .writer

/-- A step in which no ACK of the C program goes out. -/
def LinkEvent.QuietAt (there : Config) (e : LinkEvent) : Prop := e.toC.QuietAt there

namespace Proofs

open Iptfs.Proofs (Joined RefcntFits Ipv4 accepts ends_of_one ipv4Packet)

section Link

variable {mtu : Nat} {there : Config} {pps : Pps} {maxiov : Nat} {mem : Nat → List UInt8}
  {l : Link} {es : List LinkEvent}

/-- A step of the link. -/
theorem link_toC (h15 : 14 < mtu) (hmax : mtu ≤ 9000) {m : Link} {e : LinkEvent}
    (h : Simulated mtu l.sender) (hstep : linkStep mtu there maxiov l e = .ok m) :
    Iptfs.linkStep (plain mtu) there maxiov l.toC e.toC = .ok m.toC ∧ Simulated mtu m.sender := by
  cases e with
  | ingress e =>
      rw [linkStep] at hstep
      split at hstep
      · cases hstep
      · rename_i sender hsender
        cases hstep
        obtain ⟨hC, hsim⟩ := h.step h15 hmax hsender
        refine ⟨?_, hsim⟩
        have hsenderC : Iptfs.observedIngressStep (plain mtu) l.toC.sender e.toC =
            .ok sender.toC := hC
        rw [LinkEvent.toC, Iptfs.linkStep, hsenderC]
        rfl
  | reader timer net =>
      rw [linkStep] at hstep
      split at hstep
      · cases hstep
      · rename_i input hinput
        split at hstep
        · cases hstep
        · rename_i receiver hreceiver
          cases hstep
          refine ⟨?_, h⟩
          have hinputC : net.input l.toC.sender.sent = some input := hinput
          have hreceiverC : Iptfs.observedStep there maxiov l.toC.receiver (.reader timer input) =
              .ok receiver := hreceiver
          rw [LinkEvent.toC, Iptfs.linkStep, hinputC]
          dsimp only
          rw [hreceiverC]
          rfl
  | writer =>
      rw [linkStep] at hstep
      split at hstep
      · cases hstep
      · rename_i receiver hreceiver
        cases hstep
        refine ⟨?_, h⟩
        have hreceiverC : Iptfs.observedStep there maxiov l.toC.receiver .writer = .ok receiver :=
          hreceiver
        rw [LinkEvent.toC, Iptfs.linkStep, hreceiverC]
        rfl

/-- The ends of the link. -/
theorem joined_toC (h15 : 14 < mtu) (hmax : mtu ≤ 9000) (hfits : RefcntFits maxiov)
    (hquiet : ∀ e ∈ es, e.QuietAt there)
    (hrun : run (linkStep mtu there maxiov) (.init pps mem) es = .ok l) :
    Joined (plain mtu) there pps maxiov l.toC ∧ Simulated mtu l.sender := by
  have hstep : ∀ (k : Link) (e : LinkEvent) (m : Link), Simulated mtu k.sender →
      linkStep mtu there maxiov k e = .ok m →
      Iptfs.linkStep (plain mtu) there maxiov k.toC e.toC = .ok m.toC ∧ Simulated mtu m.sender :=
    fun _ _ _ hs hst => link_toC h15 hmax hs hst
  have hsim : Simulated mtu (Link.init pps mem).sender := simulated_init mtu
  obtain ⟨hC, hl⟩ := run_image hstep hsim hrun
  have hbegin : Joined (plain mtu) there pps maxiov (Link.init pps mem).toC :=
    Iptfs.Proofs.joined_init (plain mtu) there pps maxiov mem
      ⟨_, Iptfs.Proofs.calls_ofPool (plain mtu) MAXQSZ⟩
  refine ⟨hbegin.run hfits ?_ hC, hl⟩
  intro e he
  obtain ⟨e', he', rfl⟩ := List.mem_map.mp he
  exact hquiet e' he'

/-- The steps of `write_intf_pkts` there are the same in both links. Induction on them. -/
theorem writes_toC {n : Nat} {k : Iptfs.Link}
    (h : run (Iptfs.linkStep (plain mtu) there maxiov) l.toC (List.replicate n .writer) = .ok k) :
    ∃ m, m.toC = k ∧ m.sender = l.sender ∧
      run (linkStep mtu there maxiov) l (List.replicate n .writer) = .ok m := by
  induction n generalizing l with
  | zero =>
      cases h
      exact ⟨l, rfl, rfl, rfl⟩
  | succ n ih =>
      rw [List.replicate_succ] at h
      obtain ⟨k₀, hk₀, hrest⟩ := run_cons_eq_ok.mp h
      rw [Iptfs.linkStep] at hk₀
      split at hk₀
      · cases hk₀
      · rename_i receiver hreceiver
        cases hk₀
        have hreceiver' : Iptfs.observedStep there maxiov l.receiver .writer = .ok receiver :=
          hreceiver
        have hstep : linkStep mtu there maxiov l .writer = .ok { l with receiver := receiver } := by
          rw [linkStep, hreceiver']
        obtain ⟨m, hm, hsender, hrun⟩ := ih (l := { l with receiver := receiver }) hrest
        refine ⟨m, hm, hsender, ?_⟩
        rw [List.replicate_succ, run_cons_ok _ hstep]
        exact hrun

end Link

/-! ### The tunnel -/

section Tunnel

variable (mtu : Nat) (there : Config) {maxiov : Nat} (pps : Pps) (mem : Nat → List UInt8)
  {es : List LinkEvent} {l : Link}

/-- The buffers of the C program hold the datagrams of the Python program. -/
theorem le_buffer {mtu : Nat} (hmax : mtu ≤ 9000) : mtu ≤ Iptfs.MAXBUF - Iptfs.HDRSPACE :=
  Nat.le_trans hmax (by decide)

/-- Whatever the four threads and the network do, where no ACK of the C program goes out: the
packets written to the interface there are packets that `read_intf_packets` read here, byte for
byte, and none is written more often than it was read. -/
theorem mixed_integrity (hfits : RefcntFits maxiov) (h15 : 14 < mtu) (hmax : mtu ≤ 9000)
    (hquiet : ∀ e ∈ es, e.QuietAt there)
    (hrun : run (linkStep mtu there maxiov) (.init pps mem) es = .ok l)
    (hipv4 : ∀ p ∈ l.sender.came, Ipv4 p.data) (hcount : l.sender.sent.length < 2 ^ 32) :
    l.receiver.written.Subperm (l.sender.came.map Mbuf.data) := by
  obtain ⟨hjoined, -⟩ := joined_toC h15 hmax hfits hquiet hrun
  have h9 : 8 < (plain mtu).tfsmtu := by
    show 8 < mtu
    omega
  exact hjoined.integrity h9 (le_buffer hmax) hipv4 hcount

/-- And they are exactly what the network let through. Whenever `read_tfs_pkts` is at the top of its
loop, the packets written or on the way to the interface there are those all of whose datagrams were
accepted. `s` is the record of the calls of `write_tfs_packet`, and what they took was read here. -/
theorem mixed_delivers (hfits : RefcntFits maxiov) (h15 : 14 < mtu) (hmax : mtu ≤ 9000)
    (hquiet : ∀ e ∈ es, e.QuietAt there)
    (hrun : run (linkStep mtu there maxiov) (.init pps mem) es = .ok l)
    (hipv4 : ∀ p ∈ l.sender.came, Ipv4 p.data) (hcount : l.sender.sent.length < 2 ^ 32)
    {b : Nat} {m : Option Nat} (htop : l.receiver.egress.reader = .top b m) :
    ∃ s, run (writeTfsPacketsStep mtu) Sender.init l.sender.calls = .ok s ∧
      (l.receiver.written ++
          l.receiver.egress.onTheWay.map fun k => (l.receiver.egress.miov k).bytes).Perm
        (arrivals (accepts (Iptfs.records l.copies)) s.ledger.shipments) ∧
      s.ledger.shipments.map Shipment.block = s.packets ∧
      (s.taken ++ (l.sender.ingress.writer.took ++ l.sender.ingress.outq.queue)).Perm
        l.sender.came := by
  obtain ⟨hjoined, hsim⟩ := joined_toC h15 hmax hfits hquiet hrun
  obtain ⟨s, hs, -, hcalls⟩ := hsim.calls h15 hmax
  obtain ⟨hperm, hblocks⟩ := hjoined.delivers h15 (le_buffer hmax) hipv4 hcount htop hcalls
  rw [ledger_wrap] at hperm hblocks
  rw [packets_wrap] at hblocks
  exact ⟨s, hs, hperm, hblocks, took_wrap hcalls⟩

/-- Nothing is lost on either side. When `write_tfs_packets` has sent all that came (it is between
two calls, so no `sendmsg` has failed), and the datagrams have come in order, late or repeated
copies apart, then with nothing but steps of `write_intf_pkts` each packet that was read here is
written there, exactly once. -/
theorem mixed_completes (hfits : RefcntFits maxiov) (h15 : 14 < mtu) (hmax : mtu ≤ 9000)
    (hquiet : ∀ e ∈ es, e.QuietAt there)
    (hrun : run (linkStep mtu there maxiov) (.init pps mem) es = .ok l)
    (hipv4 : ∀ p ∈ l.sender.came, Ipv4 p.data) (hcount : l.sender.sent.length < 2 ^ 32)
    (hidle : l.sender.ingress.writer = .call none) (hempty : l.sender.ingress.outq.queue = [])
    (hcopies : Iptfs.records l.copies = List.range l.sender.sent.length)
    {b : Nat} {m : Option Nat} (htop : l.receiver.egress.reader = .top b m) :
    ∃ n ≤ OUTERQSZ * (3 * maxiov + 4), ∃ k,
      run (linkStep mtu there maxiov) l (List.replicate n .writer) = .ok k ∧
        k.receiver.written.Perm (l.sender.came.map Mbuf.data) := by
  obtain ⟨hjoined, hsim⟩ := joined_toC h15 hmax hfits hquiet hrun
  -- The C program that makes the same calls is between two of them, too.
  have hidleC : l.toC.sender.ingress.writer = .call none := by
    show l.sender.ingress.writer.toC = .call none
    rw [hidle]
    rfl
  obtain ⟨n, hn, kC, hwrites, hperm⟩ := hjoined.completes hfits h15 (le_buffer hmax) hipv4 hcount
    hidleC hempty hsim.succeeded hcopies htop
  obtain ⟨k, rfl, -, hk⟩ := writes_toC hwrites
  exact ⟨n, hn, k, hk, hperm⟩

end Tunnel

/-- A packet is read here after a `readinto` that returns zero, and sent. Its datagram comes, then
an ACK of the Python program, then the datagram again. -/
def comesAgain : List LinkEvent :=
  let read (bytes : List UInt8) : LinkEvent := .ingress (.reader bytes)
  let send : LinkEvent := .ingress (.writer true)
  let turn : LinkEvent := .reader none .failed
  let copy : LinkEvent := .reader none (.copy 0 false)
  let ack : LinkEvent := .reader none (.other (ackInfo 0 0 1 1) false)
  [read [], read [], read [], read [], read (ipv4Packet 0), read []] ++
    [send, send, send, send, send, send, send, send] ++
    [turn, turn, turn, turn, turn, copy, turn, turn, turn, turn, turn, .writer, .writer] ++
    [turn, turn, turn, ack, turn, turn, turn, copy]

/-- Where it ends, as the results need it. -/
structure ComesAgain (l : Link) : Prop where
  ran : run (linkStep 40 ⟨1500, false, false⟩ 8) (.init ⟨100, 100, 10000000⟩ fun _ => [])
    comesAgain = .ok l
  top : l.receiver.egress.reader = .top 254 (some 254)
  written : l.receiver.written = [ipv4Packet 0]
  came : l.sender.came.map Mbuf.data = [ipv4Packet 0]
  ipv4 : ∀ p ∈ l.sender.came, Ipv4 p.data
  count : l.sender.sent.length < 2 ^ 32
  idle : l.sender.ingress.writer = .call none
  empty : l.sender.ingress.outq.queue = []
  inOrder : Iptfs.records l.copies = List.range l.sender.sent.length

/-- The run ends with both copies received, and the packet written once. -/
theorem comesAgain_ends : ∃ l, ComesAgain l := by
  have hthere : (run (linkStep 40 ⟨1500, false, false⟩ 8) (.init ⟨100, 100, 10000000⟩ fun _ => [])
      comesAgain).map (fun l => (l.receiver.egress.reader, l.receiver.written, l.copies)) =
      .ok (.top 254 (some 254), [ipv4Packet 0], [0, 0]) := by decide +kernel
  have hhere : (run (linkStep 40 ⟨1500, false, false⟩ 8) (.init ⟨100, 100, 10000000⟩ fun _ => [])
      comesAgain).map (fun l => (l.sender.came.map Mbuf.data, l.sender.sent.map Prod.snd,
        l.sender.ingress.writer, l.sender.ingress.outq.queue)) =
      .ok ([ipv4Packet 0], [true], .call none, []) := by decide +kernel
  obtain ⟨l, hrun, hl⟩ := map_eq_ok.mp hthere
  rw [hrun] at hhere
  simp only [Except.map, Except.ok.injEq, Prod.mk.injEq] at hl hhere
  obtain ⟨htop, hwritten, hcopies⟩ := hl
  obtain ⟨hcame, hsent, hidle, hempty⟩ := hhere
  obtain ⟨hlength, hipv4, -⟩ := ends_of_one hcame hsent
  refine ⟨l, hrun, htop, hwritten, hcame, hipv4, ?_, hidle, hempty, ?_⟩
  · rw [hlength]
    decide
  · rw [hcopies, hlength]
    decide

/-- The timer of the C program never expires in it. -/
theorem comesAgain_quiet : ∀ e ∈ comesAgain, e.QuietAt ⟨1500, false, false⟩ := by
  simp [comesAgain, LinkEvent.QuietAt, LinkEvent.toC, Iptfs.LinkEvent.QuietAt, Quiet]

/-- Applied to the run in which the datagram comes again behind an ACK. -/
theorem mixed_integrity_again : ∃ l, ComesAgain l ∧
    l.receiver.written.Subperm (l.sender.came.map Mbuf.data) := by
  obtain ⟨l, hl⟩ := comesAgain_ends
  exact ⟨l, hl, mixed_integrity 40 ⟨1500, false, false⟩ _ _ (by unfold RefcntFits; decide)
    (by decide) (by decide) comesAgain_quiet hl.ran hl.ipv4 hl.count⟩

/-- The same run: what the network let through is the one datagram. -/
theorem mixed_delivers_again : ∃ (l : Link) (s : Sender), ComesAgain l ∧
    (l.receiver.written ++
        l.receiver.egress.onTheWay.map fun k => (l.receiver.egress.miov k).bytes).Perm
      (arrivals (accepts (Iptfs.records l.copies)) s.ledger.shipments) ∧
    s.ledger.shipments.map Shipment.block = s.packets := by
  obtain ⟨l, hl⟩ := comesAgain_ends
  obtain ⟨s, -, hperm, hblocks, -⟩ := mixed_delivers 40 ⟨1500, false, false⟩ _ _
    (by unfold RefcntFits; decide) (by decide) (by decide) comesAgain_quiet hl.ran hl.ipv4 hl.count
    hl.top
  exact ⟨l, s, hl, hperm, hblocks⟩

/-- The same run, from its end on. -/
theorem mixed_completes_again : ∃ (l : Link) (n : Nat) (k : Link), ComesAgain l ∧
    run (linkStep 40 ⟨1500, false, false⟩ 8) l (List.replicate n .writer) = .ok k ∧
    k.receiver.written = [ipv4Packet 0] := by
  obtain ⟨l, hl⟩ := comesAgain_ends
  obtain ⟨n, -, k, hwrites, hperm⟩ := mixed_completes 40 ⟨1500, false, false⟩ _ _
    (by unfold RefcntFits; decide) (by decide) (by decide) comesAgain_quiet hl.ran hl.ipv4 hl.count
    hl.idle hl.empty hl.inOrder hl.top
  rw [hl.came] at hperm
  exact ⟨l, n, k, hl, hwrites, List.perm_singleton.mp hperm⟩

end Proofs

end Iptfs.Py
