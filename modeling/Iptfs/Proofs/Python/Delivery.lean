import Iptfs.Proofs.Delivery
import Iptfs.Proofs.Python.Inner
import Iptfs.Proofs.Python.Write

/-!
# `Iptfs.Proofs.Python.Delivery`: what comes out of the Python tunnel

The Python sender with `mtu` 1500 does what the C sender does (`run_wrap`), so its datagrams are the
same frames. On them the Python receiver does what the C receiver does between ACKs: `Alike` relates
the two, and `Alike.step` is the step lemma. `outq.lastseq` is not cleared when `send_ack_infos`
takes the record, so the C receiver in this relation is one whose ACK timer never expires. The
Python program has its ACKs anywhere.

`run_alike` is the run lemma. `delivered_py` is the main result: the receiver delivers exactly
the packets all of whose datagrams were accepted.
-/

set_option autoImplicit false

namespace Iptfs.Py

open Iptfs.Lib Iptfs.Lib.Framing

/-- What the receiver meets: the datagram of the sender with this number is received into the
buffer `id`, or `send_ack_infos` takes the record at the time `ns`. -/
inductive Arrival
  | datagram (id number : Nat) (limited : Bool) (lefts : List (Option Nat))
  | ackInfos (ns : Nat)
  deriving DecidableEq, Repr

/-- The event at the receiver. -/
def Arrival.event (s : Sender) : Arrival → RxEvent
  | .datagram id number limited lefts => .recv id ((s.datagram number).getD []) limited lefts
  | .ackInfos ns => .ackInfos ns

/-- The sender did send the datagram. -/
def Arrival.Sent (s : Sender) : Arrival → Prop
  | .datagram _ number _ _ => (s.datagram number).isSome
  | .ackInfos _ => True

/-- The numbers of the datagrams that get past the limiter, in the order they come. -/
def passed (as : List Arrival) : List Nat :=
  as.filterMap fun
    | .datagram _ number limited _ => if limited then none else some number
    | .ackInfos _ => none

/-- The arrival at a C receiver whose ACK timer does not expire. -/
def Arrival.plain : Arrival → List Iptfs.Arrival
  | .datagram id number limited _ => [⟨none, id, number, limited⟩]
  | .ackInfos _ => []

/-- The sender with its sequence numbers in 32 bits. -/
def wrapOut (c : WriteCall × Iptfs.WriteOut) : WriteCall × Iptfs.WriteOut :=
  (c.1, { c.2 with seq := c.2.seq % 2 ^ 32 })

/-- The sender with its sequence numbers in 32 bits. -/
def wrap (s : Sender) : Sender := ⟨s.seq % 2 ^ 32, s.leftover, s.calls.map wrapOut⟩

/-- Both receivers between two datagrams. -/
structure Alike (r : Rx) (s : Iptfs.Rx) : Prop where
  last : r.ack.lastseq = s.ack.last
  m : LikeOpt r.m s.m
  outq : r.outq.map MIOVBuf.iov = s.outq.map Miov.iov

namespace Proofs

open Iptfs.Proofs (Ipv4 Sound Framed Follows Taken accepts)

/-! ### The sender -/

/-- One call of both senders. The Python sender has made it, so the send succeeded. -/
theorem step_wrap {mtu : Nat} (h15 : 14 < mtu) (hmax : mtu ≤ 9000) {s s' : Sender} {c : WriteCall}
    (h : writeTfsPacketsStep mtu s c = .ok s') :
    writeTfsPktsStep (plain mtu) (wrap s) c = .ok (wrap s') := by
  obtain ⟨out, hC, hseq, hPy⟩ := writeTfsPacket_eq (by omega) hmax s.seq s.leftover c
  unfold writeTfsPacketsStep at h
  rw [hPy] at h
  by_cases hsent : c.sent = true
  · rw [if_pos hsent] at h
    cases h
    have hstep : writeTfsPktsStep (plain mtu) (wrap s) c =
        .ok ⟨out.seq, out.leftover, (wrap s).calls ++ [(c, out)]⟩ := by
      unfold writeTfsPktsStep wrap
      dsimp only
      rw [hC]
    rw [hstep]
    unfold wrap
    rw [List.map_append]
    show Except.ok (⟨out.seq, out.leftover, _ ++ [(c, out)]⟩ : Sender) =
      .ok ⟨(s.seq + 1) % 2 ^ 32, out.leftover, _ ++ [(c, { out with seq := (s.seq + 1) % 2 ^ 32 })]⟩
    rw [← hseq]
  · rw [if_neg hsent] at h
    cases h

/-- A run of both senders. -/
theorem run_wrap {mtu : Nat} (h15 : 14 < mtu) (hmax : mtu ≤ 9000) {calls : List WriteCall} :
    ∀ {s s' : Sender}, run (writeTfsPacketsStep mtu) s calls = .ok s' →
      run (writeTfsPktsStep (plain mtu)) (wrap s) calls = .ok (wrap s') := by
  induction calls with
  | nil =>
      intro s s' h
      cases h
      rfl
  | cons c calls ih =>
      intro s s' h
      rcases run_cons_eq_ok.mp h with ⟨u, hu, hrest⟩
      rw [run_cons_ok calls (step_wrap h15 hmax hu)]
      exact ih hrest

/-- What goes onto the network and into the ledger does not depend on the record of the sequence
numbers. -/
theorem sends_wrap (s : Sender) : (wrap s).sends = s.sends.map wrapOut := by
  unfold Sender.sends wrap
  rw [List.filter_map]
  rfl

/-- The datagram with a given number is the same. -/
theorem datagram_wrap (s : Sender) (n : Nat) : (wrap s).datagram n = s.datagram n := by
  unfold Sender.datagram
  rw [sends_wrap, List.getElem?_map]
  cases s.sends[n]? <;> rfl

/-- So is what the receiver sees of it. -/
theorem event_wrap (s : Sender) : Arrival.event (wrap s) = Arrival.event s := by
  funext a
  cases a with
  | ackInfos ns => rfl
  | datagram id number limited lefts => simp only [Arrival.event, datagram_wrap]

/-- So is whether it was sent. -/
theorem sent_wrap (s : Sender) (a : Arrival) : a.Sent (wrap s) ↔ a.Sent s := by
  cases a with
  | ackInfos ns => exact Iff.rfl
  | datagram id number limited lefts => simp only [Arrival.Sent, datagram_wrap]

/-- So is the ledger of the packets. -/
theorem ledger_wrap (s : Sender) : (wrap s).ledger = s.ledger := by
  unfold Sender.ledger
  rw [sends_wrap, List.foldl_map]
  rfl

/-- And so are the packets that the calls took. -/
theorem packets_wrap (s : Sender) : (wrap s).packets = s.packets := by
  unfold Sender.packets Sender.taken wrap
  rw [List.map_map]
  rfl

/-! ### The header of a datagram -/

/-- Both read the same four bytes. -/
theorem get32_slice_eq {bytes : List UInt8} {i n : Nat}
    (h : Iptfs.get32 bytes i = .ok n) : get32 (slice bytes i (i + 4)) = .ok n := by
  have hcut : slice bytes i (i + 4) = (bytes.drop i).take 4 := by
    rw [slice, List.drop_take, Nat.add_sub_cancel_left]
  have hread : get32 (bytes.drop i) = .ok n := get32_eq_ok.mpr h
  rw [hcut]
  generalize bytes.drop i = mv at hread ⊢
  rcases mv with _ | ⟨a, _ | ⟨b, _ | ⟨c, _ | ⟨d, tail⟩⟩⟩⟩
  · cases hread
  · cases hread
  · cases hread
  · cases hread
  · exact hread

/-- The tests of the loop on a data datagram. -/
theorem classify_wtfsHdr {seq offset : Nat} {payload : List UInt8} (limited : Bool)
    (hseq : seq < 2 ^ 32) (hoff : offset < 2 ^ 16) (hne : payload ≠ []) :
    classify (wtfsHdr seq offset ++ payload) limited =
      .ok (if limited then .limited else .data seq) := by
  have hpos := List.length_pos_iff.mpr hne
  have hlen : (wtfsHdr seq offset ++ payload).length = 8 + payload.length := by
    rw [List.length_append, Iptfs.Proofs.length_wtfsHdr]
  obtain ⟨hack, hver⟩ := Iptfs.Proofs.offset_bits hoff
  have hread4 : Iptfs.get32 (wtfsHdr seq offset ++ payload) 4 = .ok offset :=
    Iptfs.Proofs.get32_wtfsHdr_offset payload hoff
  have hread0 : Iptfs.get32 (wtfsHdr seq offset ++ payload) 0 = .ok seq :=
    Iptfs.Proofs.get32_wtfsHdr_seq payload hseq
  have h4 := get32_slice_eq hread4
  have h0 := get32_slice_eq hread0
  unfold classify
  rw [if_neg (by omega)]
  cases limited with
  | true => rfl
  | false =>
      rw [if_neg Bool.false_ne_true, h4, h0]
      dsimp only
      rw [if_neg hack, if_neg (not_not.mpr hver)]
      rfl

/-! ### The receiver -/

/-- A frame of well-formed packets does not deliver many: each one after the first has its 20
bytes in the frame. -/
theorem receive_length {f : Frame UInt8} (hsound : Sound Ipv4 7 f) (held : Option (Carry UInt8)) :
    20 * (f.receive held).2.length ≤ f.payload.length + 20 := by
  cases f with
  | middle c n hn h => exact Nat.zero_le _
  | blocks owed whole next pad =>
      have hwhole : ∀ p ∈ whole, 20 ≤ p.length := fun p hp => (hsound.1 p hp).min
      -- Each packet that is whole in the frame takes its bytes there.
      have hsum : ∀ ps : List (List UInt8), (∀ p ∈ ps, 20 ≤ p.length) →
          20 * ps.length ≤ ps.flatten.length := by
        intro ps
        induction ps with
        | nil => exact fun _ => Nat.le_refl 0
        | cons p ps ih =>
            intro hps
            have hp := hps p (by simp)
            have hrest := ih fun q hq => hps q (List.mem_cons_of_mem _ hq)
            rw [List.length_cons, List.flatten_cons, List.length_append]
            omega
      have hbytes := hsum whole hwhole
      have hfirst : (if held.isSome then (owed.map Carry.block).toList else []).length ≤ 1 := by
        split
        · cases owed <;> simp
        · exact Nat.zero_le 1
      unfold Frame.receive Frame.payload
      dsimp only
      rw [List.length_append, List.length_append, List.length_append]
      omega

/-- What the channel holds is settled: a block under way is owed bytes. -/
theorem settled_of_holds {m : Option Miov} {held : Option (Carry UInt8)}
    (h : Iptfs.Proofs.Holds m held) : Settled m := by
  intro v hm hlen
  cases held with
  | none =>
      have hclean : m.getD Miov.clean = Miov.clean := h
      rw [hm, Option.getD_some] at hclean
      rw [hclean] at hlen
      exact absurd rfl hlen
  | some c =>
      rcases h with ⟨w, hw, -, -, hleft⟩
      rw [hm] at hw
      cases hw
      rw [hleft]
      exact Nat.ne_of_gt c.rest_pos

/-- After a gap both start afresh, and otherwise both keep the packet in progress. -/
theorem keep_like {v : Option MIOVBuf} {m : Option Miov} (h : LikeOpt v m) {outq : AckRecord}
    {ack : Ackinfo} {seq : Nat} (hlast : outq.lastseq = ack.last) (hnew : ack.last < seq)
    (hseq : seq < 2 ^ 32) : LikeOpt (outq.keep seq v) (ack.keep seq m) := by
  -- Below the wrap the number after the last one is the same in 32 bits.
  have hgap : outq.gap seq ↔ ack.gap seq := by
    unfold AckRecord.gap Ackinfo.gap
    rw [hlast, Nat.mod_eq_of_lt (by omega)]
  unfold AckRecord.keep Ackinfo.keep
  by_cases hg : ack.gap seq
  · rw [if_pos hg, if_pos (hgap.mpr hg)]
    cases v with
    | none =>
        cases m with
        | none => exact trivial
        | some m => exact absurd h id
    | some v =>
        cases m with
        | none => exact absurd h id
        | some m => exact Like.reset
  · rw [if_neg hg, if_neg (fun hpy => hg (hgap.mp hpy))]
    exact h

/-- A datagram that both take for a new one, and on which the C function does not fail. -/
theorem acceptData_like {r : Rx} {rx : Iptfs.Rx} (h : Alike r rx) {seq limit fuel : Nat}
    {tmbuf : Tbuf} {added : Iptfs.Added} (lefts : List (Option Nat))
    (hlt : tmbuf.data.length < 2 ^ 16) (hnew : rx.ack.last < seq) (hseq : seq < 2 ^ 32)
    (hcall : Iptfs.addToInnerPacket fuel tmbuf true (rx.ack.keep seq rx.m) = .ok added)
    (hset : Settled added.m) (hfew : added.outq.length < limit) :
    ∃ r', acceptData limit tmbuf seq lefts r = .ok r' ∧ r'.ack.lastseq = seq ∧
      LikeOpt r'.m added.m ∧
      r'.outq.map MIOVBuf.iov = (rx.outq ++ added.outq).map Miov.iov := by
  have hlast : (r.ack.begin seq).lastseq = rx.ack.last := h.last
  have hkeep : LikeOpt ((r.ack.begin seq).keep seq r.m) (rx.ack.keep seq rx.m) :=
    keep_like h.m hlast hnew hseq
  rcases addToInnerPacket_like fuel lefts hlt hkeep hcall hset with ⟨b, hb, hlikes⟩
  have hlength : b.outq.length = added.outq.length := by
    have hmap := congrArg List.length hlikes.outq
    rwa [List.length_map, List.length_map] at hmap
  -- Few packets are pushed, so the calls do not nest as deep as the interpreter allows.
  have hdeep : addToInnerPacket limit tmbuf true ((r.ack.begin seq).keep seq r.m) lefts = .ok b :=
    addToInnerPacket_depth fuel hb (by omega)
  refine ⟨{ r with
    ack := (r.ack.begin seq).advance seq
    m := b.m
    outq := r.outq ++ b.outq }, ?_, rfl, hlikes.m, ?_⟩
  · unfold acceptData
    dsimp only
    rw [if_neg (by omega), hdeep]
  · rw [List.map_append, List.map_append, h.outq, hlikes.outq]

variable {s : Sender} {ks : List (Cut UInt8)}

/-- The pass of the Python receiver with a datagram of the sender. -/
theorem recv_datagram {cfg : Config} (h9 : 8 < cfg.tfsmtu) (hmax : cfg.tfsmtu ≤ 9000)
    (hf : Framed Ipv4 cfg s ks) (hcount : ks.length < 2 ^ 32)
    (target : ℚ) (limit : Nat) (r : Rx) (id : Nat) {number : Nat} (limited : Bool)
    (lefts : List (Option Nat)) (hsent : (s.datagram number).isSome) :
    ∃ data, s.datagram number = some data ∧ data.length = cfg.tfsmtu ∧ number + 1 < 2 ^ 32 ∧
      readTfsPacketsStep target limit r (.recv id ((s.datagram number).getD []) limited lefts) =
        if limited then .ok { r with ack := r.ack.drop }
        else acceptData limit (Tbuf.fresh id data) (number + 1) lefts r := by
  rcases hf.arrival hsent with ⟨k, hk, -, -, howes, hlen, hdatagram⟩
  have hlt : number < ks.length := (List.getElem?_eq_some_iff.mp hk).1
  have hnumber : number + 1 < 2 ^ 32 := by omega
  rw [Nat.mod_eq_of_lt hnumber] at hdatagram
  have hlength : (wtfsHdr (number + 1) k.frame.owes ++ k.frame.payload).length = cfg.tfsmtu := by
    rw [List.length_append, Iptfs.Proofs.length_wtfsHdr, hlen]
    omega
  -- `recvfrom_into` keeps all of it.
  have hbytes : recvBytes (wtfsHdr (number + 1) k.frame.owes ++ k.frame.payload) =
      wtfsHdr (number + 1) k.frame.owes ++ k.frame.payload := by
    apply List.take_of_length_le
    rw [hlength]
    exact hmax
  have hne : k.frame.payload ≠ [] := by
    intro h0
    rw [h0, List.length_nil] at hlen
    omega
  refine ⟨_, hdatagram, hlength, hnumber, ?_⟩
  unfold readTfsPacketsStep
  dsimp only
  rw [hdatagram, Option.getD_some, hbytes, classify_wtfsHdr limited hnumber howes hne]
  cases limited <;> rfl

/-- One datagram at both receivers. -/
theorem Alike.step {cfg : Config} (h9 : 8 < cfg.tfsmtu) (hmax : cfg.tfsmtu ≤ 9000)
    (hf : Framed Ipv4 cfg s ks) (hcount : ks.length < 2 ^ 32)
    (target : ℚ) {limit : Nat} (hlimit : cfg.tfsmtu + 12 < 20 * limit) {r : Rx} {t : Track}
    {idx : List Nat} (hfollows : Follows ks t idx) (hlast : t.rx.ack.last = t.next)
    (h : Alike r t.rx) (id : Nat) {number : Nat} (limited : Bool)
    (lefts : List (Option Nat)) (hsent : (s.datagram number).isSome) {u : Track}
    (hu : trackStep (readTfsPktsStep cfg) s t ⟨none, id, number, limited⟩ = .ok u) :
    ∃ r', readTfsPacketsStep target limit r (.recv id ((s.datagram number).getD []) limited lefts)
      = .ok r' ∧ Alike r' u.rx := by
  have hmaxC : cfg.tfsmtu ≤ Iptfs.MAXBUF - Iptfs.HDRSPACE := Nat.le_trans hmax (by decide)
  rcases recv_datagram h9 hmax hf hcount target limit r id limited lefts hsent with
    ⟨data, hdata, hlength, hnumber, hpass⟩
  rw [hpass]
  generalize ha : (⟨none, id, number, limited⟩ : Iptfs.Arrival) = a at hu
  have hnum : a.number = number := by rw [← ha]
  have hsent' : (s.datagram a.number).isSome := by rwa [hnum]
  rcases hfollows.inStep hf hcount hlast (by rw [← ha]) hsent' with ⟨hseen, hseq, hin⟩
  rw [hnum] at hseq
  have hlim : a.limited = limited := by rw [← ha]
  by_cases hnew : a.isNew cfg t.rx.ack
  · -- A new one goes to `add_to_inner_packet` on both sides.
    rcases hfollows.step_new hf h9 hmaxC hsent' hin hnew with ⟨rx, hrx, hl, -, -, k, added, htaken⟩
    rw [hrx] at hu
    cases hu
    rcases hnew with ⟨hlimited, hgt⟩
    rw [hseen, hseq, ← hlast] at hgt
    rcases htaken.call with ⟨d, hd, hcall⟩
    rw [hnum, hdata] at hd
    cases hd
    -- The ACK timer of this arrival never expires, so the record is the one before it.
    have hargs : ackAfter cfg a.timer t.rx.ack = t.rx.ack ∧ a.id = id := by
      rw [← ha]
      exact ⟨rfl, rfl⟩
    rw [hargs.1, hargs.2, hseq] at hcall
    rcases htaken.pushed with ⟨held, hholds, hpushed⟩
    -- Each packet but the first has its 20 bytes in the datagram.
    have hfew : added.outq.length < limit := by
      rcases hf.arrival hsent' with ⟨k', hk', -, -, -, hpayload, -⟩
      rw [htaken.cut] at hk'
      cases hk'
      have hcount := receive_length htaken.sound held
      rw [← hpushed, List.length_map, hpayload] at hcount
      omega
    have hlt : (Tbuf.fresh id data).data.length < 2 ^ 16 := by
      show data.length < 2 ^ 16
      rw [hlength]
      omega
    rcases acceptData_like h lefts hlt hgt hnumber hcall (settled_of_holds hholds) hfew with
      ⟨r', hr', hseq', hm, houtq⟩
    refine ⟨r', ?_, ?_, ?_, ?_⟩
    · rw [← hlim, hlimited, if_neg Bool.false_ne_true]
      exact hr'
    · rw [hseq', hl, hseq]
    · rw [htaken.m]
      exact hm
    · rw [htaken.outq]
      exact houtq
  · rcases hfollows.step_old hf h9 hmaxC hsent' hnew with ⟨rx, hrx, hl, -, hm, houtq⟩
    rw [hrx] at hu
    cases hu
    rw [hseen, ← hlast] at hl
    -- The reassembly is left alone, whatever is counted.
    have halike : ∀ ack : AckRecord, ack.lastseq = r.ack.lastseq →
        Alike { r with ack := ack } rx := by
      intro ack hack
      refine ⟨?_, ?_, ?_⟩
      · rw [hl, ← h.last]
        exact hack
      · rw [hm]
        exact h.m
      · rw [houtq]
        exact h.outq
    cases hlimited : limited with
    | true => exact ⟨_, if_pos rfl, halike _ rfl⟩
    | false =>
        -- Its number is not above the last one.
        have hold : number + 1 ≤ r.ack.lastseq := by
          rw [h.last, hlast]
          exact Nat.not_lt.mp fun hlt =>
            hnew ⟨hlim.trans hlimited, by rw [hseen, hseq]; exact hlt⟩
        refine ⟨{ r with ack := r.ack.begin (number + 1) }, ?_, halike _ rfl⟩
        rw [if_neg Bool.false_ne_true]
        exact if_pos hold

/-! ### Runs -/

/-- One more arrival, behind those before it. -/
theorem passed_concat (as : List Arrival) (a : Arrival) :
    passed (as ++ [a]) = passed as ++ passed [a] := List.filterMap_append

/-- The datagrams that get past the limiter are those of the C receiver. -/
theorem passed_plain (as : List Arrival) : Iptfs.passed (as.flatMap Arrival.plain) = passed as := by
  induction as with
  | nil => rfl
  | cons a as ih =>
      have hhead : Iptfs.passed a.plain = passed [a] := by
        cases a with
        | ackInfos ns => rfl
        | datagram id number limited lefts => cases limited <;> rfl
      have hcons : passed (a :: as) = passed [a] ++ passed as :=
        List.filterMap_append (l := [a])
      rw [List.flatMap_cons, hcons, ← hhead, ← ih]
      unfold Iptfs.passed
      rw [List.filter_append, List.map_append]

/-- The run. Induction on the arrivals, at their end. `send_ack_infos` keeps `lastseq`, so it leaves
the relation as it is. -/
theorem run_alike (hf : Framed Ipv4 (plain TUNMTU) s ks) (hcount : ks.length < 2 ^ 32)
    (target pps : ℚ) {limit : Nat} (hlimit : 100 ≤ limit) :
    ∀ as : List Arrival, (∀ a ∈ as, a.Sent s) →
      ∃ r t,
        run (readTfsPacketsStep target limit) (Rx.init pps) (as.map (Arrival.event s)) = .ok r ∧
        Alike r t.rx ∧ t.rx.ack.last = t.next ∧ Follows ks t (Iptfs.records (passed as)) := by
  intro as
  induction as using List.reverseRecOn with
  | nil =>
      intro _
      refine ⟨_, ⟨Iptfs.Rx.init ⟨1, 1, 1⟩, 0⟩, rfl, ⟨rfl, trivial, rfl⟩, rfl, ?_⟩
      exact Iptfs.Proofs.follows_init ks ⟨1, 1, 1⟩
  | append_singleton as a ih =>
      intro hsent
      rcases ih fun b hb => hsent b (List.mem_append_left _ hb) with ⟨r, t, hr, h, hlast, hfollows⟩
      have ha := hsent a (by simp)
      rw [List.map_append]
      cases a with
      | ackInfos ns =>
          have hkeep : (sendAckInfos ns r.ack).2.lastseq = r.ack.lastseq := by
            unfold sendAckInfos
            split <;> rfl
          refine ⟨_, t, run_concat.mpr ⟨r, hr, rfl⟩, ⟨hkeep.trans h.last, h.m, h.outq⟩, hlast, ?_⟩
          rw [passed_concat]
          exact (List.append_nil (passed as)).symm ▸ hfollows
      | datagram id number limited lefts =>
          rw [← passed_plain] at hfollows
          rcases hfollows.step_records (by decide) (by decide) hf hcount hlast
            (a := ⟨none, id, number, limited⟩) rfl ha with ⟨u, hu, hnext, hfollows'⟩
          have hdeep : (plain TUNMTU).tfsmtu + 12 < 20 * limit := by
            show 1500 + 12 < 20 * limit
            omega
          rcases Alike.step (by decide) (by decide) hf hcount target hdeep hfollows hlast h id
            limited lefts ha hu with
            ⟨r', hr', halike⟩
          refine ⟨r', u, run_concat.mpr ⟨r, hr, hr'⟩, halike, hnext, ?_⟩
          rw [← passed_plain, List.flatMap_append]
          exact hfollows'

/-- One call whose send succeeds. -/
theorem step_sent {mtu : Nat} (h15 : 14 < mtu) (hmax : mtu ≤ 9000) (s : Sender) {c : WriteCall}
    (hsent : c.sent = true) :
    ∃ s', writeTfsPacketsStep mtu s c = .ok s' ∧ s'.seq = s.seq + 1 := by
  obtain ⟨out, -, -, hPy⟩ := writeTfsPacket_eq (by omega) hmax s.seq s.leftover c
  rw [if_pos hsent] at hPy
  refine ⟨⟨s.seq + 1, out.leftover, s.calls ++ [(c, { out with seq := s.seq + 1 })]⟩, ?_, rfl⟩
  unfold writeTfsPacketsStep
  rw [hPy]

/-- Nothing but a failed send brings the Python sender down. -/
theorem calls_ok {mtu : Nat} (h15 : 14 < mtu) (hmax : mtu ≤ 9000) {calls : List WriteCall}
    (hsent : ∀ c ∈ calls, c.sent = true) :
    ∀ s : Sender, ∃ s', run (writeTfsPacketsStep mtu) s calls = .ok s' ∧
      s'.seq = s.seq + calls.length := by
  induction calls with
  | nil => exact fun s => ⟨s, rfl, rfl⟩
  | cons c calls ih =>
      intro s
      rw [List.forall_mem_cons] at hsent
      obtain ⟨u, hu, hseq⟩ := step_sent h15 hmax s hsent.1
      obtain ⟨s', hs', hlast⟩ := ih hsent.2 u
      refine ⟨s', (run_cons_ok calls hu).trans hs', ?_⟩
      rw [hlast, hseq, List.length_cons]
      omega

/-- The calls up to the first failed send, where the Python sender ends. -/
theorem calls_until_ok {mtu : Nat} (h15 : 14 < mtu) (hmax : mtu ≤ 9000) (calls : List WriteCall)
    (s : Sender) :
    ∃ s', run (writeTfsPacketsStep mtu) s (calls.takeWhile WriteCall.sent) = .ok s' := by
  obtain ⟨s', hs', -⟩ := calls_ok h15 hmax (List.all_eq_true.mp List.all_takeWhile) s
  exact ⟨s', hs'⟩

/-- End-to-end reassembly of the Python program. Whatever is lost, repeated, reordered or dropped
by the limiter, and wherever `send_ack_infos` takes the record, neither loop is brought down, and
the receiver delivers exactly the packets all of whose datagrams were accepted: each once, byte for
byte, in the order the sender took them. The calls of `add_to_inner_packet` nest less than 100
deep. The sender makes its calls up to the first `sendmsg` that fails, which ends it. -/
theorem delivered_py (calls : List WriteCall)
    (hans : ∀ call ∈ calls, ∀ p, some p ∈ call.answers → Ipv4 p.data) :
    ∃ s, run (writeTfsPacketsStep TUNMTU) Sender.init (calls.takeWhile WriteCall.sent) = .ok s ∧
      s.ledger.shipments.map Shipment.block = s.packets ∧
      ∀ (target pps : ℚ) (limit : Nat) (as : List Arrival), s.sends.length < 2 ^ 32 →
        100 ≤ limit → (∀ a ∈ as, a.Sent s) →
        ∃ rx, run (readTfsPacketsStep target limit) (Rx.init pps) (as.map (Arrival.event s)) =
            .ok rx ∧
          rx.outq.map MIOVBuf.bytes =
            arrivals (accepts (Iptfs.records (passed as))) s.ledger.shipments := by
  rcases calls_until_ok (by decide : 14 < TUNMTU) (by decide) calls Sender.init with ⟨s, hs⟩
  have hmade : ∀ call ∈ calls.takeWhile WriteCall.sent, ∀ p, some p ∈ call.answers → Ipv4 p.data :=
    fun call hcall => hans call (List.takeWhile_subset _ hcall)
  rcases Iptfs.Proofs.framed_of_run (by decide) (by decide) (fun _ hp => hp.length_lt) hmade
    (run_wrap (by decide) (by decide) hs) with ⟨ks, hf⟩
  refine ⟨s, hs, ?_, ?_⟩
  · rw [← ledger_wrap, ← packets_wrap, hf.ledger]
    exact hf.begun_eq (by decide)
  · intro target pps limit as hcount hlimit hsent
    have hlength : ks.length < 2 ^ 32 := by
      rw [← hf.length, sends_wrap, List.length_map]
      exact hcount
    rcases run_alike hf hlength target pps hlimit as fun a ha => (sent_wrap s a).mpr (hsent a ha)
      with ⟨r, t, hr, h, -, hfollows⟩
    rw [event_wrap] at hr
    refine ⟨r, hr, ?_⟩
    -- The packets pushed have the same entries, so the same bytes.
    have hbytes : r.outq.map MIOVBuf.bytes = t.rx.outq.map Miov.bytes := by
      have hmap := congrArg (List.map fun iov : List Iovec => (iov.map Iovec.bytes).flatten) h.outq
      rwa [List.map_map, List.map_map] at hmap
    rw [hbytes, hfollows.delivered hf, ledger_wrap]

/-- One packet, whose datagram comes twice, with an ACK in between. -/
theorem delivered_py_twice :
    ∃ s rx, run (writeTfsPacketsStep TUNMTU) Sender.init [Iptfs.Proofs.oneCall] = .ok s ∧
      run (readTfsPacketsStep 1 1000) (Rx.init 1)
        ([.datagram 0 0 false [], .ackInfos 5, .datagram 1 0 false []].map (Arrival.event s)) =
          .ok rx ∧
      rx.outq.map MIOVBuf.bytes = arrivals (accepts (Iptfs.records (passed
        [.datagram 0 0 false [], .ackInfos 5, .datagram 1 0 false []]))) s.ledger.shipments := by
  rcases delivered_py [Iptfs.Proofs.oneCall] Iptfs.Proofs.oneCall_ipv4 with ⟨s, hs, -, h⟩
  have hsend : (Except.ok (1, true) : Res (Nat × Bool)) =
      .ok (s.sends.length, (s.datagram 0).isSome) := by
    show _ = Except.map (fun s : Sender => (s.sends.length, (s.datagram 0).isSome)) (.ok s)
    rw [← hs]
    rfl
  have hpair := Prod.mk.inj (Except.ok.inj hsend)
  rcases h 1 1 1000 [.datagram 0 0 false [], .ackInfos 5, .datagram 1 0 false []]
    (by rw [← hpair.1]; decide) (by decide) (by simp [Arrival.Sent, ← hpair.2]) with ⟨rx, hrx, hout⟩
  exact ⟨s, rx, hs, hrx, hout⟩

end Proofs

end Iptfs.Py
