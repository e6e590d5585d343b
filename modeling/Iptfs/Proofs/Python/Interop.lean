import Iptfs.Proofs.Classified
import Iptfs.Proofs.Python.Delivery

/-!
# `Iptfs.Proofs.Python.Interop`: the C program at one end, the Python program at the other

The header of a datagram is the same in both programs, and so are the rules by which the packets are
cut. The ACKs are not: that of `send_ack` has 20 bytes, that of `send_ack_infos` has 24, and each
program takes in only its own.

So a mixed pair delivers what two programs of one kind deliver, and the ACKs in between change
nothing: neither what comes out nor the sending rate. `delivered_c_to_py` and `delivered_py_to_c`
say so, one for each direction, at the tunnel size that both programs start with.

The C receiver is between two ACKs of its own there, as in `Iptfs.Proofs.Delivery`.
-/

set_option autoImplicit false

namespace Iptfs.Py

open Iptfs.Lib Iptfs.Lib.Framing

/-- An ACK of the C program. -/
def FromSendAck (bytes : List UInt8) : Prop :=
  ∃ cfg now ack ack', sendAck cfg now ack = .ok (some bytes, ack')

/-- An ACK of the Python program. -/
def FromSendAckInfos (bytes : List UInt8) : Prop :=
  ∃ ns outq outq', sendAckInfos ns outq = (some bytes, outq')

/-- What the Python receiver meets with a C program at the other end: an arrival as before, or an
ACK. -/
inductive FromC
  | arrival (a : Arrival)
  | ack (id : Nat) (bytes : List UInt8) (limited : Bool) (lefts : List (Option Nat))
  deriving DecidableEq, Repr

namespace FromC

/-- The event at the receiver. -/
def event (s : Sender) : FromC → RxEvent
  | .arrival a => a.event s
  | .ack id bytes limited lefts => .recv id bytes limited lefts

/-- The program at the other end did send it. -/
def Sent (s : Sender) : FromC → Prop
  | .arrival a => a.Sent s
  | .ack _ bytes _ _ => FromSendAck bytes

/-- The arrival, if it is no ACK of the other program. -/
def data : FromC → Option Arrival
  | .arrival a => some a
  | .ack .. => none

end FromC

/-- What the C receiver meets with a Python program at the other end, while its own ACK timer does
not expire: a datagram of the sender, or an ACK. -/
inductive FromPy
  | datagram (id number : Nat) (limited : Bool)
  | ack (id : Nat) (bytes : List UInt8) (limited : Bool)
  deriving DecidableEq, Repr

namespace FromPy

/-- The pass of the receiver. -/
def event (s : Sender) : FromPy → Iptfs.RxEvent
  | .datagram id number limited => Iptfs.Arrival.event s ⟨none, id, number, limited⟩
  | .ack id bytes limited => ⟨none, .got id bytes limited⟩

/-- The program at the other end did send it. -/
def Sent (s : Sender) : FromPy → Prop
  | .datagram _ number _ => (s.datagram number).isSome
  | .ack _ bytes _ => FromSendAckInfos bytes

/-- The datagram of the sender. -/
def data : FromPy → Option Iptfs.Arrival
  | .datagram id number limited => some ⟨none, id, number, limited⟩
  | .ack .. => none

end FromPy

/-- The Python receiver, with another drop count. -/
def Rx.withDrops (r : Rx) (n : Nat) : Rx := { r with ack := { r.ack with dropcnt := n } }

/-- The C receiver, with another drop count. -/
def withNdrop (r : Iptfs.Rx) (n : Nat) : Iptfs.Rx := { r with ack := { r.ack with ndrop := n } }

namespace Proofs

open Iptfs.Proofs (Ipv4 Framed Follows accepts)

/-! ### The ACK of the other program -/

/-- An ACK of either program: the marker, a word with the ACK bit, and what that program adds. -/
def AckOf (len : Nat) (bytes : List UInt8) : Prop :=
  bytes.length = len ∧ ∃ ndrop post, ndrop ≤ 0xFFFFFF ∧
    bytes = [0xFF, 0xFF, 0xFF, 0xFF] ++ (Iptfs.put32 (0x40000000 ||| ndrop) ++ post)

/-- An ACK of the C program has 20 bytes. -/
theorem ackOf_sendAck {bytes : List UInt8} (h : FromSendAck bytes) : AckOf 20 bytes := by
  obtain ⟨cfg, now, ack, ack', h⟩ := h
  obtain ⟨-, time, rfl⟩ := Iptfs.Proofs.sendAck_datagram h
  refine ⟨rfl, min ack.ndrop 0xFFFFFF,
    Iptfs.put32 time ++ (Iptfs.put32 ack.start ++ Iptfs.put32 ack.last), Nat.min_le_right _ _, ?_⟩
  simp only [List.append_assoc]

/-- A report of the Python program has four more, since its timestamp takes two words. -/
theorem ackOf_sendAckInfos {bytes : List UInt8} (h : FromSendAckInfos bytes) :
    AckOf 24 bytes := by
  obtain ⟨ns, outq, outq', h⟩ := h
  unfold sendAckInfos at h
  split at h
  · cases h
  · cases h
    refine ⟨rfl, if outq.dropcnt > 0xFFFFFF then 0xFFFFFF else outq.dropcnt,
      put32 ((ns >>> 32) &&& 0xFFFFFFFF) ++ (put32 (ns &&& 0xFFFFFFFF) ++
        (put32 outq.startseq ++ put32 outq.lastseq)), ?_, ?_⟩
    · split <;> omega
    · rw [← put32_eq]
      simp only [ackInfo, List.append_assoc]
      rfl

/-- The two words that the tests look at. -/
theorem AckOf.words {len : Nat} {bytes : List UInt8} (h : AckOf len bytes) :
    ∃ word, word &&& 0xC0000000 = 0x40000000 ∧ Iptfs.get32 bytes 4 = .ok word ∧
      Iptfs.get32 bytes 0 = .ok 0xFFFFFFFF := by
  obtain ⟨-, ndrop, post, hn, rfl⟩ := h
  obtain ⟨hlt, hflag, -⟩ := Iptfs.Proofs.ack_word hn
  refine ⟨_, hflag, ?_, rfl⟩
  rw [← List.append_assoc]
  exact Iptfs.get32_put32 [0xFF, 0xFF, 0xFF, 0xFF] post (by omega)

/-- The Python receiver takes it for an ACK. -/
theorem AckOf.classify_py {len : Nat} {bytes : List UInt8} (h : AckOf len bytes) (h8 : 8 < len)
    (limited : Bool) : classify bytes limited = .ok (if limited then .limited else .ack) := by
  obtain ⟨word, hflag, h4, h0⟩ := h.words
  unfold classify
  rw [if_neg (by rw [h.1]; omega)]
  cases limited with
  | true => rfl
  | false =>
      rw [if_neg Bool.false_ne_true, get32_slice_eq h4, get32_slice_eq h0]
      dsimp only
      rw [if_pos hflag]
      rfl

/-- The C receiver takes it for an ACK. -/
theorem AckOf.classify_c {len : Nat} {bytes : List UInt8} (h : AckOf len bytes) (h8 : 8 < len)
    (limited : Bool) :
    Iptfs.classify bytes limited = .ok (if limited then .limited else .ack) := by
  obtain ⟨word, hflag, h4, h0⟩ := h.words
  unfold Iptfs.classify
  rw [if_neg (by rw [h.1]; omega), if_neg (by rw [h.1]; omega)]
  cases limited with
  | true => rfl
  | false =>
      rw [if_neg Bool.false_ne_true, h4, h0]
      dsimp only
      rw [if_pos hflag]
      rfl

/-! ### The averages and the rate -/

/-- The Python receiver takes in reports of 24 bytes only. -/
theorem congest_py {target : ℚ} {limit : Nat} {r r' : Rx} {id : Nat} {bytes : List UInt8}
    {limited : Bool} {lefts : List (Option Nat)} (hlen : (recvBytes bytes).length ≠ 24)
    (h : readTfsPacketsStep target limit r (.recv id bytes limited lefts) = .ok r') :
    r'.congest = r.congest := by
  unfold readTfsPacketsStep at h
  dsimp only at h
  split at h
  · cases h
  · rename_i verdict hverdict
    cases verdict with
    | short => cases h; rfl
    | limited => cases h; rfl
    | version => cases h; rfl
    | ack =>
        have hsame : recvAck target (recvBytes bytes) r.congest = .ok r.congest := if_pos hlen
        unfold dispatch at h
        dsimp only [Tbuf.fresh] at h
        rw [hsame] at h
        cases h
        rfl
    | data seq =>
        unfold dispatch acceptData at h
        dsimp only at h
        split at h
        · cases h
          rfl
        · split at h
          · cases h
          · cases h
            rfl

/-- The C receiver takes in reports of 20 bytes only. -/
theorem congest_c {cfg : Config} {r r' : Iptfs.Rx} {id : Nat} {bytes : List UInt8}
    {limited : Bool} (hlen : (Iptfs.recvBytes bytes).length ≠ 20)
    (h : Iptfs.readTfsPktsStep cfg r ⟨none, .got id bytes limited⟩ = .ok r') :
    r'.congest = r.congest := by
  unfold Iptfs.readTfsPktsStep Iptfs.ackTimer at h
  dsimp only at h
  split at h
  · cases h
  · rename_i verdict hverdict
    cases verdict with
    | zero => cases h; rfl
    | short => cases h; rfl
    | limited => cases h; rfl
    | version => cases h; rfl
    | ack =>
        have hsame : Iptfs.recvAck cfg (Iptfs.recvBytes bytes) r.congest = .ok r.congest := by
          unfold Iptfs.recvAck
          rw [if_pos hlen, ite_self]
        unfold Iptfs.dispatch at h
        dsimp only [Tbuf.fresh] at h
        rw [hsame] at h
        cases h
        rfl
    | data seq =>
        unfold Iptfs.dispatch Iptfs.acceptData at h
        dsimp only at h
        split at h
        · cases h
          rfl
        · split at h
          · cases h
          · cases h
            rfl

/-! ### The drop count -/

/-- The Python receiver does not look at its drop count. -/
theorem step_withDrops {target : ℚ} {limit : Nat} {r r' : Rx} {e : RxEvent}
    (h : readTfsPacketsStep target limit r e = .ok r') (n : Nat) :
    ∃ n', readTfsPacketsStep target limit (r.withDrops n) e = .ok (r'.withDrops n') := by
  cases e with
  | ackInfos ns =>
      cases h
      unfold readTfsPacketsStep sendAckInfos Rx.withDrops
      dsimp only
      -- A report clears the count; without one it stays as it is.
      by_cases hstart : r.ack.startseq = 0
      · rw [if_pos hstart, if_pos hstart]
        exact ⟨n, rfl⟩
      · rw [if_neg hstart, if_neg hstart]
        exact ⟨0, rfl⟩
  | recv id bytes limited lefts =>
      unfold readTfsPacketsStep at h ⊢
      dsimp only at h ⊢
      cases hverdict : classify (recvBytes bytes) limited with
      | error e =>
          rw [hverdict] at h
          cases h
      | ok verdict =>
          rw [hverdict] at h
          dsimp only at h ⊢
          cases verdict with
          | short => cases h; exact ⟨n + 1, rfl⟩
          | limited => cases h; exact ⟨n + 1, rfl⟩
          | version => cases h; exact ⟨n + 1, rfl⟩
          | ack =>
              obtain ⟨g, hg, rfl⟩ := map_eq_ok.mp h
              exact ⟨n, map_eq_ok.mpr ⟨g, hg, rfl⟩⟩
          | data seq =>
              unfold dispatch acceptData at h ⊢
              dsimp only at h ⊢
              by_cases hold : seq ≤ (r.ack.begin seq).lastseq
              · rw [if_pos hold] at h
                cases h
                exact ⟨n, if_pos hold⟩
              · rw [if_neg hold] at h
                split at h
                · cases h
                · rename_i a hadd
                  cases h
                  refine ⟨((r.withDrops n).ack.advance seq).dropcnt, ?_⟩
                  -- The packet in progress depends on the last number only, so the call is the
                  -- same one.
                  have hsame : addToInnerPacket limit (Tbuf.fresh id (recvBytes bytes)) true
                      (((r.withDrops n).ack.begin seq).keep seq (r.withDrops n).m) lefts =
                        .ok a := hadd
                  rw [if_neg (show ¬ seq ≤ ((r.withDrops n).ack.begin seq).lastseq from hold)]
                  rw [hsame]
                  rfl

/-- The C receiver does not look at its drop count, except for its own ACKs. -/
theorem step_withNdrop {cfg : Config} {r r' : Iptfs.Rx} {recv : Recv}
    (h : Iptfs.readTfsPktsStep cfg r ⟨none, recv⟩ = .ok r') (n : Nat) :
    ∃ n', Iptfs.readTfsPktsStep cfg (withNdrop r n) ⟨none, recv⟩ = .ok (withNdrop r' n') := by
  unfold Iptfs.readTfsPktsStep Iptfs.ackTimer at h ⊢
  dsimp only at h ⊢
  cases recv with
  | failed =>
      cases h
      exact ⟨n, rfl⟩
  | got id bytes limited =>
      dsimp only at h ⊢
      cases hverdict : Iptfs.classify (Iptfs.recvBytes bytes) limited with
      | error e =>
          rw [hverdict] at h
          cases h
      | ok verdict =>
          rw [hverdict] at h
          dsimp only at h ⊢
          cases verdict with
          | zero => cases h; exact ⟨n, rfl⟩
          | short => cases h; exact ⟨(n + 1) % 2 ^ 32, rfl⟩
          | limited => cases h; exact ⟨(n + 1) % 2 ^ 32, rfl⟩
          | version => cases h; exact ⟨(n + 1) % 2 ^ 32, rfl⟩
          | ack =>
              obtain ⟨g, hg, rfl⟩ := map_eq_ok.mp h
              exact ⟨n, map_eq_ok.mpr ⟨g, hg, rfl⟩⟩
          | data seq =>
              unfold Iptfs.dispatch Iptfs.acceptData at h ⊢
              dsimp only at h ⊢
              by_cases hold : seq ≤ (r.ack.begin seq).last
              · rw [if_pos hold] at h
                cases h
                exact ⟨n, if_pos hold⟩
              · rw [if_neg hold] at h
                split at h
                · cases h
                · rename_i a hadd
                  cases h
                  refine ⟨(((withNdrop r n).ack.begin seq).advance seq).ndrop, ?_⟩
                  -- As in `step_withDrops`: the call does not see the count.
                  have hsame : Iptfs.addToInnerPacket
                      (Tbuf.fresh id (Iptfs.recvBytes bytes)).data.length
                      (Tbuf.fresh id (Iptfs.recvBytes bytes)) true
                      (((withNdrop r n).ack.begin seq).keep seq (withNdrop r n).m) =
                        .ok a := hadd
                  rw [if_neg (show ¬ seq ≤ ((withNdrop r n).ack.begin seq).last from hold)]
                  rw [hsame]
                  rfl

/-! ### C to Python -/

section

variable {s : Sender} {ks : List (Cut UInt8)}

/-- A receiver that has met the arrivals alone, and one that has met ACKs in between. -/
def PyAlike (pps : ℚ) (r m : Rx) : Prop := (∃ n, m = r.withDrops n) ∧ m.congest = .init pps

/-- An ACK of the C program at the Python receiver. -/
theorem PyAlike.ack {pps : ℚ} {r m : Rx} (h : PyAlike pps r m) (target : ℚ) (limit id : Nat)
    {bytes : List UInt8} (hack : FromSendAck bytes) (limited : Bool) (lefts : List (Option Nat)) :
    ∃ m', readTfsPacketsStep target limit m (.recv id bytes limited lefts) = .ok m' ∧
      PyAlike pps r m' := by
  have hof := ackOf_sendAck hack
  have hbytes : recvBytes bytes = bytes :=
    List.take_of_length_le (by rw [hof.1]; decide)
  have hlen : (recvBytes bytes).length ≠ 24 := by
    rw [hbytes, hof.1]
    decide
  obtain ⟨⟨n, rfl⟩, hcongest⟩ := h
  unfold readTfsPacketsStep
  dsimp only
  rw [hbytes, hof.classify_py (by decide)]
  cases limited with
  | true => exact ⟨_, rfl, ⟨n + 1, rfl⟩, hcongest⟩
  | false =>
      -- `recv_ack` finds the length wrong.
      have hsame : recvAck target bytes (r.withDrops n).congest = .ok (r.withDrops n).congest :=
        if_pos (by rw [← hbytes]; exact hlen)
      refine ⟨_, map_eq_ok.mpr ⟨_, hsame, rfl⟩, ⟨n, rfl⟩, hcongest⟩

/-- An arrival at the Python receiver. -/
theorem PyAlike.arrival (hf : Framed Ipv4 (plain TUNMTU) s ks) (hcount : ks.length < 2 ^ 32)
    {pps : ℚ} {r r' m : Rx} (h : PyAlike pps r m) {target : ℚ} {limit : Nat} {a : Arrival}
    (hsent : a.Sent s) (hst : readTfsPacketsStep target limit r (a.event s) = .ok r') :
    ∃ m', readTfsPacketsStep target limit m (a.event s) = .ok m' ∧ PyAlike pps r' m' := by
  obtain ⟨⟨n, rfl⟩, hcongest⟩ := h
  obtain ⟨n', hn'⟩ := step_withDrops hst n
  refine ⟨_, hn', ⟨n', rfl⟩, ?_⟩
  rw [← hcongest]
  cases a with
  | ackInfos ns =>
      cases hst
      rfl
  | datagram id number limited lefts =>
      obtain ⟨data, hdata, hlength, -, -⟩ :=
        recv_datagram (by decide) (by decide) hf hcount target limit r id limited lefts hsent
      refine congest_py (r := r.withDrops n) ?_ hn'
      rw [hdata, Option.getD_some]
      intro h24
      have htake : (recvBytes data).length = min (MAXBUF - HDRSPACE) data.length :=
        List.length_take
      rw [htake, hlength] at h24
      exact absurd h24 (by decide)

/-- Packets with the same entries have the same bytes. -/
theorem alike_bytes {r : Rx} {rx : Iptfs.Rx} (h : Alike r rx) :
    r.outq.map MIOVBuf.bytes = rx.outq.map Miov.bytes := by
  have hmap := congrArg (List.map fun iov : List Iovec => (iov.map Iovec.bytes).flatten) h.outq
  rwa [List.map_map, List.map_map] at hmap

/-! ### Python to C -/

/-- A receiver that has met the datagrams alone, and one that has met ACKs in between. -/
def CAlike (pps : Pps) (r m : Iptfs.Rx) : Prop :=
  (∃ n, m = withNdrop r n) ∧ m.congest = (Iptfs.Rx.init pps).congest

/-- An ACK of the Python program at the C receiver. -/
theorem CAlike.ack {pps : Pps} {r m : Iptfs.Rx} (h : CAlike pps r m) (cfg : Config) (id : Nat)
    {bytes : List UInt8} (hack : FromSendAckInfos bytes) (limited : Bool) :
    ∃ m', Iptfs.readTfsPktsStep cfg m ⟨none, .got id bytes limited⟩ = .ok m' ∧
      CAlike pps r m' := by
  have hof := ackOf_sendAckInfos hack
  have hbytes : Iptfs.recvBytes bytes = bytes :=
    List.take_of_length_le (by rw [hof.1]; decide)
  obtain ⟨⟨n, rfl⟩, hcongest⟩ := h
  unfold Iptfs.readTfsPktsStep Iptfs.ackTimer
  dsimp only
  rw [hbytes, hof.classify_c (by decide)]
  cases limited with
  | true => exact ⟨_, rfl, ⟨(n + 1) % 2 ^ 32, rfl⟩, hcongest⟩
  | false =>
      -- `recv_ack` finds the length wrong.
      have hsame : Iptfs.recvAck cfg bytes (withNdrop r n).congest =
          .ok (withNdrop r n).congest := by
        unfold Iptfs.recvAck
        rw [if_pos (show bytes.length ≠ 20 by rw [hof.1]; decide), ite_self]
      refine ⟨_, map_eq_ok.mpr ⟨_, hsame, rfl⟩, ⟨n, rfl⟩, hcongest⟩

/-- A datagram at the C receiver. -/
theorem CAlike.datagram (hf : Framed Ipv4 (plain TUNMTU) s ks) {pps : Pps} {r r' m : Iptfs.Rx}
    (h : CAlike pps r m) {cfg : Config} {id number : Nat} {limited : Bool}
    (hsent : (s.datagram number).isSome)
    (hst : Iptfs.readTfsPktsStep cfg r (Iptfs.Arrival.event s ⟨none, id, number, limited⟩) =
      .ok r') :
    ∃ m', Iptfs.readTfsPktsStep cfg m (Iptfs.Arrival.event s ⟨none, id, number, limited⟩) =
      .ok m' ∧ CAlike pps r' m' := by
  obtain ⟨⟨n, rfl⟩, hcongest⟩ := h
  obtain ⟨n', hn'⟩ := step_withNdrop hst n
  refine ⟨_, hn', ⟨n', rfl⟩, ?_⟩
  rw [← hcongest]
  obtain ⟨k, -, -, -, -, hlen, hdatagram⟩ := hf.arrival hsent
  refine congest_c (r := withNdrop r n) ?_ hn'
  rw [hdatagram, Option.getD_some]
  intro h20
  unfold Iptfs.recvBytes at h20
  rw [List.length_take, List.length_append, Iptfs.Proofs.length_wtfsHdr, hlen] at h20
  exact absurd h20 (by decide)

end

/-- The C program sends, and the Python program receives. Whatever is lost, repeated, reordered or
dropped by the limiter, wherever `send_ack_infos` takes the record, and however many ACKs of the C
program come in between, the receiver is not brought down, and it delivers exactly the packets all
of whose datagrams were accepted. Its own sending rate is the one that it started with. -/
theorem delivered_c_to_py (calls : List WriteCall)
    (hans : ∀ call ∈ calls, ∀ p, some p ∈ call.answers → Ipv4 p.data) (s : Sender)
    (hrun : run (writeTfsPktsStep (plain TUNMTU)) Sender.init calls = .ok s)
    (hcount : s.sends.length < 2 ^ 32) (target pps : ℚ) (limit : Nat) (hlimit : 100 ≤ limit)
    (as : List FromC) (hsent : ∀ a ∈ as, a.Sent s) :
    ∃ rx, run (readTfsPacketsStep target limit) (Rx.init pps) (as.map (FromC.event s)) = .ok rx ∧
      rx.outq.map MIOVBuf.bytes =
        arrivals (accepts (Iptfs.records (passed (as.filterMap FromC.data)))) s.ledger.shipments ∧
      s.ledger.shipments.map Shipment.block = s.packets ∧ rx.congest = .init pps := by
  obtain ⟨ks, hf⟩ := Iptfs.Proofs.framed_of_run (by decide) (by decide)
    (fun _ hp => hp.length_lt) hans hrun
  have hlength : ks.length < 2 ^ 32 := by rwa [← hf.length]
  -- The run without the ACKs.
  have hdata : ∀ a ∈ as.filterMap FromC.data, a.Sent s := by
    intro a ha
    obtain ⟨f, hmem, hfa⟩ := List.mem_filterMap.mp ha
    cases f with
    | arrival b =>
        cases hfa
        exact hsent _ hmem
    | ack id bytes limited lefts => cases hfa
  obtain ⟨r, t, hr, h, -, hfollows⟩ := run_alike hf hlength target pps hlimit _ hdata
  rw [List.map_filterMap] at hr
  -- The ACKs in between change the drop count, and nothing else.
  have hskip : ∀ (r m : Rx) (f : FromC), f.Sent s → f.data.map (Arrival.event s) = none →
      PyAlike pps r m → ∃ m', readTfsPacketsStep target limit m (f.event s) = .ok m' ∧
        PyAlike pps r m' := by
    intro r m f hf' hnone hR
    cases f with
    | arrival a => cases hnone
    | ack id bytes limited lefts => exact hR.ack target limit id hf' limited lefts
  have hstep : ∀ (r r' m : Rx) (f : FromC) (e : RxEvent), f.Sent s →
      f.data.map (Arrival.event s) = some e → PyAlike pps r m →
      readTfsPacketsStep target limit r e = .ok r' →
      ∃ m', readTfsPacketsStep target limit m (f.event s) = .ok m' ∧ PyAlike pps r' m' := by
    intro r r' m f e hf' hsome hR hst
    cases f with
    | arrival a =>
        cases hsome
        exact hR.arrival hf hlength hf' hst
    | ack id bytes limited lefts => cases hsome
  obtain ⟨m, hm, ⟨n, rfl⟩, hcongest⟩ := run_between hskip hstep hsent ⟨⟨0, rfl⟩, rfl⟩ hr
  refine ⟨_, (run_map (fun _ _ _ => rfl) _).trans hm, ?_, ?_, hcongest⟩
  · show r.outq.map MIOVBuf.bytes = _
    rw [alike_bytes h, hfollows.delivered hf]
  · rw [hf.ledger]
    exact hf.begun_eq (by decide)

/-- One packet, whose datagram comes twice, with an ACK of the C program in between. -/
theorem delivered_c_to_py_twice :
    ∃ s rx, run (writeTfsPktsStep (plain TUNMTU)) Sender.init [Iptfs.Proofs.oneCall] = .ok s ∧
      run (readTfsPacketsStep 1 1000) (Rx.init 1)
        ([.arrival (.datagram 0 0 false []), .ack 1 (Iptfs.Proofs.ackDatagram 0 1 1) false [],
          .arrival (.datagram 2 0 false [])].map (FromC.event s)) = .ok rx ∧
      rx.outq.map MIOVBuf.bytes = arrivals (accepts (Iptfs.records (passed
        [.datagram 0 0 false [], .datagram 2 0 false []]))) s.ledger.shipments ∧
      rx.congest = .init 1 := by
  obtain ⟨s, hs, hcount, hsome⟩ : ∃ s,
      run (writeTfsPktsStep (plain TUNMTU)) Sender.init [Iptfs.Proofs.oneCall] = .ok s ∧
        s.sends.length < 2 ^ 32 ∧ (s.datagram 0).isSome := ⟨_, rfl, by decide, by decide⟩
  have hsent : ∀ a ∈ [FromC.arrival (.datagram 0 0 false []),
      .ack 1 (Iptfs.Proofs.ackDatagram 0 1 1) false [], .arrival (.datagram 2 0 false [])],
      a.Sent s := by
    intro a ha
    simp only [List.mem_cons, List.not_mem_nil, or_false] at ha
    rcases ha with rfl | rfl | rfl
    · exact hsome
    · exact ⟨plain TUNMTU, ⟨0, 0⟩, ⟨1, 1, 0⟩, .zero, rfl⟩
    · exact hsome
  obtain ⟨rx, hrx, hout, -, hcongest⟩ := delivered_c_to_py [Iptfs.Proofs.oneCall]
    Iptfs.Proofs.oneCall_ipv4 s hs hcount 1 1 1000 (by decide) _ hsent
  exact ⟨s, rx, hs, hrx, hout, hcongest⟩

/-- The Python program sends, and the C program receives, between two ACKs of its own. Whatever is
lost, repeated, reordered or dropped by the limiter, and however many ACKs of the Python program
come in between, neither loop is brought down, and the receiver delivers exactly the packets all of
whose datagrams were accepted. Its own sending rate is the one that it started with. -/
theorem delivered_py_to_c (calls : List WriteCall)
    (hans : ∀ call ∈ calls, ∀ p, some p ∈ call.answers → Ipv4 p.data) :
    ∃ s, run (writeTfsPacketsStep TUNMTU) Sender.init (calls.takeWhile WriteCall.sent) = .ok s ∧
      s.ledger.shipments.map Shipment.block = s.packets ∧
      ∀ (pps : Pps) (as : List FromPy), s.sends.length < 2 ^ 32 → (∀ a ∈ as, a.Sent s) →
        ∃ rx, run (Iptfs.readTfsPktsStep (plain TUNMTU)) (Iptfs.Rx.init pps)
            (as.map (FromPy.event s)) = .ok rx ∧
          rx.outq.map Miov.bytes =
            arrivals (accepts (Iptfs.records (Iptfs.passed (as.filterMap FromPy.data))))
              s.ledger.shipments ∧
          rx.congest = (Iptfs.Rx.init pps).congest := by
  obtain ⟨s, hs⟩ := calls_until_ok (by decide : 14 < TUNMTU) (by decide) calls Sender.init
  have hmade : ∀ call ∈ calls.takeWhile WriteCall.sent, ∀ p, some p ∈ call.answers → Ipv4 p.data :=
    fun call hcall => hans call (List.takeWhile_subset _ hcall)
  obtain ⟨ks, hf⟩ := Iptfs.Proofs.framed_of_run (by decide) (by decide) (fun _ hp => hp.length_lt)
    hmade (run_wrap (by decide) (by decide) hs)
  refine ⟨s, hs, ?_, ?_⟩
  · rw [← ledger_wrap, ← packets_wrap, hf.ledger]
    exact hf.begun_eq (by decide)
  intro pps as hcount hsent
  have hlength : ks.length < 2 ^ 32 := by
    rw [← hf.length, sends_wrap, List.length_map]
    exact hcount
  -- The run without the ACKs. The datagrams are those of the sender in 32 bits.
  have hevent : Iptfs.Arrival.event s = Iptfs.Arrival.event (wrap s) := by
    funext a
    unfold Iptfs.Arrival.event
    rw [datagram_wrap]
  have hdata : ∀ a ∈ as.filterMap FromPy.data,
      a.timer = none ∧ ((wrap s).datagram a.number).isSome := by
    intro a ha
    obtain ⟨f, hmem, hfa⟩ := List.mem_filterMap.mp ha
    cases f with
    | datagram id number limited =>
        cases hfa
        refine ⟨rfl, ?_⟩
        rw [datagram_wrap]
        exact hsent _ hmem
    | ack id bytes limited => cases hfa
  obtain ⟨t, ht, -, hfollows⟩ := Iptfs.Proofs.follows_records (by decide) (by decide) hf hlength pps
    (as.filterMap FromPy.data) (fun a ha => (hdata a ha).1) (fun a ha => (hdata a ha).2)
  have hr := Iptfs.Proofs.run_of_track ht
  rw [List.map_filterMap] at hr
  have hskip : ∀ (r m : Iptfs.Rx) (f : FromPy), f.Sent s →
      f.data.map (Iptfs.Arrival.event (wrap s)) = none → CAlike pps r m →
      ∃ m', Iptfs.readTfsPktsStep (plain TUNMTU) m (f.event s) = .ok m' ∧ CAlike pps r m' := by
    intro r m f hf' hnone hR
    cases f with
    | datagram id number limited => cases hnone
    | ack id bytes limited => exact hR.ack (plain TUNMTU) id hf' limited
  have hstep : ∀ (r r' m : Iptfs.Rx) (f : FromPy) (e : Iptfs.RxEvent), f.Sent s →
      f.data.map (Iptfs.Arrival.event (wrap s)) = some e → CAlike pps r m →
      Iptfs.readTfsPktsStep (plain TUNMTU) r e = .ok r' →
      ∃ m', Iptfs.readTfsPktsStep (plain TUNMTU) m (f.event s) = .ok m' ∧ CAlike pps r' m' := by
    intro r r' m f e hf' hsome hR hst
    cases f with
    | datagram id number limited =>
        cases hsome
        unfold FromPy.event
        rw [hevent]
        refine hR.datagram hf ?_ hst
        rw [datagram_wrap]
        exact hf'
    | ack id bytes limited => cases hsome
  obtain ⟨m, hm, ⟨n, rfl⟩, hcongest⟩ := run_between hskip hstep hsent ⟨⟨0, rfl⟩, rfl⟩ hr
  refine ⟨_, (run_map (fun _ _ _ => rfl) _).trans hm, ?_, hcongest⟩
  rw [← ledger_wrap]
  exact hfollows.delivered hf

/-- One packet, whose datagram comes twice, with an ACK of the Python program in between. -/
theorem delivered_py_to_c_twice :
    ∃ s rx, run (writeTfsPacketsStep TUNMTU) Sender.init [Iptfs.Proofs.oneCall] = .ok s ∧
      run (Iptfs.readTfsPktsStep (plain TUNMTU)) (Iptfs.Rx.init ⟨1, 1, 1⟩)
        ([.datagram 0 0 false, .ack 1 (ackInfo 0 5 1 1) false, .datagram 2 0 false].map
          (FromPy.event s)) = .ok rx ∧
      rx.outq.map Miov.bytes = arrivals (accepts (Iptfs.records (Iptfs.passed
        [⟨none, 0, 0, false⟩, ⟨none, 2, 0, false⟩]))) s.ledger.shipments ∧
      rx.congest = (Iptfs.Rx.init ⟨1, 1, 1⟩).congest := by
  obtain ⟨s, hs, -, h⟩ := delivered_py_to_c [Iptfs.Proofs.oneCall] Iptfs.Proofs.oneCall_ipv4
  have hsend : (Except.ok (1, true) : Res (Nat × Bool)) =
      .ok (s.sends.length, (s.datagram 0).isSome) := by
    show _ = Except.map (fun s : Sender => (s.sends.length, (s.datagram 0).isSome)) (.ok s)
    rw [← hs]
    rfl
  have hpair := Prod.mk.inj (Except.ok.inj hsend)
  have hsent : ∀ a ∈ [FromPy.datagram 0 0 false, .ack 1 (ackInfo 0 5 1 1) false,
      .datagram 2 0 false], a.Sent s := by
    intro a ha
    simp only [List.mem_cons, List.not_mem_nil, or_false] at ha
    rcases ha with rfl | rfl | rfl
    · exact hpair.2.symm
    · exact ⟨5, ⟨1, 1, 0⟩, ⟨0, 1, 0⟩, rfl⟩
    · exact hpair.2.symm
  obtain ⟨rx, hrx, hout, hcongest⟩ := h ⟨1, 1, 1⟩ _ (by rw [← hpair.1]; decide) hsent
  exact ⟨s, rx, hs, hrx, hout, hcongest⟩

end Proofs

end Iptfs.Py
