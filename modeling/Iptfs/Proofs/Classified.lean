import Iptfs.Proofs.AckWindows
import Iptfs.Proofs.Receiver

/-!
# `Iptfs.Proofs.Classified`: what the program sends, and what it takes it for

The second word of a datagram tells data and ACKs apart. `write_tfs_pkt` and
`write_empty_tfs_pkt` leave its upper half zero, and `send_ack` sets its second bit.

`Ackinfo.Ranged` is what the receive loop keeps of the record that `send_ack` reads: it is
empty, or a range of sequence numbers above zero. So `recv_ack` rejects no ACK, and
`recvAck_of_sendAck` says what it takes in. `sent_classified` is the main result.
-/

set_option autoImplicit false

namespace Iptfs

/-- The record is empty, or a range of sequence numbers of 32 bits. -/
structure Ackinfo.Ranged (ack : Ackinfo) : Prop where
  start_le : ack.start ≤ ack.last
  zero_iff : ack.start = 0 ↔ ack.last = 0
  last_lt : ack.last < 2 ^ 32

namespace Proofs

open Iptfs.Lib

/-! ### Data and empty datagrams -/

/-- What a receiver keeps of a datagram that starts with a data header. -/
theorem classify_of_hdr {seq offset : Nat} (payload : List UInt8) (hseq : seq < 2 ^ 32)
    (hoff : offset < 2 ^ 16) :
    classify (recvBytes (wtfsHdr seq offset ++ payload)) false = .ok (.data seq) := by
  have hbytes : recvBytes (wtfsHdr seq offset ++ payload) =
      wtfsHdr seq offset ++ payload.take (MAXBUF - HDRSPACE - 8) := by
    have hhdr : (wtfsHdr seq offset).take (MAXBUF - HDRSPACE) = wtfsHdr seq offset :=
      List.take_of_length_le (by rw [length_wtfsHdr]; decide)
    rw [recvBytes, List.take_append, hhdr, length_wtfsHdr]
  rw [hbytes, classify_wtfsHdr _ false hseq hoff]
  rfl

/-- The empty datagram starts with a data header. -/
theorem writeEmptyTfsPkt_hdr (seq : Nat) {mtu : Nat} (h8 : 8 ≤ mtu) :
    ∃ payload, (writeEmptyTfsPkt seq mtu).1 = wtfsHdr seq 0 ++ payload := by
  have hsplit : put32 seq ++ List.replicate (MAXBUF - 4) 0 =
      wtfsHdr seq 0 ++ List.replicate (MAXBUF - 8) 0 := by
    have hzeros : List.replicate (MAXBUF - 4) (0 : UInt8) =
        List.replicate 4 0 ++ List.replicate (MAXBUF - 8) 0 := by
      rw [List.replicate_append_replicate]
      rfl
    rw [hzeros, ← List.append_assoc]
    rfl
  refine ⟨(List.replicate (MAXBUF - 8) 0).take (mtu - 8), ?_⟩
  rw [writeEmptyTfsPkt, hsplit, List.take_append, length_wtfsHdr,
    List.take_of_length_le (by rw [length_wtfsHdr]; exact h8)]

/-- A datagram with inner packets starts with a data header. -/
theorem writeTfsData_hdr {cfg : Config} {seq offset : Nat} {l : Wtfs}
    {answers : List (Option Mbuf)} {sent : Bool} {out : WriteOut}
    (h : writeTfsData cfg seq offset l answers sent = .ok out) :
    ∃ payload, out.datagram = some (wtfsHdr seq offset ++ payload) := by
  by_cases hlen : iovlen (.hdr (wtfsHdr seq offset) ::
      (packLoop cfg (packFuel l answers) l answers).iov) ≠ cfg.tfsmtu
  · rw [writeTfsData, if_pos hlen] at h
    cases h
  · rw [writeTfsData, if_neg hlen] at h
    cases h
    exact ⟨_, rfl⟩

/-- Every datagram of `write_tfs_pkt` starts with a data header. -/
theorem writeTfsPkt_hdr {cfg : Config} (h8 : 8 ≤ cfg.tfsmtu) {seq : Nat} {leftover : Option Mbuf}
    {answers : List (Option Mbuf)} {sent : Bool} {out : WriteOut}
    (h : writeTfsPkt cfg seq leftover answers sent = .ok out) {d : List UInt8}
    (hd : out.datagram = some d) :
    ∃ offset payload, offset < 2 ^ 16 ∧ d = wtfsHdr seq offset ++ payload := by
  cases leftover with
  | some m =>
      obtain ⟨payload, hpayload⟩ := writeTfsData_hdr h
      rw [hpayload] at hd
      cases hd
      exact ⟨_, payload, Nat.mod_lt _ (by decide), rfl⟩
  | none =>
      unfold writeTfsPkt at h
      cases hfirst : answers.headD none with
      | some m =>
          simp only [hfirst] at h
          obtain ⟨payload, hpayload⟩ := writeTfsData_hdr h
          rw [hpayload] at hd
          cases hd
          exact ⟨0, payload, by decide, rfl⟩
      | none =>
          simp only [hfirst] at h
          split at h
          · cases h
            cases hd
          · cases h
            cases hd
            obtain ⟨payload, hpayload⟩ := writeEmptyTfsPkt_hdr seq h8
            exact ⟨0, payload, by decide, hpayload⟩

/-! ### The record of the ACK -/

/-- The record that is cleared, with no first and no last number and no drops. -/
theorem ranged_zero : Ackinfo.zero.Ranged := ⟨Nat.le_refl 0, Iff.rfl, by decide⟩

/-- The timer leaves the record, or clears it. -/
theorem AckTimed.ranged {cfg : Config} {timer : Option Timespec} {s t : Rx}
    (h : AckTimed cfg timer s t) (hs : s.ack.Ranged) : t.ack.Ranged := by
  rw [h.ack]
  unfold ackAfter
  split
  · exact ranged_zero
  · exact hs

/-- A sequence number is looked at. An old one starts no range in an empty record, since it can
only be zero there. -/
theorem ranged_acceptData {tbuf : Tbuf} {seq : Nat} {s s' : Rx} (hs : s.ack.Ranged)
    (hseq : seq < 2 ^ 32) (h : acceptData tbuf seq s = .ok s') : s'.ack.Ranged := by
  have hle := hs.start_le
  have hzero := hs.zero_iff
  rcases acceptData_cases h with ⟨hold, rfl⟩ | ⟨hnew, a, -, rfl⟩
  · refine ⟨?_, ?_, hs.last_lt⟩
    · show (if s.ack.start = 0 then seq else s.ack.start) ≤ s.ack.last
      split <;> omega
    · show (if s.ack.start = 0 then seq else s.ack.start) = 0 ↔ s.ack.last = 0
      split <;> omega
  · refine ⟨?_, ?_, hseq⟩
    · show (if s.ack.start = 0 then seq else s.ack.start) ≤ seq
      split <;> omega
    · show (if s.ack.start = 0 then seq else s.ack.start) = 0 ↔ seq = 0
      split <;> omega

/-- One pass. -/
theorem ranged_step {cfg : Config} {s s' : Rx} {e : RxEvent} (hs : s.ack.Ranged)
    (h : readTfsPktsStep cfg s e = .ok s') : s'.ack.Ranged := by
  obtain ⟨t, htimed, hpass⟩ := readTfsPktsStep_cases h
  have ht := htimed.ranged hs
  rcases hpass with rfl | rfl | ⟨g, rfl⟩ | ⟨id, bytes, seq, -, hclass, hacc⟩
  · exact ht
  · exact ⟨ht.start_le, ht.zero_iff, ht.last_lt⟩
  · exact ht
  · exact ranged_acceptData ht (get32_lt (classify_data hclass).2.2) hacc

/-- Every reachable record is a range. -/
theorem ranged_of_reachable {cfg : Config} {pps : Pps} {s : Rx}
    (h : Reachable (readTfsPktsStep cfg) (Rx.init pps) s) : s.ack.Ranged :=
  h.induct ranged_zero fun _ _ _ hs hst => ranged_step hs hst

/-! ### ACKs -/

/-- The count under the ACK flag. -/
theorem ack_word {ndrop : Nat} (h : ndrop ≤ 0xFFFFFF) :
    (0x40000000 ||| ndrop) < 2 ^ 31 ∧ (0x40000000 ||| ndrop) &&& 0xC0000000 = 0x40000000 ∧
      (0x40000000 ||| ndrop) &&& 0xFFFFFF = ndrop := by
  have hor : 0x40000000 ||| ndrop = 2 ^ 30 * 1 + ndrop :=
    (Nat.two_pow_add_eq_or_of_lt (show ndrop < 2 ^ 30 by omega) 1).symm
  have hmask : (2 ^ 30 * 1 + ndrop) &&& 0xFFFFFF = (2 ^ 30 * 1 + ndrop) % 2 ^ 24 :=
    Nat.and_two_pow_sub_one_eq_mod (2 ^ 30 * 1 + ndrop) 24
  rw [hor, land_ack (by omega), hmask]
  omega

/-- What `send_ack` sends. -/
theorem sendAck_datagram {cfg : Config} {now : Timespec} {ack ack' : Ackinfo} {d : List UInt8}
    (h : sendAck cfg now ack = .ok (some d, ack')) :
    cfg.oneonly = false ∧ ∃ time, d = [0xFF, 0xFF, 0xFF, 0xFF] ++
      put32 (0x40000000 ||| min ack.ndrop 0xFFFFFF) ++ put32 time ++ put32 ack.start ++
        put32 ack.last := by
  unfold sendAck at h
  cases hone : cfg.oneonly with
  | true =>
      rw [hone] at h
      cases h
  | false =>
      rw [hone] at h
      by_cases hstart : ack.start = 0
      · rw [if_neg (by decide), if_pos hstart] at h
        cases h
      · rw [if_neg (by decide), if_neg hstart] at h
        cases h
        refine ⟨rfl, (now.sec * 1000 + now.nsec / 1000000) % 2 ^ 32, ?_⟩
        have hmin : (if ack.ndrop > 0xFFFFFF then 0xFFFFFF else ack.ndrop) =
            min ack.ndrop 0xFFFFFF := by
          split <;> omega
        rw [hmin]

/-- The words of an ACK, read back. -/
theorem get32_ack {word time start last : Nat} (hword : word < 2 ^ 32) (hstart : start < 2 ^ 32)
    (hlast : last < 2 ^ 32) {d : List UInt8}
    (hd : d = [0xFF, 0xFF, 0xFF, 0xFF] ++ put32 word ++ put32 time ++ put32 start ++ put32 last) :
    d.length = 20 ∧ get32 d 0 = .ok 0xFFFFFFFF ∧ get32 d 4 = .ok word ∧ get32 d 12 = .ok start ∧
      get32 d 16 = .ok last := by
  subst hd
  refine ⟨rfl, rfl, ?_, ?_, ?_⟩
  · have hget := get32_put32 [0xFF, 0xFF, 0xFF, 0xFF] (put32 time ++ put32 start ++ put32 last)
      hword
    simp only [List.append_assoc] at hget ⊢
    exact hget
  · have hget := get32_put32 ([0xFF, 0xFF, 0xFF, 0xFF] ++ put32 word ++ put32 time) (put32 last)
      hstart
    simp only [List.append_assoc] at hget ⊢
    exact hget
  · have hget := get32_put32
      ([0xFF, 0xFF, 0xFF, 0xFF] ++ put32 word ++ put32 time ++ put32 start) [] hlast
    simp only [List.append_assoc, List.append_nil] at hget ⊢
    exact hget

/-- An ACK of a record that is a range: taken for an ACK, and both averages are fed with what the
record says. -/
theorem recvAck_of_sendAck {cfg : Config} {now : Timespec} {ack ack' : Ackinfo} {d : List UInt8}
    (hack : ack.Ranged) (h : sendAck cfg now ack = .ok (some d, ack')) :
    classify (recvBytes d) false = .ok .ack ∧
      ∀ g, recvAck cfg d g = congestAck (min ack.ndrop 0xFFFFFF) (ack.last - ack.start) g := by
  obtain ⟨hone, time, hd⟩ := sendAck_datagram h
  have hcount : min ack.ndrop 0xFFFFFF ≤ 0xFFFFFF := Nat.min_le_right _ _
  obtain ⟨hword, hflag, hmask⟩ := ack_word hcount
  have hlast := hack.last_lt
  have hle := hack.start_le
  obtain ⟨hlen, hmark, hoff, hstart, hend⟩ := get32_ack (by omega) (by omega) hlast hd
  have hbytes : recvBytes d = d := List.take_of_length_le (by rw [hlen]; decide)
  constructor
  · rw [hbytes, classify, hlen, hoff, hmark]
    simp only [hflag]
    rfl
  · intro g
    have hreport : ackReport d = some (min ack.ndrop 0xFFFFFF, ack.last - ack.start) := by
      rw [ackReport, hoff, hstart, hend]
      simp only [hmask]
      rw [if_neg (Nat.not_lt.mpr hle)]
    rw [recvAck_of_isAck hone ⟨hlen, hmark⟩, hreport]

/-! ### Everything that is sent -/

/-- The bit tests take data and empty datagrams for data, with their sequence number, and ACKs
for ACKs. The record of an ACK is a range or empty, and `recv_ack` feeds the averages with what
it says. -/
theorem sent_classified (cfg : Config) (h8 : 8 ≤ cfg.tfsmtu) :
    (∀ (seq : Nat) (leftover : Option Mbuf) (answers : List (Option Mbuf)) (sent : Bool)
        (out : WriteOut) (d : List UInt8), seq < 2 ^ 32 →
        writeTfsPkt cfg seq leftover answers sent = .ok out → out.datagram = some d →
          classify (recvBytes d) false = .ok (.data seq)) ∧
      ∀ (pps : Pps) (s : Rx), Reachable (readTfsPktsStep cfg) (Rx.init pps) s →
        s.ack.start ≤ s.ack.last ∧ (s.ack.start = 0 ↔ s.ack.last = 0) ∧
          ∀ (now : Timespec) (d : List UInt8) (ack : Ackinfo),
            sendAck cfg now s.ack = .ok (some d, ack) →
              classify (recvBytes d) false = .ok .ack ∧
                ∀ g, recvAck cfg d g =
                  congestAck (min s.ack.ndrop 0xFFFFFF) (s.ack.last - s.ack.start) g := by
  constructor
  · intro seq leftover answers sent out d hseq hout hd
    obtain ⟨offset, payload, hoff, rfl⟩ := writeTfsPkt_hdr h8 hout hd
    exact classify_of_hdr payload hseq hoff
  · intro pps s hs
    have hranged := ranged_of_reachable hs
    refine ⟨hranged.start_le, hranged.zero_iff, fun now d ack hsend => ?_⟩
    exact recvAck_of_sendAck hranged hsend

/-- The first datagram of a sender with an empty queue, and the ACK of a receiver that has taken
it in. -/
theorem sent_classified_first :
    classify (recvBytes (writeEmptyTfsPkt 1 1500).1) false = .ok (.data 1) ∧
      classify (recvBytes (ackDatagram 0 1 1)) false = .ok .ack := by
  have h := sent_classified ⟨1500, false, false⟩ (by decide)
  refine ⟨h.1 1 none [] true _ _ (by decide) rfl rfl, ?_⟩
  have hreach : Reachable (readTfsPktsStep ⟨1500, false, false⟩) (Rx.init ⟨100, 100, 10000000⟩)
      { Rx.init ⟨100, 100, 10000000⟩ with
        ack := ⟨1, 1, 0⟩, m := some .clean, accepted := [1] } :=
    ⟨[⟨none, .got 0 (wtfsHdr 1 0 ++ [0]) false⟩], rfl⟩
  exact ((h.2 _ _ hreach).2.2 ⟨0, 0⟩ (ackDatagram 0 1 1) .zero rfl).1

end Proofs

end Iptfs
