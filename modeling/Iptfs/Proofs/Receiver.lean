import Iptfs.Lib.Run
import Iptfs.Proofs.SenderFrames

/-!
# `Iptfs.Proofs.Receiver`: one pass of `read_tfs_pkts`

What a pass does, case by case: the ACK timer, the tests on the header of a datagram that
`write_tfs_pkt` built, and the test on the sequence number. Later modules cite these and
do not unfold `readTfsPktsStep`.
-/

set_option autoImplicit false

namespace Iptfs.Proofs

/-! ### The header of a data datagram -/

/-- A word with a value of two bytes begins with two zero bytes. -/
theorem put32_small {v : Nat} (h : v < 2 ^ 16) : put32 v = [0, 0] ++ put16 v := by
  have h24 : v >>> 24 = 0 := by
    rw [Nat.shiftRight_eq_div_pow]
    omega
  have h16 : v >>> 16 = 0 := by
    rw [Nat.shiftRight_eq_div_pow]
    omega
  rw [put32, put16, h24, h16]
  rfl

/-- The sequence number is read from the first word of the header. -/
theorem get32_wtfsHdr_seq {seq offset : Nat} (payload : List UInt8) (h : seq < 2 ^ 32) :
    get32 (wtfsHdr seq offset ++ payload) 0 = .ok seq := by
  have hget := get32_put32 [] ([0, 0] ++ put16 offset ++ payload) h
  rwa [List.nil_append, ← List.append_assoc] at hget

/-- The second word is the BlockOffset, since the two bytes before it are zero. -/
theorem get32_wtfsHdr_offset {seq offset : Nat} (payload : List UInt8) (h : offset < 2 ^ 16) :
    get32 (wtfsHdr seq offset ++ payload) 4 = .ok offset := by
  have hget := get32_put32 (put32 seq) payload (show offset < 2 ^ 32 by omega)
  rw [put32_small h, ← List.append_assoc] at hget
  exact hget

/-- `add_to_inner_packet` reads the same from the last two bytes. -/
theorem get16_wtfsHdr_offset {seq offset : Nat} (payload : List UInt8) (h : offset < 2 ^ 16) :
    get16 (wtfsHdr seq offset ++ payload) 6 = .ok offset := by
  have hget := get16_put16 (put32 seq ++ [0, 0]) payload h
  rw [← List.append_assoc, List.append_assoc (put32 seq)] at hget
  exact hget

/-- The version and ACK bits of a data datagram are clear. -/
theorem offset_bits {offset : Nat} (h : offset < 2 ^ 16) :
    offset &&& 0xC0000000 ≠ 0x40000000 ∧ offset &&& 0x80000000 = 0 := by
  rw [land_ack (by omega), land_version (by omega), Nat.div_eq_of_lt (by omega),
    Nat.div_eq_of_lt (by omega)]
  decide

/-- The tests of the loop on a data datagram. -/
theorem classify_wtfsHdr {seq offset : Nat} (payload : List UInt8) (limited : Bool)
    (hseq : seq < 2 ^ 32) (hoff : offset < 2 ^ 16) :
    classify (wtfsHdr seq offset ++ payload) limited =
      .ok (if limited then .limited else .data seq) := by
  have hlen : (wtfsHdr seq offset ++ payload).length = 8 + payload.length := by
    rw [List.length_append, length_wtfsHdr]
  obtain ⟨hack, hver⟩ := offset_bits hoff
  have h0 : ¬ 8 + payload.length = 0 := by omega
  have h8 : ¬ 8 + payload.length < 8 := by omega
  rw [classify, hlen, if_neg h0, if_neg h8]
  cases limited with
  | true => rfl
  | false =>
      rw [get32_wtfsHdr_offset payload hoff, get32_wtfsHdr_seq payload hseq]
      simp only [Bool.false_eq_true, if_false, hack, hver, ne_eq, not_true_eq_false]

/-- The number of a data datagram is the word at its head. -/
theorem classify_data {data : List UInt8} {limited : Bool} {seq : Nat}
    (h : classify data limited = .ok (.data seq)) :
    limited = false ∧ 8 ≤ data.length ∧ get32 data 0 = .ok seq := by
  rw [classify] at h
  by_cases h0 : data.length = 0
  · rw [if_pos h0] at h
    cases h
  · by_cases h8 : data.length < 8
    · rw [if_neg h0, if_pos h8] at h
      cases h
    · obtain ⟨offset, hoff, -⟩ := get32_ok (show 4 + 4 ≤ data.length by omega)
      obtain ⟨number, hnum, -⟩ := get32_ok (show 0 + 4 ≤ data.length by omega)
      rw [if_neg h0, if_neg h8, hoff, hnum] at h
      cases limited with
      | true => cases h
      | false =>
          simp only [Bool.false_eq_true, if_false] at h
          split at h
          · cases h
          · split at h
            · cases h
            · cases h
              exact ⟨rfl, by omega, hnum⟩

/-! ### The ACK timer -/

/-- What the ACK timer leaves: the record, cleared when an ACK goes out, and everything else
as it was. -/
structure AckTimed (cfg : Config) (timer : Option Timespec) (s s' : Rx) : Prop where
  ack : s'.ack = ackAfter cfg timer s.ack
  reports : s'.reports =
    if timer.isSome ∧ cfg.oneonly = false ∧ s.ack.start ≠ 0 then s.reports ++ [s.ack.ndrop]
    else s.reports
  m : s'.m = s.m
  congest : s'.congest = s.congest
  outq : s'.outq = s.outq
  accepted : s'.accepted = s.accepted

/-- The check of the ACK timer always succeeds: `send_ack` runs outside single-only mode
only. -/
theorem ackTimer_ok (cfg : Config) (timer : Option Timespec) (s : Rx) :
    ∃ s', ackTimer cfg timer s = .ok s' ∧ AckTimed cfg timer s s' := by
  cases timer with
  | none => exact ⟨s, rfl, by constructor <;> simp [ackAfter]⟩
  | some now =>
      cases hone : cfg.oneonly with
      | true => exact ⟨s, by simp [ackTimer, hone], by constructor <;> simp [ackAfter, hone]⟩
      | false =>
          by_cases hstart : s.ack.start = 0
          · exact ⟨s, by simp [ackTimer, sendAck, hone, hstart],
              by constructor <;> simp [ackAfter, hone, hstart]⟩
          · exact ⟨{ s with ack := .zero, reports := s.reports ++ [s.ack.ndrop] },
              by simp [ackTimer, sendAck, hone, hstart],
              by constructor <;> simp [ackAfter, hone, hstart]⟩

/-- The `last` of the record after the timer. -/
theorem AckTimed.last {cfg : Config} {a : Arrival} {s s' : Rx} (h : AckTimed cfg a.timer s s') :
    s'.ack.last = a.seenLast cfg s.ack := by
  rw [h.ack]
  rfl

/-! ### A datagram of the sender -/

/-- A pass with a datagram that the sender built: the limiter drops it, or its sequence
number is looked at. -/
theorem readTfsPktsStep_arrival {cfg : Config} {s : Sender} {a : Arrival} {rx rx' : Rx}
    {offset : Nat} {payload : List UInt8}
    (hd : s.datagram a.number = some (wtfsHdr a.seq offset ++ payload)) (hoff : offset < 2 ^ 16)
    (hlen : 8 + payload.length ≤ MAXBUF - HDRSPACE)
    (htimer : ackTimer cfg a.timer rx = .ok rx') :
    readTfsPktsStep cfg rx (a.event s) =
      if a.limited then .ok rx'.drop
      else acceptData (Tbuf.fresh a.id (wtfsHdr a.seq offset ++ payload)) a.seq rx' := by
  have hbytes : recvBytes (wtfsHdr a.seq offset ++ payload) = wtfsHdr a.seq offset ++ payload := by
    rw [recvBytes, List.take_of_length_le]
    rwa [List.length_append, length_wtfsHdr]
  have hseq : a.seq < 2 ^ 32 := Nat.mod_lt _ (by decide)
  simp only [readTfsPktsStep, Arrival.event, htimer, hd, Option.getD_some, hbytes,
    classify_wtfsHdr payload a.limited hseq hoff]
  cases a.limited <;> rfl

/-- A datagram whose sequence number is not above `ack.last` changes `ack.start` only. -/
theorem acceptData_old {tbuf : Tbuf} {seq : Nat} {s : Rx} (h : seq ≤ s.ack.last) :
    acceptData tbuf seq s = .ok { s with ack := s.ack.begin seq } := by
  have hle : seq ≤ (s.ack.begin seq).last := h
  simp only [acceptData, if_pos hle]

/-- A datagram whose sequence number is above `ack.last` goes to `add_to_inner_packet`. -/
theorem acceptData_new {tbuf : Tbuf} {seq : Nat} {s : Rx} {a : Added} (h : s.ack.last < seq)
    (ha : addToInnerPacket tbuf.data.length tbuf true (s.ack.keep seq s.m) = .ok a) :
    acceptData tbuf seq s = .ok { s with
      ack := (s.ack.begin seq).advance seq
      m := a.m
      outq := s.outq ++ a.outq
      accepted := s.accepted ++ [seq] } := by
  have hgt : ¬ seq ≤ (s.ack.begin seq).last := Nat.not_le.mpr h
  have hkeep : (s.ack.begin seq).keep seq s.m = s.ack.keep seq s.m := rfl
  simp only [acceptData, if_neg hgt, hkeep, ha]

/-- Where `add_to_inner_packet` is brought down, the pass is. -/
theorem acceptData_error {tbuf : Tbuf} {seq : Nat} {s : Rx} {e : Fault} (h : s.ack.last < seq)
    (he : addToInnerPacket tbuf.data.length tbuf true (s.ack.keep seq s.m) = .error e) :
    acceptData tbuf seq s = .error e := by
  have hgt : ¬ seq ≤ (s.ack.begin seq).last := Nat.not_le.mpr h
  have hkeep : (s.ack.begin seq).keep seq s.m = s.ack.keep seq s.m := rfl
  simp only [acceptData, if_neg hgt, hkeep, he]

/-- What a pass that accepts a datagram does to the record and the log. -/
theorem acceptData_accepts {tbuf : Tbuf} {seq : Nat} {s s' : Rx} (h : s.ack.last < seq)
    (hok : acceptData tbuf seq s = .ok s') :
    s'.accepted = s.accepted ++ [seq] ∧ s'.reports = s.reports ∧
      s'.ack = (s.ack.begin seq).advance seq := by
  cases ha : addToInnerPacket tbuf.data.length tbuf true (s.ack.keep seq s.m) with
  | error e =>
      rw [acceptData_error h ha] at hok
      cases hok
  | ok a =>
      rw [acceptData_new h ha] at hok
      cases hok
      exact ⟨rfl, rfl, rfl⟩

/-- What a pass over the sequence number leaves: the datagram is old, or it reached
`add_to_inner_packet`. -/
theorem acceptData_cases {tbuf : Tbuf} {seq : Nat} {s s' : Rx}
    (h : acceptData tbuf seq s = .ok s') :
    (seq ≤ s.ack.last ∧ s' = { s with ack := s.ack.begin seq }) ∨
      (s.ack.last < seq ∧ ∃ a, addToInnerPacket tbuf.data.length tbuf true (s.ack.keep seq s.m) =
        .ok a ∧ s' = { s with
          ack := (s.ack.begin seq).advance seq
          m := a.m
          outq := s.outq ++ a.outq
          accepted := s.accepted ++ [seq] }) := by
  rcases Nat.lt_or_ge s.ack.last seq with hnew | hold
  · cases ha : addToInnerPacket tbuf.data.length tbuf true (s.ack.keep seq s.m) with
    | error e =>
        rw [acceptData_error hnew ha] at h
        cases h
    | ok a =>
        rw [acceptData_new hnew ha] at h
        cases h
        exact Or.inr ⟨hnew, a, rfl, rfl⟩
  · rw [acceptData_old hold] at h
    cases h
    exact Or.inl ⟨hold, rfl⟩

/-- What a pass that comes to its end is, after the timer: nothing, a datagram that is dropped,
an ACK, or a datagram whose sequence number is looked at. -/
theorem readTfsPktsStep_cases {cfg : Config} {s s' : Rx} {e : RxEvent}
    (h : readTfsPktsStep cfg s e = .ok s') :
    ∃ t, AckTimed cfg e.timer s t ∧
      (s' = t ∨ s' = t.drop ∨ (∃ g, s' = { t with congest := g }) ∨
        ∃ id bytes seq, e.recv = .got id bytes false ∧
          classify (recvBytes bytes) false = .ok (.data seq) ∧
          acceptData (Tbuf.fresh id (recvBytes bytes)) seq t = .ok s') := by
  obtain ⟨t, ht, htimed⟩ := ackTimer_ok cfg e.timer s
  refine ⟨t, htimed, ?_⟩
  rw [readTfsPktsStep, ht] at h
  cases hrecv : e.recv with
  | failed =>
      simp only [hrecv] at h
      cases h
      exact Or.inl rfl
  | got id bytes limited =>
      simp only [hrecv] at h
      cases hclass : classify (recvBytes bytes) limited with
      | error f =>
          rw [hclass] at h
          cases h
      | ok verdict =>
          rw [hclass] at h
          cases verdict with
          | zero =>
              cases h
              exact Or.inl rfl
          | ack =>
              obtain ⟨g, _, rfl⟩ := Lib.map_eq_ok.mp h
              exact Or.inr (Or.inr (Or.inl ⟨g, rfl⟩))
          | data seq =>
              -- The limiter comes before the bit tests.
              obtain ⟨rfl, -, -⟩ := classify_data hclass
              exact Or.inr (Or.inr (Or.inr ⟨id, bytes, seq, rfl, hclass, h⟩))
          | _ =>
              cases h
              exact Or.inr (Or.inl rfl)

/-- What a pass does to the inner packets: nothing, or what `add_to_inner_packet` does with the
packet in progress that the test for a gap leaves. -/
theorem readTfsPktsStep_packets {cfg : Config} {s s' : Rx} {e : RxEvent}
    (h : readTfsPktsStep cfg s e = .ok s') :
    (s'.m = s.m ∧ s'.outq = s.outq) ∨
      ∃ (ack : Ackinfo) (seq id : Nat) (data : List UInt8) (a : Added),
        addToInnerPacket data.length (Tbuf.fresh id data) true (ack.keep seq s.m) = .ok a ∧
          s'.m = a.m ∧ s'.outq = s.outq ++ a.outq := by
  obtain ⟨t, htimed, hcase⟩ := readTfsPktsStep_cases h
  rcases hcase with rfl | rfl | ⟨g, rfl⟩ | ⟨id, bytes, seq, -, -, hacc⟩
  · exact .inl ⟨htimed.m, htimed.outq⟩
  · exact .inl ⟨htimed.m, htimed.outq⟩
  · exact .inl ⟨htimed.m, htimed.outq⟩
  · rcases acceptData_cases hacc with ⟨-, rfl⟩ | ⟨-, a, ha, rfl⟩
    · exact .inl ⟨htimed.m, htimed.outq⟩
    · rw [htimed.m] at ha
      exact .inr ⟨t.ack, seq, id, _, a, ha, rfl, congrArg (· ++ a.outq) htimed.outq⟩

/-- A gap leaves no packet in progress. -/
theorem keep_gap {ack : Ackinfo} {seq : Nat} {m : Option Miov} (h : ack.gap seq) :
    (ack.keep seq m).getD Miov.clean = Miov.clean := by
  rw [Ackinfo.keep, if_pos h]
  cases m <;> rfl

/-- Without a gap the packet in progress stays. -/
theorem keep_of_not_gap {ack : Ackinfo} {seq : Nat} {m : Option Miov} (h : ¬ ack.gap seq) :
    ack.keep seq m = m := if_neg h

end Iptfs.Proofs
