import Iptfs.Proofs.Delivery
import Iptfs.Proofs.InOrder
import Iptfs.Proofs.Robust

/-!
# `Iptfs.Proofs.Wrap`: sequence numbers that wrap

A run in which no datagram is lost and all of them come in order. `Numbered` is the invariant
of the sender: its datagrams carry the numbers 1, 2, 3 and so on modulo `2 ^ 32`. `Kept` is
the invariant of the receiver below the wrap: everything so far was accepted, and `ack.last`
is the latest number or zero. Datagram number `2 ^ 32 - 1` carries the sequence number zero,
which is not above any `ack.last`, so it is never accepted (`zero_not_accepted`).

A receiver that `add_to_inner_packet` brings down, or that waits for an mbuf in vain, accepts
nothing more. `innerRun_ok_iff` says when that does not happen, and `received_ipv4` that the
assertions never fail on IPv4 packets. `tookAll_iff` is the main result. It is about the receiver
with its pool and its arrays. `Alike` carries the steps without them over.
-/

set_option autoImplicit false

namespace Iptfs

/-- The datagram of an arrival as `recvfrom` hands it over, with the address of its buffer. -/
def Arrival.received (s : Sender) (a : Arrival) : Nat × List UInt8 :=
  (a.id, recvBytes ((s.datagram a.number).getD []))

/-- Every arrival was accepted, and no drop is counted or reported. -/
structure Rx.TookAll (as : List Arrival) (rx : Rx) : Prop where
  accepted : rx.accepted = as.map Arrival.seq
  ndrop : rx.ack.ndrop = 0
  reports : ∀ n ∈ rx.reports, n = 0

namespace Proofs

open Iptfs.Lib Iptfs.Lib.Framing

/-! ### The sender numbers its datagrams -/

/-- A call of `write_tfs_pkt`: nothing is sent, or a datagram with the sequence number. -/
theorem writeTfsPkt_numbered (cfg : Config) (h9 : 8 < cfg.tfsmtu) (hmax : cfg.tfsmtu ≤ MAXBUF)
    (seq : Nat) (leftover : Option Mbuf) (answers : List (Option Mbuf)) (sent : Bool) :
    ∃ out, writeTfsPkt cfg seq leftover answers sent = .ok out ∧
      ((out.datagram = none ∧ cfg.oneonly = true ∧ out.seq = seq) ∨
        ∃ offset payload, offset < 2 ^ 16 ∧
          out.datagram = some (wtfsHdr seq offset ++ payload) ∧ out.seq = (seq + 1) % 2 ^ 32) := by
  -- The leftover and a packet from the outq lead to the same code.
  have hdata : ∀ (offset : Nat) (m : Mbuf) (taken : List Mbuf) (os : List (Option Mbuf)),
      offset < 2 ^ 16 →
      ∃ out, writeTfsData cfg seq offset (wtfsEnter cfg m taken) os sent = .ok out ∧
        ((out.datagram = none ∧ cfg.oneonly = true ∧ out.seq = seq) ∨
          ∃ offset payload, offset < 2 ^ 16 ∧
            out.datagram = some (wtfsHdr seq offset ++ payload) ∧
            out.seq = (seq + 1) % 2 ^ 32) := by
    intro offset m taken os hoff
    rcases writeTfsData_spec cfg h9 seq offset m taken os sent with
      ⟨ts, iov, freed, left, -, -, hout⟩
    exact ⟨_, hout, Or.inr ⟨offset, iovBytes iov, hoff, rfl, rfl⟩⟩
  cases leftover with
  | some m =>
      rw [writeTfsPkt]
      exact hdata _ m [] answers (Nat.mod_lt _ (by decide))
  | none =>
      cases hhead : answers.headD none with
      | some m =>
          rw [writeTfsPkt]
          simp only [hhead]
          exact hdata 0 m [m] answers.tail (by decide)
      | none =>
          rw [writeTfsPkt]
          simp only [hhead]
          cases hone : cfg.oneonly with
          | true => exact ⟨_, rfl, Or.inl ⟨rfl, rfl, rfl⟩⟩
          | false =>
              -- An empty datagram takes a number too.
              refine ⟨_, rfl, Or.inr ⟨0, List.replicate (cfg.tfsmtu - 8) 0, by decide, ?_, rfl⟩⟩
              exact congrArg some (writeEmptyTfsPkt_eq seq cfg.tfsmtu h9 hmax)

/-- The invariant of the sender: datagram number `i` carries the sequence number `i + 1`. -/
structure Numbered (cfg : Config) (s : Sender) : Prop where
  seq : s.seq = (s.sends.length + 1) % 2 ^ 32
  all : cfg.oneonly = false → s.sends.length = s.calls.length
  header : ∀ i c, s.sends[i]? = some c → ∃ offset payload, offset < 2 ^ 16 ∧
    c.2.datagram = some (wtfsHdr ((i + 1) % 2 ^ 32) offset ++ payload)

/-- The first datagram will have the number 1. -/
theorem numbered_init (cfg : Config) : Numbered cfg Sender.init where
  seq := rfl
  all := fun _ => rfl
  header := by simp [Sender.sends, Sender.init]

/-- One call keeps the numbers in order. -/
theorem Numbered.step {cfg : Config} (h9 : 8 < cfg.tfsmtu) (hmax : cfg.tfsmtu ≤ MAXBUF)
    {s : Sender} (h : Numbered cfg s) (call : WriteCall) :
    ∃ s', writeTfsPktsStep cfg s call = .ok s' ∧ Numbered cfg s' := by
  rcases writeTfsPkt_numbered cfg h9 hmax s.seq s.leftover call.answers call.sent with
    ⟨out, hout, hcase⟩
  refine ⟨⟨out.seq, out.leftover, s.calls ++ [(call, out)]⟩, by rw [writeTfsPktsStep, hout], ?_⟩
  rcases hcase with ⟨hnone, hone, hseq⟩ | ⟨offset, payload, hoff, hdat, hseq⟩
  · -- Nothing was sent.
    have hsends : Sender.sends ⟨out.seq, out.leftover, s.calls ++ [(call, out)]⟩ = s.sends := by
      simp [Sender.sends, hnone]
    constructor
    · rw [hsends, ← h.seq]
      exact hseq
    · intro hfalse
      rw [hone] at hfalse
      cases hfalse
    · rw [hsends]
      exact h.header
  · -- One more datagram.
    have hsends : Sender.sends ⟨out.seq, out.leftover, s.calls ++ [(call, out)]⟩ =
        s.sends ++ [(call, out)] := by
      simp [Sender.sends, hdat]
    constructor
    · show out.seq = _
      rw [hsends, hseq, h.seq, List.length_append, List.length_singleton]
      omega
    · intro hone
      rw [hsends, List.length_append, h.all hone, List.length_append]
    · intro i c hc
      rw [hsends] at hc
      rcases Nat.lt_or_ge i s.sends.length with hi | hi
      · rw [List.getElem?_append_left hi] at hc
        exact h.header i c hc
      · rw [List.getElem?_append_right hi] at hc
        cases hn : i - s.sends.length with
        | succ n => simp [hn] at hc
        | zero =>
            rw [hn, List.getElem?_cons_zero] at hc
            cases hc
            have hi' : i = s.sends.length := by omega
            refine ⟨offset, payload, hoff, ?_⟩
            rw [hi', ← h.seq]
            exact hdat

/-- The sender survives any calls, and numbers its datagrams. -/
theorem exists_numbered_run {cfg : Config} (h9 : 8 < cfg.tfsmtu) (hmax : cfg.tfsmtu ≤ MAXBUF)
    (calls : List WriteCall) :
    ∃ s, run (writeTfsPktsStep cfg) Sender.init calls = .ok s ∧ Numbered cfg s :=
  run_ok_of_along (C := fun _ _ => True) (fun _ call h _ => h.step h9 hmax call)
    (numbered_init cfg) (along_of_forall fun _ _ => trivial)

/-- Every run of the sender numbers its datagrams. -/
theorem numbered_of_run {cfg : Config} (h9 : 8 < cfg.tfsmtu) (hmax : cfg.tfsmtu ≤ MAXBUF)
    {calls : List WriteCall} {s : Sender}
    (hrun : run (writeTfsPktsStep cfg) Sender.init calls = .ok s) : Numbered cfg s := by
  rcases exists_numbered_run h9 hmax calls with ⟨t, ht, hnum⟩
  rw [hrun] at ht
  cases ht
  exact hnum

/-- Without single-only mode, every call of a run sends a datagram. -/
theorem sends_of_run {cfg : Config} (h9 : 8 < cfg.tfsmtu) (hmax : cfg.tfsmtu ≤ MAXBUF)
    (hone : cfg.oneonly = false) {calls : List WriteCall} {s : Sender}
    (hrun : run (writeTfsPktsStep cfg) Sender.init calls = .ok s) :
    s.sends.length = calls.length := by
  have hcalls := congrArg List.length (calls_of_run hrun)
  rw [List.length_map] at hcalls
  rw [(numbered_of_run h9 hmax hrun).all hone, hcalls]

/-- The datagrams of a run without failed sends. -/
theorem Numbered.datagram {cfg : Config} {s : Sender} (h : Numbered cfg s)
    (hsent : ∀ c ∈ s.calls, c.1.sent = true) {a : Arrival} (hn : a.number < s.sends.length) :
    ∃ offset payload, offset < 2 ^ 16 ∧
      s.datagram a.number = some (wtfsHdr a.seq offset ++ payload) := by
  have hc : s.sends[a.number]? = some s.sends[a.number] := List.getElem?_eq_getElem hn
  rcases h.header a.number _ hc with ⟨offset, payload, hoff, hdat⟩
  have hleft : s.sends[a.number].1.sent = true :=
    hsent _ (List.mem_filter.mp (List.getElem_mem hn)).1
  refine ⟨offset, payload, hoff, ?_⟩
  rw [Sender.datagram, hc, Option.bind_some, if_pos hleft, hdat]
  rfl

/-! ### The receiver -/

/-- The pass with the next datagram, which the limiter lets through. -/
theorem readTfsPktsStep_received {cfg : Config} {s : Sender} {a : Arrival} {rx rx' : Rx}
    {offset : Nat} {payload : List UInt8}
    (hd : s.datagram a.number = some (wtfsHdr a.seq offset ++ payload)) (hoff : offset < 2 ^ 16)
    (hlim : a.limited = false) (htimer : ackTimer cfg a.timer rx = .ok rx') :
    readTfsPktsStep cfg rx (a.event s) =
      acceptData (Tbuf.fresh a.id (a.received s).2) a.seq rx' := by
  have hbytes : recvBytes (wtfsHdr a.seq offset ++ payload) =
      wtfsHdr a.seq offset ++ payload.take (MAXBUF - HDRSPACE - 8) := by
    have hhdr : (wtfsHdr a.seq offset).take (MAXBUF - HDRSPACE) = wtfsHdr a.seq offset :=
      List.take_of_length_le (by rw [length_wtfsHdr]; decide)
    rw [recvBytes, List.take_append, hhdr, length_wtfsHdr]
  have hseq : a.seq < 2 ^ 32 := Nat.mod_lt _ (by decide)
  have hclass := classify_wtfsHdr (payload.take (MAXBUF - HDRSPACE - 8)) false hseq hoff
  rw [if_neg (by simp)] at hclass
  simp only [readTfsPktsStep, Arrival.event, Arrival.received, htimer, hd, Option.getD_some,
    hbytes, hlim, hclass, dispatch]

/-- The invariant below the wrap: the first `k` datagrams were accepted, and no gap was
seen. -/
structure Kept (k : Nat) (rx : Rx) : Prop where
  accepted : rx.accepted = (List.range k).map fun i => (i + 1) % 2 ^ 32
  ndrop : rx.ack.ndrop = 0
  reports : ∀ n ∈ rx.reports, n = 0
  last : rx.ack.last = 0 ∨ rx.ack.last = k

/-- Nothing has come. -/
theorem kept_init (pps : Pps) : Kept 0 (Rx.init pps) where
  accepted := rfl
  ndrop := rfl
  reports := by simp [Rx.init]
  last := Or.inl rfl

/-- The ACK timer keeps it: a report clears `ack.last`, and what it reports is zero. -/
theorem Kept.timer {cfg : Config} {timer : Option Timespec} {k : Nat} {rx rx' : Rx}
    (h : Kept k rx) (ht : AckTimed cfg timer rx rx') : Kept k rx' := by
  -- A report is sent when the timer has expired and something has been received.
  by_cases hack : timer.isSome ∧ cfg.oneonly = false ∧ rx.ack.start ≠ 0
  · have hzero : rx'.ack = .zero := by rw [ht.ack, ackAfter, if_pos hack]
    constructor
    · rw [ht.accepted, h.accepted]
    · rw [hzero]
      rfl
    · intro n hn
      rw [ht.reports, if_pos hack] at hn
      rcases List.mem_append.mp hn with hn | hn
      · exact h.reports n hn
      · rw [List.mem_singleton.mp hn]
        exact h.ndrop
    · rw [hzero]
      exact Or.inl rfl
  · have hsame : rx'.ack = rx.ack := by rw [ht.ack, ackAfter, if_neg hack]
    constructor
    · rw [ht.accepted, h.accepted]
    · rw [hsame]
      exact h.ndrop
    · rw [ht.reports, if_neg hack]
      exact h.reports
    · rw [hsame]
      exact h.last

/-- What a receiver holds, as the reassembler sees it. -/
def Rx.inner (rx : Rx) : Inner := ⟨rx.m, rx.outq⟩

/-- The reassembler and the receiver end a datagram alike: both go on, everything so far was
accepted, and they hold the same packets, or both stop with the same error. -/
def Alike {ε : Type} (k : Nat) (ri : Except ε Inner) (rr : Except ε Rx) : Prop :=
  (∃ rx, ri = .ok (Rx.inner rx) ∧ rr = .ok rx ∧ Kept k rx) ∨ ∃ e, ri = .error e ∧ rr = .error e

/-- The next datagram below the wrap: it is accepted, unless `add_to_inner_packet` does not
survive it. -/
theorem Kept.step {cfg : Config} {s : Sender} {a : Arrival} {k : Nat} {rx : Rx} (h : Kept k rx)
    (hk : k + 1 < 2 ^ 32) (hnum : a.number = k) (hlim : a.limited = false) {offset : Nat}
    {payload : List UInt8} (hoff : offset < 2 ^ 16)
    (hd : s.datagram a.number = some (wtfsHdr a.seq offset ++ payload)) :
    Alike (k + 1) (innerStep (Rx.inner rx) (a.received s))
      (readTfsPktsStep cfg rx (a.event s)) := by
  rcases ackTimer_ok cfg a.timer rx with ⟨rx₁, htimer, htimed⟩
  have hkept := h.timer htimed
  have hseq : a.seq = k + 1 := by
    rw [Arrival.seq, hnum]
    exact Nat.mod_eq_of_lt hk
  have hnew : rx₁.ack.last < a.seq := by
    have hlast := hkept.last
    omega
  -- The number is the one after `ack.last`, or `ack.last` is zero.
  have hgap : ¬ rx₁.ack.gap a.seq := by
    rintro ⟨hne, hzero⟩
    have hlast := hkept.last.resolve_left hzero
    rw [hlast, Nat.mod_eq_of_lt hk] at hne
    exact hne hseq
  have hkeep : rx₁.ack.keep a.seq rx₁.m = rx.m := by
    rw [keep_of_not_gap hgap, htimed.m]
  rw [readTfsPktsStep_received hd hoff hlim htimer]
  cases ha : addToInnerPacket (a.received s).2.length (Tbuf.fresh a.id (a.received s).2) true
      rx.m with
  | error e =>
      refine Or.inr ⟨e, ?_, acceptData_error hnew (by rw [hkeep]; exact ha)⟩
      have hcall : addToInnerPacket (a.received s).2.length
          (Tbuf.fresh (a.received s).1 (a.received s).2) true (Rx.inner rx).m = .error e := ha
      unfold innerStep
      rw [hcall]
  | ok b =>
      refine Or.inl ⟨_, ?_, acceptData_new hnew (by rw [hkeep]; exact ha), ?_⟩
      · rw [Rx.inner, htimed.outq]
        exact innerStep_eq_ok.mpr ⟨b, ha, rfl⟩
      · have hgap' : ¬ (rx₁.ack.begin a.seq).gap a.seq := hgap
        constructor
        · show rx₁.accepted ++ [a.seq] = _
          rw [hkept.accepted, List.range_succ, List.map_append, Arrival.seq, hnum]
          rfl
        · show (if (rx₁.ack.begin a.seq).gap a.seq then _ else rx₁.ack.ndrop) = 0
          rw [if_neg hgap']
          exact hkept.ndrop
        · exact hkept.reports
        · exact Or.inr hseq

/-- The check of the arrays is the same on both sides. -/
theorem Alike.bounded {cfg : Config} {k : Nat} {rx : Rx} {e : RxEvent} {d : Nat × List UInt8}
    (h : Alike k (innerStep (Rx.inner rx) d) (readTfsPktsStep cfg rx e)) :
    Alike k (boundedInner cfg (Rx.inner rx) d) (boundedStep cfg rx e) := by
  rcases h with ⟨rx', hinner, hstep, hkept⟩ | ⟨f, hinner, hstep⟩
  · rw [boundedInner, boundedStep, hinner, hstep]
    by_cases hfit : rx'.Fits cfg
    · exact .inl ⟨rx', if_pos hfit, if_pos hfit, hkept⟩
    · exact .inr ⟨_, if_neg hfit, if_neg hfit⟩
  · rw [boundedInner, boundedStep, hinner, hstep]
    exact .inr ⟨f, rfl, rfl⟩

/-- The wait for an mbuf is the same on both sides. -/
theorem Alike.pooled {stepI : Inner → Nat × List UInt8 → Res Inner} {stepR : Rx → RxEvent → Res Rx}
    {k : Nat} {rx : Rx} {e : RxEvent} {d : Nat × List UInt8}
    (h : Alike k (stepI (Rx.inner rx) d) (stepR rx e)) :
    Alike k (Iptfs.pooled Inner.m stepI (Rx.inner rx) d) (Iptfs.pooled Rx.m stepR rx e) := by
  rw [Iptfs.pooled, Iptfs.pooled]
  by_cases hleft : MbufLeft rx.m
  · rw [if_pos hleft, if_pos (show MbufLeft (Rx.inner rx).m from hleft)]
    rcases h with ⟨rx', hinner, hstep, hkept⟩ | ⟨f, hinner, hstep⟩
    · rw [hinner, hstep]
      exact .inl ⟨rx', rfl, rfl, hkept⟩
    · rw [hinner, hstep]
      exact .inr ⟨.fault f, rfl, rfl⟩
  · rw [if_neg hleft, if_neg (show ¬ MbufLeft (Rx.inner rx).m from hleft)]
    exact .inr ⟨.waits, rfl, rfl⟩

/-- A run below the wrap, for steps that end alike wherever those without pool and arrays do: the
reassembler and the receiver end it alike. Induction on the arrivals. -/
theorem Kept.run {ε : Type} {cfg : Config} {s : Sender} (hs : Numbered cfg s)
    (hsent : ∀ c ∈ s.calls, c.1.sent = true) {stepI : Inner → Nat × List UInt8 → Except ε Inner}
    {stepR : Rx → RxEvent → Except ε Rx}
    (halike : ∀ {k : Nat} {rx : Rx} {e : RxEvent} {d : Nat × List UInt8},
      Alike k (innerStep (Rx.inner rx) d) (readTfsPktsStep cfg rx e) →
      Alike k (stepI (Rx.inner rx) d) (stepR rx e)) {as : List Arrival} :
    ∀ {k : Nat} {rx : Rx}, Kept k rx → as.map Arrival.number = List.range' k as.length →
      k + as.length < 2 ^ 32 → k + as.length ≤ s.sends.length → (∀ a ∈ as, a.limited = false) →
      Alike (k + as.length) (Lib.run stepI (Rx.inner rx) (as.map (Arrival.received s)))
        (Lib.run stepR rx (as.map (Arrival.event s))) := by
  induction as with
  | nil =>
      intro k rx h _ _ _ _
      exact .inl ⟨rx, rfl, rfl, h⟩
  | cons a as ih =>
      intro k rx h hnum hwrap hlen hlim
      rw [List.length_cons] at hnum hwrap hlen
      rw [List.map_cons, List.range'_succ, List.cons.injEq] at hnum
      rcases hs.datagram hsent (a := a) (by rw [hnum.1]; omega) with ⟨offset, payload, hoff, hd⟩
      simp only [List.map_cons]
      rcases halike (h.step (by omega) hnum.1 (hlim a (by simp)) hoff hd) with
        ⟨rx', hinner, hstep, hkept⟩ | ⟨e, hinner, hstep⟩
      · rw [run_cons_ok _ hinner, run_cons_ok _ hstep, List.length_cons,
          show k + (as.length + 1) = k + 1 + as.length by omega]
        exact ih hkept hnum.2 (by omega) (by omega) fun b hb => hlim b (List.mem_cons_of_mem _ hb)
      · exact .inr ⟨e, run_cons_error _ hinner, run_cons_error _ hstep⟩

/-- The sequence number zero is never accepted: it is not above `ack.last`. -/
theorem zero_not_accepted {cfg : Config} {s : Sender} (hs : Numbered cfg s)
    (hsent : ∀ c ∈ s.calls, c.1.sent = true) {as : List Arrival} :
    ∀ {rx rx' : Rx}, 0 ∉ rx.accepted →
      (∀ a ∈ as, a.number < s.sends.length ∧ a.limited = false) →
      Lib.run (readTfsPktsStep cfg) rx (as.map (Arrival.event s)) = .ok rx' →
      0 ∉ rx'.accepted := by
  induction as with
  | nil =>
      intro rx rx' h _ hrun
      cases hrun
      exact h
  | cons a as ih =>
      intro rx rx' h has hrun
      rw [List.map_cons] at hrun
      rcases run_cons_eq_ok.mp hrun with ⟨t, hstep, hrest⟩
      rcases has a (by simp) with ⟨hnum, hlim⟩
      rcases hs.datagram hsent hnum with ⟨offset, payload, hoff, hd⟩
      rcases ackTimer_ok cfg a.timer rx with ⟨rx₁, htimer, htimed⟩
      rw [readTfsPktsStep_received hd hoff hlim htimer] at hstep
      apply ih _ (fun b hb => has b (List.mem_cons_of_mem _ hb)) hrest
      rw [← htimed.accepted] at h
      -- A number above `ack.last` is not zero, and other datagrams are dropped.
      rcases Nat.lt_or_ge rx₁.ack.last a.seq with hnew | hold
      · rw [(acceptData_accepts hnew hstep).1]
        intro hzero
        rcases List.mem_append.mp hzero with hzero | hzero
        · exact h hzero
        · have := List.mem_singleton.mp hzero
          omega
      · rw [acceptData_old hold] at hstep
        cases hstep
        exact h

/-- The arrival that carries the sequence number zero. -/
theorem exists_zero {n : Nat} (hn : 2 ^ 32 ≤ n) {as : List Arrival}
    (horder : as.map Arrival.number = List.range n) : ∃ a ∈ as, a.seq = 0 := by
  -- Datagram number `2 ^ 32 - 1` has the sequence number `2 ^ 32`, modulo `2 ^ 32`.
  have hmem : 2 ^ 32 - 1 ∈ as.map Arrival.number := by
    rw [horder]
    exact List.mem_range.mpr (by omega)
  rcases List.mem_map.mp hmem with ⟨a, ha, hnum⟩
  have hseq : a.seq = (2 ^ 32 - 1 + 1) % 2 ^ 32 := by rw [Arrival.seq, hnum]
  exact ⟨a, ha, hseq.trans (by omega)⟩

/-- A run that reaches the wrap does not take everything. -/
theorem not_tookAll_of_wrap {cfg : Config} {s : Sender} (hs : Numbered cfg s)
    (hsent : ∀ c ∈ s.calls, c.1.sent = true) (hwrap : 2 ^ 32 ≤ s.sends.length)
    {pps : Pps} {as : List Arrival} (horder : as.map Arrival.number = List.range s.sends.length)
    (hlim : ∀ a ∈ as, a.limited = false) {rx : Rx}
    (hrun : Lib.run (readTfsPktsStep cfg) (Rx.init pps) (as.map (Arrival.event s)) = .ok rx) :
    ¬ rx.TookAll as := by
  intro h
  rcases exists_zero hwrap horder with ⟨a, ha, hzero⟩
  have has : ∀ b ∈ as, b.number < s.sends.length ∧ b.limited = false := by
    intro b hb
    have hmem := List.mem_map_of_mem (f := Arrival.number) hb
    rw [horder] at hmem
    exact ⟨List.mem_range.mp hmem, hlim b hb⟩
  apply zero_not_accepted hs hsent (by simp [Rx.init]) has hrun
  rw [h.accepted, ← hzero]
  exact List.mem_map_of_mem ha

/-- What arrives in order is what was sent: the datagrams of the frames. -/
theorem Framed.received {P : List UInt8 → Prop} {cfg : Config} (h9 : 8 < cfg.tfsmtu)
    (hmax : cfg.tfsmtu ≤ MAXBUF - HDRSPACE) {s : Sender} {ks : List (Cut UInt8)}
    (hf : Framed P cfg s ks) (hsent : ∀ c ∈ s.calls, c.1.sent = true) {as : List Arrival}
    (horder : as.map Arrival.number = List.range s.sends.length) :
    List.Forall₂ (fun k x => Datagram x.2 k.frame ∧ Sound P 7 k.frame ∧
      k.frame.payload.length = cfg.tfsmtu - 8) ks (as.map (Arrival.received s)) ∧
      ∀ k ∈ ks, k.left = true := by
  have hmax' : cfg.tfsmtu ≤ MAXBUF := Nat.le_trans hmax (Nat.sub_le _ _)
  have hlen : as.length = s.sends.length := by
    have h := congrArg List.length horder
    rwa [List.length_map, List.length_range] at h
  have hks : ks.length = as.length := by rw [hlen, hf.length]
  have hall : ∀ i (h1 : i < ks.length) (h2 : i < as.length), ks[i].left = true ∧
      Datagram (as[i].received s).2 ks[i].frame ∧ Sound P 7 ks[i].frame ∧
      ks[i].frame.payload.length = cfg.tfsmtu - 8 := by
    intro i h1 h2
    -- The arrivals are in order, so the `i`th of them is datagram number `i`.
    have hnum : as[i].number = i := by
      have h := congrArg (fun l => l[i]?) horder
      simp only [List.getElem?_map, List.getElem?_eq_getElem h2, Option.map_some,
        List.getElem?_range (show i < s.sends.length by omega), Option.some.injEq] at h
      exact h
    have hi : i < s.sends.length := by omega
    have hc : s.sends[i]? = some s.sends[i] := List.getElem?_eq_getElem hi
    have hs := hf.sends i _ _ hc (List.getElem?_eq_getElem h1)
    have hcall : s.sends[i].1.sent = true := hsent _ (List.mem_filter.mp (List.getElem_mem hi)).1
    -- It is not longer than a buffer, so all of it is read.
    have hbytes : (as[i].received s).2 =
        wtfsHdr ((i + 1) % 2 ^ 32) ks[i].frame.owes ++ ks[i].frame.payload := by
      rw [Arrival.received, hnum, Sender.datagram, hc, Option.bind_some, if_pos hcall, hs.datagram,
        Option.getD_some, recvBytes, List.take_of_length_le]
      rw [List.length_append, length_wtfsHdr, hs.length]
      omega
    refine ⟨hs.left.trans hcall, ?_, hs.sound, hs.length⟩
    rw [hbytes]
    exact datagram_frame h9 hmax' _ hs.owes hs.length
  constructor
  · rw [List.forall₂_map_right_iff, List.forall₂_iff_get]
    exact ⟨hks, fun i h1 h2 => (hall i h1 h2).2⟩
  · intro k hk
    rcases List.getElem_of_mem hk with ⟨i, hi, rfl⟩
    exact (hall i hi (by omega)).1

/-- What the reassembler survives, one datagram after the other: each must be safe for the packet
in progress that those before it leave, and find room. -/
theorem innerRun_ok_iff (cfg : Config) {xs : List (Nat × List UInt8)}
    (hlen : ∀ x ∈ xs, x.2.length < 2 ^ 16 + 8) :
    (∃ i, run (confinedInner cfg) Inner.init xs = .ok i) ↔
      Along (confinedInner cfg) (fun i x => SafeData i.m x.2 ∧ Room cfg i.m) Inner.init xs := by
  have hok : ∀ (i : Inner) (x : Nat × List UInt8), SoundInner cfg i → x.2.length < 2 ^ 16 + 8 →
      ((∃ j, confinedInner cfg i x = .ok j) ↔ SafeData i.m x.2 ∧ Room cfg i.m) := by
    intro i x hi hx
    rw [← add_ok_iff x.1 hi.tidy hx]
    simp only [hi.step_iff, innerStep_eq_ok]
    constructor
    · rintro ⟨j, ⟨a, ha, -⟩, hroom⟩
      exact ⟨⟨a, ha⟩, hroom⟩
    · rintro ⟨⟨a, ha⟩, hroom⟩
      exact ⟨_, ⟨a, ha, rfl⟩, hroom⟩
  have hkeep : ∀ (i : Inner) (x : Nat × List UInt8) (j : Inner), SoundInner cfg i →
      confinedInner cfg i x = .ok j → SoundInner cfg j := by
    intro i x j hi hj
    obtain ⟨hst, hroom⟩ := (hi.step_iff x).mp hj
    exact hi.step hroom hst
  exact run_ok_iff_along hok hkeep (soundInner_init cfg) hlen

/-- When a lossless run in order takes everything: exactly when it has fewer than `2 ^ 32`
datagrams, and each of them is safe for the packet in progress and finds room. -/
theorem tookAll_iff (cfg : Config) (h9 : 8 < cfg.tfsmtu) (hmax : cfg.tfsmtu ≤ MAXBUF)
    (calls : List WriteCall) (hsent : ∀ call ∈ calls, call.sent = true) (s : Sender)
    (hrun : run (writeTfsPktsStep cfg) Sender.init calls = .ok s) (pps : Pps) (as : List Arrival)
    (horder : as.map Arrival.number = List.range s.sends.length)
    (hlim : ∀ a ∈ as, a.limited = false) :
    (∃ rx, run (confinedStep cfg) (Rx.init pps) (as.map (Arrival.event s)) = .ok rx ∧
        rx.TookAll as) ↔
      s.sends.length < 2 ^ 32 ∧
        Along (confinedInner cfg) (fun i x => SafeData i.m x.2 ∧ Room cfg i.m) Inner.init
          (as.map (Arrival.received s)) := by
  have hreceived : ∀ x ∈ as.map (Arrival.received s), x.2.length < 2 ^ 16 + 8 := by
    intro x hx
    rcases List.mem_map.mp hx with ⟨a, -, rfl⟩
    exact length_recvBytes _
  rw [← innerRun_ok_iff cfg hreceived]
  have hs := numbered_of_run h9 hmax hrun
  have hsent' := sent_of_run hsent hrun
  have hlen : as.length = s.sends.length := by
    have h := congrArg List.length horder
    rwa [List.length_map, List.length_range] at h
  -- Below the wrap the receiver and the reassembler go together, to the end or to the same
  -- error.
  have hfollows : s.sends.length < 2 ^ 32 →
      Alike (0 + as.length) (run (confinedInner cfg) Inner.init (as.map (Arrival.received s)))
        (run (confinedStep cfg) (Rx.init pps) (as.map (Arrival.event s))) := fun hlt =>
    Kept.run hs hsent' (fun h => h.bounded.pooled) (kept_init pps)
      (by rw [horder, hlen, List.range_eq_range']) (by omega) (by omega) hlim
  constructor
  · rintro ⟨rx, hrx, hall⟩
    have hlt : s.sends.length < 2 ^ 32 := by
      apply Nat.not_le.mp
      intro hwrap
      exact not_tookAll_of_wrap hs hsent' hwrap horder hlim (run_of_confined hrx) hall
    refine ⟨hlt, ?_⟩
    rcases hfollows hlt with ⟨rx', hinner, -, -⟩ | ⟨e, -, herr⟩
    · exact ⟨_, hinner⟩
    · rw [hrx] at herr
      cases herr
  · rintro ⟨hlt, i, hi⟩
    rcases hfollows hlt with ⟨rx', -, hrx, hkept⟩ | ⟨e, herr, -⟩
    · refine ⟨rx', hrx, ?_, hkept.ndrop, hkept.reports⟩
      rw [hkept.accepted, Nat.zero_add, hlen, ← horder, List.map_map]
      rfl
    · rw [hi] at herr
      cases herr

/-- A packet over two datagrams, with the ACK timer in between. -/
theorem tookAll_two : ∃ s rx, run (writeTfsPktsStep ⟨40, false, false⟩) Sender.init
      [⟨[some ⟨0, ipv4Packet 40, 0⟩], true⟩, ⟨[], true⟩] = .ok s ∧
    run (confinedStep ⟨40, false, false⟩) (Rx.init ⟨1, 1, 1⟩)
      ([⟨none, 0, 0, false⟩, ⟨some ⟨0, 0⟩, 0, 1, false⟩].map (Arrival.event s)) = .ok rx ∧
    rx.TookAll [⟨none, 0, 0, false⟩, ⟨some ⟨0, 0⟩, 0, 1, false⟩] := by
  have hs : ∃ s, run (writeTfsPktsStep ⟨40, false, false⟩) Sender.init
      [⟨[some ⟨0, ipv4Packet 40, 0⟩], true⟩, ⟨[], true⟩] = .ok s ∧ s.sends.length = 2 ∧
      Along (confinedInner ⟨40, false, false⟩)
        (fun i x => SafeData i.m x.2 ∧ Room ⟨40, false, false⟩ i.m) Inner.init
        ([⟨none, 0, 0, false⟩, ⟨some ⟨0, 0⟩, 0, 1, false⟩].map (Arrival.received s)) := by
    refine ⟨_, rfl, by decide, (innerRun_ok_iff _ ?_).mp ⟨_, rfl⟩⟩
    decide
  rcases hs with ⟨s, hrun, hlen, htakes⟩
  rcases (tookAll_iff ⟨40, false, false⟩ (by decide) (by decide) _ (by decide) s hrun ⟨1, 1, 1⟩
    [⟨none, 0, 0, false⟩, ⟨some ⟨0, 0⟩, 0, 1, false⟩] (by rw [hlen]; rfl) (by decide)).mpr
    ⟨by rw [hlen]; decide, htakes⟩ with ⟨rx, hrx, hall⟩
  exact ⟨s, rx, hrun, hrx, hall⟩

/-- All datagrams of a sender, each once and in order, without a limiter and without ACKs. -/
def allInOrder (s : Sender) : List Arrival :=
  (List.range s.sends.length).map fun i => ⟨none, 0, i, false⟩

/-- Each datagram of the sender comes once, in the order in which they were sent. -/
theorem number_allInOrder (s : Sender) :
    (allInOrder s).map Arrival.number = List.range s.sends.length := by
  rw [allInOrder, List.map_map]
  exact List.map_id _

/-- The limiter rejects none of them. -/
theorem limited_allInOrder {s : Sender} {a : Arrival} (ha : a ∈ allInOrder s) :
    a.limited = false := by
  rcases List.mem_map.mp ha with ⟨i, -, rfl⟩
  rfl

/-- The ACK timer is checked before none of them. -/
theorem timer_allInOrder {s : Sender} {a : Arrival} (ha : a ∈ allInOrder s) : a.timer = none := by
  rcases List.mem_map.mp ha with ⟨i, -, rfl⟩
  rfl

/-- `2 ^ 32` empty datagrams: the last of them is not accepted. -/
theorem not_tookAll : ¬ ∀ (cfg : Config), 8 < cfg.tfsmtu → cfg.tfsmtu ≤ MAXBUF →
    ∀ (calls : List WriteCall), (∀ call ∈ calls, call.sent = true) → ∀ s : Sender,
    run (writeTfsPktsStep cfg) Sender.init calls = .ok s → ∀ (pps : Pps) (as : List Arrival),
    as.map Arrival.number = List.range s.sends.length → (∀ a ∈ as, a.limited = false) →
    ∃ rx, run (confinedStep cfg) (Rx.init pps) (as.map (Arrival.event s)) = .ok rx ∧
      rx.TookAll as := by
  intro h
  have hsent : ∀ call ∈ List.replicate (2 ^ 32) (⟨[], true⟩ : WriteCall), call.sent = true := by
    intro call hcall
    rw [List.eq_of_mem_replicate hcall]
  -- No step of this run is evaluated: what is needed of it is that it ends, and its length.
  rcases @exists_numbered_run ⟨1500, false, false⟩ (by decide) (by decide)
    (List.replicate (2 ^ 32) ⟨[], true⟩) with ⟨s, hrun, hs⟩
  have hlen := sends_of_run (by decide) (by decide) rfl hrun
  rw [List.length_replicate] at hlen
  rcases h ⟨1500, false, false⟩ (by decide) (by decide) _ hsent s hrun ⟨1, 1, 1⟩ (allInOrder s)
    (number_allInOrder s) (fun a ha => limited_allInOrder ha) with ⟨rx, hrx, hall⟩
  exact not_tookAll_of_wrap hs (sent_of_run hsent hrun) (Nat.le_of_eq hlen.symm)
    (number_allInOrder s) (fun a ha => limited_allInOrder ha) (run_of_confined hrx) hall

end Proofs

end Iptfs
