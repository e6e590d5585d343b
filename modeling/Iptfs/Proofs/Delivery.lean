import Iptfs.Proofs.Entries
import Iptfs.Proofs.Receiver
import Mathlib.Data.List.Forall2

/-!
# `Iptfs.Proofs.Delivery`: what comes out of the tunnel

The sender's datagrams are frames (`Framed`), and `add_to_inner_packet` follows the
channel of the frames (`add_frame`). `Follows` is the invariant that ties the receiver to
the channel: `idx` are the numbers accepted so far, the packets pushed are those that the
channel delivered, and the packet in progress is the block that the channel holds, with an
entry for each frame aboard. `Follows.step_old` and `Follows.step_new` are the step lemmas. A
datagram taken for a new one needs `InStep` where the record is looked at.

* `follows_records`: between ACKs the record does its work, and the datagrams accepted are the
  records. What the receiver then delivers is the matter of `Iptfs.Proofs.Mbufs`.
* `delivered_sublist`: with ACKs, a run all of whose arrivals are `InStep` and `Roomy` delivers
  packets of the sender only, each at most once and in order. `delivered_twice` is a run that
  is not: an ACK clears `ack.last`, and a datagram that comes again is taken for a new one.
-/

set_option autoImplicit false

namespace Iptfs.Proofs

open Iptfs.Lib Iptfs.Lib.Framing

/-! ### The datagrams of the sender -/

/-- The bytes of a datagram of the sender are those of its frame. -/
theorem datagram_frame {cfg : Config} (h9 : 8 < cfg.tfsmtu) (hmax : cfg.tfsmtu ≤ MAXBUF)
    {f : Frame UInt8} (seq : Nat) (howes : f.owes < 2 ^ 16)
    (hlen : f.payload.length = cfg.tfsmtu - 8) :
    Datagram (wtfsHdr seq f.owes ++ f.payload) f where
  split := ⟨_, length_wtfsHdr _ _, rfl⟩
  offset := get16_wtfsHdr_offset _ howes
  ne := by
    intro h0
    rw [h0] at hlen
    simp at hlen
    omega
  lt := by
    rw [hlen]
    simp only [MAXBUF] at hmax
    omega

/-- Where every send succeeds, the datagrams are those of the frames, one after the other. -/
theorem Framed.emitted {P : List UInt8 → Prop} {cfg : Config} (h9 : 8 < cfg.tfsmtu)
    (hmax : cfg.tfsmtu ≤ MAXBUF) {s : Sender} {ks : List (Cut UInt8)} (h : Framed P cfg s ks)
    (hsent : ∀ c ∈ s.calls, c.1.sent = true) :
    List.Forall₂ (fun k d => k.left = true ∧ Datagram d k.frame ∧ Sound P 7 k.frame)
      ks s.emitted := by
  rw [List.forall₂_iff_get]
  refine ⟨by rw [Sender.emitted, List.length_map, h.length], fun i h1 h2 => ?_⟩
  have hi : i < s.sends.length := by rwa [Sender.emitted, List.length_map] at h2
  have hs := h.sends i _ _ (List.getElem?_eq_getElem hi) (List.getElem?_eq_getElem h1)
  have hleft : s.sends[i].1.sent = true := hsent _ (List.mem_filter.mp (List.getElem_mem hi)).1
  have hdat : s.emitted.get ⟨i, h2⟩ =
      wtfsHdr ((i + 1) % 2 ^ 32) ks[i].frame.owes ++ ks[i].frame.payload := by
    simp only [Sender.emitted, List.get_eq_getElem, List.getElem_map, hs.datagram,
      Option.getD_some]
  refine ⟨hs.left.trans hleft, ?_, hs.sound⟩
  rw [hdat]
  exact datagram_frame h9 hmax _ hs.owes hs.length

/-- The calls of a run without failed sends. -/
theorem sent_of_run {cfg : Config} {calls : List WriteCall}
    (hsent : ∀ call ∈ calls, call.sent = true) {s : Sender}
    (hrun : run (writeTfsPktsStep cfg) Sender.init calls = .ok s) :
    ∀ c ∈ s.calls, c.1.sent = true := by
  intro c hc
  have hmem := List.mem_map_of_mem (f := Prod.fst) hc
  rw [calls_of_run hrun] at hmem
  exact hsent _ hmem

/-- A datagram that left is that of a cut that left. -/
theorem Framed.arrival {P : List UInt8 → Prop} {cfg : Config} {s : Sender}
    {ks : List (Cut UInt8)} (h : Framed P cfg s ks) {n : Nat} (hn : (s.datagram n).isSome) :
    ∃ k, ks[n]? = some k ∧ k.left = true ∧ Sound P 7 k.frame ∧ k.frame.owes < 2 ^ 16 ∧
      k.frame.payload.length = cfg.tfsmtu - 8 ∧
      s.datagram n = some (wtfsHdr ((n + 1) % 2 ^ 32) k.frame.owes ++ k.frame.payload) := by
  obtain ⟨d, hd⟩ := Option.isSome_iff_exists.mp hn
  rw [Sender.datagram, Option.bind_eq_some_iff] at hd
  obtain ⟨c, hc, hsent⟩ := hd
  have hlt : n < ks.length := by
    rw [← h.length]
    exact (List.getElem?_eq_some_iff.mp hc).1
  have hk : ks[n]? = some ks[n] := List.getElem?_eq_getElem hlt
  have hs := h.sends n c _ hc hk
  -- A `sendmsg` that fails leaves no datagram.
  have hleft : c.1.sent = true := by
    by_contra hno
    simp [hno] at hsent
  refine ⟨_, hk, by rw [hs.left, hleft], hs.sound, hs.owes, hs.length, ?_⟩
  rw [Sender.datagram, hc, Option.bind_some, if_pos hleft, hs.datagram]

/-- The pass with a datagram that the sender built, and its frame. -/
theorem Framed.pass {P : List UInt8 → Prop} {cfg : Config} {s : Sender} {ks : List (Cut UInt8)}
    (h : Framed P cfg s ks) (h9 : 8 < cfg.tfsmtu) (hmax : cfg.tfsmtu ≤ MAXBUF - HDRSPACE)
    {a : Arrival} (rx : Rx) (hsent : (s.datagram a.number).isSome) :
    ∃ k data rx', ks[a.number]? = some k ∧ k.left = true ∧ Sound P 7 k.frame ∧
      Datagram data k.frame ∧ k.frame.payload.length = cfg.tfsmtu - 8 ∧
      s.datagram a.number = some data ∧ AckTimed cfg a.timer rx rx' ∧
      readTfsPktsStep cfg rx (a.event s) =
        if a.limited then .ok rx'.drop else acceptData (Tbuf.fresh a.id data) a.seq rx' := by
  obtain ⟨k, hk, hleft, hsound, howes, hlen, hd⟩ := h.arrival hsent
  have hmax' : cfg.tfsmtu ≤ MAXBUF := Nat.le_trans hmax (Nat.sub_le _ _)
  obtain ⟨rx', htimer, htimed⟩ := ackTimer_ok cfg a.timer rx
  exact ⟨k, _, rx', hk, hleft, hsound, datagram_frame h9 hmax' a.seq howes hlen, hlen, hd, htimed,
    readTfsPktsStep_arrival hd howes (by omega) htimer⟩

/-! ### The receiver follows the channel -/

/-- The frames that arrive are those with a number in `idx`. -/
def accepts (idx : List Nat) (i : Nat) : Bool := decide (i ∈ idx)

/-- The invariant of the receiver. `idx` are the numbers of the datagrams accepted. -/
structure Follows (ks : List (Cut UInt8)) (t : Track) (idx : List Nat) : Prop where
  next_le : t.next ≤ ks.length
  next : ∀ n, t.next ≤ n ↔ ∀ i ∈ idx, i < n
  last : t.rx.ack.last = 0 ∨ t.rx.ack.last = t.next % 2 ^ 32
  left : ∀ i ∈ idx, ∀ k, ks[i]? = some k → k.left = true
  out : t.rx.outq.map Miov.bytes = (channel (accepts idx) (ks.take t.next)).out
  held : Holds t.rx.m (channel (accepts idx) (ks.take t.next)).held
  aboard : entries t.rx.m = (ledger (ks.take t.next)).aboard (accepts idx)

/-- The receiver before the first datagram, and the peer before its first. -/
theorem follows_init (ks : List (Cut UInt8)) (pps : Pps) : Follows ks ⟨Rx.init pps, 0⟩ [] where
  next_le := Nat.zero_le _
  next := by simp
  last := .inl rfl
  left := by simp
  out := by simp [Rx.init, Chan.init]
  held := by simp [Rx.init, Chan.init, Holds]
  aboard := by simp [Rx.init, ledger, Ledger.init, Ledger.aboard]

/-- The numbers from `next` on were not accepted. -/
theorem Follows.not_mem {ks : List (Cut UInt8)} {t : Track} {idx : List Nat}
    (h : Follows ks t idx) {i : Nat} (hi : t.next ≤ i) : accepts idx i = false := by
  have hlt := (h.next i).mp hi
  simp only [accepts, decide_eq_false_iff_not]
  exact fun hmem => Nat.lt_irrefl i (hlt i hmem)

/-- What the receiver holds and has delivered when datagram number `n` comes: the frames
from `next` to `n` are lost. -/
theorem Follows.skip {ks : List (Cut UInt8)} {t : Track} {idx : List Nat} (h : Follows ks t idx)
    {n : Nat} (hn : t.next ≤ n) (hlen : n ≤ ks.length) :
    (channel (accepts idx) (ks.take n)).out = t.rx.outq.map Miov.bytes ∧
      (t.next < n → (channel (accepts idx) (ks.take n)).held = none ∧
        (ledger (ks.take n)).aboard (accepts idx) = 0) := by
  have hsplit : ks.take n = ks.take t.next ++ (ks.drop t.next).take (n - t.next) := by
    rw [← List.take_add, Nat.add_sub_cancel' hn]
  -- The receiver has accepted nothing from `next` on, so these frames are lost.
  have hlost : ∀ i, (ks.take t.next).length ≤ i →
      i < (ks.take t.next).length + ((ks.drop t.next).take (n - t.next)).length →
      accepts idx i = false := by
    intro i hi _
    rw [List.length_take, Nat.min_eq_left h.next_le] at hi
    exact h.not_mem hi
  constructor
  · rw [hsplit, channel_out_skip hlost, h.out]
  · intro hlt
    have hne : (ks.drop t.next).take (n - t.next) ≠ [] := by
      intro h0
      have hzero := congrArg List.length h0
      simp only [List.length_take, List.length_drop, List.length_nil] at hzero
      omega
    rw [hsplit]
    exact ⟨channel_held_lost hne hlost, aboard_lost hne hlost⟩

/-- The record is as it was, or cleared. -/
theorem seenLast_eq (cfg : Config) (a : Arrival) (ack : Ackinfo) :
    a.seenLast cfg ack = 0 ∨ a.seenLast cfg ack = ack.last := by
  rw [Arrival.seenLast, ackAfter]
  split
  · exact .inl rfl
  · exact .inr rfl

/-- The next sequence number after the last accepted one shows no gap. -/
theorem Follows.not_gap {ks : List (Cut UInt8)} {t : Track} {idx : List Nat}
    (h : Follows ks t idx) {a : Arrival} {ack : Ackinfo}
    (hlast : ack.last = 0 ∨ ack.last = t.rx.ack.last) (hnext : a.number = t.next) :
    ¬ ack.gap a.seq := by
  rintro ⟨hseq, h0⟩
  have hl := h.last
  simp only [Arrival.seq, hnext] at hseq
  omega

/-- The packet in progress when datagram number `n` is handed to `add_to_inner_packet`, and its
entries. -/
theorem Follows.keep {ks : List (Cut UInt8)} {t : Track} {idx : List Nat} (h : Follows ks t idx)
    {cfg : Config} {a : Arrival} {ack : Ackinfo} (hlen : a.number ≤ ks.length)
    (hlast : ack.last = a.seenLast cfg t.rx.ack) (hstep : InStep cfg t a)
    (hnew : a.isNew cfg t.rx.ack) :
    t.next ≤ a.number ∧
      Holds (ack.keep a.seq t.rx.m) (channel (accepts idx) (ks.take a.number)).held ∧
      entries (ack.keep a.seq t.rx.m) =
        (ledger (ks.take a.number)).aboard (accepts idx) := by
  have hseen : ack.last = 0 ∨ ack.last = t.rx.ack.last := by
    rw [hlast]
    exact seenLast_eq cfg a t.rx.ack
  obtain ⟨hle, hcase⟩ := hstep hnew
  refine ⟨hle, ?_⟩
  rcases Nat.eq_or_lt_of_le hle with heq | hlt
  · -- The very next datagram: the packet in progress stays.
    rw [keep_of_not_gap (h.not_gap hseen heq.symm), ← heq]
    exact ⟨h.held, h.aboard⟩
  · -- Datagrams are missing: nothing may be in progress.
    obtain ⟨hnone, hzero⟩ := (h.skip hle hlen).2 hlt
    have hidle : Holds (ack.keep a.seq t.rx.m) none := by
      rcases hcase with heq | hgap | hidle
      · omega
      · exact keep_gap (by rw [Ackinfo.gap, hlast]; exact hgap)
      · by_cases hgap : ack.gap a.seq
        · exact keep_gap hgap
        · rw [keep_of_not_gap hgap]
          exact hidle
    rw [hnone, hzero]
    exact ⟨hidle, hidle.entries_none⟩

/-- A datagram that is not taken for a new one changes nothing that the invariant is about. -/
theorem Follows.step_old {cfg : Config} {s : Sender} {ks : List (Cut UInt8)} {t : Track}
    {idx : List Nat} (hf : Framed Ipv4 cfg s ks) (h : Follows ks t idx) (h9 : 8 < cfg.tfsmtu)
    (hmax : cfg.tfsmtu ≤ MAXBUF - HDRSPACE) {a : Arrival} (hsent : (s.datagram a.number).isSome)
    (hold : ¬ a.isNew cfg t.rx.ack) :
    ∃ rx, trackStep (readTfsPktsStep cfg) s t a = .ok ⟨rx, t.next⟩ ∧
      rx.ack.last = a.seenLast cfg t.rx.ack ∧ Follows ks ⟨rx, t.next⟩ idx ∧ rx.m = t.rx.m ∧
      rx.outq = t.rx.outq := by
  obtain ⟨k, data, rx, hk, hleft, hsound, hd, -, -, htimed, hpass⟩ := hf.pass h9 hmax t.rx hsent
  have hseen := seenLast_eq cfg a t.rx.ack
  -- The pass touches the ACK record only, so everything but the last number seen carries over.
  have hfollows : ∀ ack, ack.last = a.seenLast cfg t.rx.ack →
      Follows ks ⟨{ rx with ack := ack }, t.next⟩ idx := by
    intro ack hack
    refine ⟨h.next_le, h.next, ?_, h.left, ?_, ?_, ?_⟩
    · show ack.last = 0 ∨ ack.last = t.next % 2 ^ 32
      rw [hack]
      rcases hseen with h0 | hl
      · exact .inl h0
      · rw [hl]
        exact h.last
    · show rx.outq.map Miov.bytes = _
      rw [htimed.outq]
      exact h.out
    · show Holds rx.m _
      rw [htimed.m]
      exact h.held
    · show entries rx.m = _
      rw [htimed.m]
      exact h.aboard
  have hlast : rx.ack.last = a.seenLast cfg t.rx.ack := htimed.last
  -- Either the limiter drops the datagram, or its number is not above the last one.
  cases hlim : a.limited with
  | true =>
      rw [hlim, if_pos rfl] at hpass
      refine ⟨rx.drop, ?_, hlast, hfollows _ hlast, htimed.m, htimed.outq⟩
      simp [trackStep, hpass, Rx.drop, htimed.accepted]
  | false =>
      have hle : a.seq ≤ rx.ack.last := by
        rw [hlast]
        exact Nat.not_lt.mp fun hlt => hold ⟨hlim, hlt⟩
      rw [hlim, if_neg (by simp), acceptData_old hle] at hpass
      refine ⟨{ rx with ack := rx.ack.begin a.seq }, ?_, hlast, hfollows _ hlast, htimed.m,
        htimed.outq⟩
      simp [trackStep, hpass, htimed.accepted]

/-- The channel with one more frame that arrives. -/
theorem channel_accept {ks : List (Cut UInt8)} {k : Cut UInt8} {n : Nat} (idx : List Nat)
    (hk : ks[n]? = some k) :
    channel (accepts (idx ++ [n])) (ks.take (n + 1)) =
      ⟨n + 1, (k.frame.receive (channel (accepts idx) (ks.take n)).held).1,
        (channel (accepts idx) (ks.take n)).out
          ++ (k.frame.receive (channel (accepts idx) (ks.take n)).held).2⟩ := by
  have hn : n < ks.length := (List.getElem?_eq_some_iff.mp hk).1
  have hprev : channel (accepts (idx ++ [n])) (ks.take n) =
      channel (accepts idx) (ks.take n) := by
    apply channel_congr
    intro i hi
    rw [List.length_take] at hi
    have hne : i ≠ n := by omega
    simp [accepts, hne]
  have htake : ks.take (n + 1) = ks.take n ++ [k] := by
    rw [List.take_add_one, hk]
    rfl
  have hnum : (channel (accepts idx) (ks.take n)).num = n := by
    rw [channel_num, List.length_take, Nat.min_eq_left (Nat.le_of_lt hn)]
  rw [htake, channel_concat, hprev, Chan.pass, hnum, if_pos (by simp [accepts])]

/-- The frames aboard with one more frame that arrives. -/
theorem aboard_accept {ks ls : List (Cut UInt8)} {k : Cut UInt8} {n : Nat} (idx : List Nat)
    (hk : ks[n]? = some k) (hchain : Chained none (ks.take n ++ k :: ls)) (hleft : k.left = true)
    (hacc : ∀ i l, (ks.take n)[i]? = some l → accepts idx i = true → l.left = true) :
    (ledger (ks.take (n + 1))).aboard (accepts (idx ++ [n])) =
      k.frame.load (channel (accepts idx) (ks.take n)).held
        ((ledger (ks.take n)).aboard (accepts idx)) := by
  have hn : n < ks.length := (List.getElem?_eq_some_iff.mp hk).1
  have hlen : (ks.take n).length = n := by
    rw [List.length_take, Nat.min_eq_left (Nat.le_of_lt hn)]
  obtain ⟨hks, hbefore⟩ := chained_append.mp hchain
  have hsame : ∀ i < (ks.take n).length, accepts (idx ++ [n]) i = accepts idx i := by
    intro i hi
    have hne : i ≠ n := by omega
    simp [accepts, hne]
  have htied : Tied (accepts (idx ++ [n])) (ks.take n) :=
    tied_of_chained hks fun i l hl hi => by
      have hlt := (List.getElem?_eq_some_iff.mp hl).1
      exact hacc i l hl ((hsame i hlt).symm.trans hi)
  have htake : ks.take (n + 1) = ks.take n ++ [k] := by
    rw [List.take_add_one, hk]
    rfl
  rw [htake, aboard_concat htied hbefore.1 fun _ => hleft, hlen, if_pos (by simp [accepts]),
    channel_congr hsame, aboard_congr hsame]

/-- What a pass does with a datagram that it takes for a new one: the call of
`add_to_inner_packet`, which follows the frame `k`, and what becomes of its result. -/
structure Taken (cfg : Config) (s : Sender) (ks : List (Cut UInt8)) (t : Track) (a : Arrival)
    (rx : Rx) (k : Cut UInt8) (added : Added) : Prop where
  cut : ks[a.number]? = some k
  sound : Sound Ipv4 7 k.frame
  call : ∃ data, s.datagram a.number = some data ∧ addToInnerPacket data.length
    (Tbuf.fresh a.id data) true ((ackAfter cfg a.timer t.rx.ack).keep a.seq t.rx.m) = .ok added
  m : rx.m = added.m
  outq : rx.outq = t.rx.outq ++ added.outq
  pushed : ∃ held, Holds added.m (k.frame.receive held).1 ∧
    added.outq.map Miov.bytes = (k.frame.receive held).2

/-- A datagram that is taken for a new one is one more frame of the channel. -/
theorem Follows.step_new {cfg : Config} {s : Sender} {ks : List (Cut UInt8)} {t : Track}
    {idx : List Nat} (hf : Framed Ipv4 cfg s ks) (h : Follows ks t idx) (h9 : 8 < cfg.tfsmtu)
    (hmax : cfg.tfsmtu ≤ MAXBUF - HDRSPACE) {a : Arrival} (hsent : (s.datagram a.number).isSome)
    (hstep : InStep cfg t a) (hnew : a.isNew cfg t.rx.ack) :
    ∃ rx, trackStep (readTfsPktsStep cfg) s t a = .ok ⟨rx, a.number + 1⟩ ∧ rx.ack.last = a.seq ∧
      t.next ≤ a.number ∧ Follows ks ⟨rx, a.number + 1⟩ (idx ++ [a.number]) ∧
      ∃ k added, Taken cfg s ks t a rx k added := by
  obtain ⟨k, data, rx, hk, hleft, hsound, hd, -, hbytes, htimed, hpass⟩ :=
    hf.pass h9 hmax t.rx hsent
  have hlast : rx.ack.last = a.seenLast cfg t.rx.ack := htimed.last
  have hn : a.number < ks.length := (List.getElem?_eq_some_iff.mp hk).1
  obtain ⟨hle, hholds, hcount⟩ := h.keep (Nat.le_of_lt hn) hlast hstep hnew
  -- Split the frames at the one that arrives: what the channel has before it, the frame, and the
  -- rest.
  have hchain : Chained none (ks.take a.number ++ k :: ks.drop (a.number + 1)) := by
    have hdrop := List.drop_eq_getElem_cons hn
    rw [(List.getElem?_eq_some_iff.mp hk).2] at hdrop
    rw [← hdrop, List.take_append_drop]
    exact hf.chained
  have hacc : ∀ i l, (ks.take a.number)[i]? = some l → accepts idx i = true → l.left = true := by
    intro i l hl hacc
    rw [List.getElem?_take] at hl
    split at hl
    · exact h.left i (by simpa [accepts] using hacc) l hl
    · cases hl
  have hbefore := channel_held (accepts idx) hchain hacc
  have hsound4 : Sound Ipv4 4 k.frame := hsound.mono (fun _ _ h => h) (by decide)
  -- What the receiver holds is what the channel has under way, so the pass takes the frame as the
  -- channel does, in bytes and in entries.
  obtain ⟨added, hadd, hholds', hout⟩ := add_frame a.id hd hsound4 hholds hbefore
  have hload := entries_frame hd hsound4 hholds hbefore hadd
  rw [hnew.1, if_neg (by simp), acceptData_new (s := rx) (by rw [hlast]; exact hnew.2)
    (by rw [htimed.m]; exact hadd)] at hpass
  refine ⟨{ rx with
    ack := (rx.ack.begin a.seq).advance a.seq
    m := added.m
    outq := rx.outq ++ added.outq
    accepted := rx.accepted ++ [a.seq] }, ?_, rfl, hle, ?_, k, added, ?_⟩
  · simp only [trackStep, hpass]
    simp [htimed.accepted, Nat.max_eq_right (Nat.le_succ_of_le hle)]
  · refine ⟨hn, ?_, .inr ?_, ?_, ?_, ?_, ?_⟩
    · intro n
      -- The next expected number is one past the largest accepted, now that this one is accepted.
      simp only [List.mem_append, List.mem_singleton]
      constructor
      · rintro hlt i (hi | rfl)
        · exact (h.next n).mp (by omega) i hi
        · exact hlt
      · exact fun hall => hall a.number (.inr rfl)
    · rfl
    · intro i hi l hl
      rcases List.mem_append.mp hi with hi | hi
      · exact h.left i hi l hl
      · rw [List.mem_singleton.mp hi, hk] at hl
        cases hl
        exact hleft
    · rw [channel_accept idx hk]
      simp only [List.map_append, hout, htimed.outq]
      rw [(h.skip hle (Nat.le_of_lt hn)).1]
    · rw [channel_accept idx hk]
      exact hholds'
    · rw [aboard_accept idx hk hchain hleft hacc]
      exact hcount ▸ hload
  · rw [htimed.ack] at hadd
    refine ⟨hk, hsound, ⟨data, hbytes, hadd⟩, rfl, ?_, _, hholds', hout⟩
    show rx.outq ++ added.outq = _
    rw [htimed.outq]

/-- What has come out in the end: the packets all of whose datagrams were accepted. -/
theorem Follows.delivered {cfg : Config} {s : Sender} {ks : List (Cut UInt8)} {t : Track}
    {idx : List Nat} (hf : Framed Ipv4 cfg s ks) (h : Follows ks t idx) :
    t.rx.outq.map Miov.bytes = arrivals (accepts idx) s.ledger.shipments := by
  have hall := (h.skip h.next_le (Nat.le_refl _)).1
  rw [List.take_length] at hall
  rw [← hall, hf.ledger]
  exact channel_out hf.chained fun i k hk hacc => h.left i (by simpa [accepts] using hacc) k hk

/-! ### Runs -/

/-- A pass with the tracker is a pass of the receiver. -/
theorem trackStep_eq_ok {ε : Type} {step : Rx → RxEvent → Except ε Rx} {s : Sender} {t u : Track}
    {a : Arrival} : trackStep step s t a = .ok u ↔ step t.rx (a.event s) = .ok u.rx ∧
      u.next = if t.rx.accepted.length < u.rx.accepted.length then max t.next (a.number + 1)
        else t.next := by
  obtain ⟨rx, next⟩ := u
  rw [trackStep]
  cases step t.rx (a.event s) with
  | error e => simp
  | ok rx' =>
      simp only [Except.ok.injEq, Track.mk.injEq]
      constructor
      · rintro ⟨rfl, h⟩
        exact ⟨rfl, h.symm⟩
      · rintro ⟨rfl, h⟩
        exact ⟨rfl, h.symm⟩

/-- A run with the tracker is a run of the receiver. -/
theorem run_of_track {ε : Type} {step : Rx → RxEvent → Except ε Rx} {s : Sender}
    {as : List Arrival} :
    ∀ {t u : Track}, run (trackStep step s) t as = .ok u →
      run step t.rx (as.map (Arrival.event s)) = .ok u.rx := by
  induction as with
  | nil =>
      intro t u h
      cases h
      rfl
  | cons a as ih =>
      intro t u h
      obtain ⟨v, hv, hu⟩ := run_cons_eq_ok.mp h
      rw [List.map_cons, run_cons_ok _ (trackStep_eq_ok.mp hv).1]
      exact ih hu

/-- A pass with the pool and the arrays is one without them that finds an mbuf, and after which
every packet fits its arrays. -/
theorem trackStep_confined {cfg : Config} {s : Sender} {t u : Track} {a : Arrival} :
    trackStep (confinedStep cfg) s t a = .ok u ↔
      trackStep (readTfsPktsStep cfg) s t a = .ok u ∧ MbufLeft t.rx.m ∧ u.rx.Fits cfg := by
  rw [trackStep_eq_ok, trackStep_eq_ok, confinedStep_eq_ok]
  constructor
  · rintro ⟨⟨hst, hroom⟩, hnext⟩
    exact ⟨⟨hst, hnext⟩, hroom⟩
  · rintro ⟨⟨hst, hnext⟩, hroom⟩
    exact ⟨⟨hst, hroom⟩, hnext⟩

/-- The shipments that arrived are some of the packets taken, in order. -/
theorem arrivals_sublist {cfg : Config} {s : Sender} {ks : List (Cut UInt8)}
    (hf : Framed Ipv4 cfg s ks) (acc : Nat → Bool) :
    (arrivals acc s.ledger.shipments).Sublist s.packets := by
  rw [hf.ledger]
  exact (List.filter_sublist.map _).trans hf.begun

/-- What a datagram taken for a new one leaves fits the arrays, if there was room. -/
theorem Taken.fits {cfg : Config} {s : Sender} {ks : List (Cut UInt8)} {t : Track} {a : Arrival}
    {rx : Rx} {k : Cut UInt8} {added : Added} (h : Taken cfg s ks t a rx k added)
    (htidy : Tidy t.rx.m) (hfits : t.rx.Fits cfg)
    (hroom : entries ((ackAfter cfg a.timer t.rx.ack).keep a.seq t.rx.m) < cfg.maxiov) :
    rx.Fits cfg := by
  obtain ⟨data, -, hadd⟩ := h.call
  have hkept := htidy.keep (ackAfter cfg a.timer t.rx.ack) a.seq
  have hnarrow := ((hkept.grows hadd).narrow_iff (maxiov_pos cfg) hkept).mpr hroom
  intro x hx
  rw [h.m, h.outq] at hx
  rcases List.mem_append.mp hx with hx | hx
  · exact hnarrow x (List.mem_append_left _ hx)
  · rcases List.mem_append.mp hx with hx | hx
    · exact hfits x (List.mem_append_right _ hx)
    · exact hnarrow x (List.mem_append_right _ hx)

/-- One arrival that meets both conditions: the pass comes to its end, with the pool and the
arrays, and the receiver still follows the channel. -/
theorem Follows.step_confined {cfg : Config} {s : Sender} {ks : List (Cut UInt8)} {t : Track}
    {idx : List Nat} (hf : Framed Ipv4 cfg s ks) (h : Follows ks t idx) (h9 : 8 < cfg.tfsmtu)
    (hmax : cfg.tfsmtu ≤ MAXBUF - HDRSPACE) {a : Arrival} (hsent : (s.datagram a.number).isSome)
    (hfits : t.rx.Fits cfg) (hstep : InStep cfg t a) (hroom : Roomy cfg t a) :
    ∃ u, trackStep (confinedStep cfg) s t a = .ok u ∧ u.rx.Fits cfg ∧ ∃ idx, Follows ks u idx := by
  obtain ⟨hpool, harrays⟩ := hroom
  by_cases hnew : a.isNew cfg t.rx.ack
  · obtain ⟨rx, hrx, -, -, hu, k, added, htaken⟩ := h.step_new hf h9 hmax hsent hstep hnew
    have hfits' := htaken.fits h.held.tidy hfits (harrays hnew)
    exact ⟨_, trackStep_confined.mpr ⟨hrx, hpool, hfits'⟩, hfits', _, hu⟩
  · obtain ⟨rx, hrx, -, hu, hm, hout⟩ := h.step_old hf h9 hmax hsent hnew
    have hfits' : rx.Fits cfg := by
      rw [Rx.Fits, hm, hout]
      exact hfits
    exact ⟨_, trackStep_confined.mpr ⟨hrx, hpool, hfits'⟩, hfits', _, hu⟩

/-- Integrity over whole runs with ACKs, for the runs that `InStep` and `Roomy` describe: the
receiver is never brought down and never waits for an mbuf in vain, and what it delivers are
packets that the sender took, each at most once and in the order taken. -/
theorem delivered_sublist (cfg : Config) (h9 : 8 < cfg.tfsmtu)
    (hmax : cfg.tfsmtu ≤ MAXBUF - HDRSPACE) (calls : List WriteCall)
    (hans : ∀ call ∈ calls, ∀ p, some p ∈ call.answers → Ipv4 p.data) (s : Sender)
    (hrun : run (writeTfsPktsStep cfg) Sender.init calls = .ok s) (pps : Pps)
    (as : List Arrival) (hsent : ∀ a ∈ as, (s.datagram a.number).isSome)
    (hstep : Along (trackStep (confinedStep cfg) s) (fun t a => InStep cfg t a ∧ Roomy cfg t a)
      ⟨Rx.init pps, 0⟩ as) :
    ∃ rx, run (confinedStep cfg) (Rx.init pps) (as.map (Arrival.event s)) = .ok rx ∧
      (rx.outq.map Miov.bytes).Sublist s.packets := by
  obtain ⟨ks, hf⟩ := framed_of_run h9 (Nat.le_trans hmax (Nat.sub_le _ _))
    (fun _ hp => hp.length_lt) hans hrun
  have hkeep : ∀ (t : Track) (a : Arrival), (t.rx.Fits cfg ∧ ∃ idx, Follows ks t idx) →
      (InStep cfg t a ∧ Roomy cfg t a) ∧ (s.datagram a.number).isSome →
      ∃ u, trackStep (confinedStep cfg) s t a = .ok u ∧
        u.rx.Fits cfg ∧ ∃ idx, Follows ks u idx := by
    rintro t a ⟨hfits, idx, h⟩ ⟨⟨hin, hroom⟩, ha⟩
    exact h.step_confined hf h9 hmax ha hfits hin hroom
  have hinit : (Rx.init pps).Fits cfg := by simp [Rx.Fits, Rx.init]
  obtain ⟨u, hu, -, idx, h⟩ := run_ok_of_along hkeep ⟨hinit, [], follows_init ks pps⟩
    (hstep.and_forall hsent)
  refine ⟨u.rx, run_of_track hu, ?_⟩
  rw [h.delivered hf]
  exact arrivals_sublist hf _

/-- One more datagram is among those that passed the limiter, or it is rejected there. -/
theorem passed_concat (as : List Arrival) (a : Arrival) :
    passed (as ++ [a]) = passed as ++ if a.limited then [] else [a.number] := by
  cases h : a.limited <;> simp [passed, h]

/-- One more number is a record when it is larger than the records before it. -/
theorem records_concat (ns : List Nat) (n : Nat) :
    records (ns ++ [n]) =
      if ∀ i ∈ records ns, i < n then records ns ++ [n] else records ns := by
  rw [records, List.foldl_append]
  rfl

/-- With more arrivals there are no fewer records. -/
theorem records_dropLast_subset (as : List Arrival) :
    ∀ {n : Nat}, n ∈ records (passed as.dropLast) → n ∈ records (passed as) := by
  intro n hn
  cases has : as using List.reverseRecOn with
  | nil => rwa [has] at hn
  | append_singleton bs b =>
      rw [has, List.dropLast_concat] at hn
      rw [passed_concat]
      cases b.limited with
      | true => rwa [if_pos rfl, List.append_nil]
      | false =>
          rw [if_neg (by simp), records_concat]
          split
          · exact List.mem_append_left _ hn
          · exact hn

/-- Between ACKs the record holds the number after the latest datagram accepted, and so every
arrival is `InStep`. -/
theorem Follows.inStep {cfg : Config} {s : Sender} {ks : List (Cut UInt8)} {t : Track}
    {idx : List Nat} (hf : Framed Ipv4 cfg s ks) (h : Follows ks t idx)
    (hcount : ks.length < 2 ^ 32) (hlast : t.rx.ack.last = t.next) {a : Arrival}
    (htimer : a.timer = none) (hsent : (s.datagram a.number).isSome) :
    a.seenLast cfg t.rx.ack = t.next ∧ a.seq = a.number + 1 ∧ InStep cfg t a := by
  have hn : a.number < ks.length := by
    obtain ⟨k, hk, -⟩ := hf.arrival hsent
    exact (List.getElem?_eq_some_iff.mp hk).1
  have hseen : a.seenLast cfg t.rx.ack = t.next := by
    rw [Arrival.seenLast, htimer, ← hlast]
    simp [ackAfter]
  have hseq : a.seq = a.number + 1 := Nat.mod_eq_of_lt (by omega)
  refine ⟨hseen, hseq, ?_⟩
  rintro ⟨-, hlt⟩
  rw [hseen, hseq] at hlt ⊢
  refine ⟨by omega, ?_⟩
  rcases Nat.eq_zero_or_pos t.next with h0 | hpos
  · -- Nothing is accepted yet, and nothing is in progress.
    right
    right
    have hheld := h.held
    rwa [h0] at hheld
  · by_cases heq : a.number = t.next
    · exact .inl heq
    · exact .inr (.inl ⟨by omega, by omega⟩)

/-- Between ACKs the datagrams accepted are the records. One arrival. -/
theorem Follows.step_records {cfg : Config} (h9 : 8 < cfg.tfsmtu)
    (hmax : cfg.tfsmtu ≤ MAXBUF - HDRSPACE) {s : Sender} {ks : List (Cut UInt8)}
    (hf : Framed Ipv4 cfg s ks) (hcount : ks.length < 2 ^ 32) {t : Track} {as : List Arrival}
    (h : Follows ks t (records (passed as))) (hlast : t.rx.ack.last = t.next) {a : Arrival}
    (htimer : a.timer = none) (hsent : (s.datagram a.number).isSome) :
    ∃ u, trackStep (readTfsPktsStep cfg) s t a = .ok u ∧ u.rx.ack.last = u.next ∧
      Follows ks u (records (passed (as ++ [a]))) := by
  obtain ⟨hseen, hseq, hin⟩ := h.inStep hf hcount hlast htimer hsent
  by_cases hnew : a.isNew cfg t.rx.ack
  · obtain ⟨rx, hrx, hl, hle, hu, -⟩ := h.step_new hf h9 hmax hsent hin hnew
    refine ⟨_, hrx, by rw [hl, hseq], ?_⟩
    rw [passed_concat, hnew.1, if_neg (by simp), records_concat,
      if_pos ((h.next a.number).mp hle)]
    exact hu
  · obtain ⟨rx, hrx, hl, hu, -⟩ := h.step_old hf h9 hmax hsent hnew
    refine ⟨_, hrx, by rw [hl, hseen], ?_⟩
    rw [passed_concat]
    cases hlim : a.limited with
    | true => rwa [if_pos rfl, List.append_nil]
    | false =>
        have hold : ¬ t.next ≤ a.number := by
          intro hle
          exact hnew ⟨hlim, by rw [hseen, hseq]; omega⟩
        rw [if_neg (by simp), records_concat, if_neg (by rwa [← h.next a.number])]
        exact hu

/-- The run. Induction on the arrivals, at their end. -/
theorem follows_records {cfg : Config} (h9 : 8 < cfg.tfsmtu)
    (hmax : cfg.tfsmtu ≤ MAXBUF - HDRSPACE) {s : Sender} {ks : List (Cut UInt8)}
    (hf : Framed Ipv4 cfg s ks) (hcount : ks.length < 2 ^ 32) (pps : Pps) :
    ∀ as : List Arrival, (∀ a ∈ as, a.timer = none) →
      (∀ a ∈ as, (s.datagram a.number).isSome) →
      ∃ t, run (trackStep (readTfsPktsStep cfg) s) ⟨Rx.init pps, 0⟩ as = .ok t ∧
        t.rx.ack.last = t.next ∧ Follows ks t (records (passed as)) := by
  intro as
  induction as using List.reverseRecOn with
  | nil => exact fun _ _ => ⟨_, rfl, rfl, follows_init ks pps⟩
  | append_singleton as a ih =>
      intro htimer hsent
      obtain ⟨t, ht, hlast, h⟩ := ih (fun b hb => htimer b (List.mem_append_left _ hb))
        fun b hb => hsent b (List.mem_append_left _ hb)
      obtain ⟨u, hu, hnext, hfollows⟩ := h.step_records h9 hmax hf hcount hlast
        (htimer a (by simp)) (hsent a (by simp))
      exact ⟨u, run_concat.mpr ⟨t, ht, hu⟩, hnext, hfollows⟩

/-! ### Concrete runs -/

/-- The call that takes one packet of 20 bytes, and then finds the queue empty. -/
def oneCall : WriteCall := ⟨[some ⟨0, ipv4Packet 0, 0⟩], true⟩

/-- The packet of the call is as long as its own length field says. -/
theorem oneCall_ipv4 : ∀ call ∈ [oneCall], ∀ p, some p ∈ call.answers → Ipv4 p.data := by
  intro call hcall p hp
  rw [List.mem_singleton.mp hcall] at hp
  simp only [oneCall, List.mem_singleton, Option.some.injEq] at hp
  rw [hp]
  exact ipv4_packet 0 (by decide)

/-- An ACK goes out between two datagrams that come in order. -/
theorem delivered_sublist_ack :
    ∃ s rx, run (writeTfsPktsStep ⟨40, false, false⟩) Sender.init [oneCall, ⟨[], true⟩] = .ok s ∧
      run (confinedStep ⟨40, false, false⟩) (Rx.init ⟨1, 1, 1⟩)
        ([⟨none, 0, 0, false⟩, ⟨some ⟨1, 0⟩, 1, 1, false⟩].map (Arrival.event s)) = .ok rx ∧
      (rx.outq.map Miov.bytes).Sublist s.packets := by
  have hans : ∀ call ∈ [oneCall, ⟨[], true⟩], ∀ p, some p ∈ call.answers → Ipv4 p.data := by
    intro call hcall p hp
    rcases List.mem_cons.mp hcall with rfl | hcall
    · exact oneCall_ipv4 _ (by simp) p hp
    · rw [List.mem_singleton.mp hcall] at hp
      simp at hp
  obtain ⟨rx, hrx, hsub⟩ := delivered_sublist ⟨40, false, false⟩ (by decide) (by decide)
    [oneCall, ⟨[], true⟩] hans _ rfl ⟨1, 1, 1⟩
    [⟨none, 0, 0, false⟩, ⟨some ⟨1, 0⟩, 1, 1, false⟩] (by decide) (by decide)
  exact ⟨_, rx, rfl, hrx, hsub⟩

/-- The datagram comes again right after an ACK: the record is cleared, the datagram is taken
for a new one, and its packet is delivered twice. -/
theorem delivered_twice :
    ¬ ∀ (cfg : Config), 8 < cfg.tfsmtu → cfg.tfsmtu ≤ MAXBUF - HDRSPACE →
      ∀ calls : List WriteCall, (∀ call ∈ calls, ∀ p, some p ∈ call.answers → Ipv4 p.data) →
      ∀ s : Sender, run (writeTfsPktsStep cfg) Sender.init calls = .ok s →
      ∀ (pps : Pps) (as : List Arrival), (∀ a ∈ as, (s.datagram a.number).isSome) →
      ∃ rx, run (confinedStep cfg) (Rx.init pps) (as.map (Arrival.event s)) = .ok rx ∧
        (rx.outq.map Miov.bytes).Sublist s.packets := by
  intro hall
  obtain ⟨rx, hrx, hsub⟩ := hall ⟨40, false, false⟩ (by decide) (by decide) [oneCall] oneCall_ipv4
    _ rfl ⟨1, 1, 1⟩ [⟨none, 0, 0, false⟩, ⟨some ⟨1, 0⟩, 1, 0, false⟩] (by decide)
  have htwo : (Except.ok 2 : Except Stop Nat) = .ok rx.outq.length := by
    show _ = Except.map (fun rx => rx.outq.length) (.ok rx : Except Stop Rx)
    rw [← hrx]
    decide
  have hlen := hsub.length_le
  rw [List.length_map, ← Except.ok.inj htwo] at hlen
  revert hlen
  decide

end Iptfs.Proofs
