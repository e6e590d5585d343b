import Iptfs.Lib.Run
import Iptfs.Proofs.Packing
import Iptfs.Proofs.Reassembly
import Iptfs.Spec.Delivery

/-!
# `Iptfs.Proofs.SenderFrames`: the sender emits frames

`Laid` reads the entries of a datagram as whole packets, the beginning of a packet, and
padding. `SentAs` puts the packet in progress in front of it: what a call of
`write_tfs_pkt` emits is the datagram of a `Framing.Frame`, with the block under way as
its leftover and the BlockOffset as what is owed. `writeTfsPkt_sentAs` shows this for every
call. `P` is what is known of the packets in the queue, and nothing but the bound on their
length is used of it here.

`Framed` is the invariant of a whole run of the sender: its datagrams are a chained
sequence of frames, and the ledger read off their entries is the ledger of the frames.
`framed_of_run` is the run lemma.
-/

set_option autoImplicit false

namespace Iptfs.Proofs

open Iptfs.Lib Iptfs.Lib.Framing

variable {P : List UInt8 → Prop}

/-! ### The entries of one datagram -/

/-- The entries `iov` are the packets `whole`, and then the beginning of a packet (`next`)
or padding. The packets `ms` are those of them that the queue gave. -/
structure Laid (P : List UInt8 → Prop) (ms : List Mbuf) (room : Nat) (iov : List Iov)
    (leftover : Option Mbuf)
    (whole : List (List UInt8)) (next : Option (Carry UInt8)) (pad : List UInt8) : Prop where
  bytes : iovBytes iov = whole.flatten ++ (next.map Carry.front).getD pad
  wholeOk : ∀ p ∈ whole, P p
  nextOk : ∀ c ∈ next, P c.block ∧ 7 ≤ c.sent
  padOk : ∀ b ∈ pad, b = 0
  leftoverOk : leftover.map Mbuf.data = next.map Carry.rest
  roomOk : leftover ≠ none → 6 < room
  begun : (whole ++ (next.map Carry.block).toList).Sublist (ms.map Mbuf.data)
  begun_eq : (ms ≠ [] → 6 < room) → whole ++ (next.map Carry.block).toList = ms.map Mbuf.data
  pieces : ∀ L : Ledger UInt8, L.under = none →
    (iov.filterMap Iov.piece).foldl bookPiece L = { L with
      closed := L.closed ++ whole.map fun b => ⟨b, [L.num], true⟩
      under := next.map fun c => ⟨c.block, [L.num], false⟩ }

/-- An end of the loop without a packet that fits. -/
theorem laid_end {ms : List Mbuf} {room : Nat} {iov : List Iov} {pad : List UInt8}
    (hbytes : iovBytes iov = pad) (hpad : ∀ b ∈ pad, b = 0)
    (hpieces : iov.filterMap Iov.piece = []) (hms : ms = [] ∨ room ≤ 6) :
    Laid P ms room iov none [] none pad where
  bytes := hbytes
  wholeOk := by simp
  nextOk := by simp
  padOk := hpad
  leftoverOk := rfl
  roomOk := by simp
  begun := by simp
  begun_eq := by
    intro h6
    rcases hms with h | h
    · simp [h]
    · have hnil : ms = [] := by
        by_contra hne
        have := h6 hne
        omega
      simp [hnil]
  pieces := by
    intro L hL
    rw [hpieces]
    obtain ⟨num, closed, under⟩ := L
    simpa using hL

/-- Padding is zeros. -/
theorem zero_of_mem_pad {n : Nat} {b : UInt8} (h : b ∈ iovBytes [.pad n]) : b = 0 := by
  simp only [iovBytes_cons, iovBytes_nil, List.append_nil, Iov.bytes] at h
  exact (List.mem_replicate.mp (List.mem_of_mem_take h)).2

/-- The packing loop on packets with the property `P`, by induction on how it fills the room. -/
theorem laid_of_packed {room : Nat} {ms : List Mbuf} {iov : List Iov} {freed : List Mbuf}
    {leftover : Option Mbuf} (h : Packed room ms iov freed leftover)
    (hms : ∀ m ∈ ms, P m.data) :
    ∃ whole next pad, Laid P ms room iov leftover whole next pad := by
  -- One case for each way the packing loop can end, and `full` for a packet that goes in whole
  -- with the rest of the datagram laid out by the induction hypothesis.
  induction h with
  | exact => exact ⟨[], none, [], laid_end rfl (by simp) rfl (.inl rfl)⟩
  | pad room hpos =>
      exact ⟨[], none, _, laid_end rfl (fun b hb => zero_of_mem_pad hb) rfl (.inl rfl)⟩
  | lost room m hpos hroom =>
      exact ⟨[], none, _, laid_end rfl (fun b hb => zero_of_mem_pad hb) rfl (.inr hroom)⟩
  | part room m hroom hlen =>
      have hip := hms m (by simp)
      refine ⟨[], some ⟨m.data, room, by omega, hlen⟩, [], ?_⟩
      -- The packet is longer than the room, so its front fills the datagram and nothing pads it.
      have hne : ¬ room = m.len := by omega
      constructor <;> simp [Iov.bytes, Iov.piece, Carry.front, Carry.rest, hip, hroom, hne,
        bookPiece]
      · omega
      · intro L hL
        simp [hL]
  | full room m ms iov freed leftover hroom hlen hne h ih =>
      have hip := hms m (by simp)
      obtain ⟨whole, next, pad, hl⟩ := ih fun p hp => hms p (List.mem_cons_of_mem _ hp)
      have hbegun := hl.begun
      have heq := hl.begun_eq hne
      refine ⟨m.data :: whole, next, pad, ?_⟩
      constructor
      · rw [iovBytes_cons, hl.bytes]
        simp [Iov.bytes, Mbuf.len]
      · intro p hp
        rcases List.mem_cons.mp hp with rfl | hp
        · exact hip
        · exact hl.wholeOk p hp
      · exact hl.nextOk
      · exact hl.padOk
      · exact hl.leftoverOk
      · exact fun _ => hroom
      · simpa using hbegun
      · intro _
        simpa using heq
      · intro L hL
        -- The ledger closes the whole packet under its own number before it books the rest.
        rw [List.filterMap_cons_some (show Iov.piece (.mbuf m m.len) = some (m.data, true) by
          simp [Iov.piece]), List.foldl_cons]
        have hpiece : bookPiece L (m.data, true) =
            { L with closed := L.closed ++ [⟨m.data, [L.num], true⟩], under := none } := by
          simp [bookPiece, hL]
        rw [hpiece, hl.pieces _ rfl]
        simp

/-! ### One call of `write_tfs_pkt` -/

/-- The datagram of the call is the frame `f`, which goes on with the block `owed`. -/
structure SentAs (P : List UInt8 → Prop) (cfg : Config) (seq : Nat) (owed : Option (Carry UInt8))
    (call : WriteCall)
    (out : WriteOut) (f : Frame UInt8) : Prop where
  before : f.before = owed
  datagram : out.datagram = some (wtfsHdr seq f.owes ++ f.payload)
  length : f.payload.length = cfg.tfsmtu - 8
  owes : f.owes < 2 ^ 16
  sound : Sound P 7 f
  seq : out.seq = (seq + 1) % 2 ^ 32
  leftover : out.leftover.map Mbuf.data = if call.sent then f.after.map Carry.rest else none
  room : out.leftover ≠ none → 14 < cfg.tfsmtu
  book : ∀ L : Ledger UInt8, L.under.isSome = owed.isSome →
    book L (call, out) = L.enter ⟨f, call.sent⟩
  begun : f.begun.Sublist (out.taken.map Mbuf.data)
  begun_eq : 14 < cfg.tfsmtu → f.begun = out.taken.map Mbuf.data

/-- A call with nothing to send in single-only mode: no datagram, and nothing changes. -/
structure Silent (seq : Nat) (owed : Option (Carry UInt8)) (out : WriteOut) : Prop where
  owed : owed = none
  datagram : out.datagram = none
  seq : out.seq = seq
  leftover : out.leftover = none
  taken : out.taken = []

/-- A datagram that begins with a packet from the queue. -/
theorem writeTfsData_fresh (cfg : Config) (h9 : 8 < cfg.tfsmtu) (hmax : cfg.tfsmtu ≤ MAXBUF)
    (seq : Nat) (call : WriteCall) {m : Mbuf} (answers : List (Option Mbuf))
    (hm : P m.data) (hans : ∀ p, some p ∈ answers → P p.data) :
    ∃ out f, writeTfsData cfg seq 0 (wtfsEnter cfg m [m]) answers call.sent = .ok out ∧
      SentAs P cfg seq none call out f := by
  obtain ⟨ts, iov, freed, leftover, hpacked, hts, hout⟩ :=
    writeTfsData_spec cfg h9 seq 0 m [m] answers call.sent
  obtain ⟨whole, next, pad, hl⟩ := laid_of_packed hpacked (by
    intro p hp
    rcases List.mem_cons.mp hp with rfl | hp
    · exact hm
    · exact hans p (hts p hp))
  refine ⟨_, .blocks none whole next pad, hout, ?_⟩
  -- No leftover: the block begins at offset 0, so the payload is what the entries after the header
  -- hold.
  have hpay : (Frame.blocks none whole next pad).payload = iovBytes iov := by
    rw [hl.bytes]
    rfl
  constructor
  · rfl
  · rw [hpay]
    rfl
  · rw [hpay, length_iovBytes_packed hpacked (by omega)]
  · simp [Frame.owes, Frame.before]
  · exact ⟨hl.wholeOk, hl.nextOk, hl.padOk⟩
  · rfl
  · show (if call.sent then leftover else none).map Mbuf.data = _
    cases call.sent with
    | false => rfl
    | true => exact hl.leftoverOk
  · intro hne
    -- A packet is left over only where its front found room, more than 6 bytes of it.
    have hleft : leftover ≠ none := by
      intro h0
      simp [h0] at hne
    have := hl.roomOk hleft
    omega
  · intro L hL
    have hunder : L.under = none := by simpa using hL
    have hp := hl.pieces L hunder
    rw [book, List.filterMap_cons_none (show Iov.piece (.hdr _) = none from rfl), hp]
    cases call.sent <;> simp [Ledger.enter, hunder]
  · exact hl.begun
  · intro h14
    exact hl.begun_eq fun _ => by omega

/-- A datagram that begins with the leftover. -/
theorem writeTfsData_leftover (cfg : Config) (h9 : 14 < cfg.tfsmtu) (hmax : cfg.tfsmtu ≤ MAXBUF)
    (hP : ∀ p, P p → p.length < 2 ^ 16) (seq : Nat) (call : WriteCall) {m : Mbuf} {c : Carry UInt8}
    (hc : P c.block) (hm : m.data = c.rest) (hans : ∀ p, some p ∈ call.answers → P p.data) :
    ∃ out f, writeTfsData cfg seq (m.len % 2 ^ 16) (wtfsEnter cfg m []) call.answers call.sent
        = .ok out ∧ SentAs P cfg seq (some c) call out f := by
  obtain ⟨ts, iov, freed, leftover, hpacked, hts, hout⟩ :=
    writeTfsData_spec cfg (by omega) seq (m.len % 2 ^ 16) m [] call.answers call.sent
  have hlt := hP _ hc
  have hmlen : m.len = c.block.length - c.sent := by
    rw [Mbuf.len, hm, Carry.length_rest]
  have hmod : m.len % 2 ^ 16 = m.len := Nat.mod_eq_of_lt (by omega)
  have hlenb := length_iovBytes_packed hpacked (by omega)
  have hroom6 : 6 < cfg.tfsmtu - 8 := by omega
  generalize hroom : cfg.tfsmtu - 8 = room at hpacked hlenb hroom6
  cases hpacked with
  | lost _ _ hpos h6 => omega
  | part _ _ hr hlen =>
      -- The datagram is a middle piece of the block under way.
      have hpart : c.sent + room < c.block.length := by omega
      have hpay : (Frame.middle c room (by omega) hpart).payload = iovBytes [.mbuf m room] := by
        simp [Frame.payload, Iov.bytes, hm]
      refine ⟨_, .middle c room (by omega) hpart, hout, ?_⟩
      constructor
      · rfl
      · rw [hpay, hmod, hmlen]
        simp [Frame.owes, Frame.before]
      · rw [hpay, hlenb, hroom]
      · simp only [Frame.owes, Frame.before, Option.map_some, Option.getD_some, Carry.length_rest]
        omega
      · trivial
      · rfl
      · cases call.sent with
        | false => rfl
        | true => simp [Frame.after, Carry.more, Carry.rest, hm]
      · exact fun _ => h9
      · intro L hL
        obtain ⟨s, hs⟩ := Option.isSome_iff_exists.mp hL
        have hne : ¬ room = m.len := by omega
        cases hsent : call.sent <;> simp [book, List.filterMap_cons, Iov.piece,
          bookPiece, Ledger.enter, hs, hne, hsent]
      · simp [Frame.begun]
      · simp [Frame.begun]
  | full _ _ _ iov freed leftover hr hlen hne h =>
      -- The datagram ends the block under way and goes on.
      obtain ⟨whole, next, pad, hl⟩ := laid_of_packed h fun p hp => hans p (hts p hp)
      have hpay : (Frame.blocks (some c) whole next pad).payload =
          iovBytes (.mbuf m m.len :: iov) := by
        rw [iovBytes_cons, hl.bytes, Iov.bytes, Mbuf.len, List.take_length, hm]
        rfl
      refine ⟨_, .blocks (some c) whole next pad, hout, ?_⟩
      constructor
      · rfl
      · rw [hpay, hmod, hmlen]
        simp [Frame.owes, Frame.before]
      · rw [hpay, hlenb, hroom]
      · simp only [Frame.owes, Frame.before, Option.map_some, Option.getD_some, Carry.length_rest]
        omega
      · exact ⟨hl.wholeOk, hl.nextOk, hl.padOk⟩
      · rfl
      · show (if call.sent then leftover else none).map Mbuf.data = _
        cases call.sent with
        | false => rfl
        | true => exact hl.leftoverOk
      · exact fun _ => h9
      · intro L hL
        obtain ⟨s, hs⟩ := Option.isSome_iff_exists.mp hL
        have hpiece : bookPiece L (m.data, true) = { L with
            closed := L.closed ++ [{ s with carriers := s.carriers ++ [L.num], complete := true }]
            under := none } := by
          simp [bookPiece, hs]
        have hp := hl.pieces (bookPiece L (m.data, true)) (by rw [hpiece])
        rw [book, List.filterMap_cons_none (show Iov.piece (.hdr _) = none from rfl),
          List.filterMap_cons_some (show Iov.piece (.mbuf m m.len) = some (m.data, true) by
            simp [Iov.piece]), List.foldl_cons, hp, hpiece]
        cases call.sent <;> simp [Ledger.enter, hs]
      · exact hl.begun
      · exact fun _ => hl.begun_eq hne

/-- The empty datagram is a header and padding. -/
theorem writeEmptyTfsPkt_eq (seq mtu : Nat) (h8 : 8 < mtu) (hmax : mtu ≤ MAXBUF) :
    (writeEmptyTfsPkt seq mtu).1 = wtfsHdr seq 0 ++ List.replicate (mtu - 8) 0 := by
  obtain ⟨n, rfl⟩ : ∃ n, mtu = 4 + (4 + n) := ⟨mtu - 8, by omega⟩
  have htake : (put32 seq ++ List.replicate (MAXBUF - 4) 0).take (4 + (4 + n)) =
      put32 seq ++ List.replicate (4 + n) 0 := by
    rw [← length_put32 seq, List.take_length_add_append, List.take_replicate]
    congr 2
    simp only [length_put32, MAXBUF] at hmax ⊢
    omega
  rw [writeEmptyTfsPkt, htake, ← List.replicate_append_replicate,
    show 4 + (4 + n) - 8 = n by omega]
  rfl

/-- The empty datagram is a frame of padding. -/
theorem writeEmptyTfsPkt_sentAs (cfg : Config) (h9 : 8 < cfg.tfsmtu) (hmax : cfg.tfsmtu ≤ MAXBUF)
    (seq : Nat) (call : WriteCall) :
    SentAs P cfg seq none call ⟨some (writeEmptyTfsPkt seq cfg.tfsmtu).1, [],
      (writeEmptyTfsPkt seq cfg.tfsmtu).2, none, [], []⟩
      (.blocks none [] none (List.replicate (cfg.tfsmtu - 8) 0)) where
  before := rfl
  datagram := by
    rw [writeEmptyTfsPkt_eq seq _ h9 hmax]
    rfl
  length := by simp [Frame.payload]
  owes := by simp [Frame.owes, Frame.before]
  sound := ⟨by simp, by simp, fun b hb => (List.mem_replicate.mp hb).2⟩
  seq := rfl
  leftover := by
    cases call.sent <;> rfl
  room := fun h => absurd rfl h
  book := by
    intro L hL
    have hunder : L.under = none := by simpa using hL
    cases hsent : call.sent <;> simp [book, Ledger.enter, hunder, hsent]
  begun := by simp [Frame.begun]
  begun_eq := by simp [Frame.begun]

/-- One call of `write_tfs_pkt` on packets with the property `P`: it succeeds, and emits a frame
that goes on with the leftover, or nothing. The cases are those of the source: a leftover, a
packet from the queue, or neither. -/
theorem writeTfsPkt_sentAs (cfg : Config) (h9 : 8 < cfg.tfsmtu) (hmax : cfg.tfsmtu ≤ MAXBUF)
    (hP : ∀ p, P p → p.length < 2 ^ 16) (seq : Nat) {leftover : Option Mbuf}
    {owed : Option (Carry UInt8)} (call : WriteCall)
    (hleft : leftover.map Mbuf.data = owed.map Carry.rest)
    (hroom : leftover ≠ none → 14 < cfg.tfsmtu) (howed : ∀ c ∈ owed, P c.block)
    (hans : ∀ p, some p ∈ call.answers → P p.data) :
    ∃ out, writeTfsPkt cfg seq leftover call.answers call.sent = .ok out ∧
      (Silent seq owed out ∨ ∃ f, SentAs P cfg seq owed call out f) := by
  -- The three ways in: a leftover goes on, a packet was waiting, or the queue was empty. In the
  -- last case single-only mode sends nothing.
  cases leftover with
  | some m =>
      obtain ⟨c, rfl, hc⟩ := Option.map_eq_some_iff.mp hleft.symm
      obtain ⟨out, f, hout, hf⟩ := writeTfsData_leftover cfg (hroom (by simp)) hmax hP seq call
        (howed c rfl) hc.symm hans
      exact ⟨out, hout, .inr ⟨f, hf⟩⟩
  | none =>
      obtain rfl : owed = none := by simpa using hleft.symm
      cases hhead : call.answers.headD none with
      | some m =>
          have hmem : some m ∈ call.answers := by
            cases hcall : call.answers with
            | nil => simp [hcall] at hhead
            | cons o os =>
                rw [hcall] at hhead
                exact List.mem_cons.mpr (.inl hhead.symm)
          obtain ⟨out, f, hout, hf⟩ := writeTfsData_fresh cfg h9 hmax seq call call.answers.tail
            (hans m hmem) fun p hp => hans p (List.mem_of_mem_tail hp)
          refine ⟨out, ?_, .inr ⟨f, hf⟩⟩
          rw [writeTfsPkt]
          simp only [hhead]
          exact hout
      | none =>
          cases hone : cfg.oneonly with
          | true =>
              refine ⟨⟨none, [], seq, none, [], []⟩, ?_, .inl ⟨rfl, rfl, rfl, rfl, rfl⟩⟩
              rw [writeTfsPkt]
              simp only [hhead, hone, if_true]
          | false =>
              refine ⟨_, ?_, .inr ⟨_, writeEmptyTfsPkt_sentAs cfg h9 hmax seq call⟩⟩
              rw [writeTfsPkt]
              simp only [hhead, hone, Bool.false_eq_true, if_false]

/-! ### A run of the sender -/

/-- Datagram number `i` is the datagram of the cut `k`. -/
structure Sends (P : List UInt8 → Prop) (cfg : Config) (i : Nat) (c : WriteCall × WriteOut)
    (k : Cut UInt8) : Prop where
  left : k.left = c.1.sent
  datagram : c.2.datagram = some (wtfsHdr ((i + 1) % 2 ^ 32) k.frame.owes ++ k.frame.payload)
  length : k.frame.payload.length = cfg.tfsmtu - 8
  owes : k.frame.owes < 2 ^ 16
  sound : Sound P 7 k.frame

/-- The invariant of a run: the datagrams of the sender are those of the cuts `ks`. -/
structure Framed (P : List UInt8 → Prop) (cfg : Config) (s : Sender) (ks : List (Cut UInt8)) :
    Prop where
  chained : Chained none ks
  leftover : s.leftover.map Mbuf.data = (carryAfter none ks).map Carry.rest
  room : s.leftover ≠ none → 14 < cfg.tfsmtu
  carry : ∀ c ∈ carryAfter none ks, P c.block
  seq : s.seq = (ks.length + 1) % 2 ^ 32
  length : s.sends.length = ks.length
  sends : ∀ i c k, s.sends[i]? = some c → ks[i]? = some k → Sends P cfg i c k
  ledger : s.ledger = Framing.ledger ks
  begun : ((Framing.ledger ks).shipments.map Shipment.block).Sublist s.packets
  begun_eq : 14 < cfg.tfsmtu → (Framing.ledger ks).shipments.map Shipment.block = s.packets

/-- The sender has made no call, and there is no frame. -/
theorem framed_init (cfg : Config) : Framed P cfg Sender.init [] where
  chained := trivial
  leftover := rfl
  room := fun h => absurd rfl h
  carry := by simp [carryAfter]
  seq := rfl
  length := rfl
  sends := by simp [Sender.sends, Sender.init]
  ledger := rfl
  begun := by simp [Framing.ledger, Ledger.init, Ledger.shipments]
  begun_eq := fun _ => rfl

/-- The packet in progress of the ledger is the block under way. -/
theorem under_isSome {ks : List (Cut UInt8)} (h : Chained none ks) :
    (ledger ks).under.isSome = (carryAfter none ks).isSome := by
  have htied : Tied (fun _ => false) ks := tied_of_chained h (by simp)
  have hblock := congrArg Option.isSome htied.block
  simpa using hblock

/-- The block under way after a frame of packets with the property `P` has it. -/
theorem sound_carry {k : Cut UInt8} {n : Nat} (hs : Sound P n k.frame)
    (hb : ∀ c ∈ k.frame.before, P c.block) : ∀ c ∈ k.carry, P c.block := by
  obtain ⟨frame, left⟩ := k
  intro c hc
  cases left with
  | false => simp [Cut.carry] at hc
  | true =>
      cases frame with
      | middle d n pos h =>
          simp only [Cut.carry, if_true, Frame.after, Option.mem_def, Option.some.injEq] at hc
          rw [← hc]
          exact hb d rfl
      | blocks owed whole next pad => exact (hs.2.1 c hc).1

/-- One call of the sender keeps the invariant. -/
theorem Framed.step {cfg : Config} (h9 : 8 < cfg.tfsmtu) (hmax : cfg.tfsmtu ≤ MAXBUF)
    (hP : ∀ p, P p → p.length < 2 ^ 16) {s : Sender} {ks : List (Cut UInt8)}
    (h : Framed P cfg s ks) (call : WriteCall)
    (hans : ∀ p, some p ∈ call.answers → P p.data) :
    ∃ s', writeTfsPktsStep cfg s call = .ok s' ∧ ∃ ls, Framed P cfg s' (ks ++ ls) := by
  obtain ⟨out, hout, hcase⟩ :=
    writeTfsPkt_sentAs cfg h9 hmax hP s.seq call h.leftover h.room h.carry hans
  refine ⟨⟨out.seq, out.leftover, s.calls ++ [(call, out)]⟩, by rw [writeTfsPktsStep, hout], ?_⟩
  have hpackets : Sender.packets ⟨out.seq, out.leftover, s.calls ++ [(call, out)]⟩ =
      s.packets ++ out.taken.map Mbuf.data := by
    simp [Sender.packets, Sender.taken]
  rcases hcase with hsilent | ⟨f, hf⟩
  · -- Nothing is sent.
    have hsends : Sender.sends ⟨out.seq, out.leftover, s.calls ++ [(call, out)]⟩ = s.sends := by
      simp [Sender.sends, hsilent.datagram]
    rw [hsilent.taken, List.map_nil, List.append_nil] at hpackets
    refine ⟨[], ?_⟩
    rw [List.append_nil]
    refine ⟨h.chained, ?_, ?_, h.carry, ?_, ?_, ?_, ?_, ?_, ?_⟩
    · rw [hsilent.owed]
      simp [hsilent.leftover]
    · exact fun hne => absurd hsilent.leftover hne
    · rw [← h.seq, ← hsilent.seq]
    · rw [hsends, h.length]
    · rw [hsends]
      exact h.sends
    · rw [Sender.ledger, hsends]
      exact h.ledger
    · rw [hpackets]
      exact h.begun
    · rw [hpackets]
      exact h.begun_eq
  · -- One more frame.
    have hsends : Sender.sends ⟨out.seq, out.leftover, s.calls ++ [(call, out)]⟩ =
        s.sends ++ [(call, out)] := by
      simp [Sender.sends, hf.datagram]
    have hbefore : ∀ c ∈ f.before, P c.block := by
      rw [hf.before]
      exact h.carry
    have hledger : Framing.ledger (ks ++ [⟨f, call.sent⟩]) =
        (Framing.ledger ks).enter ⟨f, call.sent⟩ := ledger_concat _ _
    refine ⟨[⟨f, call.sent⟩], ?_, ?_, hf.room, ?_, ?_, ?_, ?_, ?_, ?_, ?_⟩
    · exact chained_append.mpr ⟨h.chained, hf.before, trivial⟩
    · rw [carryAfter_concat, Cut.carry, hf.leftover]
      cases call.sent <;> rfl
    · rw [carryAfter_concat]
      exact sound_carry hf.sound hbefore
    · show out.seq = _
      rw [hf.seq, h.seq, List.length_append, List.length_singleton]
      omega
    · rw [hsends, List.length_append, List.length_append, h.length]
      rfl
    · intro i c k hc hk
      rw [hsends] at hc
      rcases Nat.lt_or_ge i ks.length with hi | hi
      · rw [List.getElem?_append_left (by rw [h.length]; exact hi)] at hc
        rw [List.getElem?_append_left hi] at hk
        exact h.sends i c k hc hk
      · rw [List.getElem?_append_right (by rw [h.length]; exact hi)] at hc
        rw [List.getElem?_append_right hi] at hk
        rw [h.length] at hc
        obtain ⟨rfl, hi0⟩ : k = ⟨f, call.sent⟩ ∧ i - ks.length = 0 := by
          cases hn : i - ks.length with
          | zero => simp [hn] at hk; exact ⟨hk.symm, rfl⟩
          | succ n => simp [hn] at hk
        rw [hi0] at hc
        simp only [List.getElem?_cons_zero, Option.some.injEq] at hc
        subst hc
        obtain rfl : i = ks.length := by omega
        refine ⟨rfl, ?_, hf.length, hf.owes, hf.sound⟩
        rw [hf.datagram, h.seq]
    · rw [Sender.ledger, hsends, List.foldl_append]
      show book (s.ledger) (call, out) = _
      rw [h.ledger, hledger]
      exact hf.book _ (under_isSome h.chained)
    · rw [hledger, shipments_enter, hpackets]
      exact h.begun.append hf.begun
    · intro h14
      rw [hledger, shipments_enter, hpackets, h.begun_eq h14, hf.begun_eq h14]

/-- A run goes on with more frames. -/
theorem Framed.run {cfg : Config} (h9 : 8 < cfg.tfsmtu) (hmax : cfg.tfsmtu ≤ MAXBUF)
    (hP : ∀ p, P p → p.length < 2 ^ 16) {calls : List WriteCall}
    (hans : ∀ call ∈ calls, ∀ p, some p ∈ call.answers → P p.data)
    {s : Sender} {ks : List (Cut UInt8)} (h : Framed P cfg s ks) :
    ∃ s', Lib.run (writeTfsPktsStep cfg) s calls = .ok s' ∧
      ∃ ls, Framed P cfg s' (ks ++ ls) := by
  have hstep : ∀ (s : Sender) (call : WriteCall), (∃ ls, Framed P cfg s (ks ++ ls)) →
      (∀ p, some p ∈ call.answers → P p.data) →
      ∃ t, writeTfsPktsStep cfg s call = .ok t ∧ ∃ ls, Framed P cfg t (ks ++ ls) := by
    rintro s call ⟨ls, h⟩ hcall
    rcases h.step h9 hmax hP call hcall with ⟨t, ht, ls', h'⟩
    exact ⟨t, ht, ls ++ ls', by rwa [← List.append_assoc]⟩
  exact run_ok_of_along hstep ⟨[], by rwa [List.append_nil]⟩ (along_of_forall hans)

/-- Every run of the sender on packets with the property `P` succeeds, and its datagrams are
frames of them. -/
theorem framed_of_run {cfg : Config} (h9 : 8 < cfg.tfsmtu) (hmax : cfg.tfsmtu ≤ MAXBUF)
    (hP : ∀ p, P p → p.length < 2 ^ 16) {calls : List WriteCall}
    (hans : ∀ call ∈ calls, ∀ p, some p ∈ call.answers → P p.data)
    {s : Sender} (hrun : run (writeTfsPktsStep cfg) Sender.init calls = .ok s) :
    ∃ ks, Framed P cfg s ks := by
  rcases (framed_init cfg).run h9 hmax hP hans with ⟨u, hu, ls, hls⟩
  rw [hrun] at hu
  cases hu
  exact ⟨_, hls⟩

/-- The record of a run has the calls of the run. -/
theorem calls_of_run {cfg : Config} {calls : List WriteCall} :
    ∀ {s : Sender}, run (writeTfsPktsStep cfg) Sender.init calls = .ok s →
      s.calls.map Prod.fst = calls := by
  induction calls using List.reverseRecOn with
  | nil =>
      intro s h
      cases h
      rfl
  | append_singleton calls call ih =>
      intro s h
      obtain ⟨t, ht, hts⟩ := run_concat.mp h
      simp only [writeTfsPktsStep] at hts
      split at hts
      · cases hts
      · cases hts
        rw [List.map_append, ih ht]
        rfl

end Iptfs.Proofs
