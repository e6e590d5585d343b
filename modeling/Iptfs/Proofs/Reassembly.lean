import Iptfs.Lib.Framing
import Iptfs.Model.AddToInner
import Mathlib.Tactic.Common

/-!
# `Iptfs.Proofs.Reassembly`: `add_to_inner_packet` on a well-formed payload

`Ipv4 p` says that `p` is an IPv4 packet whose total-length field is its length. The
lemmas `add_whole`, `add_pad` and `add_part` say what `add_to_inner_packet` does where a
whole packet, padding, or the beginning of a packet follows in the datagram.
`addRest_whole` and `addRest_tail` put them together for the blocks of a `Framing.Frame`,
and `add_frame_middle` and `add_frame_blocks` deal with the block under way before them.

`Holds m c` ties the packet in progress to the abstract `Framing.Carry`: its bytes are
those that have gone out, and `left` is what is owed. `add_frame` is the simulation. A
datagram with the payload of a frame and the right BlockOffset takes the receiver from one
held block to the next exactly as `Framing.Frame.receive` does, and pushes the blocks that
`receive` delivers.
-/

set_option autoImplicit false

namespace Iptfs.Proofs

open Iptfs.Lib.Framing

/-- A well-formed IPv4 packet. -/
structure Ipv4 (p : List UInt8) : Prop where
  version : ∃ b, p.head? = some b ∧ b &&& 0xF0 = 0x40
  min : 20 ≤ p.length
  total : get16 p 2 = .ok p.length

/-- The length of an IPv4 packet fits its field. -/
theorem Ipv4.length_lt {p : List UInt8} (h : Ipv4 p) : p.length < 2 ^ 16 := by
  obtain ⟨v, hv, hlt⟩ := get16_ok (show 2 + 2 ≤ p.length by have := h.min; omega)
  rw [h.total] at hv
  cases hv
  exact hlt

/-- An IPv4 packet of `n + 20` bytes, for `n + 20 < 256`. -/
def ipv4Packet (n : Nat) : List UInt8 :=
  [0x45, 0, 0, UInt8.ofNat (n + 20)] ++ List.replicate (n + 16) 7

/-- A packet of 20 bytes and `n` more, whose length field says so. -/
theorem ipv4_packet (n : Nat) (h : n + 20 < 256) : Ipv4 (ipv4Packet n) where
  version := ⟨0x45, rfl, by decide⟩
  min := by
    simp [ipv4Packet]
  total := by
    have hmod : (n + 20) % 256 = n + 20 := Nat.mod_eq_of_lt h
    simp [get16, ipv4Packet, hmod]

/-! ### Reading inside a datagram -/

/-- A read behind the start of a buffer is a read of the rest. -/
theorem get16_drop (buf : List UInt8) (s i : Nat) : get16 buf (s + i) = get16 (buf.drop s) i := by
  rw [get16, get16, List.drop_drop]

/-- A read within the first part of two. -/
theorem get16_append_left {p : List UInt8} {i : Nat} (q : List UInt8) (h : i + 2 ≤ p.length) :
    get16 (p ++ q) i = get16 p i := by
  rw [get16, get16, List.drop_append_of_le_length (by omega)]
  have hlen : 2 ≤ (p.drop i).length := by simp; omega
  rcases hd : p.drop i with _ | ⟨a, _ | ⟨b, tail⟩⟩
  · simp [hd] at hlen
  · simp [hd] at hlen
  · rfl

/-- A read within the part of a packet that has come. -/
theorem get16_take {p : List UInt8} {i n : Nat} (h : i + 2 ≤ n) (hn : n ≤ p.length) :
    get16 (p.take n) i = get16 p i := by
  have hlen : i + 2 ≤ (p.take n).length := by simp; omega
  rw [← get16_append_left (p.drop n) hlen, List.take_append_drop]

/-- `mbuf_len` is the number of the bytes that are left. -/
theorem Tbuf.len_eq (t : Tbuf) : t.len = t.rest.length := by
  simp [Tbuf.len, Tbuf.rest]

/-- `tbuf` with `n` more bytes consumed. -/
def Tbuf.advance (t : Tbuf) (n : Nat) : Tbuf := { t with start := t.start + n }

/-- What is left after `n` more bytes. -/
theorem Tbuf.rest_advance (t : Tbuf) (n : Nat) : (Tbuf.advance t n).rest = t.rest.drop n := by
  simp [Tbuf.rest, Tbuf.advance, List.drop_drop]

/-- And how much that is. -/
theorem Tbuf.len_advance (t : Tbuf) (n : Nat) : (Tbuf.advance t n).len = t.rest.length - n := by
  rw [Tbuf.len_eq, Tbuf.rest_advance, List.length_drop]

/-- Something is left when fewer bytes are taken than there are. -/
theorem Tbuf.rest_advance_ne_nil {t : Tbuf} {n : Nat} (h : n < t.rest.length) :
    (Tbuf.advance t n).rest ≠ [] := by
  apply List.ne_nil_of_length_pos
  rw [← Tbuf.len_eq, Tbuf.len_advance]
  omega

/-! ### The buffer of a datagram stays the same -/

/-- The same buffer with the same bytes: only `start` may differ. -/
def Tbuf.Same (t t' : Tbuf) : Prop := t'.id = t.id ∧ t'.data = t.data

/-- Where `add_to_inner_packet` begins, it moves `start` behind the header or leaves it. -/
theorem enterInner_same {tbuf tbuf' : Tbuf} {new : Bool} {offset : Nat}
    (h : enterInner tbuf new = .ok (tbuf', offset)) : Tbuf.Same tbuf tbuf' := by
  rw [enterInner] at h
  split at h
  · cases h
  · split at h
    · split at h
      · split at h
        · cases h
        · cases h
          exact ⟨rfl, rfl⟩
      · cases h
    · cases h
      exact ⟨rfl, rfl⟩

/-- A packet that goes on in the next datagram takes this one to its end. -/
theorem morePass_same {tbuf : Tbuf} {tlen left : Nat} {pass : Pass}
    (h : morePass tbuf tlen left = .ok pass) : Tbuf.Same tbuf (Pass.rest pass) := by
  rw [morePass] at h
  split at h
  · cases h
    exact ⟨rfl, rfl⟩
  · cases h

/-- A packet that ends here moves `start` to its end. -/
theorem finishPass_same {tbuf : Tbuf} {left tlen : Nat} {pass : Pass}
    (h : finishPass tbuf left tlen = .ok pass) : Tbuf.Same tbuf (Pass.rest pass) := by
  rw [finishPass] at h
  split at h
  · exact morePass_same h
  · dsimp only at h
    split at h
    · cases h
      exact ⟨rfl, rfl⟩
    · split at h
      · cases h
      · cases h
        exact ⟨rfl, rfl⟩

/-- Padding is skipped, and a packet that starts moves `start` as far as it goes. -/
theorem startPass_same {tbuf : Tbuf} {offset tlen : Nat} {m : Miov} {pass : Pass}
    (h : startPass tbuf offset tlen m = .ok pass) : Tbuf.Same tbuf (Pass.rest pass) := by
  rw [startPass] at h
  split at h
  · cases h
    exact ⟨rfl, rfl⟩
  · dsimp only at h
    split at h
    · cases h
    · cases h
      exact ⟨rfl, rfl⟩
    · split at h
      · have hsame := morePass_same h
        exact hsame
      · split at h
        · cases h
        · have hsame := finishPass_same h
          exact hsame

/-- No pass leaves the buffer of its datagram, in any branch. The cases are the branches of the
source. -/
theorem innerPass_same {tbuf : Tbuf} {offset : Nat} {m : Miov} {pass : Pass}
    (h : innerPass tbuf offset m = .ok pass) : Tbuf.Same tbuf (Pass.rest pass) := by
  rw [innerPass] at h
  split at h
  · cases h
  · split at h
    · exact startPass_same h
    · split at h
      · cases h
      · split at h
        · split at h
          · exact morePass_same h
          · cases h
            exact ⟨rfl, rfl⟩
        · split at h
          · exact finishPass_same h
          · cases h

/-- The miov with the slice `x` of the datagram added. -/
def addSlice (m : Miov) (t : Tbuf) (x : List UInt8) : Miov :=
  { m with iov := m.iov ++ [⟨t.id, t.start, x⟩], len := m.len + x.length }

/-- The bytes of a miov with one slice more. -/
@[simp] theorem bytes_addSlice (m : Miov) (t : Tbuf) (x : List UInt8) :
    (addSlice m t x).bytes = m.bytes ++ x := by
  simp [addSlice, Miov.bytes]

/-- `miov_addmbuf` with a slice that lies in the datagram. -/
theorem miovAddmbuf_take {t : Tbuf} {n : Nat} (m : Miov) (hpos : 0 < n) (hn : n ≤ t.rest.length) :
    miovAddmbuf m t t.start n = .ok (addSlice m t (t.rest.take n)) := by
  have hlen : t.rest.length = t.data.length - t.start := List.length_drop
  have htake : (t.rest.take n).length = n := List.length_take_of_le hn
  rw [miovAddmbuf, if_pos (by omega), addSlice, htake]
  rfl

/-! ### Where a packet starts -/

/-- `add_to_inner_packet` where it calls itself: at `tbuf->start`, with no packet in
progress. It returns at once when nothing is left. -/
def addRest (fuel : Nat) (t : Tbuf) : Res Added :=
  if t.rest = [] then .ok ⟨t, none, []⟩ else addToInnerPacket fuel t false none

/-- With a clean miov in hand a packet starts. -/
theorem innerPass_clean {t : Tbuf} (hlen : t.rest.length < 2 ^ 16) :
    innerPass t 0 Miov.clean = startPass t 0 t.rest.length Miov.clean := by
  have hmod : t.len % 2 ^ 16 = t.len := by rw [Tbuf.len_eq, Nat.mod_eq_of_lt hlen]
  simp only [innerPass, hmod, ne_eq, not_true_eq_false, if_false, Miov.len_clean, if_true]
  rw [Tbuf.len_eq]

/-- `add_to_inner_packet` on the rest of a datagram is one pass with a clean miov. -/
theorem addToInnerPacket_rest (fuel : Nat) {t : Tbuf} {pass : Pass} (hne : t.rest ≠ [])
    (hlen : t.rest.length < 2 ^ 16)
    (h : startPass t 0 t.rest.length Miov.clean = .ok pass) :
    addToInnerPacket (fuel + 1) t false none =
      applyPass (fun rest => addToInnerPacket fuel rest false none) t Miov.clean pass := by
  have hpos : t.len ≠ 0 := by
    rw [Tbuf.len_eq]
    simpa using hne
  have hpass : innerPass t 0 Miov.clean = .ok pass := by
    rw [innerPass_clean hlen, h]
  simp only [addToInnerPacket, enterInner, hpos, if_false, Bool.false_eq_true, Option.getD_none,
    hpass]

/-- A pass that completes the packet in hand with the next `n` bytes, and then what follows. -/
theorem applyPass_full (fuel : Nat) {t : Tbuf} {n : Nat} (m : Miov) (hpos : 0 < n)
    (hn : n ≤ t.rest.length) :
    applyPass (fun rest => addToInnerPacket fuel rest false none) t m
        (.full t.start n (Tbuf.advance t n) (decide (n < t.rest.length))) =
      (addRest fuel (Tbuf.advance t n)).map
        (Added.cons { addSlice m t (t.rest.take n) with left := 0 }) := by
  simp only [applyPass, miovAddmbuf_take m hpos hn, addRest, Tbuf.rest_advance]
  rcases Nat.lt_or_ge n t.rest.length with hlt | hge
  · have hne : t.rest.drop n ≠ [] := Tbuf.rest_advance t n ▸ Tbuf.rest_advance_ne_nil hlt
    simp only [hlt, decide_true, if_true, if_neg hne]
  · have hnil : t.rest.drop n = [] := List.drop_eq_nil_of_le hge
    have hnot : ¬ n < t.rest.length := by omega
    simp only [hnot, decide_false, Bool.false_eq_true, if_false, if_pos hnil]
    rfl

/-- `finishPass` when the packet ends in the datagram. -/
theorem finishPass_full {t : Tbuf} {n tlen : Nat} (hn : n ≤ tlen) (hlen : t.rest.length < 2 ^ 16) :
    finishPass t n tlen =
      .ok (.full t.start n (Tbuf.advance t n) (decide (n < t.rest.length))) := by
  have hgt : ¬ n > tlen := by omega
  have hadv : Tbuf.len { t with start := t.start + n } = t.rest.length - n := Tbuf.len_advance t n
  have hmod : (t.rest.length - n) % 2 ^ 16 = t.rest.length - n := Nat.mod_eq_of_lt (by omega)
  simp only [finishPass, if_neg hgt, hadv, hmod, ne_eq, not_true_eq_false, if_false]
  rcases Nat.lt_or_ge n t.rest.length with hlt | hge
  · simp only [show ¬ t.rest.length - n = 0 by omega, if_false, hlt, decide_true]
    rfl
  · simp only [show t.rest.length - n = 0 by omega, if_true,
      show ¬ n < t.rest.length by omega, decide_false]
    rfl

/-- A packet starts and ends in the datagram. -/
theorem startPass_full {t : Tbuf} {n : Nat} (hlen : t.rest.length < 2 ^ 16)
    (hn : startIplen t t.rest.length = .ok (some n)) (hpos : n ≠ 0) (hle : n ≤ t.rest.length) :
    startPass t 0 t.rest.length Miov.clean =
      .ok (.full t.start n (Tbuf.advance t n) (decide (n < t.rest.length))) := by
  have h0 : ¬ 0 ≥ t.rest.length := by omega
  have htlen : t.len = t.rest.length := Tbuf.len_eq t
  simp only [startPass, h0, if_false, Nat.add_zero, Nat.sub_zero, hn, hpos, htlen, ne_eq,
    not_true_eq_false]
  exact finishPass_full hle hlen

/-- A packet starts, and its length field says `n` (0 where it is not there yet). It ends in
the datagram, or all that is left of the datagram belongs to it. -/
theorem add_packet (fuel : Nat) {t : Tbuf} {n : Nat} (hne : t.rest ≠ [])
    (hlen : t.rest.length < 2 ^ 16) (hn : startIplen t t.rest.length = .ok (some n)) :
    addToInnerPacket (fuel + 1) t false none =
      if n ≠ 0 ∧ n ≤ t.rest.length then
        (addRest fuel (Tbuf.advance t n)).map
          (Added.cons { addSlice Miov.clean t (t.rest.take n) with left := 0 })
      else
        .ok ⟨Tbuf.advance t t.rest.length,
          some { addSlice Miov.clean t t.rest with left := n - t.rest.length }, []⟩ := by
  have hpos := List.length_pos_iff.mpr hne
  have h0 : ¬ 0 ≥ t.rest.length := by omega
  have htlen : t.len = t.rest.length := Tbuf.len_eq t
  have hend : Tbuf.len { t with start := t.start + t.rest.length } = 0 := by
    have := Tbuf.len_advance t t.rest.length
    rw [Nat.sub_self] at this
    exact this
  -- The packet ends in this datagram, or it goes on in the next one. A length that is not there to
  -- be read counts as zero, and the packet goes on.
  by_cases hfull : n ≠ 0 ∧ n ≤ t.rest.length
  · have hpass := startPass_full hlen hn hfull.1 hfull.2
    rw [addToInnerPacket_rest fuel hne hlen hpass, if_pos hfull,
      applyPass_full fuel _ (by omega) hfull.2]
  · have hpass : startPass t 0 t.rest.length Miov.clean = .ok (.part t.start t.rest.length
        (n - t.rest.length) (Tbuf.advance t t.rest.length)) := by
      simp only [startPass, h0, if_false, Nat.add_zero, Nat.sub_zero, hn, htlen, ne_eq,
        not_true_eq_false]
      -- The length is not known yet, or it is longer than what is left of the datagram.
      by_cases hz : n = 0
      · simp only [hz, if_true, morePass, hend, Nat.zero_sub, Miov.left_clean]
        rfl
      · have hgt : n > t.rest.length := by omega
        simp only [hz, if_false, finishPass, if_pos hgt, morePass, hend, if_true]
        rfl
    rw [addToInnerPacket_rest fuel hne hlen hpass, if_neg hfull, applyPass]
    simp only [miovAddmbuf_take Miov.clean hpos (Nat.le_refl _), List.take_length]

/-- Padding follows: it is skipped. -/
theorem add_pad (fuel : Nat) {t : Tbuf} (hne : t.rest ≠ []) (hlen : t.rest.length < 2 ^ 16)
    (hpad : startIplen t t.rest.length = .ok none) :
    addToInnerPacket (fuel + 1) t false none = .ok ⟨t.skip, some Miov.clean, []⟩ := by
  have hpos := List.length_pos_iff.mpr hne
  have hpass : startPass t 0 t.rest.length Miov.clean = .ok (.keep t.skip) := by
    have h0 : ¬ 0 ≥ t.rest.length := by omega
    simp only [startPass, h0, if_false, Nat.add_zero, Nat.sub_zero, hpad]
  rw [addToInnerPacket_rest fuel hne hlen hpass, applyPass]

/-- The length field of an IPv4 packet of which at least four bytes are there. -/
theorem startIplen_ipv4 {t : Tbuf} {p y : List UInt8} {n : Nat} (hp : Ipv4 p)
    (h : t.rest = p.take n ++ y) (hn4 : 4 ≤ n) (hn : n ≤ p.length) {tlen : Nat} (ht : 4 ≤ tlen) :
    startIplen t tlen = .ok (some p.length) := by
  obtain ⟨b, hb, hver⟩ := hp.version
  have hrest : ∃ tl, t.rest = b :: tl := by
    cases p with
    | nil => simp at hb
    | cons a p =>
        obtain ⟨k, rfl⟩ : ∃ k, n = k + 1 := ⟨n - 1, by omega⟩
        simp only [List.head?_cons, Option.some.injEq] at hb
        subst hb
        exact ⟨p.take k ++ y, h⟩
  obtain ⟨tl, htl⟩ := hrest
  have hfield : get16 t.data (t.start + 2) = .ok p.length := by
    have hdrop : t.data.drop t.start = p.take n ++ y := h
    rw [get16_drop, hdrop, get16_append_left _ (by simp; omega), get16_take (by omega) hn,
      hp.total]
  rw [startIplen, htl]
  simp only [hver, if_true, if_pos (show tlen ≥ 4 from ht), hfield]
  rfl

/-- A whole IPv4 packet follows: it is pushed, and the rest of the datagram is next. -/
theorem add_whole (fuel : Nat) {t : Tbuf} {p y : List UInt8} (hp : Ipv4 p)
    (h : t.rest = p ++ y) (hlen : t.rest.length < 2 ^ 16) :
    addToInnerPacket (fuel + 1) t false none =
      (addRest fuel (Tbuf.advance t p.length)).map
        (Added.cons { addSlice Miov.clean t p with left := 0 }) := by
  have hmin := hp.min
  have hlen' := congrArg List.length h
  rw [List.length_append] at hlen'
  have hne : t.rest ≠ [] := List.ne_nil_of_length_pos (by omega)
  have hiplen : startIplen t t.rest.length = .ok (some p.length) :=
    startIplen_ipv4 hp (by rw [List.take_length]; exact h) (by omega)
      (Nat.le_refl _) (by omega)
  rw [add_packet fuel hne hlen hiplen, if_pos ⟨by omega, by omega⟩]
  congr 3
  rw [h, List.take_left]

/-- The first bytes of an IPv4 packet follow, the length field among them: the packet is in
progress. -/
theorem add_part (fuel : Nat) {t : Tbuf} {p : List UInt8} {n : Nat} (hp : Ipv4 p)
    (h : t.rest = p.take n) (hn4 : 4 ≤ n) (hn : n < p.length) :
    addToInnerPacket (fuel + 1) t false none =
      .ok ⟨Tbuf.advance t n,
        some { addSlice Miov.clean t (p.take n) with left := p.length - n }, []⟩ := by
  have hlt := hp.length_lt
  have hrest : t.rest.length = n := by rw [h]; exact List.length_take_of_le (by omega)
  have hne : t.rest ≠ [] := List.ne_nil_of_length_pos (by omega)
  have hiplen : startIplen t t.rest.length = .ok (some p.length) :=
    startIplen_ipv4 hp (by rw [h, List.append_nil]) hn4 (by omega) (by omega)
  rw [add_packet fuel hne (by omega) hiplen, if_neg (by omega), hrest, h]

/-- Packets go out in front of what a call pushes. -/
def Added.prepend (ms : List Miov) (a : Added) : Added := { a with outq := ms ++ a.outq }

/-- Nothing that went out before. -/
theorem map_prepend_nil (r : Res Added) : r.map (Added.prepend []) = r := by
  cases r <;> rfl

/-- Whole packets at the end of a datagram are pushed one by one, and then comes what
follows them. The induction is on the packets. -/
theorem addRest_whole {whole : List (List UInt8)} (hwhole : ∀ p ∈ whole, Ipv4 p) :
    ∀ (fuel : Nat) (t : Tbuf) (y : List UInt8), t.rest = whole.flatten ++ y →
      t.rest.length < 2 ^ 16 → t.rest.length ≤ fuel →
      ∃ fuel' t' ms, t'.rest = y ∧ y.length ≤ fuel' ∧ ms.map Miov.bytes = whole ∧
        addRest fuel t = (addRest fuel' t').map (Added.prepend ms) := by
  induction whole with
  | nil =>
      intro fuel t y h hlen hfuel
      rw [List.flatten_nil, List.nil_append] at h
      exact ⟨fuel, t, [], h, by rwa [← h], rfl, (map_prepend_nil _).symm⟩
  | cons p whole ih =>
      intro fuel t y h hlen hfuel
      have hip := hwhole p (by simp)
      have hmin := hip.min
      rw [List.flatten_cons, List.append_assoc] at h
      -- Behind the first packet the rest is what the others lay out.
      have hadv : (Tbuf.advance t p.length).rest = whole.flatten ++ y := by
        rw [Tbuf.rest_advance, h, List.drop_left]
      have hlens := congrArg List.length h
      rw [List.length_append] at hlens
      have hne : t.rest ≠ [] := List.ne_nil_of_length_pos (by omega)
      obtain ⟨f, rfl⟩ : ∃ f, fuel = f + 1 := ⟨fuel - 1, by omega⟩
      obtain ⟨fuel', t', ms, ht', hf', hms, hadd⟩ :=
        ih (fun q hq => hwhole q (List.mem_cons_of_mem _ hq)) f
          (Tbuf.advance t p.length) y hadv (by rw [hadv]; omega) (by rw [hadv]; omega)
      refine ⟨fuel', t', { addSlice Miov.clean t p with left := 0 } :: ms, ht', hf', ?_, ?_⟩
      · rw [List.map_cons, hms]
        show (addSlice Miov.clean t p).bytes :: whole = p :: whole
        rw [bytes_addSlice]
        rfl
      · rw [addRest, if_neg hne, add_whole f hip h hlen, hadd]
        -- The packet goes out in front of what the rest of the call pushes.
        cases addRest fuel' t' <;> rfl

/-! ### The packet in progress and the block under way -/

/-- The packet in progress is the block under way: its bytes have gone out, and `left` is
what is owed. Where no block is under way there is no packet, or a clean one. -/
def Holds (m : Option Miov) : Option (Carry UInt8) → Prop
  | none => m.getD Miov.clean = Miov.clean
  | some c =>
      ∃ v, m = some v ∧ v.bytes = c.front ∧ v.len = c.sent ∧ v.left = c.block.length - c.sent

/-- A frame of packets with the property `P`, in which the beginning of a packet has at least
`k` bytes, and padding is zeros. -/
def Sound (P : List UInt8 → Prop) (k : Nat) : Frame UInt8 → Prop
  | .middle _ _ _ _ => True
  | .blocks _ whole next pad =>
      (∀ p ∈ whole, P p) ∧ (∀ c ∈ next, P c.block ∧ k ≤ c.sent) ∧ ∀ b ∈ pad, b = 0

/-- A weaker property of the packets that begin in the frame, and a lower bound. -/
theorem Sound.mono {P Q : List UInt8 → Prop} {k n : Nat} {f : Frame UInt8} (h : Sound P k f)
    (hPQ : ∀ p ∈ f.begun, P p → Q p) (hnk : n ≤ k) : Sound Q n f := by
  cases f with
  | middle c n' hn hlt => trivial
  | blocks owed whole next pad =>
      obtain ⟨hwhole, hnext, hpad⟩ := h
      refine ⟨fun p hp => hPQ p (List.mem_append_left _ hp) (hwhole p hp), ?_, hpad⟩
      intro c hc
      obtain ⟨hP, hk⟩ := hnext c hc
      refine ⟨hPQ c.block (List.mem_append_right _ ?_) hP, Nat.le_trans hnk hk⟩
      simp [Option.mem_def.mp hc]

/-- The end of a datagram after the whole packets: the beginning of a packet, padding, or
nothing. -/
theorem addRest_tail {next : Option (Carry UInt8)} {pad : List UInt8}
    (hnext : ∀ c ∈ next, Ipv4 c.block ∧ 4 ≤ c.sent) (hpad : ∀ b ∈ pad, b = 0) {fuel : Nat}
    {t : Tbuf} (h : t.rest = (next.map Carry.front).getD pad) (hlen : t.rest.length < 2 ^ 16)
    (hfuel : t.rest.length ≤ fuel) :
    ∃ a, addRest fuel t = .ok a ∧ Holds a.m next ∧ a.outq = [] := by
  cases next with
  -- The front of a packet that goes on in the next datagram. Its length field is there.
  | some c =>
      obtain ⟨hip, h4⟩ := hnext c rfl
      have hlt := c.sent_lt
      have hfront := c.length_front
      simp only [Option.map_some, Option.getD_some] at h
      have hne : t.rest ≠ [] := by
        intro h0
        rw [← h, h0] at hfront
        simp at hfront
        omega
      obtain ⟨f, rfl⟩ : ∃ f, fuel = f + 1 := ⟨fuel - 1, by rw [h] at hfuel; omega⟩
      refine ⟨_, by rw [addRest, if_neg hne, add_part f hip h h4 hlt], ?_, rfl⟩
      refine ⟨_, rfl, ?_, ?_, rfl⟩
      · show (addSlice Miov.clean t (c.block.take c.sent)).bytes = c.front
        rw [bytes_addSlice]
        rfl
      · show 0 + (c.block.take c.sent).length = c.sent
        rw [Nat.zero_add]
        exact hfront
  | none =>
      simp only [Option.map_none, Option.getD_none] at h
      cases pad with
      | nil => exact ⟨⟨t, none, []⟩, by rw [addRest, if_pos h], rfl, rfl⟩
      -- Padding begins with a zero byte, at which the call skips the rest.
      | cons b y =>
          have hb : b = 0 := hpad b (by simp)
          subst hb
          have hne : t.rest ≠ [] := by simp [h]
          obtain ⟨f, rfl⟩ : ∃ f, fuel = f + 1 := ⟨fuel - 1, by simp [h] at hfuel; omega⟩
          have hstart : startIplen t t.rest.length = .ok none := by
            rw [startIplen, h]
            rfl
          exact ⟨⟨t.skip, some Miov.clean, []⟩,
            by rw [addRest, if_neg hne, add_pad f hne hlen hstart], rfl, rfl⟩

/-! ### A new datagram -/

/-- The start of a datagram with a header `hdr` and a nonempty payload. -/
theorem enterInner_new (id : Nat) {hdr payload : List UInt8} {offset : Nat}
    (hhdr : hdr.length = 8) (hne : payload ≠ [])
    (hoff : get16 (hdr ++ payload) 6 = .ok offset) :
    enterInner (Tbuf.fresh id (hdr ++ payload)) true =
      .ok (⟨id, hdr ++ payload, 8⟩, offset) := by
  have hpos := List.length_pos_iff.mpr hne
  have hlen : (Tbuf.fresh id (hdr ++ payload)).len = 8 + payload.length := by
    simp only [Tbuf.len, Tbuf.fresh, List.length_append]
    omega
  have h0 : ¬ 8 + payload.length = 0 := by omega
  have h8 : 8 + payload.length > 8 := by omega
  simp only [enterInner, hlen, h0, h8, if_false, if_true]
  simp only [Tbuf.fresh, Nat.zero_add, hoff]

/-- A pass reads the buffer and the bytes of the datagram, not `start`. -/
theorem applyPass_congr (again : Tbuf → Res Added) {t t' : Tbuf} (hid : t.id = t'.id)
    (hdata : t.data = t'.data) (m : Miov) (pass : Pass) :
    applyPass again t m pass = applyPass again t' m pass := by
  cases pass <;> simp only [applyPass, miovAddmbuf, hid, hdata]

/-- With nothing in progress the bytes before the offset are skipped. -/
theorem add_skip (fuel : Nat) {t t' : Tbuf} {m : Option Miov} {offset : Nat}
    (henter : enterInner t true = .ok (t', offset)) (hm : m.getD Miov.clean = Miov.clean)
    (hoff : offset < t'.rest.length) (hlen : t'.rest.length < 2 ^ 16) :
    addToInnerPacket (fuel + 1) t true m =
      addToInnerPacket (fuel + 1) (Tbuf.advance t' offset) false none := by
  have hrest := Tbuf.len_eq t'
  have hlen' : Tbuf.len { t' with start := t'.start + offset } = t'.len - offset := by
    simp only [Tbuf.len]
    omega
  have hne : ¬ t'.len - offset = 0 := by omega
  have hmod : t'.len % 2 ^ 16 = t'.len := Nat.mod_eq_of_lt (by omega)
  have hmod' : (t'.len - offset) % 2 ^ 16 = t'.len - offset := Nat.mod_eq_of_lt (by omega)
  have hge : ¬ offset ≥ t'.len := by omega
  have hge' : ¬ 0 ≥ t'.len - offset := by omega
  -- From the BlockOffset on, the pass is that of a datagram that begins there.
  have hpass : innerPass t' offset Miov.clean =
      innerPass { t' with start := t'.start + offset } 0 Miov.clean := by
    simp only [innerPass, hlen', hmod, hmod', ne_eq, not_true_eq_false, if_false,
      Miov.len_clean, if_true]
    simp only [startPass, hge, hge', if_false, Nat.add_zero, Nat.sub_zero]
  have hagain : ∀ pass, applyPass (fun rest => addToInnerPacket fuel rest false none) t'
      Miov.clean pass = applyPass (fun rest => addToInnerPacket fuel rest false none)
      { t' with start := t'.start + offset } Miov.clean pass :=
    applyPass_congr _ rfl rfl _
  have henter' : enterInner { t' with start := t'.start + offset } false =
      .ok ({ t' with start := t'.start + offset }, 0) := by
    simp only [enterInner, hlen', hne, if_false, Bool.false_eq_true]
  show _ = addToInnerPacket (fuel + 1) { t' with start := t'.start + offset } false none
  rw [addToInnerPacket, addToInnerPacket, henter, henter']
  simp only [hm, Option.getD_none, hpass, hagain]

/-- With nothing in progress and an offset past the end, the datagram is skipped. -/
theorem add_past (fuel : Nat) {t t' : Tbuf} {m : Option Miov} {offset : Nat}
    (henter : enterInner t true = .ok (t', offset)) (hm : m.getD Miov.clean = Miov.clean)
    (hoff : t'.rest.length ≤ offset) (hlen : t'.rest.length < 2 ^ 16) :
    addToInnerPacket (fuel + 1) t true m = .ok ⟨t'.skip, some Miov.clean, []⟩ := by
  have hrest := Tbuf.len_eq t'
  have hmod : t'.len % 2 ^ 16 = t'.len := Nat.mod_eq_of_lt (by omega)
  have hge : offset ≥ t'.len := by omega
  have hpass : innerPass t' offset Miov.clean = .ok (.keep t'.skip) := by
    simp only [innerPass, hmod, ne_eq, not_true_eq_false, if_false, Miov.len_clean, if_true]
    rw [startPass, if_pos hge]
  rw [addToInnerPacket, henter]
  simp only [hm, hpass, applyPass]

/-- Any datagram when a packet with known `left` is in progress. The offset past the end:
more of the packet, or its end and slop. The offset inside: it must be what is owed. -/
theorem add_busy (fuel : Nat) {t t' : Tbuf} {v : Miov} {offset : Nat}
    (henter : enterInner t true = .ok (t', offset)) (hpos : 0 < t'.rest.length)
    (hlen : t'.rest.length < 2 ^ 16) (hv : v.len ≠ 0) (hleft : v.left ≠ 0) :
    addToInnerPacket (fuel + 1) t true (some v) =
      if offset > t'.rest.length then
        if v.left > t'.rest.length then
          .ok ⟨Tbuf.advance t' t'.rest.length,
            some { addSlice v t' t'.rest with left := v.left - t'.rest.length }, []⟩
        else
          .ok ⟨t'.skip, none, [{ addSlice v t' (t'.rest.take v.left) with left := 0 }]⟩
      else if v.left = offset then
        (addRest fuel (Tbuf.advance t' v.left)).map
          (Added.cons { addSlice v t' (t'.rest.take v.left) with left := 0 })
      else .error .assertLeft := by
  have htlen : t'.len = t'.rest.length := Tbuf.len_eq t'
  have hmod : t'.rest.length % 2 ^ 16 = t'.rest.length := Nat.mod_eq_of_lt hlen
  have hend : Tbuf.len { t' with start := t'.start + t'.rest.length } = 0 := by
    have := Tbuf.len_advance t' t'.rest.length
    rw [Nat.sub_self] at this
    exact this
  rw [addToInnerPacket, henter]
  simp only [Option.getD_some, innerPass, htlen, hmod, ne_eq, not_true_eq_false, if_false, hv,
    knownLeft, hleft]
  -- Whether the packet in progress goes on past this datagram is told by the BlockOffset, and how
  -- much of it comes here by `left`.
  by_cases hoff : offset > t'.rest.length
  · rw [if_pos hoff, if_pos hoff]
    by_cases hmore : v.left > t'.rest.length
    · rw [if_pos hmore, if_pos hmore]
      simp only [morePass, hend, if_true, applyPass,
        miovAddmbuf_take v hpos (Nat.le_refl _), List.take_length]
      rfl
    · rw [if_neg hmore, if_neg hmore]
      have hslice := miovAddmbuf_take (t := t') v (Nat.pos_of_ne_zero hleft) (Nat.not_lt.mp hmore)
      simp only [applyPass, hslice, if_false, Bool.false_eq_true]
  · rw [if_neg hoff, if_neg hoff]
    -- Otherwise the two have to agree, and the source asserts that they do.
    by_cases heq : v.left = offset
    · rw [if_pos heq, if_pos heq, ← heq, finishPass_full (Nat.le_refl _) hlen]
      exact applyPass_full fuel v (by omega) (by omega)
    · rw [if_neg heq, if_neg heq]

/-- The datagrams of a frame: 8 bytes of header with the number of bytes owed, and the
elements of the frame. -/
structure Datagram (data : List UInt8) (f : Frame UInt8) : Prop where
  split : ∃ hdr, hdr.length = 8 ∧ data = hdr ++ f.payload
  offset : get16 data 6 = .ok f.owes
  ne : f.payload ≠ []
  lt : f.payload.length < 2 ^ 16

/-- A middle piece of the block under way, with that block in progress or nothing. -/
theorem add_frame_middle (id : Nat) {data : List UInt8} {c : Carry UInt8} {n : Nat}
    {hn : 0 < n} {h : c.sent + n < c.block.length} {m : Option Miov} {held : Option (Carry UInt8)}
    (hd : Datagram data (.middle c n hn h)) (hm : Holds m held)
    (hheld : held = none ∨ held = some c) :
    ∃ a, addToInnerPacket data.length (Tbuf.fresh id data) true m = .ok a ∧
      Holds a.m (held.map fun _ => c.more n h) ∧ a.outq = [] := by
  obtain ⟨⟨hdr, hhdr, rfl⟩, hoff, hne, hlt⟩ := hd
  have henter := enterInner_new id hhdr hne hoff
  have hrest : Tbuf.rest ⟨id, hdr ++ (Frame.middle c n hn h).payload, 8⟩ = c.rest.take n := by
    simp only [Tbuf.rest]
    rw [← hhdr, List.drop_left]
    rfl
  obtain ⟨fuel, hfuel⟩ : ∃ fuel, (hdr ++ (Frame.middle c n hn h).payload).length = fuel + 1 :=
    ⟨(hdr ++ (Frame.middle c n hn h).payload).length - 1, by rw [List.length_append]; omega⟩
  rw [hfuel]
  rcases hheld with rfl | rfl
  · -- Nothing is held: the BlockOffset points past the datagram, and all of it is skipped.
    refine ⟨_, add_past fuel henter hm ?_ (by rw [hrest]; exact hlt), rfl, rfl⟩
    rw [hrest]
    simp only [List.length_take, Carry.length_rest, Frame.owes, Frame.before, Option.map_some,
      Option.getD_some]
    omega
  · -- The packet is held: what comes is added to it, and it stays in progress.
    obtain ⟨v, rfl, hbytes, hvlen, hleft⟩ := hm
    have howes : (Frame.middle c n hn h).owes = c.block.length - c.sent := by
      simp [Frame.owes, Frame.before]
    rw [howes] at henter
    have hcpos := c.sent_pos
    have htake : (c.rest.take n).length = n := by
      rw [List.length_take, Carry.length_rest]
      omega
    have hlast := add_busy fuel henter (by rw [hrest, htake]; exact hn) (by rw [hrest]; exact hlt)
      (show v.len ≠ 0 by omega) (show v.left ≠ 0 by omega)
    rw [hrest, htake, if_pos (by omega), if_pos (by omega)] at hlast
    refine ⟨_, hlast, ⟨_, rfl, ?_, ?_, ?_⟩, rfl⟩
    · show (addSlice v _ (c.rest.take n)).bytes = (c.more n h).front
      rw [bytes_addSlice, hbytes, Carry.front_more]
    · show v.len + (c.rest.take n).length = c.sent + n
      rw [hvlen, htake]
    · show v.left - n = c.block.length - (c.sent + n)
      omega

/-- What a call comes to once the block under way is dealt with: it goes on with `t` after
pushing `ms`, or there is nothing left and nothing to push. -/
def Resumes (r : Res Added) (fuel : Nat) (t : Tbuf) (ms : List Miov) : Prop :=
  r = (addRest fuel t).map (Added.prepend ms) ∨
    (t.rest = [] ∧ ms = [] ∧ ∃ t', r = .ok ⟨t', some Miov.clean, []⟩)

/-- A frame of blocks, with the block under way in progress or nothing: the block under way
is pushed or skipped, and the blocks are next. -/
theorem add_frame_blocks (id : Nat) {data : List UInt8} {owed : Option (Carry UInt8)}
    {whole : List (List UInt8)} {next : Option (Carry UInt8)} {pad : List UInt8}
    {m : Option Miov} {held : Option (Carry UInt8)}
    (hd : Datagram data (.blocks owed whole next pad)) (hm : Holds m held)
    (hheld : held = none ∨ held = owed) :
    ∃ fuel t ms, t.rest = whole.flatten ++ (next.map Carry.front).getD pad ∧
      t.rest.length < 2 ^ 16 ∧ t.rest.length ≤ fuel ∧
      ms.map Miov.bytes = (if held.isSome then (owed.map Carry.block).toList else []) ∧
      Resumes (addToInnerPacket data.length (Tbuf.fresh id data) true m) fuel t ms := by
  obtain ⟨⟨hdr, hhdr, rfl⟩, hoff, hne, hlt⟩ := hd
  have henter := enterInner_new id hhdr hne hoff
  generalize hpayload : (Frame.blocks owed whole next pad).payload = payload at *
  generalize howes : (Frame.blocks owed whole next pad).owes = owes at *
  have hrest : Tbuf.rest ⟨id, hdr ++ payload, 8⟩ = payload := by
    simp only [Tbuf.rest]
    rw [← hhdr, List.drop_left]
  have hpos := List.length_pos_iff.mpr hne
  have hlens : (hdr ++ payload).length = 8 + payload.length := by rw [List.length_append, hhdr]
  obtain ⟨fuel, hfuel⟩ : ∃ fuel, (hdr ++ payload).length = fuel + 1 :=
    ⟨(hdr ++ payload).length - 1, by omega⟩
  rw [hfuel]
  rcases hheld with rfl | rfl
  · -- Nothing is in progress: the bytes owed are skipped.
    have htail : Tbuf.rest ⟨id, hdr ++ payload, 8 + owes⟩ =
        whole.flatten ++ (next.map Carry.front).getD pad := by
      simp only [Tbuf.rest]
      rw [← hhdr, ← List.drop_drop, List.drop_left, ← hpayload, ← howes]
      cases owed <;> simp [Frame.payload, Frame.owes, Frame.before]
    have htlen : Tbuf.rest ⟨id, hdr ++ payload, 8 + owes⟩ = payload.drop owes := by
      simp only [Tbuf.rest]
      rw [← hhdr, ← List.drop_drop, List.drop_left]
    have hdrop : (payload.drop owes).length = payload.length - owes := List.length_drop
    refine ⟨fuel + 1, _, [], htail, by rw [htlen]; omega, by rw [htlen]; omega, rfl, ?_⟩
    rcases Nat.lt_or_ge owes payload.length with hlo | hge
    · left
      have hne' : Tbuf.rest ⟨id, hdr ++ payload, 8 + owes⟩ ≠ [] := by
        rw [htlen]
        apply List.ne_nil_of_length_pos
        omega
      rw [add_skip fuel henter hm (by rw [hrest]; exact hlo) (by rw [hrest]; exact hlt), addRest,
        if_neg hne']
      exact (map_prepend_nil _).symm
    · right
      refine ⟨?_, rfl, _, add_past fuel henter hm (by rw [hrest]; exact hge)
        (by rw [hrest]; exact hlt)⟩
      rw [htlen]
      exact List.drop_eq_nil_of_le hge
  · cases held with
    | none =>
        have h0 : owes = 0 := by rw [← howes]; rfl
        subst h0
        refine ⟨fuel + 1, ⟨id, hdr ++ payload, 8⟩, [], ?_, by rw [hrest]; exact hlt,
          by rw [hrest]; omega, rfl, .inl ?_⟩
        · rw [hrest, ← hpayload]
          rfl
        · rw [add_skip fuel henter hm (by rw [hrest]; exact hpos) (by rw [hrest]; exact hlt),
            addRest, if_neg (by rw [hrest]; exact hne)]
          exact (map_prepend_nil _).symm
    | some c =>
        -- The block under way is in progress: it is pushed.
        obtain ⟨v, rfl, hbytes, hvlen, hleft⟩ := hm
        have ho : owes = c.block.length - c.sent := by
          rw [← howes]
          simp [Frame.owes, Frame.before]
        subst ho
        have hpay : Tbuf.rest ⟨id, hdr ++ payload, 8⟩ =
            c.rest ++ (whole.flatten ++ (next.map Carry.front).getD pad) := by
          rw [hrest, ← hpayload]
          rfl
        have hcpos := c.sent_pos
        have hcrest := c.rest_pos
        have hclen := c.length_rest
        have htail : (Tbuf.advance ⟨id, hdr ++ payload, 8⟩ v.left).rest =
            whole.flatten ++ (next.map Carry.front).getD pad := by
          rw [Tbuf.rest_advance, hpay, hleft, ← hclen, List.drop_left]
        have htake : (Tbuf.rest ⟨id, hdr ++ payload, 8⟩).take v.left = c.rest := by
          rw [hpay, hleft, ← hclen, List.take_left]
        have hplen := congrArg List.length hpay
        rw [hrest, List.length_append] at hplen
        have hlast := add_busy fuel henter (by rw [hrest]; exact hpos) (by rw [hrest]; exact hlt)
          (show v.len ≠ 0 by omega) (show v.left ≠ 0 by omega)
        rw [if_neg (by rw [hrest]; omega), if_pos hleft, htake] at hlast
        refine ⟨fuel, _, [{ addSlice v _ c.rest with left := 0 }], htail, by rw [htail]; omega,
          by rw [htail]; omega, ?_, .inl hlast⟩
        show [(addSlice v _ c.rest).bytes] = [c.block]
        rw [bytes_addSlice, hbytes, Carry.front_append_rest]

/-- The simulation: `add_to_inner_packet` on the datagram of a frame does what
`Frame.receive` does. The packet in progress is the block under way before the frame, or
there is none. -/
theorem add_frame (id : Nat) {data : List UInt8} {f : Frame UInt8} {m : Option Miov}
    {held : Option (Carry UInt8)} (hd : Datagram data f) (hsound : Sound Ipv4 4 f)
    (hm : Holds m held) (hheld : held = none ∨ held = f.before) :
    ∃ a, addToInnerPacket data.length (Tbuf.fresh id data) true m = .ok a ∧
      Holds a.m (f.receive held).1 ∧ a.outq.map Miov.bytes = (f.receive held).2 := by
  cases f with
  | middle c n hn h =>
      obtain ⟨a, ha, hholds, hout⟩ := add_frame_middle id hd hm hheld
      exact ⟨a, ha, hholds, by rw [hout]; rfl⟩
  | blocks owed whole next pad =>
      obtain ⟨hwhole, hnext, hpad⟩ := hsound
      obtain ⟨fuel, t, ms, hrest, hlen, hfuel, hms, hres⟩ := add_frame_blocks id hd hm hheld
      obtain ⟨fuel', t', ns, hrest', hfuel', hns, hadd⟩ := addRest_whole hwhole fuel t _ hrest hlen
        hfuel
      have hle := congrArg List.length hrest
      rw [List.length_append, ← hrest'] at hle
      have hfuel'' : t'.rest.length ≤ fuel' := hrest' ▸ hfuel'
      obtain ⟨a, ha, hholds, hout⟩ := addRest_tail hnext hpad hrest' (by omega) hfuel''
      rcases hres with hres | ⟨h0, rfl, t'', hres⟩
      · refine ⟨Added.prepend ms (Added.prepend ns a), by rw [hres, hadd, ha]; rfl, hholds, ?_⟩
        simp [Added.prepend, hout, hms, hns, Frame.receive]
      · -- The frame ends where the block under way does.
        rw [h0] at hrest
        obtain ⟨hw, ht⟩ := List.append_eq_nil_iff.mp hrest.symm
        have hwnil : whole = [] := by
          cases whole with
          | nil => rfl
          | cons p whole =>
              have hmin := (hwhole p (by simp)).min
              have hp0 : p = [] := List.flatten_eq_nil_iff.mp hw p (by simp)
              simp [hp0] at hmin
        have hnnil : next = none := by
          cases next with
          | none => rfl
          | some c =>
              have hfront := c.length_front
              have hpos := c.sent_pos
              simp only [Option.map_some, Option.getD_some] at ht
              simp [ht] at hfront
              omega
        subst hwnil hnnil
        refine ⟨_, hres, rfl, ?_⟩
        simp only [Frame.receive, ← hms]
        rfl

end Iptfs.Proofs
