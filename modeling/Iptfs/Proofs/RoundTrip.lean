import Iptfs.Proofs.Delivery
import Iptfs.Proofs.InOrder
import Mathlib.Data.List.Forall2

/-!
# `Iptfs.Proofs.RoundTrip`: decode after encode, for IPv4 and IPv6

The sender cuts packets of either version. The receiver reads the length of an IPv6 packet
from its payload-length field, and that leaves out the 40 bytes of the header.
`roundTrip_iff` settles what follows: a stream that arrives complete and in order comes out
as it went in exactly when there is no IPv6 packet in it, and no packet takes more datagrams
than the receiver has mbufs, or its arrays have entries.
-/

set_option autoImplicit false

namespace Iptfs.Proofs

open Iptfs.Lib Iptfs.Lib.Framing

/-- A well-formed IPv6 packet. -/
structure Ipv6 (p : List UInt8) : Prop where
  version : ∃ b, p.head? = some b ∧ b &&& 0xF0 = 0x60
  min : 40 ≤ p.length
  payload : get16 p 4 = .ok (p.length - 40)

/-- A packet of either version that fits a buffer. -/
def InnerPacket (p : List UInt8) : Prop := (Ipv4 p ∨ Ipv6 p) ∧ p.length ≤ MAXBUF - HDRSPACE

/-- A packet whose length field says how long it is fits 16 bits. -/
theorem InnerPacket.length_lt {p : List UInt8} (h : InnerPacket p) : p.length < 2 ^ 16 := by
  have hle := h.2
  simp only [MAXBUF, HDRSPACE] at hle
  omega

/-- The version is one or the other. -/
theorem Ipv4.not_ipv6 {p : List UInt8} (h : Ipv4 p) : ¬ Ipv6 p := by
  intro h6
  obtain ⟨b, hb, h4⟩ := h.version
  obtain ⟨b', hb', h6⟩ := h6.version
  rw [hb] at hb'
  cases hb'
  rw [h4] at h6
  exact absurd h6 (by decide)

/-- The length field of an IPv6 packet of which at least six bytes are there. -/
theorem startIplen_ipv6 {t : Tbuf} {p y : List UInt8} {n : Nat} (hp : Ipv6 p)
    (h : t.rest = p.take n ++ y) (hn6 : 6 ≤ n) (hn : n ≤ p.length) {tlen : Nat} (ht : 6 ≤ tlen) :
    startIplen t tlen = .ok (some (p.length - 40)) := by
  obtain ⟨b, hb, hver⟩ := hp.version
  obtain ⟨tl, htl⟩ : ∃ tl, t.rest = b :: tl := by
    cases p with
    | nil => simp at hb
    | cons a p =>
        obtain ⟨k, rfl⟩ : ∃ k, n = k + 1 := ⟨n - 1, by omega⟩
        simp only [List.head?_cons, Option.some.injEq] at hb
        subst hb
        exact ⟨p.take k ++ y, h⟩
  have hfield : get16 t.data (t.start + 4) = .ok (p.length - 40) := by
    have hdrop : t.data.drop t.start = p.take n ++ y := h
    rw [get16_drop, hdrop, get16_append_left _ (by simp; omega), get16_take (by omega) hn,
      hp.payload]
  rw [startIplen, htl]
  simp only [hver, show (0x60 : UInt8) ≠ 0x40 by decide, if_false, if_true,
    if_pos (show tlen ≥ 6 from ht), hfield]
  rfl

/-- The first packet of a list that is not IPv4. -/
theorem exists_first_ipv6 {ps : List (List UInt8)} (hps : ∀ p ∈ ps, InnerPacket p)
    (h : ∃ p ∈ ps, Ipv6 p) :
    ∃ before p after, ps = before ++ p :: after ∧ (∀ q ∈ before, Ipv4 q) ∧ Ipv6 p := by
  induction ps with
  | nil => simp at h
  | cons p ps ih =>
      rcases (hps p (by simp)).1 with h4 | h6
      · have hrest : ∃ q ∈ ps, Ipv6 q := by
          obtain ⟨q, hq, h6⟩ := h
          rcases List.mem_cons.mp hq with rfl | hq
          · exact absurd h6 h4.not_ipv6
          · exact ⟨q, hq, h6⟩
        obtain ⟨before, q, after, hsplit, hbefore, h6⟩ :=
          ih (fun q hq => hps q (List.mem_cons_of_mem _ hq)) hrest
        refine ⟨p :: before, q, after, by rw [hsplit]; rfl, ?_, h6⟩
        intro r hr
        rcases List.mem_cons.mp hr with rfl | hr
        · exact h4
        · exact hbefore r hr
      · exact ⟨[], p, ps, rfl, by simp, h6⟩

/-- A frame in which an IPv6 packet begins is misread: the first such packet is cut after its
length field or not at all, and the field says 40 bytes less. -/
theorem misread_of_ipv6 {f : Frame UInt8} (hs : Sound InnerPacket 7 f)
    (h : ∃ p ∈ f.begun, Ipv6 p) : Misread f := by
  cases f with
  | middle c n hn hlt => simp [Frame.begun] at h
  | blocks owed whole next pad =>
      obtain ⟨hwhole, hnext, hpad⟩ := hs
      by_cases hw : ∃ p ∈ whole, Ipv6 p
      · -- It lies in the frame as a whole.
        obtain ⟨before, p, after, rfl, hbefore, h6⟩ := exists_first_ipv6 hwhole hw
        have hmin := h6.min
        refine ⟨owed, _, next, pad, before, p, after ++ (next.map Carry.block).toList,
          p ++ (after.flatten ++ (next.map Carry.front).getD pad), p.length - 40, rfl, ?_, hbefore,
          ?_, ?_, ?_, by omega⟩
        · simp [Frame.begun]
        · apply List.ne_nil_of_length_pos
          rw [List.length_append]
          omega
        · simp
        · intro t ht
          refine startIplen_ipv6 h6 (by rw [List.take_length]; exact ht) (by omega) (Nat.le_refl _)
            ?_
          rw [List.length_append]
          omega
      · -- Its beginning is the end of the frame.
        obtain ⟨p, hp, h6⟩ := h
        have hpn : p ∈ (next.map Carry.block).toList := by
          rcases List.mem_append.mp hp with hp | hp
          · exact absurd ⟨p, hp, h6⟩ hw
          · exact hp
        cases next with
        | none => simp at hpn
        | some c =>
            obtain rfl : p = c.block := by simpa using hpn
            obtain ⟨-, h7⟩ := hnext c rfl
            have hfront := c.length_front
            have hlt := c.sent_lt
            have hmin := h6.min
            refine ⟨owed, whole, some c, pad, whole, c.block, [], c.front, c.block.length - 40,
              rfl, rfl, ?_, ?_, rfl, ?_, by omega⟩
            · intro q hq
              rcases (hwhole q hq).1 with h4 | h6'
              · exact h4
              · exact absurd ⟨q, hq, h6'⟩ hw
            · exact List.ne_nil_of_length_pos (by omega)
            · intro t ht
              exact startIplen_ipv6 h6 (by rw [ht, List.append_nil]; rfl) (by omega)
                (Nat.le_of_lt hlt) (by omega)

/-- The datagram of a frame is clear when no IPv6 packet begins in it, and garbled when one
does. -/
theorem clear_iff_ipv4 {k : Cut UInt8} {d : Nat × List UInt8} (hd : Datagram d.2 k.frame)
    (hs : Sound InnerPacket 7 k.frame) :
    (Clear k d ↔ ∀ p ∈ k.frame.begun, ¬ Ipv6 p) ∧ (Clear k d ∨ Garbled k d) := by
  by_cases h : ∃ p ∈ k.frame.begun, Ipv6 p
  · have hno : ¬ Clear k d := by
      rintro ⟨-, h4⟩
      obtain ⟨p, hp, h6⟩ := h
      cases hf : k.frame with
      | middle c n hn hlt => simp [hf, Frame.begun] at hp
      | blocks owed whole next pad =>
          rw [hf] at hp h4
          rcases List.mem_append.mp hp with hp | hp
          · exact (h4.1 p hp).not_ipv6 h6
          · cases next with
            | none => simp at hp
            | some c =>
                obtain rfl : p = c.block := by simpa using hp
                exact (h4.2.1 c rfl).1.not_ipv6 h6
    refine ⟨⟨fun hc => absurd hc hno, fun hall => ?_⟩, .inr (.inr ⟨hd, misread_of_ipv6 hs h⟩)⟩
    obtain ⟨p, hp, h6⟩ := h
    exact absurd h6 (hall p hp)
  · have hall : ∀ p ∈ k.frame.begun, ¬ Ipv6 p := fun p hp h6 => h ⟨p, hp, h6⟩
    have hclear : Clear k d :=
      ⟨hd, hs.mono (fun p hp hin => hin.1.resolve_right (hall p hp)) (by decide)⟩
    exact ⟨⟨fun _ => hall, fun _ => hclear⟩, .inl hclear⟩

/-- Decode after encode. When all datagrams of a drained sender arrive once and in order, the
receiver delivers the packets that the sender took exactly when none of them is IPv6, and each
of them is carried by no more datagrams than there are mbufs and entries of a miov. -/
theorem roundTrip_iff (cfg : Config) (h15 : 15 ≤ cfg.tfsmtu)
    (hmax : cfg.tfsmtu ≤ MAXBUF - HDRSPACE) (calls : List WriteCall)
    (hsent : ∀ call ∈ calls, call.sent = true)
    (hans : ∀ call ∈ calls, ∀ p, some p ∈ call.answers → InnerPacket p.data) (s : Sender)
    (hrun : run (writeTfsPktsStep cfg) Sender.init calls = .ok s) (hdrained : s.leftover = none)
    (ds : List (Nat × List UInt8)) (hds : ds.map Prod.snd = s.emitted) :
    (∃ r, run (confinedInner cfg) Inner.init ds = .ok r ∧ r.outq.map Miov.bytes = s.packets) ↔
      (∀ p ∈ s.packets, ¬ Ipv6 p) ∧ ∀ S ∈ s.ledger.shipments,
        S.carriers.length ≤ OUTERQSZ ∧ S.carriers.length ≤ cfg.maxiov := by
  have hmax' : cfg.tfsmtu ≤ MAXBUF := Nat.le_trans hmax (Nat.sub_le _ _)
  obtain ⟨ks, hf⟩ := framed_of_run (by omega) hmax' (fun _ hp => InnerPacket.length_lt hp) hans hrun
  have hblocks : (ks.map fun k => k.frame.begun).flatten = s.packets := by
    rw [← ledger_blocks, hf.begun_eq (by omega)]
  have hend : carryAfter none ks = none := by
    have hleft := hf.leftover
    rw [hdrained, Option.map_none] at hleft
    exact Option.map_eq_none_iff.mp hleft.symm
  -- Each datagram is that of its frame.
  have hframes := hf.emitted (by omega) hmax' (sent_of_run hsent hrun)
  rw [← hds, List.forall₂_map_right_iff, List.forall₂_iff_get] at hframes
  have hlen := hframes.1
  have hpair : ∀ (i : Nat) (k : Cut UInt8) (d : Nat × List UInt8),
      ks[i]? = some k → ds[i]? = some d →
      k.left = true ∧ Datagram d.2 k.frame ∧ Sound InnerPacket 7 k.frame := by
    intro i k d hk hd
    rcases List.getElem?_eq_some_iff.mp hk with ⟨h1, rfl⟩
    rcases List.getElem?_eq_some_iff.mp hd with ⟨h2, rfl⟩
    exact hframes.2 i h1 h2
  have hleft : ∀ k ∈ ks, k.left = true := by
    intro k hk
    obtain ⟨i, hi, hki⟩ := List.getElem_of_mem hk
    have hk' : ks[i]? = some k := by rw [List.getElem?_eq_getElem hi, hki]
    exact (hpair i k _ hk' (List.getElem?_eq_getElem (by omega))).1
  have hall : List.Forall₂ (fun k d => Clear k d ∨ Garbled k d) ks ds := by
    rw [List.forall₂_iff_get]
    refine ⟨hlen, fun i h1 h2 => ?_⟩
    obtain ⟨-, hd, hs⟩ := hpair i _ _ (List.getElem?_eq_getElem h1) (List.getElem?_eq_getElem h2)
    exact (clear_iff_ipv4 hd hs).2
  have hclear : List.Forall₂ Clear ks ds ↔ ∀ k ∈ ks, ∀ p ∈ k.frame.begun, ¬ Ipv6 p := by
    rw [List.forall₂_iff_get]
    constructor
    · rintro ⟨-, h⟩ k hk
      obtain ⟨i, hi, rfl⟩ := List.getElem_of_mem hk
      have hi' : i < ds.length := by omega
      obtain ⟨-, hd, hs⟩ := hpair i _ _ (List.getElem?_eq_getElem hi) (List.getElem?_eq_getElem hi')
      exact (clear_iff_ipv4 hd hs).1.mp (h i hi hi')
    · intro h
      refine ⟨hlen, fun i h1 h2 => ?_⟩
      obtain ⟨-, hd, hs⟩ := hpair i _ _ (List.getElem?_eq_getElem h1) (List.getElem?_eq_getElem h2)
      exact (clear_iff_ipv4 hd hs).1.mpr (h _ (List.getElem_mem h1))
  have hdel := delivered_iff_clear (s := Inner.init) hall hf.chained hleft hend rfl
  rw [hblocks] at hdel
  rw [confined_delivers_iff, show (∃ r, run innerStep Inner.init ds = .ok r ∧
    r.outq.map Miov.bytes = s.packets) ↔ List.Forall₂ Clear ks ds from hdel]
  have hversion : List.Forall₂ Clear ks ds ↔ ∀ p ∈ s.packets, ¬ Ipv6 p := by
    rw [hclear, ← hblocks]
    simp only [List.mem_flatten, List.mem_map]
    constructor
    · rintro h p ⟨l, ⟨k, hk, rfl⟩, hp⟩
      exact h k hk p hp
    · intro h k hk p hp
      exact h p ⟨_, ⟨k, hk, rfl⟩, hp⟩
  -- What the packets take of the pool and the arrays.
  rw [← hversion]
  refine and_congr_right fun hcl => ?_
  have hpos : 0 < min OUTERQSZ cfg.maxiov := Nat.lt_min.mpr ⟨by decide, maxiov_pos cfg⟩
  rw [along_room_iff (s := Inner.init) hcl hf.chained hleft rfl, hf.ledger,
    show entries Inner.init.m = 0 from rfl, within_iff_carriers hpos hf.chained hleft hend]
  simp only [Nat.le_min]

/-- An IPv4 packet of 60 bytes over two datagrams. -/
theorem roundTrip_two :
    ∃ s r, run (writeTfsPktsStep ⟨40, false, false⟩) Sender.init
        [⟨[some ⟨0, ipv4Packet 40, 0⟩], true⟩, ⟨[], true⟩] = .ok s ∧
      run (confinedInner ⟨40, false, false⟩) Inner.init (s.emitted.map fun d => (0, d)) = .ok r ∧
      r.outq.map Miov.bytes = s.packets := by
  have hans : ∀ call ∈ [(⟨[some ⟨0, ipv4Packet 40, 0⟩], true⟩ : WriteCall), ⟨[], true⟩],
      ∀ p, some p ∈ call.answers → InnerPacket p.data := by
    intro call hcall p hp
    rcases List.mem_cons.mp hcall with rfl | hcall
    · simp only [List.mem_singleton, Option.some.injEq] at hp
      rw [hp]
      exact ⟨.inl (ipv4_packet 40 (by decide)), by decide⟩
    · rw [List.mem_singleton.mp hcall] at hp
      simp at hp
  obtain ⟨s, hs, hleft, hpackets, hcarriers⟩ : ∃ s,
      run (writeTfsPktsStep ⟨40, false, false⟩) Sender.init
        [⟨[some ⟨0, ipv4Packet 40, 0⟩], true⟩, ⟨[], true⟩] = .ok s ∧ s.leftover = none ∧
      s.packets = [ipv4Packet 40] ∧ s.ledger.shipments.map Shipment.carriers = [[0, 1]] :=
    ⟨_, rfl, by decide, by decide, by decide⟩
  obtain ⟨r, hr, hout⟩ := (roundTrip_iff ⟨40, false, false⟩ (by decide) (by decide) _ (by decide)
    hans s hs hleft (s.emitted.map fun d => (0, d)) (by
      rw [List.map_map]
      exact List.map_id _)).mpr (by
    constructor
    · rw [hpackets]
      intro p hp
      rw [List.mem_singleton.mp hp]
      exact (ipv4_packet 40 (by decide)).not_ipv6
    · intro S hS
      have hmem := List.mem_map_of_mem (f := Shipment.carriers) hS
      rw [hcarriers, List.mem_singleton] at hmem
      rw [hmem]
      decide)
  exact ⟨s, r, hs, hr, hout⟩

/-- An IPv6 packet of `n + 40` bytes, for `n < 256`. -/
def ipv6Packet (n : Nat) : List UInt8 :=
  [0x60, 0, 0, 0, 0, UInt8.ofNat n] ++ List.replicate (n + 34) 7

/-- A packet of 40 bytes and `n` more, whose length field says so. -/
theorem ipv6_packet (n : Nat) (h : n < 256) : Ipv6 (ipv6Packet n) where
  version := ⟨0x60, rfl, by decide⟩
  min := by
    simp [ipv6Packet]
  payload := by
    have hmod : n % 256 = n := Nat.mod_eq_of_lt h
    simp [get16, ipv6Packet, hmod]

/-- An IPv6 packet without payload: its length field says 0, and it never comes out. -/
theorem roundTrip_ipv6_lost :
    ¬ ∀ cfg : Config, 15 ≤ cfg.tfsmtu → cfg.tfsmtu ≤ MAXBUF - HDRSPACE →
      ∀ calls : List WriteCall, (∀ call ∈ calls, call.sent = true) →
      (∀ call ∈ calls, ∀ p, some p ∈ call.answers → InnerPacket p.data) →
      ∀ s : Sender, run (writeTfsPktsStep cfg) Sender.init calls = .ok s → s.leftover = none →
      ∀ ds : List (Nat × List UInt8), ds.map Prod.snd = s.emitted →
      ∃ r, run (confinedInner cfg) Inner.init ds = .ok r ∧ r.outq.map Miov.bytes = s.packets := by
  intro hall
  have hans : ∀ call ∈ [(⟨[some ⟨0, ipv6Packet 0, 0⟩], true⟩ : WriteCall)],
      ∀ p, some p ∈ call.answers → InnerPacket p.data := by
    intro call hcall p hp
    rw [List.mem_singleton.mp hcall] at hp
    simp only [List.mem_singleton, Option.some.injEq] at hp
    rw [hp]
    exact ⟨.inr (ipv6_packet 0 (by decide)), by decide⟩
  obtain ⟨s, hs, hleft, hemitted, hpackets⟩ : ∃ s, run (writeTfsPktsStep ⟨60, false, false⟩)
      Sender.init [⟨[some ⟨0, ipv6Packet 0, 0⟩], true⟩] = .ok s ∧ s.leftover = none ∧
      s.emitted = [wtfsHdr 1 0 ++ (ipv6Packet 0 ++ List.replicate 12 0)] ∧
      s.packets = [ipv6Packet 0] := ⟨_, rfl, by decide, by decide, by decide⟩
  obtain ⟨r, hr, hout⟩ := hall ⟨60, false, false⟩ (by decide) (by decide) _ (by decide) hans s hs
    hleft [(0, wtfsHdr 1 0 ++ (ipv6Packet 0 ++ List.replicate 12 0))] (by rw [hemitted]; rfl)
  have hnone : (run (confinedInner ⟨60, false, false⟩) Inner.init
      [(0, wtfsHdr 1 0 ++ (ipv6Packet 0 ++ List.replicate 12 0))]).map (fun r => r.outq) =
      .ok [] := by
    decide
  rw [hr] at hnone
  have hnil : r.outq = [] := Except.ok.inj hnone
  rw [hpackets, hnil] at hout
  revert hout
  decide

end Iptfs.Proofs
