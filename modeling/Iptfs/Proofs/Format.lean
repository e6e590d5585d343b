import Iptfs.Proofs.Receiver
import Iptfs.Proofs.SenderFrames
import Iptfs.Spec.Format

/-!
# `Iptfs.Proofs.Format`: the sender's stream obeys the format

What one packing loop lays out is read off `Packed`, by induction, one fact each:
`iovBytes_packed` (padding is zeros at the end), `iovData_packed` (the packets end to end),
`room_packed` (no packet begins in less than 7 bytes) and `cut_packed` (the leftover is the
end of the last packet). `packLoop_pads` adds when the loop pads.

`Streamed` is the invariant of a run: the leftover is the end of the packet that the stream
is cut in. `Streamed.step` shows that a call keeps it.
-/

set_option autoImplicit false

namespace Iptfs.Proofs

open Iptfs.Lib Iptfs.Lib.Framing

/-! ### What one packing loop lays out -/

@[simp] theorem iovData_nil : iovData [] = [] := rfl

/-- The data of a gather list is that of its entries, one after the other. -/
@[simp] theorem iovData_cons (v : Iov) (iov : List Iov) :
    iovData (v :: iov) = v.data ++ iovData iov := by
  simp [iovData]

/-- The packets first, and then zeros to the end of the datagram. -/
theorem iovBytes_packed {room : Nat} {ms : List Mbuf} {iov : List Iov} {freed : List Mbuf}
    {leftover : Option Mbuf} (h : Packed room ms iov freed leftover) (hroom : room ≤ MAXBUF) :
    iovBytes iov = iovData iov ++ List.replicate (room - (iovData iov).length) 0 := by
  induction h with
  | exact => rfl
  | pad room hpos =>
      simp [Iov.bytes, Iov.data, List.take_replicate, Nat.min_eq_left hroom]
  | lost room m hpos h6 =>
      simp [Iov.bytes, Iov.data, List.take_replicate, Nat.min_eq_left hroom]
  | part room m h6 hlen =>
      -- The packet goes on past the datagram, so there is no padding.
      have hfull : room - (iovData [.mbuf m room]).length = 0 := by
        simp only [Mbuf.len] at hlen
        simp [Iov.data]
        omega
      rw [hfull]
      simp [Iov.bytes, Iov.data]
  | full room m ms iov freed leftover h6 hlen hms h ih =>
      have htake : m.data.take m.len = m.data := List.take_length
      rw [iovBytes_cons, iovData_cons, ih (by omega), Iov.bytes, Iov.data, htake,
        List.append_assoc, List.length_append]
      simp only [Mbuf.len, Nat.sub_add_eq]

/-- The packets end to end, the leftover being what is missing of the last. -/
theorem iovData_packed {room : Nat} {ms : List Mbuf} {iov : List Iov} {freed : List Mbuf}
    {leftover : Option Mbuf} (h : Packed room ms iov freed leftover)
    (hne : ms ≠ [] → 6 < room) :
    iovData iov ++ (leftover.map Mbuf.data).getD [] = (ms.map Mbuf.data).flatten := by
  induction h with
  | exact => rfl
  | pad room hpos => simp [Iov.data]
  | lost room m hpos h6 =>
      have := hne (by simp)
      omega
  | part room m h6 hlen => simp [Iov.data]
  | full room m ms iov freed leftover h6 hlen hms h ih =>
      have htake : m.data.take m.len = m.data := List.take_length
      rw [iovData_cons, Iov.data, htake, List.append_assoc, ih hms]
      simp

/-- More than 6 bytes of room are left where a packet begins. -/
theorem room_packed {room : Nat} {ms : List Mbuf} {iov : List Iov} {freed : List Mbuf}
    {leftover : Option Mbuf} (h : Packed room ms iov freed leftover)
    (hne : ms ≠ [] → 6 < room) {ps qs : List Mbuf} {p : Mbuf} (hms : ms = ps ++ p :: qs) :
    6 < room - (ps.map Mbuf.data).flatten.length := by
  induction h generalizing ps with
  | exact => simp at hms
  | pad room hpos => simp at hms
  | lost room m hpos h6 =>
      have := hne (by simp)
      omega
  | part room m h6 hlen =>
      cases ps with
      | nil => simpa using h6
      | cons q ps => simp at hms
  | full room m ms iov freed leftover h6 hlen hne' h ih =>
      cases ps with
      | nil => simpa using h6
      | cons q ps =>
          rw [List.cons_append, List.cons.injEq] at hms
          have hrest := ih hne' hms.2
          rw [← hms.1, List.map_cons, List.flatten_cons, List.length_append]
          simp only [Mbuf.len] at hrest
          omega

/-- The leftover is the end of the last packet, cut somewhere inside it. -/
theorem cut_packed {room : Nat} {ms : List Mbuf} {iov : List Iov} {freed : List Mbuf}
    {leftover : Option Mbuf} (h : Packed room ms iov freed leftover) {m' : Mbuf}
    (hleft : leftover = some m') :
    ∃ init last k, ms = init ++ [last] ∧ m'.data = last.data.drop k ∧ 0 < k ∧
      k < last.data.length := by
  induction h with
  | exact => cases hleft
  | pad room hpos => cases hleft
  | lost room m hpos h6 => cases hleft
  | part room m h6 hlen =>
      cases hleft
      exact ⟨[], m, room, rfl, rfl, by omega, hlen⟩
  | full room m ms iov freed leftover h6 hlen hms h ih =>
      rcases ih hleft with ⟨init, last, k, hinit, hcut⟩
      exact ⟨m :: init, last, k, by rw [hinit, List.cons_append], hcut⟩

/-- What the packets leave of the room is one entry of padding. -/
theorem pad_packed {room : Nat} {ms : List Mbuf} {iov : List Iov} {freed : List Mbuf}
    {leftover : Option Mbuf} (h : Packed room ms iov freed leftover)
    (hpad : 0 < room - (iovData iov).length) : Iov.pad (room - (iovData iov).length) ∈ iov := by
  induction h with
  | exact => simp at hpad
  | pad room hpos => simp [Iov.data]
  | lost room m hpos h6 => simp [Iov.data]
  | part room m h6 hlen =>
      simp only [Mbuf.len] at hlen
      simp [Iov.data] at hpad
      omega
  | full room m ms iov freed leftover h6 hlen hms h ih =>
      have htake : m.data.take m.len = m.data := List.take_length
      have hsub : room - (iovData (.mbuf m m.len :: iov)).length =
          room - m.len - (iovData iov).length := by
        rw [iovData_cons, Iov.data, htake, List.length_append, Mbuf.len, Nat.sub_add_eq]
      rw [hsub] at hpad ⊢
      exact List.mem_cons_of_mem _ (ih hpad)

/-- A loop that is out of packets takes none. -/
theorem packLoop_idle (cfg : Config) (fuel : Nat) {l : Wtfs} (answers : List (Option Mbuf))
    (hm : l.m = none) :
    (packLoop cfg fuel l answers).taken = l.taken ∧
      ∀ k, Iov.pad k ∈ (packLoop cfg fuel l answers).iov → Iov.pad k ∈ l.iov ∨ k ≤ l.mtu := by
  cases fuel with
  | zero => exact ⟨rfl, fun k hk => Or.inl hk⟩
  | succ fuel =>
      rcases Nat.eq_zero_or_pos l.mtu with hmtu | hpos
      · have hloop : packLoop cfg (fuel + 1) l answers = l := by simp [packLoop, hmtu]
        rw [hloop]
        exact ⟨rfl, fun k hk => Or.inl hk⟩
      · rw [packLoop_last cfg fuel answers hpos rfl
          (show packOnce cfg l = ({ l with iov := l.iov ++ [.pad l.mtu], mtu := 0 }, none) by
            simp [packOnce, hm])]
        refine ⟨rfl, fun k hk => ?_⟩
        rcases List.mem_append.mp hk with hk | hk
        · exact Or.inl hk
        · have hk' : k = l.mtu := by simpa using hk
          exact Or.inr (Nat.le_of_eq hk')

/-- When the loop pads: with 6 bytes of room or less, or when the queue came back with
nothing. Induction on the passes. -/
theorem packLoop_pads (cfg : Config) (hone : cfg.oneonly = false) :
    ∀ (fuel : Nat) (l : Wtfs) (answers : List (Option Mbuf)), l.m ≠ none → ∀ k,
      Iov.pad k ∈ (packLoop cfg fuel l answers).iov → Iov.pad k ∈ l.iov ∨ k ≤ 6 ∨
        (packLoop cfg fuel l answers).taken.length <
          l.taken.length + (packAsks cfg fuel l answers).length := by
  intro fuel
  induction fuel with
  | zero =>
      intro l answers _ k hk
      exact Or.inl hk
  | succ fuel ih =>
      intro l answers hm k hk
      rcases Nat.eq_zero_or_pos l.mtu with hmtu | hpos
      · have hloop : packLoop cfg (fuel + 1) l answers = l := by simp [packLoop, hmtu]
        rw [hloop] at hk
        exact Or.inl hk
      · cases hlm : l.m with
        | none => exact absurd hlm hm
        | some m =>
            have h0 : ¬ l.mtu = 0 := by omega
            by_cases h6 : l.mtu ≤ 6
            · -- No room for the length field: the padding is the room.
              rw [packLoop_last cfg fuel answers hpos rfl
                (show packOnce cfg l = ({ l with iov := l.iov ++ [.pad l.mtu], mtu := 0 }, none) by
                  simp [packOnce, hlm, h6])] at hk
              rcases List.mem_append.mp hk with hk | hk
              · exact Or.inl hk
              · have hk' : k = l.mtu := by simpa using hk
                exact Or.inr (Or.inl (by omega))
            · by_cases hlen : m.len > l.mtu
              · rw [packLoop_last cfg fuel answers hpos rfl
                  (show packOnce cfg l = ({ l with
                      iov := l.iov ++ [.mbuf m l.mtu]
                      leftover := some { m with data := m.data.drop l.mtu }
                      m := none
                      mtu := 0 }, none) by simp [packOnce, hlm, h6, hlen])] at hk
                have hk' : Iov.pad k ∈ l.iov := by simpa using hk
                exact Or.inl hk'
              · by_cases hpop : l.mtu - m.len > 6
                · -- The pass ends in `mqueue_trypop`.
                  simp only [packLoop, packAsks, h0, if_false, packOnce, hlm, h6, hlen, hpop,
                    hone, and_self, if_true] at hk ⊢
                  cases hhead : answers.headD none with
                  | none =>
                      rw [hhead] at hk
                      have hidle := packLoop_idle cfg fuel
                        (l := Wtfs.take { l with
                          mtu := l.mtu - m.len
                          m := none
                          iov := l.iov ++ [.mbuf m m.len]
                          efreem := l.efreem ++ [m] } none) answers.tail rfl
                      refine Or.inr (Or.inr ?_)
                      rw [hidle.1]
                      simp [Wtfs.take]
                  | some p =>
                      rw [hhead] at hk
                      rcases ih _ _ (by simp [Wtfs.take]) k hk with h | h | h
                      · have hk' : Iov.pad k ∈ l.iov := by simpa [Wtfs.take] using h
                        exact Or.inl hk'
                      · exact Or.inr (Or.inl h)
                      · refine Or.inr (Or.inr ?_)
                        simp only [Wtfs.take, List.length_append, Option.toList_some,
                          List.length_cons, List.length_nil] at h ⊢
                        omega
                · -- At most 6 bytes are left, and no packet is in hand.
                  simp only [packLoop, h0, if_false, packOnce, hlm, h6, hlen, hpop,
                    false_and] at hk
                  have hidle := packLoop_idle cfg fuel
                    (l := { l with
                      mtu := l.mtu - m.len
                      m := none
                      iov := l.iov ++ [.mbuf m m.len]
                      efreem := l.efreem ++ [m] }) answers rfl
                  rcases hidle.2 k hk with h | h
                  · have hk' : Iov.pad k ∈ l.iov := by simpa using h
                    exact Or.inl hk'
                  · exact Or.inr (Or.inl (Nat.le_trans h (by show l.mtu - m.len ≤ 6; omega)))

/-- When a datagram is padded, in terms of the call. -/
theorem writeTfsData_pads {cfg : Config} (hone : cfg.oneonly = false) {seq offset : Nat} {m : Mbuf}
    {taken : List Mbuf} {answers : List (Option Mbuf)} {sent : Bool} {out : WriteOut}
    (h : writeTfsData cfg seq offset (wtfsEnter cfg m taken) answers sent = .ok out) {k : Nat}
    (hk : Iov.pad k ∈ out.iov) :
    k ≤ 6 ∨ out.taken.length < taken.length +
      (packAsks cfg (packFuel (wtfsEnter cfg m taken) answers) (wtfsEnter cfg m taken)
        answers).length := by
  rw [writeTfsData] at h
  split at h
  · cases h
  · cases h
    rcases List.mem_cons.mp hk with hk | hk
    · cases hk
    · rcases packLoop_pads cfg hone _ _ answers (by simp [wtfsEnter]) k hk with hk | hk | hk
      · simp [wtfsEnter] at hk
      · exact Or.inl hk
      · exact Or.inr hk

/-! ### A run of the sender -/

/-- The invariant of a run: the block `c` is under way where the stream is cut, and the
leftover is what it owes. -/
structure Streamed (s : Sender) (c : Option (Carry UInt8)) : Prop where
  cut : At s.packets s.data.length c []
  leftover : s.leftover.map Mbuf.data = c.map Carry.rest
  data : s.data ++ (c.map Carry.rest).getD [] = s.packets.flatten
  small : ∀ p ∈ s.packets, p.length ≤ MAXBUF - HDRSPACE

/-- Nothing has been taken and nothing has been cut. -/
theorem streamed_init : Streamed Sender.init none where
  cut := at_zero (by simp [Sender.packets, Sender.taken, Sender.init])
  leftover := rfl
  data := rfl
  small := by simp [Sender.packets, Sender.taken, Sender.init]

/-- What is owed is the leftover. -/
theorem Streamed.owed {s : Sender} {c : Option (Carry UInt8)} (h : Streamed s c) :
    s.owed = ((s.leftover.map Mbuf.data).getD []).length := by
  rw [Sender.owed, h.cut.underway, h.leftover]
  cases c <;> rfl

/-- A call adds what it takes and what it sends. -/
theorem packets_concat (s : Sender) (seq : Nat) (leftover : Option Mbuf)
    (c : WriteCall × WriteOut) :
    Sender.packets ⟨seq, leftover, s.calls ++ [c]⟩ = s.packets ++ c.2.taken.map Mbuf.data := by
  simp [Sender.packets, Sender.taken]

/-- The bytes of one more call come after those of the calls before it. -/
theorem data_concat (s : Sender) (seq : Nat) (leftover : Option Mbuf)
    (c : WriteCall × WriteOut) :
    Sender.data ⟨seq, leftover, s.calls ++ [c]⟩ = s.data ++ c.2.data := by
  simp [Sender.data]

/-- What is owed fits the BlockOffset. -/
theorem Streamed.owed_lt {s : Sender} {c : Option (Carry UInt8)} (h : Streamed s c) :
    s.owed < 2 ^ 16 := by
  rw [Sender.owed, h.cut.underway]
  cases c with
  | none => simp
  | some c =>
      rcases h.cut.split with ⟨before, hbs, -⟩
      have hsmall := h.small c.block (by rw [hbs]; simp)
      simp only [MAXBUF, HDRSPACE] at hsmall
      simp only [Option.map_some, Option.getD_some, Carry.length_rest]
      omega

/-- The packets in hand during a call are the leftover and what it takes. -/
theorem flatten_hand (leftover : Option Mbuf) (taken : List Mbuf) :
    ((leftover.toList ++ taken).map Mbuf.data).flatten =
      (leftover.map Mbuf.data).getD [] ++ (taken.map Mbuf.data).flatten := by
  cases leftover <;> simp

/-- What a datagram leaves over is the end of the last packet in hand, or nothing. -/
theorem leftover_cut {room : Nat} {ms : List Mbuf} {iov : List Iov} {freed : List Mbuf}
    {leftover : Option Mbuf} (h : Packed room ms iov freed leftover) :
    (leftover.map Mbuf.data).getD [] = [] ∨ ∃ init last k,
      ms.map Mbuf.data = init ++ [last] ∧
        (leftover.map Mbuf.data).getD [] = last.drop k ∧ 0 < k ∧ k < last.length := by
  cases hleft : leftover with
  | none => exact Or.inl rfl
  | some m' =>
      rcases cut_packed h hleft with ⟨init, last, k, hinit, hcut⟩
      refine Or.inr ⟨init.map Mbuf.data, last.data, k, ?_, hcut⟩
      rw [hinit, List.map_append]
      rfl

/-- A leftover is not empty: the block that owes it is under way. -/
theorem leftover_eq_rest {room : Nat} {ms : List Mbuf} {iov : List Iov} {freed : List Mbuf}
    {leftover : Option Mbuf} (h : Packed room ms iov freed leftover) {c : Option (Carry UInt8)}
    (hc : (c.map Carry.rest).getD [] = (leftover.map Mbuf.data).getD [])
    (hnone : (leftover.map Mbuf.data).getD [] = [] → c = none) :
    leftover.map Mbuf.data = c.map Carry.rest := by
  cases hleft : leftover with
  | none =>
      rw [hleft] at hnone
      rw [hnone rfl]
      rfl
  | some m' =>
      rw [hleft] at hc
      cases c with
      | some d => exact congrArg some hc.symm
      | none =>
          rcases cut_packed h hleft with ⟨init, last, k, -, hcut, -, hlt⟩
          have hnil : m'.data = [] := hc.symm
          have hzero := congrArg List.length hcut
          rw [hnil, List.length_drop, List.length_nil] at hzero
          omega

/-- A datagram carries the stream on: `ts` are the packets taken in its call. -/
theorem Streamed.extend {s : Sender} {c : Option (Carry UInt8)} (h : Streamed s c) {room : Nat}
    {ts : List Mbuf} {iov : List Iov} {freed : List Mbuf} {leftover : Option Mbuf}
    (hpacked : Packed room (s.leftover.toList ++ ts) iov freed leftover)
    (hroom : s.leftover.toList ++ ts ≠ [] → 6 < room)
    (hall : ∀ p ∈ ts, p.data ≠ [] ∧ p.len ≤ MAXBUF - HDRSPACE) (call : WriteCall) {out : WriteOut}
    (htaken : out.taken = ts) (hiov : out.data = iovData iov) (hleft : out.leftover = leftover) :
    ∃ c', Streamed ⟨out.seq, out.leftover, s.calls ++ [(call, out)]⟩ c' := by
  have hdata := iovData_packed hpacked hroom
  rw [flatten_hand] at hdata
  have hrest : (c.map Carry.rest).toList = s.leftover.toList.map Mbuf.data := by
    rw [← h.leftover]
    cases s.leftover <;> rfl
  have hne : ∀ p ∈ ts.map Mbuf.data, p ≠ [] := by
    intro p hp
    rcases List.mem_map.mp hp with ⟨q, hq, rfl⟩
    exact (hall q hq).1
  have hd : iovData iov ++ (leftover.map Mbuf.data).getD [] =
      ((c.map Carry.rest).toList ++ ts.map Mbuf.data).flatten := by
    rw [hrest, ← List.map_append, flatten_hand]
    exact hdata
  -- The leftover is the end of the last block in hand, as `At.extend` asks.
  have hcut := leftover_cut hpacked
  rw [List.map_append, ← hrest] at hcut
  rcases h.cut.extend hne hd hcut with ⟨c', hc', hnone, hat⟩
  refine ⟨c', ?_, ?_, ?_, ?_⟩
  · rw [packets_concat, data_concat, htaken, hiov, List.length_append]
    exact hat
  · rw [hleft]
    exact leftover_eq_rest hpacked hc' hnone
  · rw [packets_concat, data_concat, htaken, hiov, hc', List.append_assoc, List.flatten_append,
      ← h.data, List.append_assoc, ← h.leftover]
    exact congrArg (s.data ++ ·) hdata
  · intro p hp
    rw [packets_concat, htaken] at hp
    rcases List.mem_append.mp hp with hp | hp
    · exact h.small p hp
    · rcases List.mem_map.mp hp with ⟨q, hq, rfl⟩
      exact (hall q hq).2

/-- A datagram with the packet `m` in hand: the leftover, or the first packet taken. -/
theorem Streamed.pack {cfg : Config} (h15 : 15 ≤ cfg.tfsmtu) (hmax : cfg.tfsmtu ≤ MAXBUF)
    (hone : cfg.oneonly = false) {s : Sender} {c : Option (Carry UInt8)} (h : Streamed s c)
    (call : WriteCall) (hsent : call.sent = true) {m : Mbuf} (taken : List Mbuf)
    (answers : List (Option Mbuf))
    (hgood : ∀ p ∈ taken, p.data ≠ [] ∧ p.len ≤ MAXBUF - HDRSPACE)
    (hans : ∀ p, some p ∈ answers → p.data ≠ [] ∧ p.len ≤ MAXBUF - HDRSPACE)
    (hhand : s.leftover.toList ++ taken = [m])
    (hasks : (writeTfsAsks cfg s.leftover call.answers).length = taken.length +
      (packAsks cfg (packFuel (wtfsEnter cfg m taken) answers) (wtfsEnter cfg m taken)
        answers).length) :
    ∃ out, writeTfsData cfg s.seq s.owed (wtfsEnter cfg m taken) answers call.sent = .ok out ∧
      Formatted cfg s call out ∧
      ∃ c', Streamed ⟨out.seq, out.leftover, s.calls ++ [(call, out)]⟩ c' := by
  rcases writeTfsData_spec cfg (by omega) s.seq s.owed m taken answers call.sent with
    ⟨ts, iov, freed, leftover, hpacked, hts, hout⟩
  have hms : m :: ts = s.leftover.toList ++ (taken ++ ts) := by
    rw [← List.append_assoc, hhand]
    rfl
  rw [hms] at hpacked
  have hroom : s.leftover.toList ++ (taken ++ ts) ≠ [] → 6 < cfg.tfsmtu - 8 := fun _ => by omega
  have hall : ∀ p ∈ taken ++ ts, p.data ≠ [] ∧ p.len ≤ MAXBUF - HDRSPACE := by
    intro p hp
    rcases List.mem_append.mp hp with hp | hp
    · exact hgood p hp
    · exact hans p (hts p hp)
  have hbytes := iovBytes_packed hpacked (by omega)
  have hlen := length_iovBytes_packed hpacked (by omega)
  rw [hsent] at hout ⊢
  simp only [if_true] at hout
  generalize hseq : (s.seq + 1) % 2 ^ 32 = seq at hout
  refine ⟨_, hout, ?_, h.extend hpacked hroom hall call rfl rfl rfl⟩
  constructor
  · refine ⟨_, rfl, ?_, get16_wtfsHdr_offset _ h.owed_lt, ?_⟩
    · rw [List.length_append, hlen, length_wtfsHdr]
      omega
    · rw [← length_wtfsHdr s.seq s.owed, List.drop_left]
      exact hbytes
  · intro ps p qs (htaken : taken ++ ts = ps ++ p :: qs)
    -- What is owed comes first in the payload, and then the packets taken.
    have hsplit : s.leftover.toList ++ (taken ++ ts) = (s.leftover.toList ++ ps) ++ p :: qs := by
      rw [htaken, List.append_assoc]
    have hbegin := room_packed hpacked hroom hsplit
    rw [flatten_hand, List.length_append] at hbegin
    rw [h.owed]
    exact hbegin
  · intro hpad
    rw [hasks]
    exact writeTfsData_pads hone hout (List.mem_cons_of_mem _ (pad_packed hpacked hpad))

/-- The empty datagram: all of it is padding, and the queue was empty. -/
theorem Streamed.empty {cfg : Config} (h15 : 15 ≤ cfg.tfsmtu) (hmax : cfg.tfsmtu ≤ MAXBUF)
    {s : Sender} {c : Option (Carry UInt8)} (h : Streamed s c) (call : WriteCall)
    (hleft : s.leftover = none) :
    Formatted cfg s call ⟨some (writeEmptyTfsPkt s.seq cfg.tfsmtu).1, [],
      (writeEmptyTfsPkt s.seq cfg.tfsmtu).2, none, [], []⟩ := by
  have howed : s.owed = 0 := by rw [h.owed, hleft]; rfl
  constructor
  · refine ⟨_, rfl, ?_, ?_, ?_⟩
    · rw [writeEmptyTfsPkt_eq _ _ (by omega) hmax, List.length_append, length_wtfsHdr,
        List.length_replicate]
      omega
    · rw [writeEmptyTfsPkt_eq _ _ (by omega) hmax, howed]
      exact get16_wtfsHdr_offset _ (by decide)
    · rw [writeEmptyTfsPkt_eq _ _ (by omega) hmax, ← length_wtfsHdr s.seq 0, List.drop_left]
      rfl
  · intro ps p qs htaken
    simp at htaken
  · intro _
    rw [hleft, writeTfsAsks]
    exact Or.inr (Nat.succ_pos _)

/-- One call keeps the stream, and its datagram has the format. -/
theorem Streamed.step {cfg : Config} (h15 : 15 ≤ cfg.tfsmtu) (hmax : cfg.tfsmtu ≤ MAXBUF)
    (hone : cfg.oneonly = false) {s : Sender} {c : Option (Carry UInt8)} (h : Streamed s c)
    (call : WriteCall) (hsent : call.sent = true)
    (hans : ∀ p, some p ∈ call.answers → p.data ≠ [] ∧ p.len ≤ MAXBUF - HDRSPACE) :
    ∃ out, writeTfsPkt cfg s.seq s.leftover call.answers call.sent = .ok out ∧
      Formatted cfg s call out ∧
      ∃ c', Streamed ⟨out.seq, out.leftover, s.calls ++ [(call, out)]⟩ c' := by
  cases hleft : s.leftover with
  | some m =>
      rcases h.pack h15 hmax hone call hsent (m := m) [] call.answers (by simp) hans
        (by rw [hleft]; rfl) (by rw [hleft, writeTfsAsks, List.length_nil, Nat.zero_add]) with
        ⟨out, hout, hrest⟩
      refine ⟨out, ?_, hrest⟩
      have howed : s.owed = m.len := by rw [h.owed, hleft]; rfl
      rw [writeTfsPkt, ← howed, Nat.mod_eq_of_lt h.owed_lt]
      exact hout
  | none =>
      have howed : s.owed = 0 := by rw [h.owed, hleft]; rfl
      cases hhead : call.answers.headD none with
      | some m =>
          have hmem : some m ∈ call.answers := by
            cases hcall : call.answers with
            | nil => simp [hcall] at hhead
            | cons o os =>
                rw [hcall] at hhead
                exact List.mem_cons.mpr (Or.inl hhead.symm)
          -- The packet on top is the first of the answers, and the loop gets the others.
          have htail : ∀ p, some p ∈ call.answers.tail → p.data ≠ [] ∧ p.len ≤ MAXBUF - HDRSPACE :=
            fun p hp => hans p (List.mem_of_mem_tail hp)
          rcases h.pack h15 hmax hone call hsent [m] call.answers.tail
            (by simpa using hans m hmem) htail (by rw [hleft]; rfl)
            (by simp only [hleft, writeTfsAsks, hhead, List.length_cons, List.length_nil]; omega)
            with ⟨out, hout, hrest⟩
          refine ⟨out, ?_, hrest⟩
          rw [writeTfsPkt]
          simp only [hhead]
          rw [← howed]
          exact hout
      | none =>
          refine ⟨_, ?_, h.empty h15 hmax call hleft, c, ?_, ?_, ?_, ?_⟩
          · rw [writeTfsPkt]
            simp only [hhead, hone, Bool.false_eq_true, if_false]
          · rw [packets_concat, data_concat]
            simpa [WriteOut.data] using h.cut
          · rw [← h.leftover, hleft]
          · rw [packets_concat, data_concat]
            simpa [WriteOut.data] using h.data
          · rw [packets_concat]
            simpa using h.small

/-- The stream of every run obeys the format. After any calls with successful sends, what has
gone out and what the leftover still owes are the packets taken, end to end; and one more
call succeeds with a datagram that has the format. -/
theorem stream_formatted (cfg : Config) (h15 : 15 ≤ cfg.tfsmtu) (hmax : cfg.tfsmtu ≤ MAXBUF)
    (hone : cfg.oneonly = false) (calls : List WriteCall)
    (hcalls : ∀ call ∈ calls, call.sent = true ∧
      ∀ p, some p ∈ call.answers → p.data ≠ [] ∧ p.len ≤ MAXBUF - HDRSPACE) :
    ∃ s, run (writeTfsPktsStep cfg) Sender.init calls = .ok s ∧
      s.data ++ (s.leftover.map Mbuf.data).getD [] = s.packets.flatten ∧
      ∀ call : WriteCall, call.sent = true →
        (∀ p, some p ∈ call.answers → p.data ≠ [] ∧ p.len ≤ MAXBUF - HDRSPACE) →
        ∃ out, writeTfsPkt cfg s.seq s.leftover call.answers call.sent = .ok out ∧
          Formatted cfg s call out := by
  have hstep : ∀ (s : Sender) (call : WriteCall), (∃ c, Streamed s c) →
      (call.sent = true ∧
        ∀ p, some p ∈ call.answers → p.data ≠ [] ∧ p.len ≤ MAXBUF - HDRSPACE) →
      ∃ t, writeTfsPktsStep cfg s call = .ok t ∧ ∃ c, Streamed t c := by
    rintro s call ⟨c, h⟩ hcall
    rcases h.step h15 hmax hone call hcall.1 hcall.2 with ⟨out, hout, -, hnext⟩
    exact ⟨_, by rw [writeTfsPktsStep, hout], hnext⟩
  rcases run_ok_of_along hstep ⟨none, streamed_init⟩ (along_of_forall hcalls) with
    ⟨s, hrun, c, hs⟩
  refine ⟨s, hrun, ?_, ?_⟩
  · rw [hs.leftover]
    exact hs.data
  · intro call hsent hans
    rcases hs.step h15 hmax hone call hsent hans with ⟨out, hout, hformat, -⟩
    exact ⟨out, hout, hformat⟩

/-- A packet of 22 bytes in datagrams of 20: 12 bytes go out, and 10 are owed. -/
theorem stream_formatted_cut : ∃ s,
    run (writeTfsPktsStep ⟨20, false, false⟩) Sender.init
      [⟨[none], true⟩, ⟨[some ⟨0, List.replicate 22 0x45, 0⟩], true⟩] = .ok s ∧
    s.owed = 10 ∧
    ∃ out, writeTfsPkt ⟨20, false, false⟩ s.seq s.leftover [] true = .ok out ∧
      Formatted ⟨20, false, false⟩ s ⟨[], true⟩ out := by
  have hcalls : ∀ call ∈ [(⟨[none], true⟩ : WriteCall),
      ⟨[some ⟨0, List.replicate 22 0x45, 0⟩], true⟩], call.sent = true ∧
      ∀ p, some p ∈ call.answers → p.data ≠ [] ∧ p.len ≤ MAXBUF - HDRSPACE := by
    simp [Mbuf.len, MAXBUF, HDRSPACE]
  rcases stream_formatted ⟨20, false, false⟩ (by decide) (by decide) rfl _ hcalls with
    ⟨s, hrun, -, hnext⟩
  have hs := hrun
  cases hrun
  exact ⟨_, hs, rfl, hnext ⟨[], true⟩ rfl (by simp)⟩

end Iptfs.Proofs
