import Iptfs.Proofs.Python.EgressRefinement
import Iptfs.Proofs.Python.Reassembler

/-!
# `Iptfs.Proofs.Python.Forget`: what the Python receiver remembers across a gap

After a gap `MIOVBuf.reset` clears the packet in progress, but not its `left`. The next packet that
starts sets `left` from its length field. Only a start too short to have the field goes on with the
`left` of the packet before the gap.

`Sim` ties `read_tfs_packets` to the `Reassembler`, which has no such field, and `sim_step` is the
simulation: a pass that is `Fresh`, that is where no start is too short with a `left` from before,
does what `Reassembler.step` does. What the pops of `iovfreeq` find are packets that went out
(`Pooled`), and their `left` is zero (`Spent`). `py_egress_pooled` has the first of these from the
threads: the datagrams that they receive are such a run of the loop.

`forgets` is the main result: two runs with any histories that accept the same datagrams from a gap
on deliver the same packets, when their passes are fresh, and the packets have the lengths that
they declare. `not_forgets` is a run where a packet is cut by the length of one that was lost.
-/

set_option autoImplicit false

namespace Iptfs.Py

/-- The code has the packet in progress `part`. The `left` of an empty `MIOVBuf` may be any. -/
structure Reads (m : Option MIOVBuf) (part : Part) : Prop where
  bytes : (m.getD (.empty none)).bytes = part.got
  mlen : (m.getD (.empty none)).mlen = part.got.length
  left : part.got ≠ [] → (m.getD (.empty none)).left.getD 0 = part.left

/-- What a call leaves, as the reassembler says. -/
structure ReadsAdded (a : Added) (r : List (List UInt8) × Part) : Prop where
  m : Reads a.m r.2
  outq : a.outq.map MIOVBuf.bytes = r.1

/-- The datagrams that the tests of the loop let through, with their sequence numbers, when the last
one before them is the number `last`. -/
def accepted : Nat → List RxEvent → List (Nat × List UInt8)
  | _, [] => []
  | last, .ackInfos _ :: es => accepted last es
  | last, .recv _ bytes limited _ :: es =>
      match classify (recvBytes bytes) limited with
      | .ok (.data seq) =>
          if seq ≤ last then accepted last es else (seq, recvBytes bytes) :: accepted seq es
      | _ => accepted last es

/-- A start too short for the length field does not come to a `MIOVBuf` whose `left` is from
before. -/
def Fresh (s : Rx) : RxEvent → Prop
  | .recv _ bytes limited _ =>
      ∀ seq, classify (recvBytes bytes) limited = .ok (.data seq) → s.ack.lastseq < seq →
        ∀ v, s.ack.keep seq s.m = some v → v.mlen = 0 → v.left.getD 0 ≠ 0 →
          ¬ ShortStart (((recvBytes bytes).drop 8).drop (blockOffset (recvBytes bytes)))
  | .ackInfos _ => True

/-- The packets that the run from `s` to `t` delivers. -/
def delivered (s t : Rx) : List (List UInt8) := (t.outq.drop s.outq.length).map MIOVBuf.bytes

/-- A run to `s` with any history, and one on to `t` that accepts the datagrams `ds`. The first of
them comes after a gap. No exception is raised. -/
structure AfterGap (target pps : ℚ) (limit : Nat) (ds : List (Nat × List UInt8))
    (s t : Rx) (es : List RxEvent) : Prop where
  history : Lib.Reachable (readTfsPacketsStep target limit) (Rx.init pps) s
  run : Lib.run (readTfsPacketsStep target limit) s es = .ok t
  pooled : Lib.Along (readTfsPacketsStep target limit) (Pooled target limit) s es
  accepted : accepted s.ack.lastseq es = ds
  gap : ∃ d rest, ds = d :: rest ∧ s.ack.gap d.1

/-- The `MIOVBuf` in hand counts its bytes, and the packets pushed have nothing left. -/
structure Spent (m : Option MIOVBuf) (outq : List MIOVBuf) : Prop where
  m : ∀ v, m = some v → v.bytes.length = v.mlen
  outq : ∀ v ∈ outq, v.left = some 0

/-- The code is where the reassembler is. -/
structure Sim (s : Rx) (r : Reassembler) : Prop where
  last : s.ack.lastseq = r.last
  m : Reads s.m r.part

namespace Proofs

open Iptfs.Lib

/-! ### One slice -/

/-- The bytes of a `MIOVBuf` with one slice more. -/
@[simp] theorem bytes_addmbuf (v : MIOVBuf) (t : Tbuf) (start len : Nat) :
    (v.addmbuf t start len).bytes = v.bytes ++ (t.data.drop start).take len := by
  simp [MIOVBuf.addmbuf, MIOVBuf.bytes]

/-- `mlen` grows by the bytes that the slice has, not by those it was asked for. -/
@[simp] theorem mlen_addmbuf (v : MIOVBuf) (t : Tbuf) (start len : Nat) :
    (v.addmbuf t start len).mlen = v.mlen + ((t.data.drop start).take len).length := rfl

/-- No packet is in progress on either side. -/
theorem reads_none : Reads none .idle where
  bytes := rfl
  mlen := rfl
  left := fun h => absurd rfl h

/-- An empty `MIOVBuf`, whatever its `left` is. -/
theorem reads_empty {v : MIOVBuf} (hbytes : v.bytes = []) (hlen : v.mlen = 0) :
    Reads (some v) .idle where
  bytes := hbytes
  mlen := hlen
  left := fun h => absurd rfl h

/-- A slice is added, and the packet stays in progress. -/
theorem reads_addmbuf {v : MIOVBuf} {t : Tbuf} {start len : Nat} {left : Option Nat} {part : Part}
    (hbytes : v.bytes ++ (t.data.drop start).take len = part.got) (hlen : v.bytes.length = v.mlen)
    (hleft : left.getD 0 = part.left) :
    Reads (some { v.addmbuf t start len with left := left }) part where
  bytes := by
    show (v.addmbuf t start len).bytes = part.got
    rw [bytes_addmbuf, hbytes]
  mlen := by
    show (v.addmbuf t start len).mlen = part.got.length
    rw [mlen_addmbuf, ← hbytes, List.length_append, hlen]
  left := fun _ => hleft

/-! ### The blocks of a datagram -/

/-- The values of `left` that `iovfreeq.pop()` finds have no number in them. -/
def Recycled (lefts : List (Option Nat)) : Prop := ∀ l ∈ lefts, l.getD 0 = 0

/-- One value is used up by a pop. -/
theorem recycled_tail {lefts : List (Option Nat)} (h : Recycled lefts) : Recycled lefts.tail :=
  fun l hl => h l (List.mem_of_mem_tail hl)

/-- What the next pop finds has no number in it, a new object included. -/
theorem recycled_head {lefts : List (Option Nat)} (h : Recycled lefts) :
    (lefts.headD none).getD 0 = 0 := by
  cases lefts with
  | nil => rfl
  | cons l lefts => exact h l List.mem_cons_self

/-- A packet of `n` more bytes ends in the datagram: there, or the walk goes on behind it. `ih` is
about the call that is made. -/
theorem finish_reads {depth n tlen : Nat} {again : Tbuf → Res Added} {t u : Tbuf} {v : MIOVBuf}
    {a : Added} {p : Pass} {first : List UInt8} (hn : n ≤ tlen)
    (hfirst : v.bytes ++ (t.data.drop u.start).take n = first)
    (ih : ∀ {rest : Tbuf} {b : Added}, rest.rest ≠ [] → again rest = .ok b →
      ∃ r, blocks depth rest.rest = some r ∧ ReadsAdded b r)
    (hp : finishPass u n tlen = .ok p) (ha : applyPass again t v p = .ok a) :
    (u.rest.length ≤ n ∧ ReadsAdded a ([first], .idle)) ∨
      n < u.rest.length ∧ ∃ r, blocks depth (u.rest.drop n) = some r ∧
        ReadsAdded a (first :: r.1, r.2) := by
  have htail : Tbuf.rest { u with start := u.start + n } = u.rest.drop n :=
    Iptfs.Proofs.Tbuf.rest_advance u n
  have htaillen : Tbuf.len { u with start := u.start + n } = u.rest.length - n :=
    Iptfs.Proofs.Tbuf.len_advance u n
  have hpacket : (v.addmbuf t u.start n).bytes = first := by
    rw [bytes_addmbuf, hfirst]
  unfold finishPass at hp
  rw [if_neg (Nat.not_lt.mpr hn)] at hp
  dsimp only at hp
  rw [htaillen] at hp
  cases hp
  -- The walk goes on behind the packet, or the packet ends with the datagram.
  by_cases hgoes : n < u.rest.length
  · rw [decide_eq_true (by omega)] at ha
    unfold applyPass at ha
    dsimp only at ha
    rw [if_pos rfl] at ha
    obtain ⟨b, hrec, rfl⟩ := map_eq_ok.mp ha
    have hne : Tbuf.rest { u with start := u.start + n } ≠ [] :=
      Iptfs.Proofs.Tbuf.rest_advance_ne_nil hgoes
    obtain ⟨r, hr, hreads⟩ := ih hne hrec
    rw [htail] at hr
    refine Or.inr ⟨hgoes, r, hr, hreads.m, ?_⟩
    show (v.addmbuf t u.start n).bytes :: b.outq.map MIOVBuf.bytes = _
    rw [hpacket, hreads.outq]
  · rw [decide_eq_false (by omega)] at ha
    cases ha
    refine Or.inl ⟨Nat.not_lt.mp hgoes, reads_none, ?_⟩
    show [(v.addmbuf t u.start n).bytes] = _
    rw [hpacket]

/-- A packet starts in the `MIOVBuf` in hand, and the walk goes on behind it. The `left` in hand is
used where the start is too short. `ih` is about the calls that the walk makes. -/
theorem start_reads {depth : Nat} {t u : Tbuf} {offset : Nat} {v : MIOVBuf} {p : Pass}
    {again : Tbuf → Res Added} {a : Added} (hoff : offset < t.len)
    (hu : u = { t with start := t.start + offset }) (hbytes : v.bytes = []) (hlen : v.mlen = 0)
    (hleft : ShortStart u.rest → v.left.getD 0 = 0)
    (ih : ∀ {rest : Tbuf} {b : Added}, rest.rest ≠ [] → again rest = .ok b →
      ∃ r, blocks depth rest.rest = some r ∧ ReadsAdded b r)
    (hp : startPass t offset v = .ok p) (ha : applyPass again t v p = .ok a) :
    ∃ r, blocks (depth + 1) u.rest = some r ∧ ReadsAdded a r := by
  have hdata : u.data = t.data := by rw [hu]
  have hrestlen : u.len = u.rest.length := Iptfs.Proofs.Tbuf.len_eq u
  have hempty : v.bytes.length = v.mlen := by rw [hbytes, hlen, List.length_nil]
  have hwhole : v.bytes ++ (t.data.drop u.start).take u.len = u.rest := by
    rw [hbytes, List.nil_append, ← hdata, hrestlen]
    exact List.take_length
  unfold blocks
  obtain ⟨hnone, hshort, hpass⟩ | ⟨hnone, hshort, hpass⟩ | ⟨n, hsome, hpass⟩ :=
    startPass_cases v hoff hu
  · -- Padding.
    rw [hpass] at hp
    cases hp
    cases ha
    rw [hnone]
    refine ⟨_, rfl, ?_, rfl⟩
    rw [if_neg hshort]
    exact reads_empty hbytes hlen
  · -- STARTSHORT: what `left` was is what it is.
    rw [hpass, morePass_eq] at hp
    cases hp
    cases ha
    rw [hnone]
    refine ⟨_, rfl, ?_, rfl⟩
    rw [if_pos hshort]
    exact reads_addmbuf hwhole hempty (hleft hshort)
  · rw [hpass] at hp
    rw [hsome]
    dsimp only
    by_cases hmore : n > u.len
    · unfold finishPass at hp
      rw [if_pos hmore, morePass_eq] at hp
      cases hp
      cases ha
      rw [if_pos (by omega)]
      refine ⟨_, rfl, ?_, rfl⟩
      apply reads_addmbuf hwhole hempty
      rw [← hrestlen]
      rfl
    · rw [if_neg (by omega)]
      have htake : v.bytes ++ (t.data.drop u.start).take n = u.rest.take n := by
        rw [hbytes, List.nil_append, ← hdata]
        rfl
      obtain ⟨hend, hreads⟩ | ⟨hgoes, r, hr, hreads⟩ :=
        finish_reads (Nat.not_lt.mp hmore) htake ih hp ha
      · have hwholelen : u.rest.length = n := by omega
        rw [if_pos hwholelen]
        rw [← hwholelen, List.take_length] at hreads
        exact ⟨_, rfl, hreads⟩
      · rw [if_neg (by omega), hr]
        exact ⟨_, rfl, hreads⟩

/-- The rest of a datagram, with a `MIOVBuf` from the pool for each packet. Induction on the
depth. -/
theorem rest_reads (depth : Nat) : ∀ {t : Tbuf} {lefts : List (Option Nat)} {a : Added},
    Recycled lefts → t.rest ≠ [] → addToInnerPacket depth t false none lefts = .ok a →
      ∃ r, blocks depth t.rest = some r ∧ ReadsAdded a r := by
  induction depth with
  | zero =>
      intro t lefts a _ _ ha
      cases ha
  | succ depth ih =>
      intro t lefts a hlefts hne ha
      have hpos : 0 < t.len := by
        rw [Iptfs.Proofs.Tbuf.len_eq]
        exact List.length_pos_iff.mpr hne
      rw [addToInnerPacket, enterInner_rest hne] at ha
      dsimp only [popIov] at ha
      have hidle : (MIOVBuf.empty (lefts.headD none)).mlen = 0 := rfl
      cases hp : innerPass t 0 (.empty (lefts.headD none)) with
      | error e =>
          rw [hp] at ha
          cases ha
      | ok p =>
          rw [hp] at ha
          have hstart : startPass t 0 (.empty (lefts.headD none)) = .ok p := by
            rw [innerPass, if_pos hidle] at hp
            exact hp
          refine start_reads hpos rfl rfl rfl (fun _ => recycled_head hlefts) ?_ hstart ha
          intro rest b hrest hb
          exact ih (recycled_tail hlefts) hrest hb

/-! ### A datagram -/

/-- No packet is in progress: the call walks over the blocks behind the offset. -/
theorem idle_next {depth id : Nat} {data : List UInt8} {v : MIOVBuf} {part : Part}
    {lefts : List (Option Nat)} {a : Added} {p : Pass} (hgot : part.got = [])
    (hbytes : v.bytes = []) (hlen : v.mlen = 0) (hlefts : Recycled lefts)
    (hleft : ShortStart ((data.drop 8).drop (blockOffset data)) → v.left.getD 0 = 0)
    (hp : innerPass ⟨id, data, 8⟩ (blockOffset data) v = .ok p)
    (ha : applyPass (fun rest => addToInnerPacket depth rest false none lefts) ⟨id, data, 8⟩ v p =
      .ok a) :
    ∃ r, part.next (depth + 1) data = some r ∧ ReadsAdded a r := by
  have hrest : Tbuf.len ⟨id, data, 8⟩ = (data.drop 8).length :=
    Iptfs.Proofs.Tbuf.len_eq ⟨id, data, 8⟩
  rw [innerPass, if_pos hlen] at hp
  unfold Part.next
  dsimp only
  rw [if_pos hgot]
  by_cases hoff : blockOffset data < (data.drop 8).length
  · have hu : Tbuf.rest ⟨id, data, 8 + blockOffset data⟩ =
        (data.drop 8).drop (blockOffset data) :=
      Iptfs.Proofs.Tbuf.rest_advance ⟨id, data, 8⟩ (blockOffset data)
    rw [if_neg (Nat.not_le.mpr hoff), ← hu]
    rw [← hu] at hleft
    refine start_reads (hrest ▸ hoff) rfl hbytes hlen hleft ?_ hp ha
    intro rest b hne hb
    exact rest_reads depth hlefts hne hb
  · -- The next block is past the end of the datagram.
    have hpast : (data.drop 8).length ≤ blockOffset data := Nat.not_lt.mp hoff
    have hkeep : startPass ⟨id, data, 8⟩ (blockOffset data) v =
        .ok (.keep (Tbuf.skip ⟨id, data, 8⟩)) := if_pos (hrest ▸ hpast)
    rw [hkeep] at hp
    cases hp
    cases ha
    rw [if_pos hpast]
    exact ⟨_, rfl, reads_empty hbytes hlen, rfl⟩

/-- A packet is in progress: the datagram goes on with it. -/
theorem busy_next {depth id : Nat} {data : List UInt8} {v : MIOVBuf} {part : Part}
    {lefts : List (Option Nat)} {a : Added} {p : Pass} (hreads : Reads (some v) part)
    (hlen : v.mlen ≠ 0) (hlefts : Recycled lefts)
    (hp : innerPass ⟨id, data, 8⟩ (blockOffset data) v = .ok p)
    (ha : applyPass (fun rest => addToInnerPacket depth rest false none lefts) ⟨id, data, 8⟩ v p =
      .ok a) :
    ∃ r, part.next (depth + 1) data = some r ∧ ReadsAdded a r := by
  have hbytes : v.bytes = part.got := hreads.bytes
  have hmlen : v.mlen = part.got.length := hreads.mlen
  have hgot : part.got ≠ [] := fun hnil => hlen (by rw [hmlen, hnil, List.length_nil])
  have hcount : v.bytes.length = v.mlen := by rw [hbytes, hmlen]
  have hrest : Tbuf.len ⟨id, data, 8⟩ = (data.drop 8).length :=
    Iptfs.Proofs.Tbuf.len_eq ⟨id, data, 8⟩
  obtain ⟨e, hpass, _⟩ | ⟨left, hleft, hne, hpass⟩ :=
    busyPass_cases ⟨id, data, 8⟩ (blockOffset data) hlen
  · rw [hpass] at hp
    cases hp
  have hpart : part.left = left := by
    have h : v.left.getD 0 = part.left := hreads.left hgot
    rw [← h, hleft, Option.getD_some]
  have htake : v.bytes ++ (data.drop 8).take left = part.got ++ (data.drop 8).take left := by
    rw [hbytes]
  have hpayload : Tbuf.rest ⟨id, data, 8⟩ = data.drop 8 := rfl
  rw [hpass, hpayload] at hp
  unfold Part.next
  dsimp only
  rw [if_neg hgot, hpart, if_neg hne]
  by_cases hpast : blockOffset data > (data.drop 8).length
  · rw [if_pos hpast] at hp ⊢
    by_cases hmore : left > (data.drop 8).length
    · -- MORELEFT
      rw [if_pos hmore, morePass_eq, hrest] at hp
      cases hp
      cases ha
      rw [if_pos hmore]
      refine ⟨_, rfl, ?_, rfl⟩
      refine reads_addmbuf ?_ hcount rfl
      show v.bytes ++ (data.drop 8).take (data.drop 8).length = part.got ++ data.drop 8
      rw [hbytes, List.take_length]
    · -- SLOPPYEND
      rw [if_neg hmore] at hp ⊢
      cases hp
      cases ha
      refine ⟨_, rfl, reads_none, ?_⟩
      show [(v.addmbuf ⟨id, data, 8⟩ 8 left).bytes] = _
      rw [bytes_addmbuf, htake]
  · rw [if_neg hpast] at hp ⊢
    by_cases heq : left = blockOffset data
    · -- CONTINUED
      rw [if_pos heq] at hp
      rw [if_neg (not_not.mpr heq), Nat.add_sub_cancel]
      have ih : ∀ {rest : Tbuf} {b : Added}, rest.rest ≠ [] →
          addToInnerPacket depth rest false none lefts = .ok b →
            ∃ r, blocks depth rest.rest = some r ∧ ReadsAdded b r := fun hne hb =>
        rest_reads depth hlefts hne hb
      obtain ⟨hend, hadded⟩ | ⟨hgoes, r, hr, hadded⟩ :=
        finish_reads (Nat.le_of_eq heq) htake ih hp ha
      · rw [hpayload] at hend
        rw [if_neg (Nat.not_lt.mpr hend)]
        exact ⟨_, rfl, hadded⟩
      · rw [hpayload] at hgoes hr
        rw [if_pos hgoes, hr]
        exact ⟨_, rfl, hadded⟩
    · rw [if_neg heq] at hp
      cases hp

/-- A call of `add_to_inner_packet` on a new datagram is what the reassembler does. -/
theorem next_reads {depth id : Nat} {data : List UInt8} {m : Option MIOVBuf} {part : Part}
    {lefts : List (Option Nat)} {a : Added} (hlong : 8 < data.length) (hreads : Reads m part)
    (hlefts : Recycled lefts)
    (hfresh : ∀ v, m = some v → v.mlen = 0 → v.left.getD 0 ≠ 0 →
      ¬ ShortStart ((data.drop 8).drop (blockOffset data)))
    (ha : addToInnerPacket depth (Tbuf.fresh id data) true m lefts = .ok a) :
    ∃ r, part.next depth data = some r ∧ ReadsAdded a r := by
  cases depth with
  | zero => cases ha
  | succ depth =>
      rw [addToInnerPacket, enterInner_new id hlong] at ha
      dsimp only at ha
      cases hp : innerPass ⟨id, data, 8⟩ (blockOffset data) (popIov m lefts).1 with
      | error e =>
          rw [hp] at ha
          cases ha
      | ok p =>
          rw [hp] at ha
          cases m with
          | none =>
              have hgot : part.got = [] := hreads.bytes.symm
              exact idle_next hgot rfl rfl (recycled_tail hlefts)
                (fun _ => recycled_head hlefts) hp ha
          | some v =>
              by_cases hlen : v.mlen = 0
              · have hmlen : v.mlen = part.got.length := hreads.mlen
                have hgot : part.got = [] := List.length_eq_zero_iff.mp (by omega)
                refine idle_next hgot (hreads.bytes.trans hgot) hlen hlefts ?_ hp ha
                intro hshort
                by_contra hstale
                exact hfresh v rfl hlen hstale hshort
              · exact busy_next hreads hlen hlefts hp ha

/-! ### What goes back to the pool -/

/-- No packet in progress, and nothing pushed. -/
theorem spent_none : Spent none [] where
  m := by
    intro v hv
    cases hv
  outq := by
    intro v hv
    cases hv

/-- A slice keeps the count of the bytes right. -/
theorem addmbuf_counts {v : MIOVBuf} (h : v.bytes.length = v.mlen) (t : Tbuf) (start len : Nat) :
    (v.addmbuf t start len).bytes.length = (v.addmbuf t start len).mlen := by
  rw [bytes_addmbuf, mlen_addmbuf, List.length_append, h]

/-- A call of `add_to_inner_packet`. Induction on the calls. -/
theorem added_spent (depth : Nat) {t : Tbuf} {new : Bool} {m : Option MIOVBuf}
    {lefts : List (Option Nat)} {a : Added} (hm : ∀ v, m = some v → v.bytes.length = v.mlen)
    (h : addToInnerPacket depth t new m lefts = .ok a) : Spent a.m a.outq := by
  -- Induction on the depth of the calls.
  induction depth generalizing t new m lefts a with
  | zero => cases h
  | succ depth ih =>
      rw [addToInnerPacket] at h
      cases henter : enterInner t new with
      | error e =>
          rw [henter] at h
          cases h
      | ok entered =>
          rw [henter] at h
          cases entered with
          | none =>
              cases h
              exact spent_none
          | some entered =>
              have hv : (popIov m lefts).1.bytes.length = (popIov m lefts).1.mlen := by
                cases m with
                | none => rfl
                | some v => exact hm v rfl
              dsimp only at h
              cases hp : innerPass entered.1 entered.2 (popIov m lefts).1 with
              | error e =>
                  rw [hp] at h
                  cases h
              | ok p =>
                  rw [hp] at h
                  have hslice := addmbuf_counts hv entered.1
                  cases p with
                  | keep rest =>
                      cases h
                      refine ⟨?_, spent_none.outq⟩
                      intro v hv'
                      cases hv'
                      exact hv
                  | part start len left rest =>
                      cases h
                      refine ⟨?_, spent_none.outq⟩
                      intro v hv'
                      cases hv'
                      exact hslice start len
                  -- A packet that ends has nothing left, and the next call begins without one.
                  | full start len rest recurse =>
                      unfold applyPass at h
                      dsimp only at h
                      split at h
                      · obtain ⟨b, hrec, rfl⟩ := map_eq_ok.mp h
                        have hspent := ih spent_none.m hrec
                        refine ⟨hspent.m, ?_⟩
                        intro v hv'
                        obtain rfl | hv' := List.mem_cons.mp hv'
                        · rfl
                        · exact hspent.outq v hv'
                      · cases h
                        refine ⟨spent_none.m, ?_⟩
                        intro v hv'
                        rw [List.mem_singleton.mp hv']

/-- After the test for a gap. -/
theorem keep_counts {m : Option MIOVBuf} (hm : ∀ v, m = some v → v.bytes.length = v.mlen)
    (ack : AckRecord) (seq : Nat) : ∀ v, ack.keep seq m = some v → v.bytes.length = v.mlen := by
  intro v hv
  unfold AckRecord.keep at hv
  split at hv
  · obtain ⟨w, _, rfl⟩ := Option.map_eq_some_iff.mp hv
    rfl
  · exact hm v hv

/-- A pass keeps it. -/
theorem step_spent {target : ℚ} {limit : Nat} {s s' : Rx} {e : RxEvent} (hs : Spent s.m s.outq)
    (h : readTfsPacketsStep target limit s e = .ok s') : Spent s'.m s'.outq := by
  cases e with
  | ackInfos ns =>
      cases h
      exact hs
  | recv id bytes limited lefts =>
      obtain ⟨seq, _, hseq⟩ | ⟨_, _, _, rfl⟩ := recv_cases h
      · obtain ⟨_, rfl⟩ | ⟨_, a, ha, rfl⟩ := acceptData_cases hseq
        · exact hs
        · have hspent := added_spent limit (keep_counts hs.m s.ack seq) ha
          refine ⟨hspent.m, ?_⟩
          intro v hv
          obtain hv | hv := List.mem_append.mp hv
          · exact hs.outq v hv
          · exact hspent.outq v hv
      · exact hs

/-! ### The simulation -/

/-- A report takes the first number and the drops of the record, and leaves the last number. -/
theorem sendAckInfos_lastseq (ns : Nat) (outq : AckRecord) :
    (sendAckInfos ns outq).2.lastseq = outq.lastseq := by
  unfold sendAckInfos
  split <;> rfl

/-- After the test for a gap, on both sides. -/
theorem keep_reads {s : Rx} {r : Reassembler} (h : Sim s r) (seq : Nat) :
    Reads (s.ack.keep seq s.m) (if seq ≠ r.last + 1 ∧ r.last ≠ 0 then .idle else r.part) := by
  have hgap : s.ack.gap seq ↔ seq ≠ r.last + 1 ∧ r.last ≠ 0 := by
    rw [← h.last]
    exact Iff.rfl
  unfold AckRecord.keep
  by_cases hlost : s.ack.gap seq
  · rw [if_pos hlost, if_pos (hgap.mp hlost)]
    cases s.m with
    | none => exact reads_none
    | some v => exact reads_empty rfl rfl
  · rw [if_neg hlost, if_neg (hgap.not.mp hlost)]
    exact h.m

/-- A data datagram is let through unless it is old. -/
theorem accepted_data {last id seq : Nat} {bytes : List UInt8} {limited : Bool}
    {lefts : List (Option Nat)} (h : classify (recvBytes bytes) limited = .ok (.data seq))
    (es : List RxEvent) :
    accepted last (.recv id bytes limited lefts :: es) =
      if seq ≤ last then accepted last es else (seq, recvBytes bytes) :: accepted seq es := by
  rw [accepted, h]

/-- All others are not. -/
theorem accepted_other {last id : Nat} {bytes : List UInt8} {limited : Bool}
    {lefts : List (Option Nat)}
    (h : ∀ seq, classify (recvBytes bytes) limited ≠ .ok (.data seq)) (es : List RxEvent) :
    accepted last (.recv id bytes limited lefts :: es) = accepted last es := by
  rw [accepted]
  split
  · rename_i seq hdata
    exact absurd hdata (h seq)
  · rfl

/-- What a pass does: it lets no datagram through, or it does with it what the reassembler
does. -/
theorem sim_step {target : ℚ} {limit : Nat} {s s' : Rx} {e : RxEvent} {r : Reassembler}
    (hsim : Sim s r) (hspent : Spent s.m s.outq) (hpooled : Pooled target limit s e)
    (hfresh : Fresh s e) (h : readTfsPacketsStep target limit s e = .ok s') :
    (∀ es, accepted r.last (e :: es) = accepted r.last es) ∧ Sim s' r ∧ s'.outq = s.outq ∨
      ∃ d o r', (∀ es, accepted r.last (e :: es) = d :: accepted r'.last es) ∧
        r.step limit d = some (o, r') ∧ Sim s' r' ∧
        s'.outq.map MIOVBuf.bytes = s.outq.map MIOVBuf.bytes ++ o := by
  cases e with
  | ackInfos ns =>
      cases h
      refine Or.inl ⟨fun _ => rfl, ⟨?_, hsim.m⟩, rfl⟩
      exact (sendAckInfos_lastseq ns s.ack).trans hsim.last
  | recv id bytes limited lefts =>
      have hnew := step_spent hspent h
      obtain ⟨seq, hclass, hseq⟩ | ⟨hno, _, _, rfl⟩ := recv_cases h
      · obtain ⟨hold, rfl⟩ | ⟨hgt, a, ha, rfl⟩ := acceptData_cases hseq
        · refine Or.inl ⟨fun es => ?_, ⟨hsim.last, hsim.m⟩, rfl⟩
          rw [accepted_data hclass, if_pos (hsim.last ▸ hold)]
        · refine Or.inr ?_
          have hlefts : Recycled lefts := by
            intro l hl
            obtain rfl | ⟨v, hv, rfl⟩ := hpooled _ h l hl
            · rfl
            · rw [hnew.outq v hv]
              rfl
          obtain ⟨o, hnext, hadded⟩ := next_reads (length_of_classify hclass)
            (keep_reads hsim seq) hlefts (hfresh seq hclass hgt) ha
          refine ⟨(seq, recvBytes bytes), o.1, ⟨seq, o.2⟩, fun es => ?_, ?_, ⟨rfl, hadded.m⟩, ?_⟩
          · rw [accepted_data hclass, if_neg (Nat.not_le.mpr (hsim.last ▸ hgt))]
          · unfold Reassembler.step
            dsimp only
            rw [hnext]
            rfl
          · rw [List.map_append, hadded.outq]
      · exact Or.inl ⟨accepted_other hno, ⟨hsim.last, hsim.m⟩, rfl⟩

/-- A run of fresh passes delivers what the reassembler delivers. Induction on the events. -/
theorem sim_run {target : ℚ} {limit : Nat} {es : List RxEvent} {s t : Rx} {r : Reassembler}
    (hsim : Sim s r) (hspent : Spent s.m s.outq)
    (hpooled : Along (readTfsPacketsStep target limit) (Pooled target limit) s es)
    (hfresh : Along (readTfsPacketsStep target limit) Fresh s es)
    (h : run (readTfsPacketsStep target limit) s es = .ok t) :
    ∃ out, r.run limit (accepted r.last es) = some out ∧
      t.outq.map MIOVBuf.bytes = s.outq.map MIOVBuf.bytes ++ out := by
  induction es generalizing s r with
  | nil =>
      cases h
      exact ⟨[], rfl, (List.append_nil _).symm⟩
  | cons e es ih =>
      obtain ⟨u, hstep, hrun⟩ := run_cons_eq_ok.mp h
      have hspent' := step_spent hspent hstep
      obtain ⟨hskip, hsim', houtq⟩ | ⟨d, o, r', htake, hr, hsim', houtq⟩ :=
        sim_step hsim hspent hpooled.1 hfresh.1 hstep
      · rw [hskip, ← houtq]
        exact ih hsim' hspent' (hpooled.2 u hstep) (hfresh.2 u hstep) hrun
      · obtain ⟨out, hout, hmap⟩ := ih hsim' hspent' (hpooled.2 u hstep) (hfresh.2 u hstep) hrun
        refine ⟨o ++ out, ?_, ?_⟩
        · rw [htake, Reassembler.run, hr]
          show (r'.run limit (accepted r'.last es)).map (o ++ ·) = some (o ++ out)
          rw [hout]
          rfl
        · rw [hmap, houtq, List.append_assoc]

/-- What a run delivers after a gap, by the reassembler that starts with the gap. -/
theorem run_of_afterGap {target pps : ℚ} {limit : Nat} {ds : List (Nat × List UInt8)} {s t : Rx}
    {es : List RxEvent} (h : AfterGap target pps limit ds s t es)
    (hfresh : Along (readTfsPacketsStep target limit) Fresh s es) :
    Reassembler.run limit ⟨0, .idle⟩ ds = some (delivered s t) := by
  have hspent : Spent s.m s.outq :=
    h.history.induct (P := fun s => Spent s.m s.outq) spent_none fun _ _ _ hs hst =>
      step_spent hs hst
  -- The packet in progress at the gap, whatever it is.
  have hsim : Sim s ⟨s.ack.lastseq,
      ⟨(s.m.getD (.empty none)).bytes, (s.m.getD (.empty none)).left.getD 0⟩⟩ := by
    refine ⟨rfl, rfl, ?_, fun _ => rfl⟩
    cases hm : s.m with
    | none => rfl
    | some v => exact (hspent.m v hm).symm
  obtain ⟨out, hout, hmap⟩ := sim_run hsim hspent h.pooled hfresh h.run
  have hdelivered : delivered s t = out := by
    rw [delivered, List.map_drop, hmap]
    exact List.drop_left' (List.length_map _)
  obtain ⟨d, rest, hds, hgap⟩ := h.gap
  have hlost : d.1 ≠ s.ack.lastseq + 1 ∧ s.ack.lastseq ≠ 0 := hgap
  rw [h.accepted, hds, run_gap (r := ⟨s.ack.lastseq, _⟩) hlost] at hout
  rw [hds, hout, hdelivered]

/-- What the receiver remembers across a gap. Two runs with any histories that accept the same
datagrams from a gap on deliver the same packets, each of the length it declares, when no start too
short comes to a `MIOVBuf` with a `left` from before. -/
theorem forgets {target pps : ℚ} {limit : Nat} {ds : List (Nat × List UInt8)} {s₁ t₁ s₂ t₂ : Rx}
    {es₁ es₂ : List RxEvent} (h₁ : AfterGap target pps limit ds s₁ t₁ es₁)
    (h₂ : AfterGap target pps limit ds s₂ t₂ es₂)
    (hfresh₁ : Along (readTfsPacketsStep target limit) Fresh s₁ es₁)
    (hfresh₂ : Along (readTfsPacketsStep target limit) Fresh s₂ es₂) :
    delivered s₁ t₁ = delivered s₂ t₂ ∧
      ∀ p ∈ delivered s₁ t₁, ∃ d ∈ ds, HasLength d.2 p := by
  have hrun := run_of_afterGap h₁ hfresh₁
  constructor
  · rw [run_of_afterGap h₂ hfresh₂] at hrun
    exact (Option.some.inj hrun).symm
  · exact run_hasLength idle_owes hrun

/-- The receiver after the front of a packet of `total` bytes, in the first datagram. -/
def cutState (total : UInt8) : Rx :=
  { Rx.init 1 with
    ack := { AckRecord.zero with startseq := 1, lastseq := 1 }
    m := some ⟨[⟨0, 8, [0x45, 0, 0, total]⟩], 4, some (total.toNat - 4)⟩ }

/-- Datagram 2 is lost, and two more come. -/
def afterLoss (payload₃ payload₄ : List UInt8) : List RxEvent :=
  [.recv 1 (someDatagram 3 0 payload₃) false [], .recv 2 (someDatagram 4 100 payload₄) false []]

/-- The receiver after them, with what it delivered. -/
def lossState (total : UInt8) (outq : List MIOVBuf) : Rx :=
  { cutState total with
    ack := { startseq := 1, lastseq := 4, dropcnt := 1 }
    m := none
    outq := outq }

/-- The first datagram brings the receiver there, with a packet of 32 bytes. -/
theorem cutState_reachable_32 : Reachable (readTfsPacketsStep 1 1000) (Rx.init 1) (cutState 32) :=
  ⟨[.recv 0 (someDatagram 1 0 [0x45, 0, 0, 32]) false []], rfl⟩

/-- The same with a packet of 18 bytes. -/
theorem cutState_reachable_18 : Reachable (readTfsPacketsStep 1 1000) (Rx.init 1) (cutState 18) :=
  ⟨[.recv 0 (someDatagram 1 0 [0x45, 0, 0, 18]) false []], rfl⟩

/-- Nothing is taken from the pool after the loss. -/
theorem afterLoss_pooled (s : Rx) (payload₃ payload₄ : List UInt8) :
    Along (readTfsPacketsStep 1 1000) (Pooled 1 1000) s (afterLoss payload₃ payload₄) := by
  have hnone : ∀ (t : Rx) (l : Option Nat), l ∈ ([] : List (Option Nat)) →
      l = none ∨ ∃ v ∈ t.outq, v.left = l := by
    intro t l hl
    cases hl
  exact ⟨fun t _ => hnone t, fun _ _ => ⟨fun t _ => hnone t, fun _ _ => trivial⟩⟩

/-- The two datagrams. -/
def lossDatagrams (payload₃ payload₄ : List UInt8) : List (Nat × List UInt8) :=
  [(3, someDatagram 3 0 payload₃), (4, someDatagram 4 100 payload₄)]

/-- The run after the loss, from either of the two states. The datagram 3 comes behind 1, so that
there is a gap before it. -/
theorem afterLoss_afterGap {total : UInt8} {payload₃ payload₄ : List UInt8} {outq : List MIOVBuf}
    (hs : Reachable (readTfsPacketsStep 1 1000) (Rx.init 1) (cutState total))
    (hrun : run (readTfsPacketsStep 1 1000) (cutState total) (afterLoss payload₃ payload₄) =
      .ok (lossState total outq))
    (hds : accepted 1 (afterLoss payload₃ payload₄) = lossDatagrams payload₃ payload₄) :
    AfterGap 1 1 1000 (lossDatagrams payload₃ payload₄) (cutState total) (lossState total outq)
      (afterLoss payload₃ payload₄) where
  history := hs
  run := hrun
  pooled := afterLoss_pooled _ _ _
  accepted := hds
  gap := ⟨_, _, rfl, show 3 ≠ 1 + 1 ∧ 1 ≠ 0 by decide⟩

/-- The passes are fresh when neither datagram has a start too short. -/
theorem afterLoss_fresh {s : Rx} {payload₃ payload₄ : List UInt8}
    (h₃ : ¬ ShortStart (((recvBytes (someDatagram 3 0 payload₃)).drop 8).drop
      (blockOffset (recvBytes (someDatagram 3 0 payload₃)))))
    (h₄ : ¬ ShortStart (((recvBytes (someDatagram 4 100 payload₄)).drop 8).drop
      (blockOffset (recvBytes (someDatagram 4 100 payload₄))))) :
    Along (readTfsPacketsStep 1 1000) Fresh s (afterLoss payload₃ payload₄) :=
  ⟨fun _ _ _ _ _ _ _ => h₃, fun _ _ => ⟨fun _ _ _ _ _ _ _ => h₄, fun _ _ => trivial⟩⟩

/-- A packet of 6 bytes in two datagrams, after packets of 32 and of 18 bytes. -/
theorem forgets_six :
    delivered (cutState 32)
        (lossState 32 [⟨[⟨1, 8, [0x45, 0, 0, 6]⟩, ⟨2, 8, [7, 7]⟩], 6, some 0⟩]) =
      delivered (cutState 18)
        (lossState 18 [⟨[⟨1, 8, [0x45, 0, 0, 6]⟩, ⟨2, 8, [7, 7]⟩], 6, some 0⟩]) ∧
      ∀ p ∈ delivered (cutState 32)
        (lossState 32 [⟨[⟨1, 8, [0x45, 0, 0, 6]⟩, ⟨2, 8, [7, 7]⟩], 6, some 0⟩]),
        ∃ d ∈ lossDatagrams [0x45, 0, 0, 6] [7, 7], HasLength d.2 p :=
  forgets (afterLoss_afterGap cutState_reachable_32 rfl rfl)
    (afterLoss_afterGap cutState_reachable_18 rfl rfl)
    (afterLoss_fresh (by decide) (by decide)) (afterLoss_fresh (by decide) (by decide))

/-- Two bytes of a packet after the gap. They go on with the 28 or 14 bytes that were left of the
packet before it. -/
theorem not_forgets : ¬ ∀ (target pps : ℚ) (limit : Nat) (ds : List (Nat × List UInt8))
    (s₁ t₁ s₂ t₂ : Rx) (es₁ es₂ : List RxEvent), 1000 ≤ limit →
      AfterGap target pps limit ds s₁ t₁ es₁ → AfterGap target pps limit ds s₂ t₂ es₂ →
        delivered s₁ t₁ = delivered s₂ t₂ ∧
          ∀ p ∈ delivered s₁ t₁, ∃ d ∈ ds, HasLength d.2 p := by
  intro h
  have heq := (h 1 1 1000 (lossDatagrams [0x45, 0] (List.replicate 30 7)) _
    (lossState 32 [⟨[⟨1, 8, [0x45, 0]⟩, ⟨2, 8, List.replicate 28 7⟩], 30, some 0⟩]) _
    (lossState 18 [⟨[⟨1, 8, [0x45, 0]⟩, ⟨2, 8, List.replicate 14 7⟩], 16, some 0⟩]) _ _
    (Nat.le_refl _) (afterLoss_afterGap cutState_reachable_32 rfl rfl)
    (afterLoss_afterGap cutState_reachable_18 rfl rfl)).1
  exact absurd heq (by decide)

end Proofs

end Iptfs.Py
