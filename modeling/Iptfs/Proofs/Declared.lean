import Iptfs.Lib.Run
import Iptfs.Proofs.Robust
import Mathlib.Data.List.Induction

/-!
# `Iptfs.Proofs.Declared`: packets come out with the length they declare

Datagrams of any contents again. `lengthField` reads the length field at the front of a packet, as
the receiver does, and `Miov.Declares` says what it reads in the datagram that the packet starts
in. `Miov.Due` is what holds of a packet in progress: it is empty, or a short start, or what it
has and what is left of it are the declared length. `Miov.Whole` is what holds of a packet that is
pushed.

`addRest_declared` is the induction over the packets of one datagram, and `declared_of_run` the
main result, over all runs of `read_tfs_pkts`.

A packet can declare a length that ends before the length field does. It comes out with that
length, and its own bytes do not have the field (`not_lengthField`).
-/

set_option autoImplicit false

namespace Iptfs

/-- The length field at the front of a packet, as `add_to_inner_packet` reads it. 0 where there is
none, or where it is not there yet. -/
def lengthField (p : List UInt8) : Nat :=
  match p with
  | [] => 0
  | b :: _ =>
      if b &&& 0xF0 = 0x40 then (get16 p 2).toOption.getD 0
      else if b &&& 0xF0 = 0x60 then (get16 p 4).toOption.getD 0
      else 0

/-- Where the length field of a packet ends. -/
def fieldEnd (p : List UInt8) : Nat :=
  match p with
  | [] => 0
  | b :: _ => if b &&& 0xF0 = 0x40 then 4 else 6

/-- The datagrams that a run received, each with the buffer it was received into. -/
def received (es : List RxEvent) : List (Nat × List UInt8) :=
  es.filterMap fun e =>
    match e.recv with
    | .failed => none
    | .got id bytes _ => some (id, recvBytes bytes)

namespace Miov

/-- The packet starts in one of the datagrams, and its length field says `n` there. -/
def Declares (ds : List (Nat × List UInt8)) (v : Miov) (n : Nat) : Prop :=
  ∃ w rest data, v.iov = w :: rest ∧ (w.mbuf, data) ∈ ds ∧ w.bytes <+: data.drop w.base ∧
    lengthField (data.drop w.base) = n

/-- A packet in progress: it is empty, or a short start, or what it has got and what is left are
what it declares. -/
def Due (ds : List (Nat × List UInt8)) (v : Miov) : Prop :=
  (v.iov = [] ∧ v.len = 0 ∧ v.left = 0) ∨
  (v.left = 0 ∧ v.Declares ds 0) ∨
  (0 < v.left ∧ v.Declares ds (v.len + v.left) ∧ lengthField v.bytes = v.len + v.left)

/-- The sum of the lengths of the entries. -/
def entriesLen (v : Miov) : Nat := (v.iov.map fun w => w.bytes.length).sum

/-- A packet that is pushed has the length it declares. Its own bytes declare it too, unless they
end before the length field does. -/
structure Whole (ds : List (Nat × List UInt8)) (v : Miov) : Prop where
  len : v.len = v.entriesLen
  declares : v.Declares ds v.len
  own : fieldEnd v.bytes ≤ v.len → lengthField v.bytes = v.len

end Miov

namespace Proofs

open Iptfs.Lib

/-! ### The length field -/

/-- `get16` reads nothing past the end. -/
theorem get16_short {p : List UInt8} {i : Nat} (h : p.length < i + 2) :
    (get16 p i).toOption = none := by
  have hlen : (p.drop i).length < 2 := by
    rw [List.length_drop]
    omega
  unfold get16
  rcases hd : p.drop i with _ | ⟨a, _ | ⟨b, t⟩⟩
  · rfl
  · rfl
  · rw [hd] at hlen
    simp only [List.length_cons] at hlen
    omega

/-- More bytes behind the field do not change it. -/
theorem lengthField_append {p : List UInt8} (h : lengthField p ≠ 0) (q : List UInt8) :
    lengthField (p ++ q) = lengthField p := by
  have hfield : ∀ i, (get16 p i).toOption.getD 0 ≠ 0 → get16 (p ++ q) i = get16 p i := by
    intro i hi
    apply get16_append_left
    by_contra hshort
    apply hi
    rw [get16_short (by omega)]
    rfl
  cases p with
  | nil => exact absurd rfl h
  | cons b p =>
      unfold lengthField at h ⊢
      rw [List.cons_append]
      dsimp only at h ⊢
      rw [← List.cons_append]
      split
      · rename_i h4
        rw [if_pos h4] at h
        rw [hfield 2 h]
      · rename_i h4
        rw [if_neg h4] at h
        split
        · rename_i h6
          rw [if_pos h6] at h
          rw [hfield 4 h]
        · rfl

/-- The first bytes of a packet have the field, when they reach to its end. -/
theorem lengthField_take {p : List UInt8} {n : Nat} (hpos : 0 < n)
    (hend : fieldEnd (p.take n) ≤ n) (hn : n ≤ p.length) :
    lengthField (p.take n) = lengthField p := by
  cases p with
  | nil => rw [List.take_nil]
  | cons b p =>
      obtain ⟨k, rfl⟩ : ∃ k, n = k + 1 := ⟨n - 1, by omega⟩
      rw [List.take_succ_cons] at hend
      unfold fieldEnd at hend
      unfold lengthField
      rw [List.take_succ_cons]
      dsimp only at hend ⊢
      rw [← List.take_succ_cons]
      split
      · rename_i h4
        rw [if_pos h4] at hend
        rw [get16_take hend hn]
      · rename_i h4
        rw [if_neg h4] at hend
        split
        · rw [get16_take hend hn]
        · rfl

/-- What the receiver reads at the start of a packet. -/
theorem startIplen_lengthField {t : Tbuf} {n : Nat} (hne : t.rest ≠ [])
    (h : startIplen t t.rest.length = .ok (some n)) : n = lengthField t.rest := by
  -- Both length fields are 16 bits wide and end at byte `i`; where the datagram ends before, both
  -- sides say 0.
  have hfield : ∀ i k, i = k + 2 → (if t.rest.length ≥ i then (get16 t.data (t.start + k)).map some
      else .ok (some 0)) = .ok (some n) → n = (get16 t.rest k).toOption.getD 0 := by
    intro i k hi hread
    split at hread
    · have hdrop : get16 t.data (t.start + k) = get16 t.rest k := get16_drop _ _ _
      rw [hdrop] at hread
      cases hget : get16 t.rest k with
      | error e =>
          rw [hget] at hread
          cases hread
      | ok v =>
          rw [hget] at hread
          cases hread
          rfl
    · cases hread
      rw [get16_short (by omega)]
      rfl
  unfold startIplen at h
  unfold lengthField
  cases hrest : t.rest with
  | nil => exact absurd hrest hne
  | cons b tl =>
      rw [hrest] at h
      dsimp only at h ⊢
      rw [← hrest] at h ⊢
      split at h
      · -- Version 4, version 6, or anything else, as the source tests the first byte.
        rename_i h4
        rw [if_pos h4]
        exact hfield 4 2 rfl h
      · rename_i h4
        rw [if_neg h4]
        split at h
        · rename_i h6
          rw [if_pos h6]
          exact hfield 6 4 rfl h
        · rename_i h6
          rw [if_neg h6]
          split at h
          · cases h
          · cases h
            rfl

/-! ### The entries of a packet -/

/-- The entries hold the bytes. -/
theorem entriesLen_eq (v : Miov) : v.entriesLen = v.bytes.length := by
  rw [Miov.entriesLen, Miov.bytes, List.length_flatten, List.map_map]
  rfl

/-- A packet that has not started has nothing due. -/
theorem due_clean (ds : List (Nat × List UInt8)) : Miov.clean.Due ds := Or.inl ⟨rfl, rfl, rfl⟩

/-- What a packet declares is not changed by what is received later. -/
theorem declares_mono {ds ds' : List (Nat × List UInt8)} (hsub : ds ⊆ ds') {v : Miov} {n : Nat}
    (h : v.Declares ds n) : v.Declares ds' n := by
  obtain ⟨w, rest, data, hiov, hmem, hbytes, hfield⟩ := h
  exact ⟨w, rest, data, hiov, hsub hmem, hbytes, hfield⟩

/-- What is still due of a packet is not changed by what is received later. -/
theorem due_mono {ds ds' : List (Nat × List UInt8)} (hsub : ds ⊆ ds') {v : Miov}
    (h : v.Due ds) : v.Due ds' := by
  obtain hempty | ⟨hleft, hdecl⟩ | ⟨hpos, hdecl, hfield⟩ := h
  · exact Or.inl hempty
  · exact Or.inr (Or.inl ⟨hleft, declares_mono hsub hdecl⟩)
  · exact Or.inr (Or.inr ⟨hpos, declares_mono hsub hdecl, hfield⟩)

/-- A packet that is whole stays so. -/
theorem whole_mono {ds ds' : List (Nat × List UInt8)} (hsub : ds ⊆ ds') {v : Miov}
    (h : v.Whole ds) : v.Whole ds' :=
  ⟨h.len, declares_mono hsub h.declares, h.own⟩

/-- A slice behind the first entry leaves the place where the packet starts. -/
theorem declares_addSlice {ds : List (Nat × List UInt8)} {v : Miov} {n : Nat}
    (h : v.Declares ds n) (t : Tbuf) (x : List UInt8) (left : Nat) :
    ({ addSlice v t x with left := left } : Miov).Declares ds n := by
  obtain ⟨w, rest, data, hiov, hmem, hbytes, hfield⟩ := h
  refine ⟨w, rest ++ [⟨t.id, t.start, x⟩], data, ?_, hmem, hbytes, hfield⟩
  show v.iov ++ _ = _
  rw [hiov]
  rfl

/-- The first slice is the start of the packet. -/
theorem declares_first {ds : List (Nat × List UInt8)} {t : Tbuf} (ht : (t.id, t.data) ∈ ds)
    (n left : Nat) :
    ({ addSlice .clean t (t.rest.take n) with left := left } : Miov).Declares ds
      (lengthField t.rest) :=
  ⟨⟨t.id, t.start, t.rest.take n⟩, [], t.data, rfl, ht, List.take_prefix n t.rest, rfl⟩

/-! ### One datagram -/

/-- A packet that starts and ends in the datagram. -/
theorem whole_first {ds : List (Nat × List UInt8)} {t : Tbuf} (ht : (t.id, t.data) ∈ ds)
    (hpos : lengthField t.rest ≠ 0) (hle : lengthField t.rest ≤ t.rest.length) :
    ({ addSlice .clean t (t.rest.take (lengthField t.rest)) with left := 0 } : Miov).Whole ds := by
  have hbytes : ({ addSlice .clean t (t.rest.take (lengthField t.rest)) with left := 0 } :
      Miov).bytes = t.rest.take (lengthField t.rest) := bytes_addSlice _ _ _
  have hlen : ({ addSlice .clean t (t.rest.take (lengthField t.rest)) with left := 0 } :
      Miov).len = lengthField t.rest := by
    show 0 + (t.rest.take (lengthField t.rest)).length = _
    rw [List.length_take_of_le hle, Nat.zero_add]
  constructor
  · rw [entriesLen_eq, hbytes, hlen, List.length_take_of_le hle]
  · rw [hlen]
    exact declares_first ht _ 0
  · rw [hlen, hbytes]
    intro hend
    exact lengthField_take (Nat.pos_of_ne_zero hpos) hend hle

/-- A packet that starts in the datagram, and goes on past it or has no length yet. -/
theorem due_first {ds : List (Nat × List UInt8)} {t : Tbuf} (ht : (t.id, t.data) ∈ ds)
    (hmore : ¬ (lengthField t.rest ≠ 0 ∧ lengthField t.rest ≤ t.rest.length)) :
    ({ addSlice .clean t t.rest with left := lengthField t.rest - t.rest.length } :
      Miov).Due ds := by
  have hdecl : ({ addSlice .clean t t.rest with left := lengthField t.rest - t.rest.length } :
      Miov).Declares ds (lengthField t.rest) := by
    have hall := declares_first ht t.rest.length (lengthField t.rest - t.rest.length)
    rw [List.take_length] at hall
    exact hall
  by_cases hzero : lengthField t.rest = 0
  · refine Or.inr (Or.inl ⟨?_, ?_⟩)
    · show lengthField t.rest - t.rest.length = 0
      omega
    · rw [hzero] at hdecl ⊢
      exact hdecl
  · have hlt : t.rest.length < lengthField t.rest :=
      Nat.not_le.mp fun hle => hmore ⟨hzero, hle⟩
    have hsum : ({ addSlice .clean t t.rest with left := lengthField t.rest - t.rest.length } :
        Miov).len + (lengthField t.rest - t.rest.length) = lengthField t.rest := by
      show 0 + t.rest.length + _ = _
      omega
    refine Or.inr (Or.inr ⟨?_, ?_, ?_⟩)
    · show 0 < lengthField t.rest - t.rest.length
      omega
    · rw [hsum]
      exact hdecl
    · rw [hsum]
      have hbytes : ({ addSlice .clean t t.rest with
          left := lengthField t.rest - t.rest.length } : Miov).bytes = t.rest :=
        bytes_addSlice _ _ _
      rw [hbytes]

/-- More of the packet in progress. -/
theorem due_more {ds : List (Nat × List UInt8)} {v : Miov} (h : v.Due ds) (t : Tbuf)
    {x : List UInt8} (hx : x.length < v.left) :
    ({ addSlice v t x with left := v.left - x.length } : Miov).Due ds := by
  obtain ⟨_, _, hleft⟩ | ⟨hleft, _⟩ | ⟨_, hdecl, hfield⟩ := h
  · omega
  · omega
  · have hsum : ({ addSlice v t x with left := v.left - x.length } : Miov).len +
        (v.left - x.length) = v.len + v.left := by
      show v.len + x.length + _ = _
      omega
    refine Or.inr (Or.inr ⟨?_, ?_, ?_⟩)
    · show 0 < v.left - x.length
      omega
    · rw [hsum]
      exact declares_addSlice hdecl t x _
    · rw [hsum]
      show lengthField (addSlice v t x).bytes = _
      rw [bytes_addSlice, lengthField_append (by omega), hfield]

/-- The end of the packet in progress. -/
theorem whole_last {ds : List (Nat × List UInt8)} {v : Miov} (h : v.Due ds)
    (hbytes : v.bytes.length = v.len) (t : Tbuf) {x : List UInt8} (hx : x.length = v.left)
    (hleft : v.left ≠ 0) : ({ addSlice v t x with left := 0 } : Miov).Whole ds := by
  obtain ⟨_, _, hzero⟩ | ⟨hzero, _⟩ | ⟨_, hdecl, hfield⟩ := h
  · exact absurd hzero hleft
  · exact absurd hzero hleft
  · have hlen : ({ addSlice v t x with left := 0 } : Miov).len = v.len + v.left := by
      show v.len + x.length = _
      rw [hx]
    have hall : ({ addSlice v t x with left := 0 } : Miov).bytes = v.bytes ++ x :=
      bytes_addSlice v t x
    constructor
    · rw [entriesLen_eq, hall, hlen, List.length_append, hbytes, hx]
    · rw [hlen]
      exact declares_addSlice hdecl t x 0
    · intro _
      rw [hlen, hall, lengthField_append (by omega), hfield]

/-- The packets of a call are as they should be: the one it returns, and those it pushes. -/
structure Added.Declared (ds : List (Nat × List UInt8)) (a : Added) : Prop where
  m : ∀ v, a.m = some v → v.Due ds
  outq : ∀ u ∈ a.outq, u.Whole ds

/-- Nothing is in progress, and nothing was pushed. -/
theorem declared_none (ds : List (Nat × List UInt8)) (t : Tbuf) :
    Added.Declared ds ⟨t, none, []⟩ where
  m := by
    intro v hv
    cases hv
  outq := List.forall_mem_nil _

/-- A packet is in progress, and nothing was pushed. -/
theorem declared_some {ds : List (Nat × List UInt8)} {v : Miov} (hv : v.Due ds) (t : Tbuf) :
    Added.Declared ds ⟨t, some v, []⟩ where
  m := by
    intro u hu
    cases hu
    exact hv
  outq := List.forall_mem_nil _

/-- With a packet in front. -/
theorem Added.Declared.cons {ds : List (Nat × List UInt8)} {a : Added} (h : Added.Declared ds a)
    {u : Miov} (hu : u.Whole ds) : Added.Declared ds (a.cons u) where
  m := h.m
  outq := by
    intro u' hu'
    obtain rfl | hu' := List.mem_cons.mp hu'
    · exact hu
    · exact h.outq u' hu'

/-- The rest of a datagram, with no packet in progress. Induction on the fuel, as each packet that
ends in the datagram uses up a byte. -/
theorem addRest_declared {ds : List (Nat × List UInt8)} : ∀ (fuel : Nat) (t : Tbuf) {a : Added},
    (t.id, t.data) ∈ ds → t.rest.length < 2 ^ 16 → addRest fuel t = .ok a →
      Added.Declared ds a := by
  intro fuel
  induction fuel with
  | zero =>
      intro t a _ _ ha
      by_cases hne : t.rest = []
      · rw [addRest, if_pos hne] at ha
        cases ha
        exact declared_none ds _
      · rw [addRest, if_neg hne] at ha
        cases ha
  | succ fuel ih =>
      intro t a ht hlen ha
      by_cases hne : t.rest = []
      · rw [addRest, if_pos hne] at ha
        cases ha
        exact declared_none ds _
      · rw [addRest, if_neg hne] at ha
        obtain ⟨o, ho⟩ := startIplen_ok hne
        cases o with
        | none =>
            -- Padding. The miov that was popped is the packet in progress.
            rw [add_pad fuel hne hlen ho] at ha
            cases ha
            exact declared_some (due_clean ds) _
        | some n =>
            rw [add_packet fuel hne hlen ho] at ha
            have hn := startIplen_lengthField hne ho
            subst hn
            split at ha
            · rename_i hfull
              obtain ⟨b, hrec, rfl⟩ := map_eq_ok.mp ha
              have hrest : (Tbuf.advance t (lengthField t.rest)).rest.length < 2 ^ 16 := by
                rw [Tbuf.rest_advance, List.length_drop]
                omega
              have hb : Added.Declared ds b := ih (Tbuf.advance t _) ht hrest hrec
              exact hb.cons (whole_first ht hfull.1 hfull.2)
            · rename_i hmore
              cases ha
              exact declared_some (due_first ht hmore) _

/-- A whole datagram. -/
theorem add_declared {ds : List (Nat × List UInt8)} {id : Nat} {data : List UInt8}
    {m : Option Miov} {a : Added} (hm : Tidy m) (hdue : ∀ v, m = some v → v.Due ds)
    (hd : (id, data) ∈ ds)
    (ha : addToInnerPacket data.length (Tbuf.fresh id data) true m = .ok a) :
    Added.Declared ds a := by
  have hsmall : data.length < 2 ^ 16 + 8 := by
    by_contra hlarge
    obtain ⟨e, he⟩ := add_large data.length id (m := m) (Nat.not_lt.mp hlarge)
    rw [he] at ha
    cases ha
  obtain ⟨h8, hbusy⟩ := (add_ok_iff id hm hsmall).mp ⟨a, ha⟩
  obtain ⟨hbytes, hclean⟩ := hm.getD
  have henter := enterInner_data id h8
  have hrest : (Tbuf.rest ⟨id, data, 8⟩).length = data.length - 8 := List.length_drop
  obtain ⟨fuel, hfuel⟩ : ∃ fuel, data.length = fuel + 1 := ⟨data.length - 1, by omega⟩
  rw [hfuel] at ha
  by_cases hidle : (m.getD Miov.clean).len = 0
  · obtain hlt | hge := Nat.lt_or_ge (blockOffset data) (data.length - 8)
    · have hdrop : (Tbuf.advance ⟨id, data, 8⟩ (blockOffset data)).rest.length =
          data.length - 8 - blockOffset data := by
        rw [Tbuf.rest_advance, List.length_drop, hrest]
      rw [add_skip fuel henter (hclean hidle) (by omega) (by omega)] at ha
      have hloop : addRest (fuel + 1) (Tbuf.advance ⟨id, data, 8⟩ (blockOffset data)) = .ok a := by
        rw [addRest, if_neg (List.ne_nil_of_length_pos (by omega))]
        exact ha
      exact addRest_declared (fuel + 1) (Tbuf.advance ⟨id, data, 8⟩ _) hd (by omega) hloop
    · rw [add_past fuel henter (hclean hidle) (by omega) (by omega)] at ha
      cases ha
      exact declared_some (due_clean ds) _
  · cases m with
    | none => exact absurd rfl hidle
    | some v =>
        obtain ⟨hleft, _⟩ := hbusy hidle
        have hdue := hdue v rfl
        simp only [Option.getD_some] at hidle hleft hbytes
        rw [add_busy fuel henter (by omega) (by omega) hidle hleft, hrest] at ha
        split at ha
        · split at ha
          · -- All of the datagram belongs to the packet.
            cases ha
            rw [← hrest]
            exact declared_some (due_more hdue _ (by omega)) _
          · -- The packet ends here, and the rest is skipped.
            cases ha
            have hlast : ((Tbuf.rest ⟨id, data, 8⟩).take v.left).length = v.left :=
              List.length_take_of_le (by omega)
            exact (declared_none ds _).cons (whole_last hdue hbytes _ hlast hleft)
        · split at ha
          · -- The packet ends where the next block begins.
            have hlast : ((Tbuf.rest ⟨id, data, 8⟩).take v.left).length = v.left :=
              List.length_take_of_le (by omega)
            have hwhole := whole_last hdue hbytes ⟨id, data, 8⟩ hlast hleft
            obtain ⟨b, hrec, rfl⟩ := map_eq_ok.mp ha
            have hdrop : (Tbuf.advance ⟨id, data, 8⟩ v.left).rest.length < 2 ^ 16 := by
              rw [Tbuf.rest_advance, List.length_drop]
              omega
            have hb : Added.Declared ds b :=
              addRest_declared fuel (Tbuf.advance ⟨id, data, 8⟩ v.left) hd hdrop hrec
            exact hb.cons hwhole
          · cases ha

/-! ### Runs -/

/-- The receiver between two passes: the packet in progress, and those that were pushed. -/
structure Rx.Declared (ds : List (Nat × List UInt8)) (s : Rx) : Prop where
  tidy : Tidy s.m
  m : ∀ v, s.m = some v → v.Due ds
  outq : ∀ u ∈ s.outq, u.Whole ds

/-- Every pass keeps it, with the datagram of the pass among those received. -/
theorem declared_step {cfg : Config} {ds : List (Nat × List UInt8)} {s s' : Rx} {e : RxEvent}
    (hs : Rx.Declared ds s) (h : readTfsPktsStep cfg s e = .ok s') :
    Rx.Declared (ds ++ received [e]) s' := by
  have hsub : ds ⊆ ds ++ received [e] := List.subset_append_left _ _
  obtain ⟨t, htimed, hcases⟩ := readTfsPktsStep_cases h
  have ht : Rx.Declared (ds ++ received [e]) t := by
    constructor
    · rw [htimed.m]
      exact hs.tidy
    · rw [htimed.m]
      intro v hv
      exact due_mono hsub (hs.m v hv)
    · rw [htimed.outq]
      intro u hu
      exact whole_mono hsub (hs.outq u hu)
  obtain rfl | rfl | ⟨g, rfl⟩ | ⟨id, bytes, seq, hrecv, _, haccept⟩ := hcases
  · exact ht
  · exact ⟨ht.tidy, ht.m, ht.outq⟩
  · exact ⟨ht.tidy, ht.m, ht.outq⟩
  · obtain ⟨_, rfl⟩ | ⟨_, a, ha, rfl⟩ := acceptData_cases haccept
    · exact ⟨ht.tidy, ht.m, ht.outq⟩
    · have hmem : (id, recvBytes bytes) ∈ ds ++ received [e] := by
        apply List.mem_append_right
        simp [received, hrecv]
      have hkeep : ∀ v, t.ack.keep seq t.m = some v → v.Due (ds ++ received [e]) := by
        intro v hv
        rw [Ackinfo.keep] at hv
        split at hv
        · -- After a gap the packet is empty.
          obtain ⟨_, _, rfl⟩ := Option.map_eq_some_iff.mp hv
          exact due_clean _
        · exact ht.m v hv
      have htidy : Tidy (t.ack.keep seq t.m) := Tidy.keep ht.tidy t.ack seq
      have hadded := add_declared htidy hkeep hmem ha
      refine ⟨Tidy.add htidy ha, hadded.m, ?_⟩
      intro u hu
      obtain hu | hu := List.mem_append.mp hu
      · exact ht.outq u hu
      · exact hadded.outq u hu

/-- Packets come out with the length they declare. In the state that any run of `read_tfs_pkts`
reaches, whatever was received and lost, the packet in progress is empty, a short start, or owed
exactly what its length field says, and every packet pushed has the length that its field says at
the place it starts, which is the length of its entries. -/
theorem declared_of_run (cfg : Config) (pps : Pps) (es : List RxEvent) (s : Rx)
    (hrun : run (readTfsPktsStep cfg) (Rx.init pps) es = .ok s) :
    (∀ v, s.m = some v → v.Due (received es)) ∧ ∀ u ∈ s.outq, u.Whole (received es) := by
  have hdeclared : Rx.Declared (received es) s := by
    induction es using List.reverseRecOn generalizing s with
    | nil =>
        cases hrun
        constructor
        · exact tidy_none
        · intro v hv
          cases hv
        · exact List.forall_mem_nil _
    | append_singleton es e ih =>
        obtain ⟨t, ht, hstep⟩ := run_concat.mp hrun
        have hall : received (es ++ [e]) = received es ++ received [e] := by
          simp [received, List.filterMap_append]
        rw [hall]
        exact declared_step (ih t ht) hstep
  exact ⟨hdeclared.m, hdeclared.outq⟩

/-- A packet in two datagrams, with a lost one in between: it is dropped, and the next comes out. -/
theorem declared_two : ∃ s, run (readTfsPktsStep ⟨1500, false, false⟩)
    (Rx.init ⟨100, 100, 10000000⟩)
    [⟨none, .got 0 (wtfsHdr 1 0 ++ [0x45, 0, 0, 9]) false⟩,
      ⟨none, .got 1 (wtfsHdr 3 0 ++ [0x45, 0, 0, 5, 7]) false⟩] = .ok s ∧
    s.outq.map Miov.bytes = [[0x45, 0, 0, 5, 7]] ∧
    ∀ u ∈ s.outq, u.Whole (received [⟨none, .got 0 (wtfsHdr 1 0 ++ [0x45, 0, 0, 9]) false⟩,
      ⟨none, .got 1 (wtfsHdr 3 0 ++ [0x45, 0, 0, 5, 7]) false⟩]) := by
  obtain ⟨s, hrun, hbytes⟩ : ∃ s, run (readTfsPktsStep ⟨1500, false, false⟩)
      (Rx.init ⟨100, 100, 10000000⟩)
      [⟨none, .got 0 (wtfsHdr 1 0 ++ [0x45, 0, 0, 9]) false⟩,
        ⟨none, .got 1 (wtfsHdr 3 0 ++ [0x45, 0, 0, 5, 7]) false⟩] = .ok s ∧
      s.outq.map Miov.bytes = [[0x45, 0, 0, 5, 7]] := ⟨_, rfl, rfl⟩
  exact ⟨s, hrun, hbytes, (declared_of_run _ _ _ s hrun).2⟩

/-- A packet that says it has one byte. Its length field is not in it. -/
theorem not_lengthField : ¬ ∀ (cfg : Config) (pps : Pps) (es : List RxEvent) (s : Rx),
    run (readTfsPktsStep cfg) (Rx.init pps) es = .ok s →
    ∀ u ∈ s.outq, u.len = lengthField u.bytes := by
  intro h
  have hlen := h ⟨1500, false, false⟩ ⟨100, 100, 10000000⟩
    [⟨none, .got 0 (wtfsHdr 1 0 ++ [0x45, 0, 0, 1]) false⟩] _ rfl ⟨[⟨0, 8, [0x45]⟩], 1, 0⟩
    (by decide)
  exact absurd hlen (by decide)

end Proofs

end Iptfs
