import Iptfs.Lib.Run
import Iptfs.Proofs.Entries

/-!
# `Iptfs.Proofs.InOrder`: frames that all arrive in order

`Clear` datagrams are those that `add_frame` is about. `Garbled` datagrams are those that
lead the reassembler astray: a packet begins in them whose length field is not read as its
length. `delivered_iff_clear` says that over a chained sequence of such datagrams the
reassembler delivers the blocks exactly when all of them are clear.

That is the reassembler without its pool and its arrays. `confined_delivers_iff` adds them, and
`along_room_iff` counts what clear datagrams take of them.
-/

set_option autoImplicit false

namespace Iptfs.Proofs

open Iptfs.Lib Iptfs.Lib.Framing

/-- A datagram of a frame of IPv4 packets that are cut after the length field or not at all. -/
structure Clear (k : Cut UInt8) (d : Nat × List UInt8) : Prop where
  datagram : Datagram d.2 k.frame
  sound : Sound Ipv4 4 k.frame

/-- The frame has a packet `p` whose length is not read: after the IPv4 packets `before` come
the bytes `rest` of `p` and what follows, and the length field there says `n`. -/
def Misread (f : Frame UInt8) : Prop :=
  ∃ owed whole next pad before p after rest n,
    f = .blocks owed whole next pad ∧ f.begun = before ++ p :: after ∧
    (∀ q ∈ before, Ipv4 q) ∧ rest ≠ [] ∧
    whole.flatten ++ (next.map Carry.front).getD pad = before.flatten ++ rest ∧
    (∀ t : Tbuf, t.rest = rest → startIplen t rest.length = .ok (some n)) ∧ n ≠ p.length

/-- A datagram that leads the reassembler astray, or that it does not survive. -/
def Garbled (k : Cut UInt8) (d : Nat × List UInt8) : Prop :=
  2 ^ 16 + 8 ≤ d.2.length ∨ (Datagram d.2 k.frame ∧ Misread k.frame)

/-! ### The steps -/

/-- A clear datagram is one frame of the stream. -/
theorem innerStep_clear {k : Cut UInt8} {d : Nat × List UInt8} {s : Inner} (h : Clear k d)
    (hm : Holds s.m k.frame.before) :
    ∃ s', innerStep s d = .ok s' ∧ Holds s'.m k.frame.after ∧
      s'.outq.map Miov.bytes ++ (k.frame.after.map Carry.block).toList =
        s.outq.map Miov.bytes ++ ((k.frame.before.map Carry.block).toList ++ k.frame.begun) := by
  obtain ⟨a, ha, hholds, hout⟩ := add_frame d.1 h.datagram h.sound hm (.inr rfl)
  obtain ⟨hafter, hblocks⟩ := k.frame.receive_before
  rw [hafter] at hholds
  refine ⟨_, innerStep_eq_ok.mpr ⟨a, ha, rfl⟩, hholds, ?_⟩
  rw [List.map_append, hout, List.append_assoc, hblocks]

/-- Where the length field says `k` and not `n`, the packet does not come out with `n`
bytes. -/
theorem addRest_misread {fuel k n : Nat} {t : Tbuf} {a : Added} (hne : t.rest ≠ [])
    (hlen : t.rest.length < 2 ^ 16) (hk : startIplen t t.rest.length = .ok (some k))
    (hkn : k ≠ n) (ha : addRest fuel t = .ok a) :
    (a.outq = [] ∧ Astray n a.m) ∨ ∃ x xs, a.outq = x :: xs ∧ x.bytes.length ≠ n := by
  have hpos := List.length_pos_iff.mpr hne
  rw [addRest, if_neg hne] at ha
  cases fuel with
  | zero => cases ha
  | succ fuel =>
      rw [add_packet fuel hne hlen hk] at ha
      split at ha
      · rename_i hfull
        obtain ⟨b, _, rfl⟩ := map_eq_ok.mp ha
        refine .inr ⟨_, _, rfl, ?_⟩
        show (addSlice Miov.clean t (t.rest.take k)).bytes.length ≠ n
        rw [bytes_addSlice, Miov.bytes_clean, List.nil_append, List.length_take]
        omega
      · rename_i hpart
        cases ha
        refine .inl ⟨rfl, _, rfl, ?_, ?_, ?_⟩
        · show 0 + t.rest.length ≠ 0
          omega
        · show (addSlice Miov.clean t t.rest).bytes.length = 0 + t.rest.length
          rw [bytes_addSlice, Miov.bytes_clean, List.nil_append, Nat.zero_add]
        · show k - t.rest.length = 0 ∨ 0 + t.rest.length + (k - t.rest.length) ≠ n
          omega

/-- A frame with a packet whose length is misread: the packets before it come out, and it
does not come out with its length. -/
theorem add_frame_misread {id : Nat} {data : List UInt8} {f : Frame UInt8} {m : Option Miov}
    {a : Added} (hd : Datagram data f) (hmis : Misread f) (hm : Holds m f.before)
    (ha : addToInnerPacket data.length (Tbuf.fresh id data) true m = .ok a) :
    ∃ before p after out, f.begun = before ++ p :: after ∧
      a.outq.map Miov.bytes = (f.before.map Carry.block).toList ++ (before ++ out) ∧
      ((out = [] ∧ Astray p.length a.m) ∨ ∃ x xs, out = x :: xs ∧ x.length ≠ p.length) := by
  obtain ⟨owed, whole, next, pad, before, p, after, rest, n, rfl, hbegun, hip, hne, hsplit, hn,
      hnp⟩ :=
    hmis
  obtain ⟨fuel, t, ms, hrest, hlen, hfuel, hms, hres⟩ := add_frame_blocks id hd hm (.inr rfl)
  have howed : ms.map Miov.bytes = (owed.map Carry.block).toList := by
    rw [hms]
    cases owed <;> rfl
  rw [hsplit] at hrest
  obtain ⟨fuel', t', ns, hrest', hfuel', hns, hadd⟩ :=
    addRest_whole hip fuel t rest hrest hlen hfuel
  have hrlen := congrArg List.length hrest
  rw [List.length_append] at hrlen
  have hpos := List.length_pos_iff.mpr hne
  refine ⟨before, p, after, ?_⟩
  rcases hres with hres | ⟨h0, -, -⟩
  · rw [ha, hadd] at hres
    cases hlast : addRest fuel' t' with
    | error e =>
        rw [hlast] at hres
        cases hres
    | ok b =>
        rw [hlast] at hres
        cases hres
        have hcase := addRest_misread (by rw [hrest']; exact hne) (by rw [hrest']; omega)
          (by rw [hrest']; exact hn t' hrest') hnp hlast
        refine ⟨b.outq.map Miov.bytes, hbegun, ?_, ?_⟩
        · show (ms ++ (ns ++ b.outq)).map Miov.bytes = _
          rw [List.map_append, List.map_append, hns, howed]
          rfl
        · rcases hcase with ⟨hnil, hastray⟩ | ⟨x, xs, hcons, hx⟩
          · exact .inl ⟨by rw [hnil]; rfl, hastray⟩
          · exact .inr ⟨x.bytes, xs.map Miov.bytes, by rw [hcons]; rfl, hx⟩
  · rw [h0] at hrlen
    simp at hrlen
    omega

/-! ### The runs -/

/-- What is pushed stays pushed. -/
theorem run_innerStep_outq {ds : List (Nat × List UInt8)} {s s' : Inner}
    (h : Lib.run innerStep s ds = .ok s') : ∃ ys, s'.outq = s.outq ++ ys := by
  refine run_invariant (P := fun u : Inner => ∃ ys, u.outq = s.outq ++ ys) ?_ ⟨[], by simp⟩ h
  rintro u d v ⟨ys, hys⟩ hv
  obtain ⟨a, -, rfl⟩ := innerStep_eq_ok.mp hv
  exact ⟨ys ++ a.outq, by rw [hys, List.append_assoc]⟩

/-- A packet that is astray never comes out with its length. -/
theorem Astray.run {n : Nat} {ds : List (Nat × List UInt8)} :
    ∀ {s s' : Inner}, Astray n s.m → Lib.run innerStep s ds = .ok s' →
      s'.outq = s.outq ∨ ∃ x xs, s'.outq = s.outq ++ x :: xs ∧ x.bytes.length ≠ n := by
  induction ds with
  | nil =>
      intro s s' _ h
      cases h
      exact .inl rfl
  | cons d ds ih =>
      intro s s' hs h
      obtain ⟨t, hst, htu⟩ := run_cons_eq_ok.mp h
      obtain ⟨a, ha, rfl⟩ := innerStep_eq_ok.mp hst
      rcases hs.add ha with ⟨hnil, hastray⟩ | ⟨x, xs, hcons, hx⟩
      · have hrest := ih (s := ⟨a.m, s.outq ++ a.outq⟩) hastray htu
        rwa [hnil, List.append_nil] at hrest
      · right
        obtain ⟨ys, hys⟩ := run_innerStep_outq htu
        exact ⟨x, xs ++ ys, by rw [hys, hcons]; simp, hx⟩

/-- Clear datagrams in order find room exactly when their frames do: the entries of the packet in
progress are the frames aboard. Induction on the frames. -/
theorem along_room_iff {cfg : Config} {ks : List (Cut UInt8)} :
    ∀ {c : Option (Carry UInt8)} {ds : List (Nat × List UInt8)} {s : Inner},
      List.Forall₂ Clear ks ds → Chained c ks → (∀ k ∈ ks, k.left = true) → Holds s.m c →
      (Along innerStep (fun u _ => Room cfg u.m) s ds ↔
        Within (min OUTERQSZ cfg.maxiov) (entries s.m) ks) := by
  induction ks with
  | nil =>
      intro c ds s hall _ _ _
      cases hall
      exact Iff.rfl
  | cons k ks ih =>
      intro c ds s hall hchain hleft hm
      cases hall with
      | @cons _ d _ ds hclear hall =>
          obtain ⟨hbefore, hchain⟩ := hchain
          rw [Cut.carry, if_pos (hleft k (by simp))] at hchain
          have hm' : Holds s.m k.frame.before := by rwa [hbefore]
          obtain ⟨t, ht, hholds, -⟩ := innerStep_clear hclear hm'
          obtain ⟨a, ha, rfl⟩ := innerStep_eq_ok.mp ht
          have hload : entries a.m = k.frame.load k.frame.before (entries s.m) :=
            entries_frame hclear.datagram hclear.sound hm' (.inr rfl) ha
          have hrest := ih hall hchain (fun l hl => hleft l (List.mem_cons_of_mem _ hl)) hholds
          rw [hload] at hrest
          rw [Along, Within, ← hrest, ← room_iff]
          refine and_congr_right fun _ => ⟨fun h => h _ ht, fun h u hu => ?_⟩
          rw [ht] at hu
          cases hu
          exact h

/-- What the reassembler delivers with the pool and the arrays is what it delivers without them,
where there is room for every datagram. -/
theorem confined_delivers_iff (cfg : Config) (ds : List (Nat × List UInt8))
    (ps : List (List UInt8)) :
    (∃ r, Lib.run (confinedInner cfg) Inner.init ds = .ok r ∧ r.outq.map Miov.bytes = ps) ↔
      (∃ r, Lib.run innerStep Inner.init ds = .ok r ∧ r.outq.map Miov.bytes = ps) ∧
        Along innerStep (fun u _ => Room cfg u.m) Inner.init ds := by
  simp only [run_confinedInner_iff (soundInner_init cfg)]
  constructor
  · rintro ⟨r, ⟨hr, hal⟩, hout⟩
    exact ⟨⟨r, hr, hout⟩, hal⟩
  · rintro ⟨⟨r, hr, hout⟩, hal⟩
    exact ⟨r, ⟨hr, hal⟩, hout⟩

/-- Datagrams that all arrive in order are delivered exactly when all of them are clear. The
induction is on the frames: a clear one moves both sides on, and after the first one that
is garbled nothing comes out right. -/
theorem delivered_iff_clear {ks : List (Cut UInt8)} :
    ∀ {c : Option (Carry UInt8)} {ds : List (Nat × List UInt8)} {s : Inner},
      List.Forall₂ (fun k d => Clear k d ∨ Garbled k d) ks ds → Chained c ks →
      (∀ k ∈ ks, k.left = true) → carryAfter c ks = none → Holds s.m c →
      ((∃ s', Lib.run innerStep s ds = .ok s' ∧ s'.outq.map Miov.bytes = s.outq.map Miov.bytes ++
          ((c.map Carry.block).toList ++ (ks.map fun k => k.frame.begun).flatten)) ↔
        List.Forall₂ Clear ks ds) := by
  induction ks with
  | nil =>
      intro c ds s hall _ _ hend _
      cases hall
      simp only [carryAfter] at hend
      subst hend
      simp
  | cons k ks ih =>
      intro c ds s hall hchain hleft hend hm
      cases hall with
      | @cons _ d _ ds hkd hall =>
          obtain ⟨hbefore, hchain⟩ := hchain
          have hk : k.left = true := hleft k (by simp)
          rw [Cut.carry, if_pos hk] at hchain
          rw [carryAfter, Cut.carry, if_pos hk] at hend
          by_cases hclear : Clear k d
          · obtain ⟨t, ht, hholds, hout⟩ := innerStep_clear hclear (by rw [hbefore]; exact hm)
            have hrest := ih hall hchain (fun l hl => hleft l (List.mem_cons_of_mem _ hl)) hend
              hholds
            have heq : s.outq.map Miov.bytes ++ ((c.map Carry.block).toList ++
                ((k :: ks).map fun k => k.frame.begun).flatten) =
                t.outq.map Miov.bytes ++ ((k.frame.after.map Carry.block).toList ++
                  (ks.map fun k => k.frame.begun).flatten) := by
              rw [← List.append_assoc (t.outq.map Miov.bytes), hout, hbefore]
              simp
            rw [heq, run_cons_ok _ ht, hrest, List.forall₂_cons, and_iff_right hclear]
          · refine ⟨?_, fun h => absurd (List.forall₂_cons.mp h).1 hclear⟩
            rintro ⟨s', hrun, hdel⟩
            exfalso
            obtain ⟨t, hst, htu⟩ := run_cons_eq_ok.mp hrun
            obtain ⟨a, ha, rfl⟩ := innerStep_eq_ok.mp hst
            rcases hkd.resolve_left hclear with hlarge | ⟨hd, hmis⟩
            · obtain ⟨e, he⟩ := add_large d.2.length d.1 (m := s.m) hlarge
              rw [ha] at he
              cases he
            · obtain ⟨before, p, after, out, hbegun, houtq, hcase⟩ :=
                add_frame_misread hd hmis (by rw [hbefore]; exact hm) ha
              -- What should have come out, from the misread packet on.
              have hwant : ∃ ys, s'.outq.map Miov.bytes =
                  (s.outq.map Miov.bytes ++ ((c.map Carry.block).toList ++ before)) ++ p :: ys := by
                refine ⟨after ++ (ks.map fun k => k.frame.begun).flatten, ?_⟩
                rw [hdel, List.map_cons, List.flatten_cons, hbegun]
                simp
              have hgot : s.outq.map Miov.bytes ++ a.outq.map Miov.bytes =
                  (s.outq.map Miov.bytes ++ ((c.map Carry.block).toList ++ before)) ++ out := by
                rw [houtq, hbefore]
                simp
              obtain ⟨ys, hys⟩ := hwant
              have hclash : ∀ x xs, s'.outq.map Miov.bytes =
                  (s.outq.map Miov.bytes ++ ((c.map Carry.block).toList ++ before)) ++ x :: xs →
                  x.length = p.length := by
                intro x xs hx
                rw [hys] at hx
                have hcons := List.append_cancel_left hx
                rw [(List.cons.inj hcons).1]
              rcases hcase with ⟨hnil, hastray⟩ | ⟨x, xs, hcons, hx⟩
              · rcases Astray.run (s := ⟨a.m, s.outq ++ a.outq⟩) hastray htu with
                  hsame | ⟨x, xs, hmore, hx⟩
                · have hlens := congrArg List.length hys
                  rw [hsame, List.map_append, hgot, hnil] at hlens
                  simp at hlens
                · apply hx
                  apply hclash x.bytes (xs.map Miov.bytes)
                  rw [hmore, List.map_append, List.map_append, hgot, hnil]
                  simp
              · obtain ⟨zs, hzs⟩ := run_innerStep_outq htu
                apply hx
                apply hclash x (xs ++ zs.map Miov.bytes)
                rw [hzs, List.map_append, List.map_append, hgot, hcons]
                simp

end Iptfs.Proofs
