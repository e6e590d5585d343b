import Iptfs.Proofs.AnyDatagram
import Iptfs.Spec.Stream

/-!
# `Iptfs.Proofs.Entries`: the mbufs and the arrays that a packet in progress takes

The packet in progress keeps an mbuf for each of its entries, and its arrays have room for
`maxiov` of them. `entries_frame` counts: over the frames of the sender the entries are the
frames aboard, which is what `Framing.Ledger.aboard` says. `Room` is the condition on the
packet in progress under which the pool and the arrays do not give out at the next datagram.

The other lemmas say when a pass of the receiver with the pool, or with the pool and the
arrays, comes to its end: when the pass without them does, and there is room. With
`run_guarded_iff` they carry over to runs (`run_pooled_iff`, `run_confined_iff`).
-/

set_option autoImplicit false

namespace Iptfs.Proofs

open Iptfs.Lib Iptfs.Lib.Framing

/-! ### Counting -/

/-- A packet in progress that is a block under way is tidy, and so is none. -/
theorem Holds.tidy {m : Option Miov} {held : Option (Carry UInt8)} (h : Holds m held) :
    Tidy m := by
  intro v hv
  cases held with
  | none =>
      rw [Holds, hv, Option.getD_some] at h
      rw [h]
      exact ⟨rfl, fun _ => rfl⟩
  | some c =>
      obtain ⟨w, hw, hbytes, hlen, -⟩ := h
      rw [hv, Option.some.injEq] at hw
      have hfront := c.length_front
      have hpos := c.sent_pos
      rw [hw, hbytes, hlen]
      exact ⟨hfront, fun h0 => by omega⟩

/-- What is in progress has bytes exactly when a block is held. -/
theorem Holds.len_eq_zero {m : Option Miov} {held : Option (Carry UInt8)} (h : Holds m held) :
    (m.getD Miov.clean).len = 0 ↔ held = none := by
  cases held with
  | none =>
      rw [Holds] at h
      rw [h]
      exact iff_of_true rfl rfl
  | some c =>
      obtain ⟨w, rfl, -, hlen, -⟩ := h
      have hpos := c.sent_pos
      rw [Option.getD_some, hlen]
      exact iff_of_false (by omega) (by simp)

/-- No block is held: nothing is aboard. -/
theorem Holds.entries_none {m : Option Miov} (h : Holds m none) : entries m = 0 := by
  rw [Holds] at h
  rw [entries, h]
  rfl

/-- A datagram is a middle piece exactly when its frame is, and the block is held. -/
theorem Holds.wantsMore_iff {data : List UInt8} {f : Frame UInt8} {m : Option Miov}
    {held : Option (Carry UInt8)} (h : Holds m held) (hd : Datagram data f)
    (hheld : held = none ∨ held = f.before) :
    WantsMore m data ↔ held ≠ none ∧ ∃ c n hn hlt, f = .middle c n hn hlt := by
  rw [WantsMore, ne_eq, h.len_eq_zero]
  refine and_congr_right fun hne => ?_
  obtain ⟨hdr, hhdr, rfl⟩ := hd.split
  rw [List.length_append, hhdr, Nat.add_sub_cancel_left]
  cases held with
  | none => exact absurd rfl hne
  | some c =>
      obtain ⟨v, rfl, -, -, hleft⟩ := h
      have hbefore : f.before = some c := (hheld.resolve_left hne).symm
      have hlt := c.sent_lt
      rw [Option.getD_some, hleft]
      cases f with
      | middle c' n hn h =>
          obtain rfl : c' = c := by simpa [Frame.before] using hbefore
          refine iff_of_true ?_ ⟨c', n, hn, h, rfl⟩
          simp only [Frame.payload, List.length_take, Carry.length_rest]
          omega
      | blocks owed whole next pad =>
          obtain rfl : owed = some c := by simpa [Frame.before] using hbefore
          refine iff_of_false ?_ (by simp)
          simp only [Frame.payload, Option.map_some, Option.getD_some, List.length_append,
            Carry.length_rest]
          omega

/-- A datagram of the sender, counted: the entries after it are the frames aboard. -/
theorem entries_frame {id : Nat} {data : List UInt8} {f : Frame UInt8} {m : Option Miov}
    {held : Option (Carry UInt8)} {a : Added} (hd : Datagram data f) (hsound : Sound Ipv4 4 f)
    (hm : Holds m held) (hheld : held = none ∨ held = f.before)
    (ha : addToInnerPacket data.length (Tbuf.fresh id data) true m = .ok a) :
    entries a.m = f.load held (entries m) := by
  obtain ⟨b, hb, hholds, -⟩ := add_frame id hd hsound hm hheld
  rw [ha] at hb
  cases hb
  have hgrows := (hm.tidy.grows ha).entries
  rw [hm.wantsMore_iff hd hheld] at hgrows
  have hafter := hholds.len_eq_zero
  cases f with
  | middle c n hn h =>
      cases held with
      | none =>
          rcases hgrows with ⟨⟨hne, -⟩, -⟩ | ⟨-, hent⟩
          · exact absurd rfl hne
          · rw [hent, if_pos (hafter.mpr rfl)]
            rfl
      | some c' =>
          rcases hgrows with ⟨-, hent⟩ | ⟨hno, -⟩
          · rw [hent]
            rfl
          · exact absurd ⟨by simp, c, n, hn, h, rfl⟩ hno
  | blocks owed whole next pad =>
      rcases hgrows with ⟨⟨-, c, n, hn, h, hf⟩, -⟩ | ⟨-, hent⟩
      · cases hf
      · rw [hent, Frame.load]
        cases next with
        | none => exact if_pos (hafter.mpr rfl)
        | some c => exact if_neg (fun h0 => absurd (hafter.mp h0) (by simp [Frame.receive]))

/-! ### Room for one more entry -/

/-- The packet in progress leaves an mbuf for the next datagram, and an entry of its arrays. -/
structure Room (cfg : Config) (m : Option Miov) : Prop where
  pool : MbufLeft m
  arrays : entries m < cfg.maxiov

/-- There is room for one more entry while the packet has fewer than the arrays hold, and fewer
than there are mbufs. -/
theorem room_iff {cfg : Config} {m : Option Miov} :
    Room cfg m ↔ entries m < min OUTERQSZ cfg.maxiov := by
  rw [Nat.lt_min]
  exact ⟨fun h => ⟨h.pool, h.arrays⟩, fun h => ⟨h.1, h.2⟩⟩

instance (cfg : Config) (m : Option Miov) : Decidable (Room cfg m) :=
  decidable_of_iff _ room_iff.symm

/-- The arrays of a miov have room for two entries at least. -/
theorem maxiov_pos (cfg : Config) : 1 ≤ cfg.maxiov :=
  Nat.le_trans (by decide) (Nat.le_add_left 2 (MAXBUF / cfg.tfsmtu))

/-- The packets after a datagram have at most `b` entries exactly when those of the packet it
goes on with leave room for one more. -/
theorem Added.Grows.narrow_iff {b : Nat} (hb : 1 ≤ b) {m : Option Miov} {data : List UInt8}
    {a : Added} (h : Added.Grows m data a) (hm : Tidy m) :
    Added.Narrow a b ↔ Iptfs.entries m < b := by
  rw [h.narrow _ hb]
  constructor
  · intro hroom
    by_cases h0 : (m.getD Miov.clean).len = 0
    · rw [Iptfs.entries, hm.getD.2 h0]
      exact hb
    · exact hroom h0
  · exact fun hlt _ => hlt

/-- A gap clears the packet in progress. -/
theorem Tidy.keep {m : Option Miov} (h : Tidy m) (ack : Ackinfo) (seq : Nat) :
    Tidy (ack.keep seq m) := by
  rw [Ackinfo.keep]
  split
  · cases m with
    | none => exact tidy_none
    | some v => exact tidy_clean
  · exact h

/-- The test for a gap adds no entries. -/
theorem entries_keep_le (ack : Ackinfo) (seq : Nat) (m : Option Miov) :
    entries (ack.keep seq m) ≤ entries m := by
  rw [Ackinfo.keep]
  split
  · cases m with
    | none => exact Nat.le_refl _
    | some v => exact Nat.zero_le _
  · exact Nat.le_refl _

/-! ### Passes with the pool and the arrays -/

/-- A datagram is survived when `add_to_inner_packet` survives it. -/
theorem innerStep_eq_ok {s s' : Inner} {d : Nat × List UInt8} :
    innerStep s d = .ok s' ↔
      ∃ a, addToInnerPacket d.2.length (Tbuf.fresh d.1 d.2) true s.m = .ok a ∧
        s' = ⟨a.m, s.outq ++ a.outq⟩ := by
  rw [innerStep]
  cases addToInnerPacket d.2.length (Tbuf.fresh d.1 d.2) true s.m with
  | error e => simp
  | ok a => simp [eq_comm]

/-- A pass with the pool ends when there is an mbuf for it, and the pass without the pool
ends. -/
theorem pooled_eq_ok {σ ι : Type} {m : σ → Option Miov} {step : σ → ι → Res σ} {s t : σ} {i : ι} :
    pooled m step s i = .ok t ↔ step s i = .ok t ∧ MbufLeft (m s) := by
  rw [pooled]
  by_cases h : MbufLeft (m s)
  · rw [if_pos h]
    cases step s i with
    | error e => simp
    | ok u => simp [h]
  · rw [if_neg h]
    simp [h]

/-- Runs with the pool are the runs without it in which every pass finds an mbuf. -/
theorem run_pooled_iff {cfg : Config} {es : List RxEvent} {s t : Rx} :
    run (pooledStep cfg) s es = .ok t ↔
      run (readTfsPktsStep cfg) s es = .ok t ∧
        Along (readTfsPktsStep cfg) (fun u _ => MbufLeft u.m) s es :=
  run_guarded_iff (P := fun _ => True) (fun _ _ _ _ => pooled_eq_ok)
    (fun _ _ _ _ _ _ => trivial) trivial

/-- A result that is checked at the end. -/
theorem checked_eq_ok {σ : Type} {C : σ → Prop} [DecidablePred C] {f : Fault} {u t : σ} :
    (if C u then .ok u else .error f : Res σ) = .ok t ↔ (.ok u : Res σ) = .ok t ∧ C t := by
  by_cases h : C u
  · rw [if_pos h]
    refine ⟨fun heq => ⟨heq, ?_⟩, And.left⟩
    cases heq
    exact h
  · rw [if_neg h]
    refine iff_of_false (by simp) fun ⟨heq, ht⟩ => ?_
    cases heq
    exact h ht

/-- A pass with the arrays ends when the pass without them does, and no packet has outgrown
its arrays. -/
theorem boundedStep_eq_ok {cfg : Config} {s t : Rx} {e : RxEvent} :
    boundedStep cfg s e = .ok t ↔ readTfsPktsStep cfg s e = .ok t ∧ t.Fits cfg := by
  rw [boundedStep]
  cases readTfsPktsStep cfg s e with
  | error f => simp
  | ok u => exact checked_eq_ok

/-- The same for the reassembler. -/
theorem boundedInner_eq_ok {cfg : Config} {s t : Inner} {d : Nat × List UInt8} :
    boundedInner cfg s d = .ok t ↔ innerStep s d = .ok t ∧ t.Fits cfg := by
  rw [boundedInner]
  cases innerStep s d with
  | error f => simp
  | ok u => exact checked_eq_ok

/-- A pass with the pool and the arrays ends when the pass without them does, there is an mbuf
for it, and no packet has outgrown its arrays. -/
theorem confinedStep_eq_ok {cfg : Config} {s t : Rx} {e : RxEvent} :
    confinedStep cfg s e = .ok t ↔
      readTfsPktsStep cfg s e = .ok t ∧ MbufLeft s.m ∧ t.Fits cfg := by
  rw [confinedStep, pooled_eq_ok, boundedStep_eq_ok, and_assoc, and_comm (a := t.Fits cfg)]

/-- A run with the pool and the arrays is a run without them. -/
theorem run_of_confined {cfg : Config} {es : List RxEvent} {s t : Rx}
    (h : run (confinedStep cfg) s es = .ok t) : run (readTfsPktsStep cfg) s es = .ok t :=
  ((run_guarded_iff (P := fun _ => True)
    (G := fun s e => MbufLeft s.m ∧ ∀ t, readTfsPktsStep cfg s e = .ok t → t.Fits cfg)
    (fun s e t _ => by
      rw [confinedStep_eq_ok]
      refine and_congr_right fun hst => and_congr_right fun _ => ⟨fun hfit u hu => ?_, ?_⟩
      · rw [hst] at hu
        cases hu
        exact hfit
      · exact fun hfit => hfit t hst)
    (fun _ _ _ _ _ _ => trivial) trivial).mp h).1

/-- What the packets of a call add to those already there. -/
theorem fits_append {cfg : Config} {s : Inner} {a : Added} (h : s.Fits cfg) :
    Inner.Fits cfg ⟨a.m, s.outq ++ a.outq⟩ ↔ Added.Narrow a cfg.maxiov := by
  rw [Inner.Fits, Added.Narrow]
  constructor
  · intro hall x hx
    apply hall
    rcases List.mem_append.mp hx with hx | hx
    · exact List.mem_append_left _ hx
    · exact List.mem_append_right _ (List.mem_append_right _ hx)
  · intro hall x hx
    rcases List.mem_append.mp hx with hx | hx
    · exact hall x (List.mem_append_left _ hx)
    · rcases List.mem_append.mp hx with hx | hx
      · exact h x (List.mem_append_right _ hx)
      · exact hall x (List.mem_append_right _ hx)

/-- The reassembler between two datagrams: the packet in progress is tidy, and no packet has
outgrown its arrays. -/
structure SoundInner (cfg : Config) (s : Inner) : Prop where
  tidy : Tidy s.m
  fits : s.Fits cfg

/-- No packet is in progress at first. -/
theorem soundInner_init (cfg : Config) : SoundInner cfg Inner.init where
  tidy := tidy_none
  fits := by simp [Inner.Fits, Inner.init]

/-- A datagram that the reassembler survives without the pool and the arrays is survived with
them exactly when there is room for it. -/
theorem SoundInner.step_iff {cfg : Config} {s t : Inner} (h : SoundInner cfg s)
    (d : Nat × List UInt8) :
    confinedInner cfg s d = .ok t ↔ innerStep s d = .ok t ∧ Room cfg s.m := by
  rw [confinedInner, pooled_eq_ok, boundedInner_eq_ok, and_assoc]
  refine and_congr_right fun hst => ?_
  obtain ⟨a, ha, rfl⟩ := innerStep_eq_ok.mp hst
  rw [fits_append h.fits, (h.tidy.grows ha).narrow_iff (maxiov_pos cfg) h.tidy]
  exact ⟨fun ⟨hfit, hpool⟩ => ⟨hpool, hfit⟩, fun hroom => ⟨hroom.arrays, hroom.pool⟩⟩

/-- A datagram for which there is room keeps the reassembler sound. -/
theorem SoundInner.step {cfg : Config} {s t : Inner} (h : SoundInner cfg s)
    {d : Nat × List UInt8} (hroom : Room cfg s.m) (hst : innerStep s d = .ok t) :
    SoundInner cfg t := by
  obtain ⟨a, ha, rfl⟩ := innerStep_eq_ok.mp hst
  have hgrows := h.tidy.grows ha
  have hnarrow := (hgrows.narrow_iff (maxiov_pos cfg) h.tidy).mpr hroom.arrays
  exact ⟨hgrows.tidy, (fits_append h.fits).mpr hnarrow⟩

/-- Runs with the pool and the arrays are the runs without them in which there is room for
every datagram. -/
theorem run_confinedInner_iff {cfg : Config} {ds : List (Nat × List UInt8)} {s t : Inner}
    (h : SoundInner cfg s) :
    run (confinedInner cfg) s ds = .ok t ↔
      run innerStep s ds = .ok t ∧ Along innerStep (fun u _ => Room cfg u.m) s ds :=
  run_guarded_iff (P := SoundInner cfg) (fun _ d _ hs => hs.step_iff d)
    (fun _ _ _ hs hroom hst => hs.step hroom hst) h

end Iptfs.Proofs
