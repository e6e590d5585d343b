import Iptfs.Lib.Run
import Iptfs.Proofs.Reassembly

/-!
# `Iptfs.Proofs.AnyDatagram`: `add_to_inner_packet` on arbitrary bytes

Nothing is assumed of the sender here. `Tidy` is what holds of the packet in progress after
any datagrams: its length is the number of its bytes, and a packet without bytes is clean.

* `addRest_ok`: with no packet in progress the rest of a datagram never brings the receiver
  down, whatever its bytes are.
* `add_ok_iff`: a whole datagram brings it down exactly when `SafeData` fails, that is when
  it is too short, or when the packet in progress has no known length, or when the
  BlockOffset points into the datagram and is not what the packet is owed.
* `Astray`: a packet in progress that can no longer come out with the length `n`. It stays
  so (`Astray.add`).
-/

set_option autoImplicit false

namespace Iptfs.Proofs

/-- The packet in progress, after any datagrams. -/
def Tidy (m : Option Miov) : Prop :=
  ∀ v, m = some v → v.bytes.length = v.len ∧ (v.len = 0 → v = Miov.clean)

/-- No packet in progress. -/
theorem tidy_none : Tidy none := by
  intro v hv
  cases hv

/-- A miov fresh from the pool. It has neither bytes nor entries. -/
theorem tidy_clean : Tidy (some Miov.clean) := by
  intro v hv
  cases hv
  exact ⟨rfl, fun _ => rfl⟩

/-- Adding a slice with bytes keeps the packet tidy, whatever `left` is set to. -/
theorem tidy_addSlice {v : Miov} {t : Tbuf} {x : List UInt8} (left : Nat)
    (hv : v.bytes.length = v.len) (hx : 0 < x.length) :
    Tidy (some { addSlice v t x with left := left }) := by
  intro u hu
  cases hu
  have hbytes : (addSlice v t x).bytes.length = v.len + x.length := by
    rw [bytes_addSlice, List.length_append, hv]
  refine ⟨hbytes, fun h0 => ?_⟩
  simp only [addSlice] at h0
  omega

/-- The packet that a pass adds to is the one in progress, or a fresh miov. Either way its length
is the number of its bytes, and without bytes it is as fresh. -/
theorem Tidy.getD {m : Option Miov} (h : Tidy m) :
    (m.getD Miov.clean).bytes.length = (m.getD Miov.clean).len ∧
      ((m.getD Miov.clean).len = 0 → m.getD Miov.clean = Miov.clean) := by
  cases m with
  | none => exact ⟨rfl, fun _ => rfl⟩
  | some v => exact h v rfl

/-! ### Where a packet starts -/

/-- The length field is read only where it is there. -/
theorem startIplen_ok {t : Tbuf} (hne : t.rest ≠ []) :
    ∃ o, startIplen t t.rest.length = .ok o := by
  have hlen : t.rest.length = t.data.length - t.start := List.length_drop
  cases hrest : t.rest with
  | nil => exact absurd hrest hne
  | cons b tl =>
      have hcons : (b :: tl).length = t.data.length - t.start := by rw [← hrest, hlen]
      rw [startIplen, hrest]
      dsimp only
      by_cases h4 : b &&& 0xF0 = 0x40
      · rw [if_pos h4]
        by_cases hge : (b :: tl).length ≥ 4
        · obtain ⟨v, hv, -⟩ := get16_ok (show t.start + 2 + 2 ≤ t.data.length by omega)
          exact ⟨some v, by rw [if_pos hge, hv]; rfl⟩
        · exact ⟨some 0, if_neg hge⟩
      · rw [if_neg h4]
        by_cases h6 : b &&& 0xF0 = 0x60
        · rw [if_pos h6]
          by_cases hge : (b :: tl).length ≥ 6
          · obtain ⟨v, hv, -⟩ := get16_ok (show t.start + 4 + 2 ≤ t.data.length by omega)
            exact ⟨some v, by rw [if_pos hge, hv]; rfl⟩
          · exact ⟨some 0, if_neg hge⟩
        · rw [if_neg h6]
          by_cases h0 : b &&& 0xF0 = 0x0
          · exact ⟨none, if_pos h0⟩
          · exact ⟨some 0, if_neg h0⟩

/-- The packets that a call returns and pushes have at most `n` entries each. -/
def Added.Narrow (a : Added) (n : Nat) : Prop := ∀ x ∈ a.m.toList ++ a.outq, x.niov ≤ n

/-- With a larger bound on the entries. -/
theorem Added.Narrow.mono {a : Added} {n k : Nat} (h : Added.Narrow a n) (hle : n ≤ k) :
    Added.Narrow a k :=
  fun x hx => Nat.le_trans (h x hx) hle

/-- The entries of a packet pushed, and of those that the rest of the call leaves. -/
theorem narrow_cons {a : Added} {n : Nat} {v : Miov} :
    Added.Narrow (a.cons v) n ↔ v.niov ≤ n ∧ Added.Narrow a n := by
  simp only [Added.Narrow, Added.cons, List.mem_append, List.mem_cons]
  constructor
  · intro h
    exact ⟨h v (.inr (.inl rfl)), fun x hx => h x (hx.imp_right .inr)⟩
  · rintro ⟨hv, h⟩ x (hx | rfl | hx)
    · exact h x (.inl hx)
    · exact hv
    · exact h x (.inr hx)

/-- A call that leaves one packet, in progress or pushed. -/
theorem narrow_single {a : Added} {n : Nat} {v : Miov}
    (h : a.m.toList ++ a.outq = [v]) : Added.Narrow a n ↔ v.niov ≤ n := by
  rw [Added.Narrow, h]
  exact List.forall_mem_singleton

/-- A slice is one more entry of the packet, however long it is. -/
@[simp] theorem niov_addSlice (v : Miov) (t : Tbuf) (x : List UInt8) :
    (addSlice v t x).niov = v.niov + 1 := by
  simp [addSlice, Miov.niov]

/-- The rest of a datagram, with no packet in progress. Induction on the fuel: a packet that
ends in the datagram uses up at least one byte. -/
theorem addRest_ok : ∀ (fuel : Nat) (t : Tbuf), t.rest.length < 2 ^ 16 → t.rest.length ≤ fuel →
    ∃ a, addRest fuel t = .ok a ∧ Tidy a.m ∧ Added.Narrow a 1 := by
  intro fuel
  induction fuel with
  | zero =>
      intro t hlen hfuel
      have hnil : t.rest = [] := List.eq_nil_of_length_eq_zero (by omega)
      exact ⟨_, if_pos hnil, tidy_none, by simp [Added.Narrow]⟩
  | succ fuel ih =>
      intro t hlen hfuel
      by_cases hne : t.rest = []
      · exact ⟨_, if_pos hne, tidy_none, by simp [Added.Narrow]⟩
      · obtain ⟨o, ho⟩ := startIplen_ok hne
        rw [addRest, if_neg hne]
        have hpos := List.length_pos_iff.mpr hne
        cases o with
        | none => exact ⟨_, add_pad fuel hne hlen ho, tidy_clean, by
            simp [Added.Narrow, Miov.niov, Miov.clean]⟩
        | some n =>
            rw [add_packet fuel hne hlen ho]
            by_cases hfull : n ≠ 0 ∧ n ≤ t.rest.length
            · have hdrop : (Tbuf.advance t n).rest.length = t.rest.length - n := by
                rw [Tbuf.rest_advance, List.length_drop]
              obtain ⟨a, ha, htidy, hnarrow⟩ := ih (Tbuf.advance t n) (by omega) (by omega)
              refine ⟨Added.cons { addSlice Miov.clean t (t.rest.take n) with left := 0 } a, ?_,
                htidy, narrow_cons.mpr ⟨Nat.le_refl 1, hnarrow⟩⟩
              rw [if_pos hfull, ha]
              rfl
            · exact ⟨_, if_neg hfull, tidy_addSlice _ rfl hpos, by
                simp [Added.Narrow, Miov.niov, addSlice, Miov.clean]⟩

/-! ### A whole datagram -/

/-- The BlockOffset of a datagram. -/
def blockOffset (data : List UInt8) : Nat :=
  match get16 data 6 with
  | .ok offset => offset
  | .error _ => 0

/-- A datagram with more than its header, as it comes from `read`: the packets begin behind the 8
bytes of the header, with the BlockOffset that is read there. -/
theorem enterInner_data (id : Nat) {data : List UInt8} (h : 8 < data.length) :
    enterInner (Tbuf.fresh id data) true = .ok (⟨id, data, 8⟩, blockOffset data) := by
  obtain ⟨offset, hoff, -⟩ := get16_ok (show 6 + 2 ≤ data.length by omega)
  have h0 : ¬ data.length = 0 := by omega
  simp only [enterInner, Tbuf.len, Tbuf.fresh, Nat.sub_zero, h0, h, if_false, if_true,
    Nat.zero_add, blockOffset, hoff]

/-- A datagram of 8 bytes or less fails `assert(ltlen > 8)` (or the `errx` before it). -/
theorem add_tiny (fuel id : Nat) {data : List UInt8} {m : Option Miov} (h : data.length ≤ 8) :
    ∃ e, addToInnerPacket fuel (Tbuf.fresh id data) true m = .error e := by
  have h8 : ¬ data.length > 8 := by omega
  cases fuel with
  | zero => exact ⟨_, rfl⟩
  | succ fuel =>
      by_cases h0 : data.length = 0
      · exact ⟨.errxTlen, by simp only [addToInnerPacket, enterInner, Tbuf.len, Tbuf.fresh,
          Nat.sub_zero, h0, if_true]⟩
      · exact ⟨.assertLtlen, by simp only [addToInnerPacket, enterInner, Tbuf.len, Tbuf.fresh,
          Nat.sub_zero, h0, h8, if_false, if_true]⟩

/-- A payload whose length does not fit `tlen` fails the `errx` on it. -/
theorem add_large (fuel id : Nat) {data : List UInt8} {m : Option Miov}
    (h : 2 ^ 16 + 8 ≤ data.length) :
    ∃ e, addToInnerPacket fuel (Tbuf.fresh id data) true m = .error e := by
  cases fuel with
  | zero => exact ⟨_, rfl⟩
  | succ fuel =>
      -- `tlen` has 16 bits, and the check compares it with the whole length.
      have hne : ¬ (data.length - 8) = (data.length - 8) % 2 ^ 16 := by omega
      have hpass : innerPass ⟨id, data, 8⟩ (blockOffset data) (m.getD Miov.clean)
          = .error .errxMbufLen := by
        simp only [innerPass, Tbuf.len, ne_eq, hne, not_false_eq_true, if_true]
      exact ⟨_, by rw [addToInnerPacket, enterInner_data id (by omega)]; simp only [hpass]; rfl⟩

/-- `getiplen` never finds a length: the masked byte is never `0x4` or `0x6`. -/
theorem getiplen_error (m : Miov) (tbuf : Tbuf) : ∃ e, getiplen m tbuf = .error e := by
  rw [getiplen]
  cases m.iov.head?.bind fun v => v.bytes.head? with
  | none => exact ⟨_, rfl⟩
  | some b =>
      -- The mask leaves the high four bits, where the code compares with a number below 16.
      have hlow : ∀ c : UInt8, c.toNat < 16 → c.toNat ≠ 0 → b &&& 0xF0 ≠ c := by
        intro c hc h0 heq
        have hmask := congrArg (fun x => x.toNat % 16) heq
        simp only [UInt8.toNat_and] at hmask
        have hz : (b.toNat &&& (0xF0 : UInt8).toNat) % 16 = 0 := by
          have h16 := Nat.and_mod_two_pow (a := b.toNat) (b := (0xF0 : UInt8).toNat) (n := 4)
          rw [show (2 : Nat) ^ 4 = 16 from rfl] at h16
          rw [h16, show (0xF0 : UInt8).toNat % 16 = 0 from rfl, Nat.and_zero]
        omega
      have h4 : ¬ b &&& 0xF0 = 0x4 := hlow 4 (by decide) (by decide)
      have h6 : ¬ b &&& 0xF0 = 0x6 := hlow 6 (by decide) (by decide)
      exact ⟨_, by simp only [h4, h6, if_false]; rfl⟩

/-- A packet in progress without a known length brings the receiver down at the next
datagram. -/
theorem add_short (fuel id : Nat) {data : List UInt8} {v : Miov} (hlen : v.len ≠ 0)
    (hleft : v.left = 0) :
    ∃ e, addToInnerPacket fuel (Tbuf.fresh id data) true (some v) = .error e := by
  rcases Nat.lt_or_ge 8 data.length with h8 | h8
  · cases fuel with
    | zero => exact ⟨_, rfl⟩
    | succ fuel =>
        obtain ⟨e, he⟩ := getiplen_error v ⟨id, data, 8⟩
        have hpass : ∃ e, innerPass ⟨id, data, 8⟩ (blockOffset data) v = .error e := by
          simp only [innerPass, hlen, if_false, knownLeft, hleft, if_true, he]
          by_cases hmod : Tbuf.len ⟨id, data, 8⟩ ≠ Tbuf.len ⟨id, data, 8⟩ % 2 ^ 16
          · exact ⟨_, if_pos hmod⟩
          · exact ⟨_, if_neg hmod⟩
        obtain ⟨e', he'⟩ := hpass
        refine ⟨e', ?_⟩
        rw [addToInnerPacket, enterInner_data id h8]
        simp only [Option.getD_some, he']
  · exact add_tiny fuel id h8

/-- The datagrams that `add_to_inner_packet` survives. -/
def SafeData (m : Option Miov) (data : List UInt8) : Prop :=
  8 < data.length ∧ ((m.getD Miov.clean).len ≠ 0 →
    (m.getD Miov.clean).left ≠ 0 ∧
      (data.length - 8 < blockOffset data ∨ (m.getD Miov.clean).left = blockOffset data))

/-- The datagram is a middle piece of the packet in progress: more of it is owed than the
payload has. -/
def WantsMore (m : Option Miov) (data : List UInt8) : Prop :=
  (m.getD Miov.clean).len ≠ 0 ∧ data.length - 8 < (m.getD Miov.clean).left

/-- What a datagram that is processed does to the entries. The packet in progress gets one more,
and every packet that begins in the datagram has one. `entries` says exactly what is left in
progress: the packet as it was with one more entry, a new one, or none. -/
structure Added.Grows (m : Option Miov) (data : List UInt8) (a : Added) : Prop where
  tidy : Tidy a.m
  narrow : ∀ n, 1 ≤ n → (Added.Narrow a n ↔
    ((m.getD Miov.clean).len ≠ 0 → (m.getD Miov.clean).niov < n))
  entries : (WantsMore m data ∧ entries a.m = entries m + 1) ∨
    (¬ WantsMore m data ∧ entries a.m = if (a.m.getD Miov.clean).len = 0 then 0 else 1)

@[simp] theorem entries_none : entries none = 0 := rfl

@[simp] theorem entries_some (v : Miov) : entries (some v) = v.niov := rfl

/-- A packet in progress that has at most one entry has none exactly when it has no bytes. -/
theorem Tidy.entries_of_narrow {a : Added} (hm : Tidy a.m) (ha : Added.Narrow a 1) :
    entries a.m = if (a.m.getD Miov.clean).len = 0 then 0 else 1 := by
  cases hv : a.m with
  | none => rfl
  | some v =>
      obtain ⟨hbytes, hclean⟩ := hm v hv
      have hle : v.niov ≤ 1 := ha v (by rw [hv]; simp)
      rw [Option.getD_some, entries_some]
      by_cases h0 : v.len = 0
      · rw [if_pos h0, hclean h0]
        rfl
      · rw [if_neg h0]
        -- A packet with bytes has an entry that holds them.
        have hpos : v.niov ≠ 0 := by
          intro hnil
          rw [Miov.bytes, List.eq_nil_of_length_eq_zero hnil] at hbytes
          exact h0 hbytes.symm
        omega

/-- A datagram with no packet in progress: every packet begins here. The bytes that the
BlockOffset says belong to an earlier packet are skipped. -/
theorem add_idle (id : Nat) {data : List UInt8} {m : Option Miov} (hm : Tidy m)
    (hlen : data.length < 2 ^ 16 + 8) (h8 : 8 < data.length)
    (hidle : (m.getD Miov.clean).len = 0) :
    ∃ a, addToInnerPacket data.length (Tbuf.fresh id data) true m = .ok a ∧
      Added.Grows m data a := by
  have henter := enterInner_data id h8
  have hrest : (Tbuf.rest ⟨id, data, 8⟩).length = data.length - 8 := List.length_drop
  obtain ⟨fuel, hfuel⟩ : ∃ fuel, data.length = fuel + 1 := ⟨data.length - 1, by omega⟩
  have hclean := hm.getD.2 hidle
  have hgrows : ∀ {a : Added}, Tidy a.m → Added.Narrow a 1 → Added.Grows m data a := by
    intro a htidy ha
    refine ⟨htidy, fun n hn => iff_of_true (ha.mono hn) fun h => absurd hidle h, .inr ⟨?_, ?_⟩⟩
    · exact fun h => h.1 hidle
    · exact htidy.entries_of_narrow ha
  rw [hfuel]
  rcases Nat.lt_or_ge (blockOffset data) (data.length - 8) with hlt | hge
  · rw [add_skip fuel henter hclean (by omega) (by omega)]
    have hdrop : (Tbuf.advance ⟨id, data, 8⟩ (blockOffset data)).rest.length =
        data.length - 8 - blockOffset data := by
      rw [Tbuf.rest_advance, List.length_drop, hrest]
    obtain ⟨a, ha, htidy, hnarrow⟩ := addRest_ok (fuel + 1)
      (Tbuf.advance ⟨id, data, 8⟩ (blockOffset data)) (by omega) (by omega)
    rw [addRest, if_neg (List.ne_nil_of_length_pos (by omega))] at ha
    exact ⟨a, ha, hgrows htidy hnarrow⟩
  · exact ⟨_, add_past fuel henter hclean (by omega) (by omega),
      hgrows tidy_clean (by simp [Added.Narrow, Miov.niov, Miov.clean])⟩

/-- A datagram with a packet in progress whose length is known: a middle piece of it, its end
with slop after it, or its end with other packets. -/
theorem add_onward (id : Nat) {data : List UInt8} {v : Miov} (hm : Tidy (some v))
    (hlen : data.length < 2 ^ 16 + 8) (h8 : 8 < data.length) (hbusy : v.len ≠ 0)
    (hleft : v.left ≠ 0)
    (hoff : data.length - 8 < blockOffset data ∨ v.left = blockOffset data) :
    ∃ a, addToInnerPacket data.length (Tbuf.fresh id data) true (some v) = .ok a ∧
      Added.Grows (some v) data a := by
  have henter := enterInner_data id h8
  have hrest : (Tbuf.rest ⟨id, data, 8⟩).length = data.length - 8 := List.length_drop
  obtain ⟨fuel, hfuel⟩ : ∃ fuel, data.length = fuel + 1 := ⟨data.length - 1, by omega⟩
  have hbytes := (hm v rfl).1
  -- The packet in progress gets one more entry, whether it ends here or not.
  have hentry : ∀ {n : Nat} {w : Miov}, w.niov = v.niov + 1 → (w.niov ≤ n ↔
      (((some v).getD Miov.clean).len ≠ 0 → ((some v).getD Miov.clean).niov < n)) := by
    intro n w hw
    rw [hw]
    exact ⟨fun h _ => h, fun h => h hbusy⟩
  rw [hfuel, add_busy fuel henter (by omega) (by omega) hbusy hleft, hrest]
  by_cases hpast : blockOffset data > data.length - 8
  · rw [if_pos hpast]
    by_cases hmore : v.left > data.length - 8
    · refine ⟨_, if_pos hmore, tidy_addSlice _ hbytes (by omega), fun n _ => ?_,
        .inl ⟨⟨hbusy, hmore⟩, niov_addSlice _ _ _⟩⟩
      refine (narrow_single rfl).trans (hentry ?_)
      exact niov_addSlice _ _ _
    · refine ⟨_, if_neg hmore, tidy_none, fun n _ => ?_, .inr ⟨fun h => hmore h.2, rfl⟩⟩
      refine (narrow_single rfl).trans (hentry ?_)
      exact niov_addSlice _ _ _
  -- The packet ends in the datagram, and `assert(m->left == tlen)` holds.
  · have heq : v.left = blockOffset data := hoff.resolve_left hpast
    have hdrop : (Tbuf.advance ⟨id, data, 8⟩ v.left).rest.length =
        data.length - 8 - v.left := by
      rw [Tbuf.rest_advance, List.length_drop, hrest]
    obtain ⟨a, ha, htidy, hnarrow⟩ := addRest_ok fuel
      (Tbuf.advance ⟨id, data, 8⟩ v.left) (by omega) (by omega)
    rw [if_neg hpast, if_pos heq, ha]
    refine ⟨_, rfl, htidy, fun n hn => narrow_cons.trans ?_, .inr ⟨fun h => ?_, ?_⟩⟩
    · refine (and_iff_left (hnarrow.mono hn)).trans (hentry ?_)
      exact niov_addSlice _ _ _
    · have hmore := h.2
      rw [Option.getD_some] at hmore
      omega
    · exact htidy.entries_of_narrow hnarrow

/-- A safe datagram is processed, the packet in progress stays tidy, and the entries grow as
`Grows` says. -/
theorem add_of_safe (id : Nat) {data : List UInt8} {m : Option Miov} (hm : Tidy m)
    (hlen : data.length < 2 ^ 16 + 8) (hsafe : SafeData m data) :
    ∃ a, addToInnerPacket data.length (Tbuf.fresh id data) true m = .ok a ∧
      Added.Grows m data a := by
  obtain ⟨h8, hbusy⟩ := hsafe
  by_cases hidle : (m.getD Miov.clean).len = 0
  · exact add_idle id hm hlen h8 hidle
  · cases m with
    | none => exact absurd rfl hidle
    | some v =>
        obtain ⟨hleft, hoff⟩ := hbusy hidle
        exact add_onward id hm hlen h8 hidle hleft hoff

/-- A datagram that is not safe brings the receiver down. -/
theorem add_of_not_safe (id : Nat) {data : List UInt8} {m : Option Miov}
    (hsafe : ¬ SafeData m data) :
    ∃ e, addToInnerPacket data.length (Tbuf.fresh id data) true m = .error e := by
  rcases Nat.lt_or_ge 8 data.length with h8 | h8
  · rcases Nat.lt_or_ge data.length (2 ^ 16 + 8) with hlen | hlen
    · cases m with
      | none => exact absurd ⟨h8, fun h => absurd rfl h⟩ hsafe
      | some v =>
          -- Without a packet in progress every datagram of this length is safe.
          simp only [SafeData, h8, true_and, Option.getD_some, Classical.not_imp] at hsafe
          obtain ⟨hidle, hno⟩ := hsafe
          by_cases hleft : v.left = 0
          · exact add_short _ id hidle hleft
          · have hrest : (Tbuf.rest ⟨id, data, 8⟩).length = data.length - 8 := List.length_drop
            obtain ⟨fuel, hfuel⟩ : ∃ fuel, data.length = fuel + 1 :=
              ⟨data.length - 1, by omega⟩
            have hpast : ¬ blockOffset data > data.length - 8 := fun h => hno ⟨hleft, .inl h⟩
            have hne : ¬ v.left = blockOffset data := fun h => hno ⟨hleft, .inr h⟩
            rw [hfuel, add_busy fuel (enterInner_data id h8) (by omega) (by omega) hidle hleft,
              hrest, if_neg hpast, if_neg hne]
            exact ⟨_, rfl⟩
    · exact add_large _ id hlen
  · exact add_tiny _ id h8

/-- A datagram that fits `tlen` brings the receiver down exactly when it is not safe. -/
theorem add_ok_iff (id : Nat) {data : List UInt8} {m : Option Miov} (hm : Tidy m)
    (hlen : data.length < 2 ^ 16 + 8) :
    (∃ a, addToInnerPacket data.length (Tbuf.fresh id data) true m = .ok a) ↔
      SafeData m data := by
  constructor
  · rintro ⟨a, ha⟩
    by_contra hno
    obtain ⟨e, he⟩ := add_of_not_safe id hno
    rw [he] at ha
    cases ha
  · intro hsafe
    obtain ⟨a, ha, -⟩ := add_of_safe id hm hlen hsafe
    exact ⟨a, ha⟩

/-- Any datagram that is processed makes the entries grow as `Grows` says. -/
theorem Tidy.grows {id : Nat} {data : List UInt8} {m : Option Miov} {a : Added} (hm : Tidy m)
    (ha : addToInnerPacket data.length (Tbuf.fresh id data) true m = .ok a) :
    Added.Grows m data a := by
  rcases Nat.lt_or_ge data.length (2 ^ 16 + 8) with hlen | hlen
  · obtain ⟨b, hb, hgrows⟩ := add_of_safe id hm hlen ((add_ok_iff id hm hlen).mp ⟨a, ha⟩)
    rw [ha] at hb
    cases hb
    exact hgrows
  · obtain ⟨e, he⟩ := add_large data.length id (m := m) hlen
    rw [ha] at he
    cases he

/-- Any datagram that is processed leaves the packet in progress tidy. -/
theorem Tidy.add {id : Nat} {data : List UInt8} {m : Option Miov} {a : Added} (hm : Tidy m)
    (ha : addToInnerPacket data.length (Tbuf.fresh id data) true m = .ok a) : Tidy a.m :=
  (hm.grows ha).tidy

/-! ### A packet that cannot come out right -/

/-- The packet in progress cannot come out with `n` bytes: its length is not known, or it is
a different one. -/
def Astray (n : Nat) (m : Option Miov) : Prop :=
  ∃ v, m = some v ∧ v.len ≠ 0 ∧ v.bytes.length = v.len ∧ (v.left = 0 ∨ v.len + v.left ≠ n)

/-- After any datagram that is processed, the packet is still astray, or came out with a
different length. -/
theorem Astray.add {n id : Nat} {data : List UInt8} {m : Option Miov} {a : Added}
    (hm : Astray n m) (ha : addToInnerPacket data.length (Tbuf.fresh id data) true m = .ok a) :
    (a.outq = [] ∧ Astray n a.m) ∨ ∃ x xs, a.outq = x :: xs ∧ x.bytes.length ≠ n := by
  obtain ⟨v, rfl, hv, hbytes, hleft⟩ := hm
  have herr : ∀ {r : Res Added}, r = .ok a → (∃ e, r = .error e) → False := by
    rintro r rfl ⟨e, he⟩
    cases he
  rcases Nat.lt_or_ge 8 data.length with h8 | h8
  · rcases Nat.lt_or_ge data.length (2 ^ 16 + 8) with hlen | hlen
    · by_cases h0 : v.left = 0
      · exact (herr ha (add_short _ id hv h0)).elim
      · have hne : v.len + v.left ≠ n := hleft.resolve_left h0
        have hrest : (Tbuf.rest ⟨id, data, 8⟩).length = data.length - 8 := List.length_drop
        obtain ⟨fuel, hfuel⟩ : ∃ fuel, data.length = fuel + 1 := ⟨data.length - 1, by omega⟩
        -- If the packet ends here, it ends with the bytes it had and what was left.
        have hwhole : v.left ≤ data.length - 8 → ((addSlice v ⟨id, data, 8⟩
            ((Tbuf.rest ⟨id, data, 8⟩).take v.left)).bytes).length ≠ n := by
          intro hle
          rw [bytes_addSlice, List.length_append, hbytes, List.length_take, hrest]
          omega
        rw [hfuel, add_busy fuel (enterInner_data id h8) (by omega) (by omega) hv h0, hrest] at ha
        split at ha
        · split at ha
          · -- More of it.
            cases ha
            refine .inl ⟨rfl, _, rfl, ?_, ?_, .inr ?_⟩
            · show v.len + (Tbuf.rest ⟨id, data, 8⟩).length ≠ 0
              omega
            · show (addSlice v _ _).bytes.length = v.len + _
              rw [bytes_addSlice, List.length_append, hbytes]
            · show v.len + (Tbuf.rest ⟨id, data, 8⟩).length + (v.left - (data.length - 8)) ≠ n
              omega
          · -- Its end, and slop.
            cases ha
            exact .inr ⟨_, _, rfl, hwhole (by omega)⟩
        · split at ha
          · -- Its end.
            rename_i hoff heq
            obtain ⟨b, _, rfl⟩ := Lib.map_eq_ok.mp ha
            exact .inr ⟨_, _, rfl, hwhole (by omega)⟩
          · cases ha
    · exact (herr ha (add_large _ id hlen)).elim
  · exact (herr ha (add_tiny _ id h8)).elim

end Iptfs.Proofs
