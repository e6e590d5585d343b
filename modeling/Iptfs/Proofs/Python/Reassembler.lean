import Iptfs.Proofs.Declared
import Iptfs.Proofs.Python.Inner

/-!
# `Iptfs.Proofs.Python.Reassembler`: a receiver that remembers only the packet in progress

`Part` is a packet in progress: the bytes it has got, and what is left when that is known. `blocks`
cuts the blocks of a datagram, `Part.next` takes a datagram for a packet in progress, and
`Reassembler.step` abandons the packet first where a sequence number is missing. This says what
`read_tfs_packets` is for, with no `MIOVBuf`, no pool and no field that outlives its packet.

At a gap the packet in progress does not matter (`run_gap`). The packets have the lengths that they
declare (`run_hasLength`), and `next_hasLength` is the step to it.
-/

set_option autoImplicit false

namespace Iptfs.Py

/-- A packet in progress. `got` is empty where there is none, and `left` is zero where it is not
known. -/
structure Part where
  got : List UInt8
  left : Nat
  deriving DecidableEq, Repr

/-- No packet is in progress. -/
def Part.idle : Part := ⟨[], 0⟩

/-- The blocks at the front of `bytes`, within `depth` calls: the packets that end there, and the
one in progress after them. -/
def blocks : Nat → List UInt8 → Option (List (List UInt8) × Part)
  | 0, _ => none
  | depth + 1, bytes =>
      match blockLength bytes with
      | none => some ([], if ShortStart bytes then ⟨bytes, 0⟩ else .idle)
      | some n =>
          if bytes.length < n then some ([], ⟨bytes, n - bytes.length⟩)
          else if bytes.length = n then some ([bytes], .idle)
          else (blocks depth (bytes.drop n)).map fun r => (bytes.take n :: r.1, r.2)

/-- A datagram for the packet in progress. `none` is a datagram that raises an exception. -/
def Part.next (depth : Nat) (part : Part) (data : List UInt8) :
    Option (List (List UInt8) × Part) :=
  let payload := data.drop 8
  if part.got = [] then
    if payload.length ≤ blockOffset data then some ([], .idle)
    else blocks depth (payload.drop (blockOffset data))
  else if part.left = 0 then none
  else if payload.length < blockOffset data then
    if payload.length < part.left then
      some ([], ⟨part.got ++ payload, part.left - payload.length⟩)
    else some ([part.got ++ payload.take part.left], .idle)
  else if part.left ≠ blockOffset data then none
  else if part.left < payload.length then
    (blocks (depth - 1) (payload.drop part.left)).map fun r =>
      ((part.got ++ payload.take part.left) :: r.1, r.2)
  else some ([part.got ++ payload.take part.left], .idle)

/-- The receiver: the number of the last datagram, and the packet in progress. -/
structure Reassembler where
  last : Nat
  part : Part

/-- A datagram with its sequence number: the packets delivered, and the receiver after it. -/
def Reassembler.step (limit : Nat) (r : Reassembler) (d : Nat × List UInt8) :
    Option (List (List UInt8) × Reassembler) :=
  let part := if d.1 ≠ r.last + 1 ∧ r.last ≠ 0 then .idle else r.part
  (part.next limit d.2).map fun o => (o.1, ⟨d.1, o.2⟩)

/-- The packets delivered for a list of datagrams. -/
def Reassembler.run (limit : Nat) : Reassembler → List (Nat × List UInt8) →
    Option (List (List UInt8))
  | _, [] => some []
  | r, d :: ds =>
      (r.step limit d).bind fun o => (Reassembler.run limit o.2 ds).map (o.1 ++ ·)

/-! ### Lengths -/

/-- The packet has the length that it declares. Its own bytes say so, or where they end before the
length field does, the bytes at its start in `data`. -/
def HasLength (data p : List UInt8) : Prop :=
  p ≠ [] ∧ (lengthField p = p.length ∨
    p.length < fieldEnd p ∧ ∃ i, p <+: data.drop i ∧ lengthField (data.drop i) = p.length)

/-- What a packet in progress has got and what is left of it are what it declares, where that is
known. -/
def Part.Owes (part : Part) : Prop :=
  part.got = [] ∨ part.left = 0 ∨ lengthField part.got = part.got.length + part.left

namespace Proofs

/-- Nothing has come of a packet, so that it declares nothing. -/
theorem idle_owes : Part.idle.Owes := Or.inl rfl

/-- `blockLength` reads the length field. -/
theorem lengthField_of_blockLength {bytes : List UInt8} {n : Nat}
    (h : blockLength bytes = some n) : lengthField bytes = n := by
  -- Both read the same two bytes.
  have hfield : ∀ i, i + 2 ≤ bytes.length →
      (get16 (slice bytes i (i + 2))).toOption = some n →
        (Iptfs.get16 bytes i).toOption.getD 0 = n := by
    intro i hi hslice
    obtain ⟨k, hk, _⟩ := Iptfs.get16_ok hi
    rw [toOption_ok (get16_slice_eq hi hk)] at hslice
    cases hslice
    rw [hk]
    rfl
  cases bytes with
  | nil => cases h
  | cons b tail =>
      unfold blockLength at h
      unfold lengthField
      dsimp only at h ⊢
      split at h
      · rename_i h4
        rw [if_pos h4.1]
        exact hfield 2 h4.2 h
      · split at h
        · rename_i h6
          have hne : b &&& 0xF0 ≠ 0x40 := by
            rw [h6.1]
            decide
          rw [if_neg hne, if_pos h6.1]
          exact hfield 4 h6.2 h
        · cases h

/-- A block at the front of `bytes` that ends there. -/
theorem hasLength_take {bytes : List UInt8} {n : Nat} (h : blockLength bytes = some n)
    (hpos : n ≠ 0) (hn : n ≤ bytes.length) : HasLength bytes (bytes.take n) := by
  have hlen : (bytes.take n).length = n := List.length_take_of_le hn
  have hfield := lengthField_of_blockLength h
  refine ⟨?_, ?_⟩
  · intro hnil
    rw [hnil] at hlen
    exact hpos hlen.symm
  · by_cases hend : fieldEnd (bytes.take n) ≤ n
    · refine Or.inl ?_
      rw [Iptfs.Proofs.lengthField_take (Nat.pos_of_ne_zero hpos) hend hn, hfield, hlen]
    · refine Or.inr ⟨?_, 0, List.take_prefix n bytes, ?_⟩
      · omega
      · rw [List.drop_zero, hfield, hlen]

/-- A packet of the bytes behind `k` is one of all of them. -/
theorem hasLength_drop {bytes p : List UInt8} {k : Nat} (h : HasLength (bytes.drop k) p) :
    HasLength bytes p := by
  obtain ⟨hne, hown | ⟨hshort, i, hpre, hfield⟩⟩ := h
  · exact ⟨hne, Or.inl hown⟩
  · rw [List.drop_drop] at hpre hfield
    exact ⟨hne, Or.inr ⟨hshort, k + i, hpre, hfield⟩⟩

/-- A block that says it has no bytes is cut again and again, until the calls run out. -/
theorem blocks_zero (depth : Nat) {bytes : List UInt8} (h : blockLength bytes = some 0) :
    blocks depth bytes = none := by
  have hne : bytes.length ≠ 0 := by
    intro hlen
    rw [List.length_eq_zero_iff.mp hlen] at h
    cases h
  induction depth with
  | zero => rfl
  | succ depth ih =>
      rw [blocks, h]
      dsimp only
      rw [if_neg (Nat.not_lt_zero _), if_neg hne, List.drop_zero, ih]
      rfl

/-- The blocks of a datagram. Induction on the calls. -/
theorem blocks_hasLength (depth : Nat) {bytes : List UInt8} {r : List (List UInt8) × Part}
    (h : blocks depth bytes = some r) : (∀ p ∈ r.1, HasLength bytes p) ∧ r.2.Owes := by
  induction depth generalizing bytes r with
  | zero => cases h
  | succ depth ih =>
      have hcall := h
      unfold blocks at h
      cases hlen : blockLength bytes with
      | none =>
          rw [hlen] at h
          cases h
          constructor
          · intro p hp
            cases hp
          · dsimp only
            split
            · exact Or.inr (Or.inl rfl)
            · exact idle_owes
      | some n =>
          have hn : n ≠ 0 := by
            rintro rfl
            rw [blocks_zero (depth + 1) hlen] at hcall
            cases hcall
          rw [hlen] at h
          dsimp only at h
          split at h
          · -- The packet goes on in the next datagram.
            rename_i hmore
            cases h
            constructor
            · intro p hp
              cases hp
            · refine Or.inr (Or.inr ?_)
              have hfield := lengthField_of_blockLength hlen
              dsimp only
              omega
          · split at h
            · rename_i hend
              cases h
              constructor
              · intro p hp
                rw [List.mem_singleton.mp hp]
                have hwhole := hasLength_take hlen hn (Nat.le_of_eq hend.symm)
                rwa [← hend, List.take_length] at hwhole
              · exact idle_owes
            · cases hrest : blocks depth (bytes.drop n) with
              | none =>
                  rw [hrest] at h
                  cases h
              | some o =>
                  rw [hrest] at h
                  cases h
                  obtain ⟨hpackets, howes⟩ := ih hrest
                  refine ⟨?_, howes⟩
                  intro p hp
                  obtain rfl | hp := List.mem_cons.mp hp
                  · exact hasLength_take hlen hn (by omega)
                  · exact hasLength_drop (hpackets p hp)

/-- The packet in progress ends in the next datagram. -/
theorem hasLength_append {part : Part} {data more : List UInt8} (howes : part.Owes)
    (hgot : part.got ≠ []) (hleft : part.left ≠ 0) (hmore : more.length = part.left) :
    HasLength data (part.got ++ more) := by
  obtain hnil | hzero | hfield := howes
  · exact absurd hnil hgot
  · exact absurd hzero hleft
  · refine ⟨fun hnil => hgot (List.append_eq_nil_iff.mp hnil).1, Or.inl ?_⟩
    rw [Iptfs.Proofs.lengthField_append (by omega), hfield, List.length_append, hmore]

/-- One datagram. -/
theorem next_hasLength {depth : Nat} {part : Part} {data : List UInt8}
    {r : List (List UInt8) × Part} (howes : part.Owes) (h : part.next depth data = some r) :
    (∀ p ∈ r.1, HasLength data p) ∧ r.2.Owes := by
  have hnone : ∀ p ∈ ([] : List (List UInt8)), HasLength data p := by
    intro p hp
    cases hp
  unfold Part.next at h
  dsimp only at h
  split at h
  · split at h
    · cases h
      exact ⟨hnone, idle_owes⟩
    · obtain ⟨hpackets, howes'⟩ := blocks_hasLength depth h
      refine ⟨fun p hp => ?_, howes'⟩
      exact hasLength_drop (hasLength_drop (hpackets p hp))
  · rename_i hgot
    split at h
    · cases h
    · rename_i hleft
      have hends : part.left ≤ (data.drop 8).length →
          HasLength data (part.got ++ (data.drop 8).take part.left) := fun hle =>
        hasLength_append howes hgot hleft (List.length_take_of_le hle)
      split at h
      · split at h
        · rename_i hmore
          cases h
          refine ⟨hnone, ?_⟩
          obtain hnil | hzero | hfield := howes
          · exact absurd hnil hgot
          · exact absurd hzero hleft
          · refine Or.inr (Or.inr ?_)
            dsimp only
            rw [Iptfs.Proofs.lengthField_append (by omega), hfield, List.length_append]
            omega
        · rename_i hmore
          cases h
          refine ⟨fun p hp => ?_, idle_owes⟩
          rw [List.mem_singleton.mp hp]
          exact hends (Nat.le_of_not_lt hmore)
      · rename_i hpast
        split at h
        · cases h
        · rename_i howed
          split at h
          · rename_i hmore
            cases hrest : blocks (depth - 1) ((data.drop 8).drop part.left) with
            | none =>
                rw [hrest] at h
                cases h
            | some o =>
                rw [hrest] at h
                cases h
                obtain ⟨hpackets, howes'⟩ := blocks_hasLength (depth - 1) hrest
                refine ⟨fun p hp => ?_, howes'⟩
                obtain rfl | hp := List.mem_cons.mp hp
                · exact hends (Nat.le_of_lt hmore)
                · exact hasLength_drop (hasLength_drop (hpackets p hp))
          · cases h
            refine ⟨fun p hp => ?_, idle_owes⟩
            rw [List.mem_singleton.mp hp]
            exact hends (by omega)

/-- A run. Induction on the datagrams. -/
theorem run_hasLength {limit : Nat} {ds : List (Nat × List UInt8)} {r : Reassembler}
    {out : List (List UInt8)} (howes : r.part.Owes) (h : r.run limit ds = some out) :
    ∀ p ∈ out, ∃ d ∈ ds, HasLength d.2 p := by
  induction ds generalizing r out with
  | nil =>
      cases h
      intro p hp
      cases hp
  | cons d ds ih =>
      obtain ⟨o, ho, hrun⟩ := Option.bind_eq_some_iff.mp h
      obtain ⟨rest, hrest, rfl⟩ := Option.map_eq_some_iff.mp hrun
      unfold Reassembler.step at ho
      obtain ⟨o', hnext, rfl⟩ := Option.map_eq_some_iff.mp ho
      have hstart : (if d.1 ≠ r.last + 1 ∧ r.last ≠ 0 then Part.idle else r.part).Owes := by
        split
        · exact idle_owes
        · exact howes
      obtain ⟨hpackets, howes'⟩ := next_hasLength hstart hnext
      intro p hp
      obtain hp | hp := List.mem_append.mp hp
      · exact ⟨d, List.mem_cons_self, hpackets p hp⟩
      · obtain ⟨d', hd', hlen⟩ := ih howes' hrest p hp
        exact ⟨d', List.mem_cons_of_mem d hd', hlen⟩

/-- At a gap, the packet in progress and the number before it do not matter. -/
theorem run_gap {limit : Nat} {r : Reassembler} {d : Nat × List UInt8}
    (h : d.1 ≠ r.last + 1 ∧ r.last ≠ 0) (ds : List (Nat × List UInt8)) :
    r.run limit (d :: ds) = Reassembler.run limit ⟨0, .idle⟩ (d :: ds) := by
  have hstep : r.step limit d = Reassembler.step limit ⟨0, .idle⟩ d := by
    unfold Reassembler.step
    dsimp only
    rw [if_pos h, if_neg (fun hgap => hgap.2 rfl)]
  unfold Reassembler.run
  rw [hstep]

end Proofs

end Iptfs.Py
