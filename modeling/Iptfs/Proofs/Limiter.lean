import Iptfs.Lib.Ring
import Iptfs.Model.Limit
import Iptfs.Proofs.Timers
import Mathlib.Algebra.Order.BigOperators.Group.List
import Mathlib.Algebra.Order.Ring.Nat

/-!
# `Iptfs.Proofs.Limiter`: what the rate limiter measures

`limit` keeps the sizes and the times of the last `count` packets in a ring, with their sum in
`totb`. `Tracks` ties the ring to the packets that were accepted, and `Tracks.limit` is what one
call does.

The sum and the ring part where the overhead is taken off a size, since `ntotb` is computed
before that. `CanMeasure` is the condition on a call that rules this out, with a configured rate
that does not fit 32 bits, a product that does not fit 64 bits, and a `delta` of zero.
`measures_of_canMeasure` is the main result.
-/

set_option autoImplicit false

namespace Iptfs

/-- The last `count` packets that were accepted. -/
def Limiter.window (s : Limiter) : List (Nat × Tspec) :=
  s.accepted.drop (s.accepted.length - s.rl.count)

/-- The time of the oldest of them. -/
def Limiter.oldest (s : Limiter) : Tspec := (s.window.map Prod.snd).headD .zero

/-- The bytes of the last `count` packets, a packet of `n` bytes replacing the oldest. -/
def Limiter.bytes (s : Limiter) (n : Nat) : Nat :=
  (s.window.map Prod.fst).tail.sum + lessOverhead s.rl.overhead n

/-- The ring is full: `count` packets have been accepted. -/
def Limiter.Full (s : Limiter) : Prop := s.rl.count ≤ s.accepted.length

instance (s : Limiter) : Decidable s.Full := Nat.decLe _ _

/-- `totb` is the sum of the sizes, and the ring has the sizes and times of the last `count`
packets that were accepted. -/
structure Limiter.Measured (s : Limiter) : Prop where
  totb_eq : s.rl.totb = s.rl.sizes.sum
  sizes : Lib.Ring 0 s.rl.count s.rl.sizes s.rl.pktidx (s.accepted.map Prod.fst)
  times : Lib.Ring Tspec.zero s.rl.count s.rl.times s.rl.pktidx (s.accepted.map Prod.snd)

/-- The call does not divide by zero. Where the ring is full it rejects exactly when the bytes
in the time since the oldest packet exceed the rate, and otherwise it accepts. A rejection
changes only `ndrops`. -/
def Limiter.Decides (rate : Nat) (s : Limiter) (c : LimitCall) : Prop :=
  ∃ rl rejected, limit s.rl c.n c.now = .ok (rl, rejected) ∧
    (rejected = true ↔
      s.Full ∧ rate / 8 < s.bytes c.n * NSECS_IN_SEC / clockDelta c.now s.oldest) ∧
    (rejected = true → rl = { s.rl with ndrops := rl.ndrops })

/-- The limiter measures what it says, before and after each of the calls. -/
def Limiter.Measures (rate : Nat) : Limiter → List LimitCall → Prop
  | s, [] => s.Measured
  | s, c :: cs =>
      s.Measured ∧ s.Decides rate c ∧ ∀ s', limitStep s c = .ok s' → s'.Measures rate cs

/-- No overhead is taken off the packet. And where the ring is full, the configured rate fits 32
bits, there is a time since the oldest packet to divide by, and the bytes in nanoseconds fit 64
bits. -/
def Limiter.CanMeasure (rate : Nat) (s : Limiter) (c : LimitCall) : Prop :=
  (s.rl.overhead = 0 ∨ c.n ≤ s.rl.overhead) ∧
    (s.Full → rate < 2 ^ 32 ∧ s.oldest ≠ .zero ∧ clockDelta c.now s.oldest ≠ 0 ∧
      s.bytes c.n * NSECS_IN_SEC < 2 ^ 64)

instance (rate : Nat) (s : Limiter) (c : LimitCall) : Decidable (s.CanMeasure rate c) :=
  inferInstanceAs (Decidable (_ ∧ _))

/-- The ring with a packet that is accepted. -/
def Limiter.accept (s : Limiter) (c : LimitCall) : Ratelimit :=
  { s.rl with
    totb := (s.rl.sizes.set s.rl.pktidx c.n).sum
    times := s.rl.times.set s.rl.pktidx c.now
    sizes := s.rl.sizes.set s.rl.pktidx c.n
    pktidx := Lib.ringNext s.rl.count s.rl.pktidx }

namespace Proofs

open Iptfs.Lib

/-- The ring with what its arithmetic needs: an index within the arrays, and sizes of 16 bits. -/
structure Tracks (rate overhead count : Nat) (s : Limiter) : Prop where
  measured : s.Measured
  rate_eq : s.rl.rate = rate % 2 ^ 32 / 8
  overhead_eq : s.rl.overhead = overhead
  count_eq : s.rl.count = count
  small : ∀ size ∈ s.rl.sizes, size < 2 ^ 16

/-- The ring that `rate_init` makes holds packets of no bytes at the time zero, and their total is
zero. -/
theorem tracks_init (rate overhead count : Nat) :
    Tracks rate overhead count (Limiter.init rate overhead count) where
  measured :=
    { totb_eq := by
        show 0 = (List.replicate count 0).sum
        rw [List.sum_replicate_nat, Nat.mul_zero]
      sizes := ring_replicate 0 count
      times := ring_replicate Tspec.zero count }
  rate_eq := rfl
  overhead_eq := rfl
  count_eq := rfl
  small := by
    intro size hsize
    rw [List.eq_of_mem_replicate hsize]
    decide

/-- The bytes in the ring. -/
theorem Tracks.totb_le {rate overhead count : Nat} {s : Limiter}
    (h : Tracks rate overhead count s) : s.rl.totb ≤ count * 2 ^ 16 := by
  have hle := List.sum_le_card_nsmul s.rl.sizes (2 ^ 16)
    (fun size hsize => Nat.le_of_lt (h.small size hsize))
  rw [h.measured.sizes.length_eq, h.count_eq] at hle
  rw [h.measured.totb_eq]
  exact hle

/-! ### The entry that the next packet replaces -/

/-- Before the ring is full it is still empty. -/
theorem Tracks.entry_of_short {rate overhead count : Nat} {s : Limiter}
    (h : Tracks rate overhead count s) (hshort : ¬ s.Full) :
    s.rl.times[s.rl.pktidx]? = some .zero ∧ s.rl.sizes[s.rl.pktidx]? = some 0 := by
  have hlt : s.accepted.length < s.rl.count := Nat.not_le.mp hshort
  constructor
  · exact h.measured.times.get_of_short (by rwa [List.length_map])
  · exact h.measured.sizes.get_of_short (by rwa [List.length_map])

/-- In a full ring it is the oldest, and the others are the rest of the bytes. -/
theorem Tracks.entry_of_full {rate overhead count : Nat} {s : Limiter}
    (h : Tracks rate overhead count s) (hcount : 0 < count) (hfull : s.Full) :
    ∃ size, s.rl.times[s.rl.pktidx]? = some s.oldest ∧ s.rl.sizes[s.rl.pktidx]? = some size ∧
      s.rl.totb = size + (s.window.map Prod.fst).tail.sum := by
  have hpos : 0 < s.rl.count := by rwa [h.count_eq]
  have hle : s.rl.count ≤ s.accepted.length := hfull
  have htime := h.measured.times.get_of_full hpos (by rwa [List.length_map])
  have hsize := h.measured.sizes.get_of_full hpos (by rwa [List.length_map])
  have hrecent := h.measured.sizes.recent_of_full (by rwa [List.length_map])
  rw [List.length_map, ← List.map_drop] at htime hsize hrecent
  have hsum := (recent_perm s.rl.sizes s.rl.pktidx).sum_eq
  rw [hrecent] at hsum
  rw [h.measured.totb_eq, ← hsum]
  unfold Limiter.oldest Limiter.window
  cases hwindow : s.accepted.drop (s.accepted.length - s.rl.count) with
  | nil =>
      -- A window of a full ring has an entry.
      have hlen := congrArg List.length hwindow
      rw [List.length_drop, List.length_nil] at hlen
      omega
  | cons oldest rest =>
      rw [hwindow] at htime hsize
      exact ⟨oldest.1, htime, hsize, rfl⟩

/-! ### One call -/

/-- No overhead is taken off. -/
theorem lessOverhead_eq {overhead n : Nat} (h : overhead = 0 ∨ n ≤ overhead) :
    lessOverhead overhead n = n := by
  unfold lessOverhead
  rcases h with hzero | hle
  · rw [hzero]
    split
    · rfl
    · rfl
  · rw [if_neg (Nat.not_lt.mpr hle)]

/-- The new total and the new index, without the bounds of 64, 16 and 32 bits. -/
theorem Tracks.accept_eq {rate overhead count : Nat} {s : Limiter}
    (h : Tracks rate overhead count s) (hcount : 0 < count) (h32 : count < 2 ^ 32)
    {c : LimitCall} (hn : c.n ≤ MAXBUF - HDRSPACE) {size : Nat}
    (hsize : s.rl.sizes[s.rl.pktidx]? = some size) :
    (s.rl.totb + c.n + 2 ^ 64 - size) % 2 ^ 64 = (s.rl.sizes.set s.rl.pktidx c.n).sum ∧
      c.n % 2 ^ 16 = c.n ∧
      (s.rl.pktidx + 1) % 2 ^ 32 % s.rl.count = ringNext s.rl.count s.rl.pktidx := by
  have hn' : c.n ≤ 9192 := hn
  have htotb := h.totb_le
  have hset := sum_set_add c.n hsize
  have hindex := h.measured.sizes.index_eq
  have hlt : s.rl.pktidx < s.rl.count := by
    rw [hindex]
    exact Nat.mod_lt _ (by rwa [h.count_eq])
  have hcounteq := h.count_eq
  refine ⟨?_, Nat.mod_eq_of_lt (by omega), ?_⟩
  · rw [h.measured.totb_eq] at htotb ⊢
    have hbound : count * 2 ^ 16 < 2 ^ 48 := by omega
    omega
  · rw [Nat.mod_eq_of_lt (a := s.rl.pktidx + 1) (by omega), ringNext]
    by_cases hend : s.rl.pktidx + 1 = s.rl.count
    · rw [if_pos hend, hend, Nat.mod_self]
    · rw [if_neg hend]
      exact Nat.mod_eq_of_lt (by omega)

/-- A call in which the limiter can measure. -/
theorem Tracks.limit_eq {rate overhead count : Nat} {s : Limiter}
    (h : Tracks rate overhead count s) (hcount : 0 < count) (h32 : count < 2 ^ 32)
    {c : LimitCall} (hn : c.n ≤ MAXBUF - HDRSPACE) (hcan : s.CanMeasure rate c) :
    limit s.rl c.n c.now =
      if s.Full ∧ rate / 8 < s.bytes c.n * NSECS_IN_SEC / clockDelta c.now s.oldest then
        .ok ({ s.rl with ndrops := (s.rl.ndrops + 1) % 2 ^ 64 }, true)
      else .ok (s.accept c, false) := by
  obtain ⟨hoverhead, hfits⟩ := hcan
  have hless := lessOverhead_eq hoverhead
  have hsizes : (if c.n > s.rl.overhead then c.n - s.rl.overhead else c.n) = c.n := hless
  by_cases hfull : s.Full
  · obtain ⟨hrate, hold, hdelta, h64⟩ := hfits hfull
    obtain ⟨size, htime, hsize, htotb⟩ := h.entry_of_full hcount hfull
    obtain ⟨htotal, h16, hnext⟩ := h.accept_eq hcount h32 hn hsize
    have hbytes : (s.rl.sizes.set s.rl.pktidx c.n).sum = s.bytes c.n := by
      have hset := sum_set_add c.n hsize
      rw [← h.measured.totb_eq, htotb] at hset
      rw [Limiter.bytes, hless]
      omega
    have hrl : s.rl.rate = rate / 8 := by rw [h.rate_eq, Nat.mod_eq_of_lt hrate]
    unfold limit
    rw [htime, hsize]
    simp only [htotal, hsizes, h16, hnext]
    rw [if_neg (fun hzero => hdelta hzero.2), if_pos hold, hbytes, Nat.mod_eq_of_lt h64, hrl]
    by_cases hexceed : rate / 8 < s.bytes c.n * NSECS_IN_SEC / clockDelta c.now s.oldest
    · rw [if_pos hexceed, if_pos ⟨hfull, hexceed⟩]
    · rw [if_neg hexceed, if_neg (fun hboth => hexceed hboth.2), Limiter.accept, hbytes, hrl]
  · -- The entry is empty, so no rate is computed.
    obtain ⟨htime, hsize⟩ := h.entry_of_short hfull
    obtain ⟨htotal, h16, hnext⟩ := h.accept_eq hcount h32 hn hsize
    unfold limit
    rw [htime, hsize]
    simp only [htotal, hsizes, h16, hnext]
    rw [if_neg (fun hzero => hzero.1 rfl), if_neg (not_not.mpr rfl), if_neg (Nat.not_lt_zero _),
      if_neg (fun hboth => hfull hboth.1), Limiter.accept]

/-- A packet that is accepted comes into the ring. -/
theorem Tracks.accept {rate overhead count : Nat} {s : Limiter}
    (h : Tracks rate overhead count s) (hcount : 0 < count) {c : LimitCall}
    (hn : c.n ≤ MAXBUF - HDRSPACE) (hoverhead : s.rl.overhead = 0 ∨ c.n ≤ s.rl.overhead) :
    Tracks rate overhead count
      ⟨s.accept c, s.accepted ++ [(lessOverhead s.rl.overhead c.n, c.now)]⟩ where
  measured :=
    { totb_eq := rfl
      sizes := by
        rw [List.map_append, lessOverhead_eq hoverhead]
        exact h.measured.sizes.write (by rwa [h.count_eq]) c.n
      times := by
        rw [List.map_append]
        exact h.measured.times.write (by rwa [h.count_eq]) c.now }
  rate_eq := h.rate_eq
  overhead_eq := h.overhead_eq
  count_eq := h.count_eq
  small := by
    intro size hsize
    rcases List.mem_or_eq_of_mem_set hsize with hmem | rfl
    · exact h.small size hmem
    · exact Nat.lt_of_le_of_lt hn (by decide)

/-- A rejection leaves the ring as it is. -/
theorem Tracks.reject {rate overhead count : Nat} {s : Limiter}
    (h : Tracks rate overhead count s) (ndrops : Nat) :
    Tracks rate overhead count { s with rl := { s.rl with ndrops := ndrops } } where
  measured := ⟨h.measured.totb_eq, h.measured.sizes, h.measured.times⟩
  rate_eq := h.rate_eq
  overhead_eq := h.overhead_eq
  count_eq := h.count_eq
  small := h.small

/-- One call: it decides as it says, and the ring goes on to track what is accepted. -/
theorem Tracks.step {rate overhead count : Nat} {s : Limiter}
    (h : Tracks rate overhead count s) (hcount : 0 < count) (h32 : count < 2 ^ 32)
    {c : LimitCall} (hn : c.n ≤ MAXBUF - HDRSPACE) (hcan : s.CanMeasure rate c) :
    s.Decides rate c ∧ ∀ s', limitStep s c = .ok s' → Tracks rate overhead count s' := by
  have hlimit := h.limit_eq hcount h32 hn hcan
  by_cases hexceed : s.Full ∧ rate / 8 < s.bytes c.n * NSECS_IN_SEC / clockDelta c.now s.oldest
  · rw [if_pos hexceed] at hlimit
    refine ⟨⟨_, _, hlimit, iff_of_true rfl hexceed, fun _ => rfl⟩, fun s' hs' => ?_⟩
    rw [limitStep, hlimit] at hs'
    cases hs'
    exact h.reject _
  · rw [if_neg hexceed] at hlimit
    refine ⟨⟨_, _, hlimit, iff_of_false (fun hno => by cases hno) hexceed, fun hno => by cases hno⟩,
      fun s' hs' => ?_⟩
    rw [limitStep, hlimit] at hs'
    cases hs'
    exact h.accept hcount hn hcan.1

/-! ### Runs of calls -/

/-- From a ring that tracks what was accepted. Induction on the calls. -/
theorem Tracks.measures {rate overhead count : Nat} (hcount : 0 < count) (h32 : count < 2 ^ 32)
    {cs : List LimitCall} :
    ∀ {s : Limiter}, Tracks rate overhead count s → (∀ c ∈ cs, c.n ≤ MAXBUF - HDRSPACE) →
      Along limitStep (fun s c => s.CanMeasure rate c) s cs → s.Measures rate cs := by
  induction cs with
  | nil =>
      intro s h _ _
      exact h.measured
  | cons c cs ih =>
      intro s h hn hal
      obtain ⟨hcan, hrest⟩ := hal
      obtain ⟨hdecides, hnext⟩ := h.step hcount h32 (hn c (by simp)) hcan
      refine ⟨h.measured, hdecides, fun s' hs' => ?_⟩
      exact ih (hnext s' hs') (fun d hd => hn d (List.mem_cons_of_mem _ hd)) (hrest s' hs')

/-- The limiter measures what it says over every run of calls in which it can. -/
theorem measures_of_canMeasure (rate overhead count : Nat) (hcount : 1 ≤ count)
    (h32 : count < 2 ^ 32) (cs : List LimitCall) (hn : ∀ c ∈ cs, c.n ≤ MAXBUF - HDRSPACE)
    (hal : Along limitStep (fun s c => s.CanMeasure rate c) (.init rate overhead count) cs) :
    (Limiter.init rate overhead count).Measures rate cs :=
  (tracks_init rate overhead count).measures hcount h32 hn hal

/-- The last of some calls. -/
theorem decides_of_measures {rate : Nat} {cs : List LimitCall} {c : LimitCall} :
    ∀ {s t : Limiter}, s.Measures rate (cs ++ [c]) → run limitStep s cs = .ok t →
      t.Decides rate c := by
  induction cs with
  | nil =>
      intro s t h hrun
      cases hrun
      exact h.2.1
  | cons d cs ih =>
      intro s t h hrun
      obtain ⟨u, hu, hrest⟩ := run_cons_eq_ok.mp hrun
      exact ih (h.2.2 u hu) hrest

/-- Three packets at a megabit, with a ring of one: the second one is in time, and the third not. -/
theorem measures_calls : (Limiter.init 1000000 0 1).Measures 1000000
    [⟨1500, ⟨3, 0⟩⟩, ⟨1500, ⟨3, 20000000⟩⟩, ⟨1500, ⟨3, 21000000⟩⟩] :=
  measures_of_canMeasure 1000000 0 1 (by decide) (by decide) _ (by decide) (by decide)

/-- A rate of 4294968 kilobits does not fit 32 bits. What is left of it are 88 bytes a second, and
the eleventh packet is rejected. -/
theorem not_measures : ¬ ∀ (rate overhead count : Nat), rate < 2 ^ 64 → overhead < 2 ^ 32 →
    1 ≤ count → count < 2 ^ 32 → ∀ cs : List LimitCall, (∀ c ∈ cs, c.n ≤ MAXBUF - HDRSPACE) →
      (∀ c ∈ cs, c.now.Normal) →
      cs.Pairwise (fun c d => c.now.nsecs ≤ d.now.nsecs) →
        (Limiter.init rate overhead count).Measures rate cs := by
  intro h
  have hmeasures := h 4294968000 0 10 (by decide) (by decide) (by decide) (by decide)
    (List.replicate 10 ⟨100, ⟨1, 0⟩⟩ ++ [⟨100, ⟨2, 0⟩⟩]) (by decide) (by decide) (by decide)
  obtain ⟨rl, rejected, hlimit, hexceeds, -⟩ := decides_of_measures (t :=
    { rl := { newRatelimit 4294968000 0 10 with
        totb := 1000
        times := List.replicate 10 ⟨1, 0⟩
        sizes := List.replicate 10 100 }
      accepted := List.replicate 10 (100, ⟨1, 0⟩) }) hmeasures (by decide)
  cases hlimit
  exact absurd (hexceeds.mp rfl) (by decide)

end Proofs

end Iptfs
