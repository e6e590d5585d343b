import Iptfs.Lib.Spacing
import Iptfs.Proofs.Pacer
import Iptfs.Proofs.RateLaw

/-!
# `Iptfs.Proofs.RateCap`: the sender is never faster than its target

The loop of `write_tfs_pkts` waits in `pps_wait` before each datagram, while `recv_ack` changes the
interval from the other thread. This module puts the two together with the clock: `nanosleep` may be
interrupted, anything may take longer than it should, and a change of the rate may come in the
middle of a wait.

A wait ends at least an interval after the last one (`Waited`), also where it overran or where the
rate went up in between. So there are no bursts. `rate_capped` is the result: however the two
threads go, a window of time has no more datagrams than the target allows, and two. The two are one
for the datagram that was late, and one for the window's end.

`keeps_sending_iff` says when the thread goes on for ever. The time that `nanosleep` is asked for is
valid in every run, but for one case: ten to the nine nanoseconds, when the interval is a second,
and the clock shows the timestamp still. `nanosleep` refuses it, and is asked for it again.

Both are about a target of one datagram in a second, or more. Below that the sum of `periodic_wait`
needs more than its one carry (`Iptfs.Proofs.Pacer`).
-/

set_option autoImplicit false

namespace Iptfs

open Iptfs.Lib

/-- Where the loop of `write_tfs_pkts` is. -/
inductive PacedLoc
  /-- Before `pps_wait`. -/
  | top
  /-- `periodic_wait` has loaded the interval. -/
  | loaded (ival : Nat)
  /-- Before `nanosleep(&ns, &ns)`. -/
  | sleeps (ns : Tspec)
  /-- After the loop around it. -/
  | awake
  /-- `pps_wait` has returned. -/
  | writes
  deriving DecidableEq

/-- `g_pps` with the state of `recv_ack`, and the thread that waits for it. `timestamp` is the field
of the `struct periodic`. `clock` and `sent` are not variables of the source: how late it is, and
for each datagram the timestamp that `pps_wait` left and when it was sent, the newest first. -/
structure PacedSender where
  congest : Congest
  timestamp : Tspec
  clock : Tspec
  loc : PacedLoc
  sent : List Release

/-- The start of the loop. `pps_new` has read the clock. -/
def PacedSender.init (pps : Pps) (start : Tspec) : PacedSender :=
  { congest := Congest.init pps, timestamp := start, clock := start, loc := .top, sent := [] }

/-- A step of the thread at the time that it gives, or an ACK that the other thread takes in. -/
inductive PacedEvent
  | load
  | read (now : Tspec)
  | nanosleep (interrupt : Option Tspec) (now : Tspec)
  | send (now : Tspec)
  | ack (data : List UInt8)

/-- A reading of `CLOCK_MONOTONIC`. -/
def PacedSender.Ticks (s : PacedSender) (now : Tspec) : Prop :=
  now.Normal ∧ s.clock.nsecs ≤ now.nsecs

instance (s : PacedSender) (now : Tspec) : Decidable (s.Ticks now) := instDecidableAnd

/-- `clock_gettime` of `periodic_wait`, and what comes after it. -/
def PacedSender.read (s : PacedSender) (now : Tspec) : Except Stop PacedSender :=
  match s.loc with
  | .loaded ival =>
      match (periodicWait ⟨s.timestamp, ival⟩ now now).1 with
      | none => .ok { s with clock := now, timestamp := now, loc := .writes }
      | some ns => .ok { s with clock := now, loc := .sleeps ns }
  | .awake => .ok { s with clock := now, timestamp := now, loc := .writes }
  | _ => .error .waits

/-- `nanosleep(&ns, &ns)`, and `now` when it returns. It does not return 0 before the time is over,
and a signal leaves at least what is left of it. -/
def PacedSender.nanosleep (s : PacedSender) (interrupt : Option Tspec) (now : Tspec) :
    Except Stop PacedSender :=
  match s.loc with
  | .sleeps ns =>
      match Iptfs.nanosleep ns interrupt with
      | none =>
          if s.clock.nsecs + ns.nsecs ≤ now.nsecs then .ok { s with clock := now, loc := .awake }
          else .error .waits
      | some rest =>
          if s.clock.nsecs + ns.nsecs ≤ now.nsecs + rest.nsecs ∧ (ns.Valid → rest.Valid) then
            .ok { s with clock := now, loc := .sleeps rest }
          else .error .waits
  | _ => .error .waits

/-- One step of the sender's loop and of `recv_ack`. -/
def pacedStep (cfg : Config) (s : PacedSender) : PacedEvent → Except Stop PacedSender
  | .load =>
      match s.loc with
      | .top => .ok { s with loc := .loaded s.congest.pps.ival }
      | _ => .error .waits
  | .read now => if s.Ticks now then s.read now else .error .waits
  | .nanosleep interrupt now => if s.Ticks now then s.nanosleep interrupt now else .error .waits
  | .send now =>
      match s.loc with
      | .writes =>
          if s.Ticks now then
            let sent : Release := ⟨s.timestamp.nsecs, now.nsecs⟩
            .ok { s with clock := now, sent := sent :: s.sent, loc := .top }
          else .error .waits
      | _ => .error .waits
  | .ack data =>
      match recvAck cfg data s.congest with
      | .error e => .error (.fault e)
      | .ok congest => .ok { s with congest := congest }

namespace Proofs

/-! ### The interval -/

/-- The interval is at least `d`, and at most a second. -/
structure Interval (d target : Nat) (p : Pps) : Prop where
  targetPps : p.targetPps = target
  le_ival : d ≤ p.ival
  ival_le : p.ival ≤ NSECS_IN_SEC

/-- A change of the rate keeps it there, where `d` is not above the interval of the target. -/
theorem Interval.change {d target : Nat} {p : Pps} (h : Interval d target p)
    (hd : d ≤ NSECS_IN_SEC / target) (change : Int) :
    Interval d target (ppsChangePps p change) := by
  obtain ⟨rfl, -, -⟩ := id h
  -- A rate that is stored is at least one, and at most the target or one.
  have hstore : ∀ n : Nat, 1 ≤ n → n ≤ max 1 p.targetPps → Interval d p.targetPps (if n ≠ p.pps
      then { p with pps := n, ival := NSECS_IN_SEC / n } else p) := by
    intro n hpos hn
    split
    · refine ⟨rfl, ?_, Nat.div_le_self _ _⟩
      show d ≤ NSECS_IN_SEC / n
      rcases Nat.eq_zero_or_pos p.targetPps with hzero | htarget
      · rw [hzero, Nat.div_zero] at hd
        exact hd.trans (Nat.zero_le _)
      · exact hd.trans (Nat.div_le_div_left (by omega) hpos)
    · exact h
  rw [ppsChangePps]
  generalize (((p.pps : Int) + change) % 2 ^ 32).toNat = nval
  by_cases hzero : (if nval > p.targetPps then p.targetPps else nval) = 0
  · rw [if_pos hzero]
    exact hstore 1 (Nat.le_refl 1) (Nat.le_max_left 1 _)
  · rw [if_neg hzero]
    refine hstore _ (Nat.pos_of_ne_zero hzero) (le_trans ?_ (Nat.le_max_right 1 _))
    split <;> omega

/-- `recv_ack` changes the rate by a call of `pps_change_pps`, or not at all. -/
theorem recvAck_pps {cfg : Config} {data : List UInt8} {g g' : Congest}
    (h : recvAck cfg data g = .ok g') :
    g'.pps = g.pps ∨ ∃ change, g'.pps = ppsChangePps g.pps change := by
  rcases recvAck_eq_ok h with rfl | ⟨ndrop, runlen, -, -, hack⟩
  · exact Or.inl rfl
  unfold congestAck at hack
  split at hack
  · cases hack
  split at hack
  · cases hack
  dsimp only at hack
  split at hack
  · cases hack
    exact Or.inl rfl
  split at hack
  · cases hack
    exact Or.inr ⟨_, rfl⟩
  split at hack
  · cases hack
  · cases hack
    exact Or.inr ⟨_, rfl⟩

/-- `recv_ack` keeps the interval there. -/
theorem Interval.recvAck {d target : Nat} {cfg : Config} {data : List UInt8} {g g' : Congest}
    (h : Interval d target g.pps) (hd : d ≤ NSECS_IN_SEC / target)
    (hrecv : recvAck cfg data g = .ok g') : Interval d target g'.pps := by
  rcases recvAck_pps hrecv with hsame | ⟨change, hchange⟩
  · rw [hsame]
    exact h
  · rw [hchange]
    exact h.change hd change

/-! ### The wait -/

/-- The fields of `expire`, where the interval is at most a second. -/
theorem expire_fields {pp : Periodic} (hn : pp.timestamp.Normal) (hival : pp.ival ≤ NSECS_IN_SEC) :
    (NSECS_IN_SEC < pp.timestamp.tvNsec + pp.ival ∧ pp.expire.tvSec = pp.timestamp.tvSec + 1 ∧
        pp.expire.tvNsec = pp.timestamp.tvNsec + pp.ival - NSECS_IN_SEC) ∨
      (pp.timestamp.tvNsec + pp.ival ≤ NSECS_IN_SEC ∧ pp.expire.tvSec = pp.timestamp.tvSec ∧
        pp.expire.tvNsec = pp.timestamp.tvNsec + pp.ival) := by
  have hsum : pp.timestamp.tvNsec + pp.ival < 2 ^ 63 := by
    unfold Tspec.Normal at hn
    unfold NSECS_IN_SEC at hn hival
    omega
  rw [expire_eq hn.1 hsum]
  split
  · rename_i hcarry
    exact Or.inl ⟨hcarry, rfl, rfl⟩
  · rename_i hcarry
    exact Or.inr ⟨Int.not_lt.mp hcarry, rfl, rfl⟩

/-- What `periodic_wait` waits for: the end of the interval that it has loaded. It asks for a valid
time, or for the one that the clock has not got: ten to the nine nanoseconds. -/
theorem periodicWait_waits (pp : Periodic) {now : Tspec} (hn : pp.timestamp.Normal)
    (hnow : now.Normal) (hle : pp.timestamp.nsecs ≤ now.nsecs) (hival : pp.ival ≤ NSECS_IN_SEC) :
    ((periodicWait pp now now).1 = none → pp.timestamp.nsecs + pp.ival ≤ now.nsecs) ∧
      ∀ ns, (periodicWait pp now now).1 = some ns →
        now.nsecs + ns.nsecs = pp.timestamp.nsecs + pp.ival ∧
          (ns.Valid ∨ ns = ⟨0, NSECS_IN_SEC⟩) := by
  have hfields := expire_fields hn hival
  have hexpired := periodicIsExpired_iff now pp.expire
  have hns := sleepTime_nsecs pp.expire now
  rw [periodicWait_fst]
  unfold Tspec.Normal NSECS_IN_SEC at hn hnow
  unfold Tspec.nsecs NSECS_IN_SEC at hle hns ⊢
  unfold NSECS_IN_SEC at hival hfields
  constructor
  · intro h
    split at h
    · rename_i hover
      rw [hexpired] at hover
      omega
    · cases h
  · intro ns h
    split at h
    · cases h
    · rename_i htime
      rw [hexpired] at htime
      cases h
      refine ⟨by omega, ?_⟩
      unfold Tspec.Valid Tspec.Normal sleepTime NSECS_IN_SEC
      split
      · rw [Tspec.mk.injEq]
        dsimp only
        omega
      · rw [Tspec.mk.injEq]
        dsimp only
        omega

/-! ### The invariant -/

/-- Where the loop is in its wait: it goes on to the end of an interval of at least `d`. -/
def WaitsOut (d : Nat) (s : PacedSender) : Prop :=
  match s.loc with
  | .top | .writes => True
  | .loaded ival => d ≤ ival ∧ ival ≤ NSECS_IN_SEC
  | .sleeps ns => s.timestamp.nsecs + d ≤ s.clock.nsecs + ns.nsecs ∧
      (ns.Valid ∨ ns = ⟨0, NSECS_IN_SEC⟩)
  | .awake => s.timestamp.nsecs + d ≤ s.clock.nsecs

/-- What each step keeps. Between two datagrams there is a wait, and a wait ends an interval after
the one before it. -/
structure PacedOk (d target : Nat) (s : PacedSender) : Prop where
  interval : Interval d target s.congest.pps
  timestamp : s.timestamp.Normal
  clock : s.clock.Normal
  le_clock : s.timestamp.nsecs ≤ s.clock.nsecs
  waits : WaitsOut d s
  spaced : Spaced d s.sent
  done_le : ∀ r ∈ s.sent, r.done ≤ s.clock.nsecs
  released_le : ∀ r ∈ s.sent, r.released ≤ s.timestamp.nsecs
  writes : s.loc = .writes → ∀ r ∈ s.sent,
    r.done ≤ s.timestamp.nsecs ∧ r.released + d ≤ s.timestamp.nsecs

section

variable {d target : Nat} {s t : PacedSender}

/-- Nothing has been sent, and the first wait has not begun. -/
theorem pacedOk_init {pps : Pps} (h : Interval d target pps) {start : Tspec}
    (hstart : start.Normal) : PacedOk d target (.init pps start) where
  interval := h
  timestamp := hstart
  clock := hstart
  le_clock := Int.le_refl _
  waits := trivial
  spaced := .nil d
  done_le := by simp [PacedSender.init]
  released_le := by simp [PacedSender.init]
  writes := by simp [PacedSender.init]

/-- A wait that has ended leaves its end in the timestamp. -/
theorem PacedOk.released (h : PacedOk d target s) {now : Tspec} (hnow : now.Normal)
    (hclock : s.clock.nsecs ≤ now.nsecs) (hwaited : s.timestamp.nsecs + d ≤ now.nsecs) :
    PacedOk d target { s with clock := now, timestamp := now, loc := .writes } where
  interval := h.interval
  timestamp := hnow
  clock := hnow
  le_clock := Int.le_refl _
  waits := trivial
  spaced := h.spaced
  done_le := fun r hr => (h.done_le r hr).trans hclock
  released_le := by
    intro r hr
    have hold := h.released_le r hr
    show r.released ≤ now.nsecs
    omega
  writes := by
    intro _ r hr
    have hold := h.released_le r hr
    refine ⟨(h.done_le r hr).trans hclock, ?_⟩
    show r.released + d ≤ now.nsecs
    omega

/-- The time passes, and the loop is elsewhere in its wait. -/
theorem PacedOk.move (h : PacedOk d target s) {now : Tspec} {loc : PacedLoc} (hnow : now.Normal)
    (hclock : s.clock.nsecs ≤ now.nsecs) (hloc : loc ≠ .writes)
    (hwaits : WaitsOut d { s with clock := now, loc := loc }) :
    PacedOk d target { s with clock := now, loc := loc } where
  interval := h.interval
  timestamp := h.timestamp
  clock := hnow
  le_clock := h.le_clock.trans hclock
  waits := hwaits
  spaced := h.spaced
  done_le := fun r hr => (h.done_le r hr).trans hclock
  released_le := h.released_le
  writes := fun hwrites => absurd hwrites hloc

/-- The wait begins with the interval that the rate has then. An ACK can change it from there on,
but this wait goes by the one it has read. -/
theorem PacedOk.load (h : PacedOk d target s) (cfg : Config)
    (hst : pacedStep cfg s .load = .ok t) : PacedOk d target t := by
  unfold pacedStep at hst
  dsimp only at hst
  split at hst
  · cases hst
    exact h.move h.clock (Int.le_refl _) (by simp) ⟨h.interval.le_ival, h.interval.ival_le⟩
  · cases hst

/-- A reading of the clock. The first one finds the interval over, or computes the time that is
left of it, and the second one ends the wait. -/
theorem PacedOk.read (h : PacedOk d target s) {now : Tspec} (hnow : s.Ticks now)
    (hst : s.read now = .ok t) : PacedOk d target t := by
  have hle := h.le_clock.trans hnow.2
  have hwaits := h.waits
  unfold WaitsOut at hwaits
  unfold PacedSender.read at hst
  split at hst
  · -- The first reading: the interval is over, or there is a time to sleep.
    rename_i ival hloc
    rw [hloc] at hwaits
    obtain ⟨hover, hsleep⟩ :=
      periodicWait_waits ⟨s.timestamp, ival⟩ h.timestamp hnow.1 hle hwaits.2
    split at hst
    · rename_i hnone
      cases hst
      have hpast := hover hnone
      dsimp only at hpast
      exact h.released hnow.1 hnow.2 (by omega)
    · rename_i ns hsome
      cases hst
      obtain ⟨hns, hvalid⟩ := hsleep ns hsome
      dsimp only at hns
      refine h.move hnow.1 hnow.2 (by simp) ⟨?_, hvalid⟩
      show s.timestamp.nsecs + d ≤ now.nsecs + ns.nsecs
      omega
  · -- The reading after the sleep.
    rename_i hloc
    rw [hloc] at hwaits
    cases hst
    exact h.released hnow.1 hnow.2 (le_trans hwaits hnow.2)
  · cases hst

/-- The sleep ends, or a signal interrupts it and what it returns is as long as what is left. An
argument that `nanosleep` refuses stays, and so does the loop. -/
theorem PacedOk.nanosleep (h : PacedOk d target s) {interrupt : Option Tspec} {now : Tspec}
    (hnow : s.Ticks now) (hst : s.nanosleep interrupt now = .ok t) : PacedOk d target t := by
  have hwaits := h.waits
  unfold WaitsOut at hwaits
  unfold PacedSender.nanosleep at hst
  split at hst
  · rename_i ns hloc
    rw [hloc] at hwaits
    obtain ⟨hlong, hns⟩ := hwaits
    split at hst
    · split at hst
      · rename_i hslept
        cases hst
        refine h.move hnow.1 hnow.2 (by simp) ?_
        show s.timestamp.nsecs + d ≤ now.nsecs
        omega
      · cases hst
    · rename_i rest hrest
      split at hst
      · rename_i hleft
        cases hst
        refine h.move hnow.1 hnow.2 (by simp) ⟨?_, ?_⟩
        · show s.timestamp.nsecs + d ≤ now.nsecs + rest.nsecs
          omega
        · -- An argument that is not valid stays as it is.
          by_cases hvalid : ns.Valid
          · exact Or.inl (hleft.2 hvalid)
          · rw [Iptfs.nanosleep, if_neg hvalid] at hrest
            cases hrest
            exact hns
      · cases hst
  · cases hst

/-- The datagram that a wait has released. The wait before it has ended an interval earlier at
least. -/
theorem PacedOk.send (h : PacedOk d target s) {now : Tspec} (hloc : s.loc = .writes)
    (hnow : s.Ticks now) :
    PacedOk d target
      { s with clock := now, sent := ⟨s.timestamp.nsecs, now.nsecs⟩ :: s.sent, loc := .top } where
  interval := h.interval
  timestamp := h.timestamp
  clock := hnow.1
  le_clock := h.le_clock.trans hnow.2
  waits := trivial
  spaced := h.spaced.cons (h.le_clock.trans hnow.2) (fun e he => (h.writes hloc e he).1)
    fun e he => (h.writes hloc e he).2
  done_le := List.forall_mem_cons.mpr
    ⟨Int.le_refl _, fun r hr => (h.done_le r hr).trans hnow.2⟩
  released_le := List.forall_mem_cons.mpr ⟨Int.le_refl _, h.released_le⟩
  writes := by simp

/-- One step, of either thread. -/
theorem PacedOk.step (h : PacedOk d target s) (hd : d ≤ NSECS_IN_SEC / target) {cfg : Config}
    {e : PacedEvent} (hst : pacedStep cfg s e = .ok t) : PacedOk d target t := by
  cases e with
  | load =>
      unfold pacedStep at hst
      dsimp only at hst
      split at hst
      · cases hst
        exact h.move h.clock (Int.le_refl _) (by simp) ⟨h.interval.le_ival, h.interval.ival_le⟩
      · cases hst
  | read now =>
      unfold pacedStep at hst
      dsimp only at hst
      split at hst
      · rename_i hnow
        exact h.read hnow hst
      · cases hst
  | nanosleep interrupt now =>
      unfold pacedStep at hst
      dsimp only at hst
      split at hst
      · rename_i hnow
        exact h.nanosleep hnow hst
      · cases hst
  | send now =>
      unfold pacedStep at hst
      dsimp only at hst
      split at hst
      · rename_i hloc
        split at hst
        · rename_i hnow
          cases hst
          exact h.send hloc hnow
        · cases hst
      · cases hst
  | ack data =>
      unfold pacedStep at hst
      dsimp only at hst
      split at hst
      · cases hst
      · rename_i congest hrecv
        cases hst
        -- An ACK changes the rate, and the wait under way goes by the old interval.
        exact { h with interval := h.interval.recvAck hd hrecv }

end

/-- What every run keeps, with the interval that the loop starts with and that of the target. -/
theorem pacedOk_of_reachable {cfg : Config} {pps : Pps} {start : Tspec} {s : PacedSender}
    (hival : pps.ival ≤ NSECS_IN_SEC) (hstart : start.Normal)
    (h : Reachable (pacedStep cfg) (.init pps start) s) :
    PacedOk (min pps.ival (NSECS_IN_SEC / pps.targetPps)) pps.targetPps s :=
  h.induct (pacedOk_init ⟨rfl, Nat.min_le_left _ _, hival⟩ hstart)
    fun _ _ _ hs hst => hs.step (Nat.min_le_right _ _) hst

/-- The sender is never faster than its target, however the threads go. In a window of time, of
`len` nanoseconds from `past` on, it sends two datagrams at most, and as many as there are intervals
in it. The interval is that of the target, or the one that `pps_new` starts with. -/
theorem rate_capped (cfg : Config) (pps : Pps) (hival : pps.ival ≤ NSECS_IN_SEC) (start : Tspec)
    (hstart : start.Normal) (s : PacedSender) (h : Reachable (pacedStep cfg) (.init pps start) s)
    (past : Int) (len : Nat) :
    ((s.sent.countP fun r => past ≤ r.done ∧ r.done ≤ past + len : Nat) - 2 : Int) *
      (min pps.ival (NSECS_IN_SEC / pps.targetPps) : Nat) ≤ len :=
  (pacedOk_of_reachable hival hstart h).spaced.window (Int.natCast_nonneg len)
    (Int.natCast_nonneg _)

/-- A datagram in each of three intervals, the first of them late. -/
def threeTurns : List PacedEvent :=
  [.load, .read ⟨7, 500000⟩, .nanosleep (some ⟨0, 400000⟩) ⟨7, 700000⟩,
    .nanosleep none ⟨7, 1100000⟩, .read ⟨7, 1100001⟩, .send ⟨7, 2100000⟩, .load,
    .read ⟨7, 2100002⟩, .send ⟨7, 2100003⟩, .load,
    .read ⟨7, 2100004⟩, .nanosleep none ⟨7, 3100002⟩, .read ⟨7, 3100002⟩, .send ⟨7, 3100003⟩]

/-- Applied to three turns of the loop, and to a window that begins with the first of the three
datagrams. -/
theorem rate_capped_three : ∃ s,
    run (pacedStep ⟨1500, false, false⟩) (.init ⟨1000, 1000, 1000000⟩ ⟨7, 0⟩) threeTurns = .ok s ∧
      (s.sent.map fun r => (r.released, r.done)) =
        [(7003100002, 7003100003), (7002100002, 7002100003), (7001100001, 7002100000)] ∧
      ((s.sent.countP fun r =>
        7002100000 ≤ r.done ∧ r.done ≤ 7002100000 + ((1000003 : Nat) : Int) : Nat) - 2 : Int) *
          (min 1000000 (NSECS_IN_SEC / 1000) : Nat) ≤ (1000003 : Nat) := by
  have hends : (run (pacedStep ⟨1500, false, false⟩) (.init ⟨1000, 1000, 1000000⟩ ⟨7, 0⟩)
      threeTurns).map (fun s => s.sent.map fun r => (r.released, r.done)) =
        .ok [(7003100002, 7003100003), (7002100002, 7002100003), (7001100001, 7002100000)] := by
    decide +kernel
  obtain ⟨s, hrun, hsent⟩ := map_eq_ok.mp hends
  exact ⟨s, hrun, hsent, rate_capped ⟨1500, false, false⟩ ⟨1000, 1000, 1000000⟩ (by decide) ⟨7, 0⟩
    (by decide) s ⟨threeTurns, hrun⟩ 7002100000 1000003⟩

/-! ### The sleep that does not end -/

/-- The time in nanoseconds, as a `struct timespec`. -/
def Tspec.ofNsecs (n : Int) : Tspec := ⟨n / NSECS_IN_SEC, n % NSECS_IN_SEC⟩

/-- Its nanoseconds are below a second. -/
theorem ofNsecs_normal (n : Int) : (Tspec.ofNsecs n).Normal := by
  unfold Tspec.Normal Tspec.ofNsecs NSECS_IN_SEC
  dsimp only
  omega

/-- It is that time. -/
theorem ofNsecs_nsecs (n : Int) : (Tspec.ofNsecs n).nsecs = n := by
  unfold Tspec.nsecs Tspec.ofNsecs NSECS_IN_SEC
  dsimp only
  omega

/-- `nanosleep` refuses ten to the nine nanoseconds. -/
theorem not_valid_second : ¬ (⟨0, NSECS_IN_SEC⟩ : Tspec).Valid := by decide

/-- The loop around `nanosleep` does not end, and nothing is sent. -/
theorem stuck_step {cfg : Config} {s t : PacedSender} {e : PacedEvent}
    (hloc : s.loc = .sleeps ⟨0, NSECS_IN_SEC⟩) (hst : pacedStep cfg s e = .ok t) :
    t.loc = .sleeps ⟨0, NSECS_IN_SEC⟩ ∧ t.sent = s.sent := by
  cases e with
  | load => simp [pacedStep, hloc] at hst
  | read now => simp [pacedStep, PacedSender.read, hloc] at hst
  | nanosleep interrupt now =>
      simp only [pacedStep, PacedSender.nanosleep, hloc, Iptfs.nanosleep,
        if_neg not_valid_second] at hst
      split at hst
      · split at hst
        · cases hst
          exact ⟨rfl, rfl⟩
        · cases hst
      · cases hst
  | send now => simp [pacedStep, hloc] at hst
  | ack data =>
      simp only [pacedStep] at hst
      split at hst
      · cases hst
      · cases hst
        exact ⟨hloc, rfl⟩

/-- From `s` on, some run sends a datagram. -/
def GoesOn (cfg : Config) (s : PacedSender) : Prop :=
  ∃ es t, run (pacedStep cfg) s es = .ok t ∧ s.sent.length < t.sent.length

section

variable {cfg : Config} {s t : PacedSender}

/-- A step that sends nothing can be taken first. -/
theorem GoesOn.of_step {e : PacedEvent} (hst : pacedStep cfg s e = .ok t) (hsent : t.sent = s.sent)
    (h : GoesOn cfg t) : GoesOn cfg s := by
  obtain ⟨es, u, hrun, hlen⟩ := h
  refine ⟨e :: es, u, ?_, ?_⟩
  · rw [run_cons_ok es hst]
    exact hrun
  · rw [← hsent]
    exact hlen

/-- After the wait. -/
theorem goesOn_of_writes (hclock : s.clock.Normal) (hloc : s.loc = .writes) : GoesOn cfg s := by
  have hticks : s.Ticks s.clock := ⟨hclock, Int.le_refl _⟩
  have hst : pacedStep cfg s (.send s.clock) = .ok { s with
      clock := s.clock, sent := ⟨s.timestamp.nsecs, s.clock.nsecs⟩ :: s.sent, loc := .top } := by
    simp only [pacedStep, hloc, if_pos hticks]
  exact ⟨[.send s.clock], _, run_cons_ok [] hst, Nat.lt_succ_self _⟩

/-- After the sleep. -/
theorem goesOn_of_awake (hclock : s.clock.Normal) (hloc : s.loc = .awake) : GoesOn cfg s := by
  have hticks : s.Ticks s.clock := ⟨hclock, Int.le_refl _⟩
  have hst : pacedStep cfg s (.read s.clock) =
      .ok { s with clock := s.clock, timestamp := s.clock, loc := .writes } := by
    simp only [pacedStep, if_pos hticks, PacedSender.read, hloc]
  exact GoesOn.of_step hst rfl (goesOn_of_writes hclock rfl)

/-- Before `nanosleep`, with a valid time: the sleep takes as long. -/
theorem goesOn_of_sleeps {ns : Tspec} (hns : ns.Valid) (hloc : s.loc = .sleeps ns) :
    GoesOn cfg s := by
  have hpos : 0 ≤ ns.nsecs := by
    unfold Tspec.Valid Tspec.Normal NSECS_IN_SEC at hns
    unfold Tspec.nsecs NSECS_IN_SEC
    omega
  obtain ⟨later, hlater⟩ : ∃ later, later = Tspec.ofNsecs (s.clock.nsecs + ns.nsecs) := ⟨_, rfl⟩
  have hnsecs : later.nsecs = s.clock.nsecs + ns.nsecs := by rw [hlater, ofNsecs_nsecs]
  have hticks : s.Ticks later := ⟨hlater ▸ ofNsecs_normal _, by omega⟩
  have hst : pacedStep cfg s (.nanosleep none later) =
      .ok { s with clock := later, loc := .awake } := by
    simp only [pacedStep, if_pos hticks, PacedSender.nanosleep, hloc, Iptfs.nanosleep, if_pos hns]
    rw [if_pos (le_of_eq hnsecs.symm)]
  exact GoesOn.of_step hst rfl (goesOn_of_awake hticks.1 rfl)

/-- Before the first reading: where it is late, there is no sleep. -/
theorem goesOn_of_loaded {d target : Nat} (h : PacedOk d target s) {ival : Nat}
    (hloc : s.loc = .loaded ival) : GoesOn cfg s := by
  have hwaits := h.waits
  unfold WaitsOut at hwaits
  rw [hloc] at hwaits
  obtain ⟨later, hlater⟩ : ∃ later, later = Tspec.ofNsecs (s.clock.nsecs + 3 * NSECS_IN_SEC) :=
    ⟨_, rfl⟩
  have hnsecs : later.nsecs = s.clock.nsecs + 3 * NSECS_IN_SEC := by rw [hlater, ofNsecs_nsecs]
  have hticks : s.Ticks later := by
    refine ⟨hlater ▸ ofNsecs_normal _, ?_⟩
    rw [hnsecs]
    unfold NSECS_IN_SEC
    omega
  have hover : (periodicWait ⟨s.timestamp, ival⟩ later later).1 = none := by
    have hle := h.le_clock
    cases hwait : (periodicWait ⟨s.timestamp, ival⟩ later later).1 with
    | none => rfl
    | some ns =>
        have hsleep := (periodicWait_waits ⟨s.timestamp, ival⟩ h.timestamp hticks.1
          (hle.trans hticks.2) hwaits.2).2 ns hwait
        obtain ⟨hns, hvalid⟩ := hsleep
        have hpos : 0 ≤ ns.nsecs := by
          rcases hvalid with hvalid | rfl
          · unfold Tspec.Valid Tspec.Normal NSECS_IN_SEC at hvalid
            unfold Tspec.nsecs NSECS_IN_SEC
            omega
          · decide
        have hival := hwaits.2
        dsimp only at hns
        unfold NSECS_IN_SEC at hnsecs hival
        omega
  have hst : pacedStep cfg s (.read later) =
      .ok { s with clock := later, timestamp := later, loc := .writes } := by
    simp only [pacedStep, if_pos hticks, PacedSender.read, hloc, hover]
  exact GoesOn.of_step hst rfl (goesOn_of_writes hticks.1 rfl)

end

/-- When the sender goes on. In every state that a run reaches, it can send another datagram unless
`nanosleep` is asked for ten to the nine nanoseconds, and then it never sends one again. -/
theorem keeps_sending_iff (cfg : Config) (pps : Pps) (hival : pps.ival ≤ NSECS_IN_SEC)
    (start : Tspec) (hstart : start.Normal) (s : PacedSender)
    (h : Reachable (pacedStep cfg) (.init pps start) s) :
    GoesOn cfg s ↔ s.loc ≠ .sleeps ⟨0, NSECS_IN_SEC⟩ := by
  have hok := pacedOk_of_reachable hival hstart h
  constructor
  · -- The loop around `nanosleep` is not left in any run, so that nothing more is sent.
    rintro ⟨es, t, hrun, hlen⟩ hloc
    have hstuck : t.loc = .sleeps ⟨0, NSECS_IN_SEC⟩ ∧ t.sent = s.sent := by
      refine run_invariant (P := fun t => t.loc = .sleeps ⟨0, NSECS_IN_SEC⟩ ∧ t.sent = s.sent) ?_
        ⟨hloc, rfl⟩ hrun
      rintro u e v ⟨huloc, husent⟩ hst
      obtain ⟨hvloc, hvsent⟩ := stuck_step huloc hst
      exact ⟨hvloc, hvsent.trans husent⟩
    rw [hstuck.2] at hlen
    exact Nat.lt_irrefl _ hlen
  · -- From anywhere else a few steps lead to `sendmsg`. The clock may stand still in them.
    intro hne
    cases hloc : s.loc with
    | top =>
        have hst : pacedStep cfg s .load =
            .ok { s with clock := s.clock, loc := .loaded s.congest.pps.ival } := by
          simp only [pacedStep, hloc]
        have hloaded : PacedOk _ _ { s with
            clock := s.clock, loc := .loaded s.congest.pps.ival } :=
          hok.move hok.clock (Int.le_refl _) (by simp)
            ⟨hok.interval.le_ival, hok.interval.ival_le⟩
        exact GoesOn.of_step hst rfl (goesOn_of_loaded hloaded rfl)
    | loaded ival => exact goesOn_of_loaded hok hloc
    | sleeps ns =>
        have hwaits := hok.waits
        unfold WaitsOut at hwaits
        rw [hloc] at hwaits
        rcases hwaits.2 with hvalid | rfl
        · exact goesOn_of_sleeps hvalid hloc
        · exact absurd hloc hne
    | awake => exact goesOn_of_awake hok.clock hloc
    | writes => exact goesOn_of_writes hok.clock hloc

/-- One datagram in a second, and a wait that begins in the nanosecond of the timestamp. -/
def wholeSecond : List PacedEvent := [.load, .read ⟨7, 0⟩]

/-- Applied at one packet a second, where the wait begins at the timestamp itself and what is left
of the interval is the whole second. -/
theorem keeps_sending_iff_second : ∃ s,
    run (pacedStep ⟨1500, false, false⟩) (.init ⟨1, 1, NSECS_IN_SEC⟩ ⟨7, 0⟩) wholeSecond = .ok s ∧
      ¬ GoesOn ⟨1500, false, false⟩ s := by
  have hends : (run (pacedStep ⟨1500, false, false⟩) (.init ⟨1, 1, NSECS_IN_SEC⟩ ⟨7, 0⟩)
      wholeSecond).map (fun s => s.loc) = .ok (.sleeps ⟨0, NSECS_IN_SEC⟩) := by decide +kernel
  obtain ⟨s, hrun, hloc⟩ := map_eq_ok.mp hends
  refine ⟨s, hrun, fun hsends => ?_⟩
  exact (keeps_sending_iff ⟨1500, false, false⟩ ⟨1, 1, NSECS_IN_SEC⟩ (by decide) ⟨7, 0⟩ (by decide)
    s ⟨wholeSecond, hrun⟩).mp hsends hloc

end Proofs

end Iptfs
