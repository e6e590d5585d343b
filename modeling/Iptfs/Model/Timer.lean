import Iptfs.Model.Basic
import Mathlib.Algebra.Ring.Int.Defs

/-!
# `Iptfs.Model.Timer`: elapsed time, timers, and the pacing sleep

`clock_delta`, `periodic_is_expired`, `periodic_wait`, `st_reset` and `st_check` of
`src/src/util.c`. Every function takes the clock readings it makes as arguments.

The fields of a `struct timespec` are signed here, since `periodic_wait` subtracts them. A
`long` that takes an unsigned sum wraps (`asLong`).
-/

set_option autoImplicit false

namespace Iptfs

/-- `struct timespec` with its signed fields. `Timespec` is a reading as `send_ack` sends it. -/
structure Tspec where
  tvSec : Int
  tvNsec : Int
  deriving DecidableEq, Repr

/-- A `struct timespec` of zeros. -/
def Tspec.zero : Tspec := ⟨0, 0⟩

/-- Normalised: the nanoseconds make less than a second. -/
def Tspec.Normal (ts : Tspec) : Prop := 0 ≤ ts.tvNsec ∧ ts.tvNsec < NSECS_IN_SEC

instance (ts : Tspec) : Decidable ts.Normal := instDecidableAnd

/-- What `nanosleep` accepts: anything else is `EINVAL`. -/
def Tspec.Valid (ts : Tspec) : Prop := 0 ≤ ts.tvSec ∧ ts.Normal

instance (ts : Tspec) : Decidable ts.Valid := instDecidableAnd

/-- A value stored in a `long`. -/
def asLong (x : Int) : Int := (x + 2 ^ 63) % 2 ^ 64 - 2 ^ 63

/-- `clock_delta(recent, past)`. `sdiff` is a `uint`, and so is its product with
`NSECS_IN_SEC`. -/
def clockDelta (recent past : Tspec) : Nat :=
  let sdiff := (recent.tvSec - past.tvSec) % 2 ^ 32
  let nsecs := (recent.tvNsec + sdiff * NSECS_IN_SEC % 2 ^ 32) % 2 ^ 64
  ((nsecs - past.tvNsec) % 2 ^ 64).toNat

/-- `stimer_t`. -/
structure Stimer where
  ts : Tspec
  nsecs : Nat
  deriving DecidableEq, Repr

/-- `st_reset(t, nsecs)`. -/
def stReset (now : Tspec) (nsecs : Nat) : Stimer := { ts := now, nsecs := nsecs }

/-- `st_check(t)`. The second component is what it returns. -/
def stCheck (t : Stimer) (now : Tspec) : Stimer × Bool :=
  if clockDelta now t.ts < t.nsecs then (t, false) else ({ t with ts := now }, true)

/-- `struct periodic`. -/
structure Periodic where
  timestamp : Tspec
  ival : Nat
  deriving DecidableEq, Repr

/-- `periodic_is_expired(now, expire)`. -/
def periodicIsExpired (now expire : Tspec) : Bool :=
  if now.tvSec > expire.tvSec then true
  else if now.tvSec = expire.tvSec then now.tvNsec > expire.tvNsec
  else false

/-- `expire` of `periodic_wait`: the timestamp and the interval, with one carry. -/
def Periodic.expire (pp : Periodic) : Tspec :=
  let tvNsec := asLong (pp.timestamp.tvNsec + pp.ival)
  if tvNsec > NSECS_IN_SEC then ⟨pp.timestamp.tvSec + 1, tvNsec - NSECS_IN_SEC⟩
  else ⟨pp.timestamp.tvSec, tvNsec⟩

/-- `ns` of `periodic_wait`: the time to sleep, with one borrow. -/
def sleepTime (expire now : Tspec) : Tspec :=
  if expire.tvNsec ≥ now.tvNsec then ⟨expire.tvSec - now.tvSec, expire.tvNsec - now.tvNsec⟩
  else ⟨expire.tvSec - now.tvSec - 1, NSECS_IN_SEC + expire.tvNsec - now.tvNsec⟩

/-- `periodic_wait(pp)`: what it asks `nanosleep` for, if it sleeps, and `pp` afterwards. `now`
is its first clock reading, and `later` the one after the sleep. -/
def periodicWait (pp : Periodic) (now later : Tspec) : Option Tspec × Periodic :=
  if periodicIsExpired now pp.expire then (none, { pp with timestamp := now })
  else (some (sleepTime pp.expire now), { pp with timestamp := later })

/-- `nanosleep(&ns, &ns)`. `none` is a return of 0. Otherwise it returns -1, and the result is
`ns` after the call: `interrupt` is the time that a signal leaves, and an argument that is not
valid stays as it is. -/
def nanosleep (ns : Tspec) (interrupt : Option Tspec) : Option Tspec :=
  if ns.Valid then interrupt else some ns

/-- `while (nanosleep(&ns, &ns) < 0);`, for the calls that make up the list. `none` is a loop
that has ended. -/
def sleepLoop : Tspec → List (Option Tspec) → Option Tspec
  | ns, [] => some ns
  | ns, interrupt :: interrupts =>
      match nanosleep ns interrupt with
      | none => none
      | some ns => sleepLoop ns interrupts

end Iptfs
