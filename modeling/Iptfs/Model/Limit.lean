import Iptfs.Model.Timer

/-!
# `Iptfs.Model.Limit`: the rate limiter

`new_ratelimit` and `limit` of `src/src/util.c`. `read_tfs_pkts` calls `limit` with the length
of each datagram, before it looks at the datagram.

`sizes` and `times` are the two arrays of the ring. The clock reading of a call is an argument.
-/

set_option autoImplicit false

namespace Iptfs

/-- `struct ratelimit`. -/
structure Ratelimit where
  rate : Nat
  overhead : Nat
  count : Nat
  totb : Nat
  ndrops : Nat
  pktidx : Nat
  times : List Tspec
  sizes : List Nat
  deriving DecidableEq, Repr

/-- `new_ratelimit(rate, overhead, count)`. Its first parameter is a `uint32_t`. -/
def newRatelimit (rate overhead count : Nat) : Ratelimit :=
  { rate := rate % 2 ^ 32 / 8, overhead := overhead, count := count, totb := 0, ndrops := 0,
    pktidx := 0, times := List.replicate count .zero, sizes := List.replicate count 0 }

/-- `limit(rl, n)`. The second component is what it returns: the packet is rejected. -/
def limit (rl : Ratelimit) (n : Nat) (ntime : Tspec) : Res (Ratelimit × Bool) :=
  match rl.times[rl.pktidx]?, rl.sizes[rl.pktidx]? with
  | some otime, some osize =>
      -- `ntotb` is computed before the overhead is taken off.
      let ntotb := (rl.totb + n + 2 ^ 64 - osize) % 2 ^ 64
      let n := if n > rl.overhead then n - rl.overhead else n
      if otime ≠ .zero ∧ clockDelta ntime otime = 0 then .error .divZero
      else
        let rate :=
          if otime ≠ .zero then ntotb * NSECS_IN_SEC % 2 ^ 64 / clockDelta ntime otime else 0
        if rate > rl.rate then .ok ({ rl with ndrops := (rl.ndrops + 1) % 2 ^ 64 }, true)
        else
          .ok ({ rl with
            totb := ntotb
            times := rl.times.set rl.pktidx ntime
            sizes := rl.sizes.set rl.pktidx (n % 2 ^ 16)
            pktidx := (rl.pktidx + 1) % 2 ^ 32 % rl.count }, false)
  | _, _ => .error .outOfBounds

/-- A call of `limit`. -/
structure LimitCall where
  n : Nat
  now : Tspec
  deriving DecidableEq, Repr

/-- The limiter after some calls. `accepted` is not in the source: it has the size, less the
overhead, and the time of each packet that was accepted. -/
structure Limiter where
  rl : Ratelimit
  accepted : List (Nat × Tspec)
  deriving DecidableEq, Repr

/-- The limiter of `read_tfs_pkts` before its first call. -/
def Limiter.init (rate overhead count : Nat) : Limiter := ⟨newRatelimit rate overhead count, []⟩

/-- The size of a packet less the overhead, where it has more than that. -/
def lessOverhead (overhead n : Nat) : Nat := if n > overhead then n - overhead else n

/-- One call. -/
def limitStep (s : Limiter) (c : LimitCall) : Res Limiter :=
  match limit s.rl c.n c.now with
  | .error e => .error e
  | .ok (rl, true) => .ok { s with rl := rl }
  | .ok (rl, false) =>
      .ok ⟨rl, s.accepted ++ [(lessOverhead s.rl.overhead c.n, c.now)]⟩

end Iptfs
