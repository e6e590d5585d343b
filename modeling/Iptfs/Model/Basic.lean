import Mathlib.Algebra.Ring.Nat

/-!
# `Iptfs.Model.Basic`: constants, options, faults, and the byte codec

The constants of `src/src/iptfs.h`, the options that `main` sets before the threads
start, the ways a thread can be brought down, and the four byte accessors `put32`,
`put16`, `get32` and `get16` at the top of `src/src/iptfs.c`.

A buffer is a list of bytes. `get16` and `get32` take the index they read at, and fail
with `Fault.outOfBounds` where the C function would read past the bytes it was given. A
`uint32_t` is a `Nat` below `2 ^ 32`, and every operation on one that can wrap is written
with `% 2 ^ 32`.
-/

set_option autoImplicit false

namespace Iptfs

/-- `MAXBUF`: the bytes of one mbuf. -/
def MAXBUF : Nat := 8192 + 1024

/-- `HDRSPACE`: the bytes left free in front of a packet. -/
def HDRSPACE : Nat := 24

/-- `OUTERQSZ`: the mbufs and the miovs of the egress. -/
def OUTERQSZ : Nat := 256

/-- `INNERQSZ`: the mbufs of the ingress. -/
def INNERQSZ : Nat := 256

/-- `NSECS_IN_SEC`. -/
def NSECS_IN_SEC : Nat := 1000000000

/-- The globals that `main` sets from the command line. -/
structure Config where
  /-- `g_tfsmtu`, the size of every tunnel datagram. -/
  tfsmtu : Nat
  /-- `g_oneonly`, single-only mode. -/
  oneonly : Bool
  /-- `g_dontfrag`. `main` stops when it is asked for. -/
  dontfrag : Bool
  deriving DecidableEq, Repr

/-- What can bring a thread down: each `assert` and `errx` of the modelled functions, a
division by zero, and a read outside the bytes received. -/
inductive Fault
  /-- `add_to_inner_packet`: `errx` on `ltlen <= 0`. -/
  | errxTlen
  /-- `add_to_inner_packet`: `assert(ltlen > 8)`. -/
  | assertLtlen
  /-- `add_to_inner_packet`: the `errx` calls on `MBUF_LEN(tbuf) != tlen`. -/
  | errxMbufLen
  /-- `add_to_inner_packet`: `assert(MBUF_LEN(tbuf) == 0)`. -/
  | assertConsumed
  /-- `add_to_inner_packet`: `assert(m->left == tlen)`. -/
  | assertLeft
  /-- `getiplen`: `assert(0)` in the default case. -/
  | assertIplen
  /-- `recv_ack`: `assert(get32(mstart) == 0xFFFFFFFF)`. -/
  | assertAckMark
  /-- `send_ack`: `assert(!g_oneonly)`. -/
  | assertOneonly
  /-- `mbuf_reset`: `assert(atomic_load(&m->refcnt) == 0)`. -/
  | assertRefcnt
  /-- `write_tfs_pkt`: `errx` (and `assert`) on the length of the iovecs. -/
  | errxIovlen
  /-- `miov_addmbuf`: a write past the arrays of the miov. -/
  | iovOverflow
  /-- A division by zero. -/
  | divZero
  /-- A read outside the bytes received. -/
  | outOfBounds
  /-- The recursion bound of the model. No run of the code ends this way. -/
  | fuel
  deriving DecidableEq, Repr

/-- The result of code that can be brought down. -/
abbrev Res := Except Fault

/-- Why a thread does not take a step: it waits, or it has been brought down. -/
inductive Stop
  | waits
  | fault (f : Fault)
  deriving DecidableEq, Repr

/-- `put32(buf, value)`. -/
def put32 (value : Nat) : List UInt8 :=
  [UInt8.ofNat (value >>> 24), UInt8.ofNat (value >>> 16), UInt8.ofNat (value >>> 8),
    UInt8.ofNat value]

/-- `put16(buf, value)`. -/
def put16 (value : Nat) : List UInt8 := [UInt8.ofNat (value >>> 8), UInt8.ofNat value]

/-- `get32(&buf[i])`. -/
def get32 (buf : List UInt8) (i : Nat) : Res Nat :=
  match buf.drop i with
  | a :: b :: c :: d :: _ =>
      .ok ((a.toNat <<< 24) + (b.toNat <<< 16) + (c.toNat <<< 8) + d.toNat)
  | _ => .error .outOfBounds

/-- `get16(&buf[i])`. -/
def get16 (buf : List UInt8) (i : Nat) : Res Nat :=
  match buf.drop i with
  | a :: b :: _ => .ok ((a.toNat <<< 8) + b.toNat)
  | _ => .error .outOfBounds

@[simp] theorem length_put32 (v : Nat) : (put32 v).length = 4 := rfl

@[simp] theorem length_put16 (v : Nat) : (put16 v).length = 2 := rfl

/-- `get16` reads when two bytes are there. -/
theorem get16_ok {buf : List UInt8} {i : Nat} (h : i + 2 ≤ buf.length) :
    ∃ v, get16 buf i = .ok v ∧ v < 2 ^ 16 := by
  have hlen : 2 ≤ (buf.drop i).length := by simp; omega
  unfold get16
  match hd : buf.drop i with
  | [] => simp [hd] at hlen
  | [_] => simp [hd] at hlen
  | a :: b :: t =>
      refine ⟨_, rfl, ?_⟩
      have ha := a.toNat_lt
      have hb := b.toNat_lt
      simp only [Nat.shiftLeft_eq]
      omega

/-- `get32` reads when four bytes are there. -/
theorem get32_ok {buf : List UInt8} {i : Nat} (h : i + 4 ≤ buf.length) :
    ∃ v, get32 buf i = .ok v ∧ v < 2 ^ 32 := by
  have hlen : 4 ≤ (buf.drop i).length := by simp; omega
  unfold get32
  match hd : buf.drop i with
  | [] => simp [hd] at hlen
  | [_] => simp [hd] at hlen
  | [_, _] => simp [hd] at hlen
  | [_, _, _] => simp [hd] at hlen
  | a :: b :: c :: d :: t =>
      refine ⟨_, rfl, ?_⟩
      have ha := a.toNat_lt
      have hb := b.toNat_lt
      have hc := c.toNat_lt
      have hd := d.toNat_lt
      simp only [Nat.shiftLeft_eq]
      omega

/-- What `get32` returns is a `uint32_t`. -/
theorem get32_lt {buf : List UInt8} {i v : Nat} (h : get32 buf i = .ok v) : v < 2 ^ 32 := by
  have hlen : i + 4 ≤ buf.length := by
    apply Nat.not_lt.mp
    intro hshort
    have hdrop : (buf.drop i).length < 4 := by simp; omega
    unfold get32 at h
    match hd : buf.drop i with
    | [] => simp [hd] at h
    | [_] => simp [hd] at h
    | [_, _] => simp [hd] at h
    | [_, _, _] => simp [hd] at h
    | _ :: _ :: _ :: _ :: _ =>
        simp only [hd, List.length_cons] at hdrop
        omega
  rcases get32_ok hlen with ⟨w, hw, hlt⟩
  rw [hw] at h
  cases h
  exact hlt

/-- `get16` after `put16`, at the place the bytes were put. -/
theorem get16_put16 (pre post : List UInt8) {v : Nat} (h : v < 2 ^ 16) :
    get16 (pre ++ (put16 v ++ post)) pre.length = .ok v := by
  simp only [get16, List.drop_left, put16, List.cons_append, List.nil_append,
    UInt8.toNat_ofNat', Nat.shiftRight_eq_div_pow, Nat.shiftLeft_eq]
  congr 1
  omega

/-- `get32` after `put32`, at the place the bytes were put. -/
theorem get32_put32 (pre post : List UInt8) {v : Nat} (h : v < 2 ^ 32) :
    get32 (pre ++ (put32 v ++ post)) pre.length = .ok v := by
  simp only [get32, List.drop_left, put32, List.cons_append, List.nil_append,
    UInt8.toNat_ofNat', Nat.shiftRight_eq_div_pow, Nat.shiftLeft_eq]
  congr 1
  omega

/-- Masking the top bits of a number below `2 ^ (k + n)` clears the low `k` bits. -/
private theorem land_top (k n : Nat) {w : Nat} (h : w < 2 ^ (k + n)) :
    w &&& (2 ^ n - 1) * 2 ^ k = w / 2 ^ k * 2 ^ k := by
  apply Nat.eq_of_testBit_eq
  intro i
  simp only [Nat.testBit_and, Nat.testBit_mul_two_pow, Nat.testBit_two_pow_sub_one,
    Nat.testBit_div_two_pow]
  by_cases hk : k ≤ i
  · rw [show i - k + k = i by omega]
    by_cases hi : i - k < n
    · simp [hk, hi]
    · have hw : w.testBit i = false := Nat.testBit_lt_two_pow
        (Nat.lt_of_lt_of_le h (Nat.pow_le_pow_right (by omega) (by omega)))
      simp [hw]
  · simp [hk]

/-- The test for an ACK, `(w & 0xC0000000) == 0x40000000`, looks at the two top bits. -/
theorem land_ack {w : Nat} (h : w < 2 ^ 32) : w &&& 0xC0000000 = w / 2 ^ 30 * 2 ^ 30 :=
  land_top 30 2 h

/-- The test for the version, `(w & 0x80000000) != 0`, looks at the top bit. -/
theorem land_version {w : Nat} (h : w < 2 ^ 32) : w &&& 0x80000000 = w / 2 ^ 31 * 2 ^ 31 :=
  land_top 31 1 h

end Iptfs
