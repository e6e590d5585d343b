import Iptfs.Model.Basic

/-!
# `Iptfs.Python.Basic`: the Python program, constants and the byte codec

The constants of `src/iptfs/iptfs.py`, the exceptions that the modelled functions can raise,
and `get16`, `get32`, `put16` and `put32` at the top of the file.

Both programs have functions of these names. Those of the Python program are in the
namespace `Iptfs.Py`. A `memoryview` is a list of bytes, `mv[i:]` is `List.drop i`, and `mv[:j]`
is `List.take j`. A Python integer does not wrap, so `put16` and `put32` mask what they write.
-/

set_option autoImplicit false

namespace Iptfs.Py

/-- `TUNMTU`. -/
def TUNMTU : Nat := 1500

/-- `HDRSPACE`. -/
def HDRSPACE : Nat := 18

/-- `MAXBUF`. -/
def MAXBUF : Nat := 9000 + HDRSPACE

/-- `MAXQSZ`. -/
def MAXQSZ : Nat := 32

/-- What ends a thread: `thread_catch` turns any exception into `sys.exit(1)`. -/
inductive Exc
  /-- `AssertionError`. -/
  | assertion
  /-- `AttributeError`: `m.left` before its first assignment. -/
  | attribute
  /-- `IndexError`. -/
  | index
  /-- `OSError`: what a system call raises when it fails. -/
  | os
  /-- `RecursionError`. -/
  | recursion
  /-- `TypeError`. -/
  | type
  /-- `ZeroDivisionError`. -/
  | zeroDivision
  deriving DecidableEq, Repr

/-- The result of code that can raise an exception. -/
abbrev Res := Except Exc

/-- `mv[i:j]`. -/
def slice (mv : List UInt8) (i j : Nat) : List UInt8 := (mv.take j).drop i

/-- `get16(mv)`. -/
def get16 : List UInt8 → Res Nat
  | a :: b :: _ => .ok ((a.toNat <<< 8) + b.toNat)
  | _ => .error .index

/-- `get32(mv)`. -/
def get32 : List UInt8 → Res Nat
  | a :: b :: c :: d :: _ =>
      .ok ((a.toNat <<< 24) + (b.toNat <<< 16) + (c.toNat <<< 8) + d.toNat)
  | _ => .error .index

/-- The two bytes that `put16(m, i)` writes. -/
def put16 (i : Nat) : List UInt8 := [UInt8.ofNat ((i >>> 8) &&& 0xFF), UInt8.ofNat (i &&& 0xFF)]

/-- The four bytes that `put32(m, i)` writes. -/
def put32 (i : Nat) : List UInt8 :=
  [UInt8.ofNat ((i >>> 24) &&& 0xFF), UInt8.ofNat ((i >>> 16) &&& 0xFF),
    UInt8.ofNat ((i >>> 8) &&& 0xFF), UInt8.ofNat (i &&& 0xFF)]

/-- The mask changes nothing in the byte that is written. -/
theorem ofNat_land_0xFF (n : Nat) : UInt8.ofNat (n &&& 0xFF) = UInt8.ofNat n := by
  apply UInt8.toNat_inj.mp
  rw [UInt8.toNat_ofNat', UInt8.toNat_ofNat', show (0xFF : Nat) = 2 ^ 8 - 1 from rfl,
    Nat.and_two_pow_sub_one_eq_mod, Nat.mod_mod]

/-- Both programs write the same two bytes. -/
theorem put16_eq (i : Nat) : put16 i = Iptfs.put16 i := by
  simp only [put16, Iptfs.put16, ofNat_land_0xFF]

/-- Both programs write the same four bytes. -/
theorem put32_eq (i : Nat) : put32 i = Iptfs.put32 i := by
  simp only [put32, Iptfs.put32, ofNat_land_0xFF]

/-- Both programs read the same, where the bytes are there. -/
theorem get16_eq_ok {buf : List UInt8} {i v : Nat} :
    get16 (buf.drop i) = .ok v ↔ Iptfs.get16 buf i = .ok v := by
  unfold get16 Iptfs.get16
  cases buf.drop i with
  | nil => simp
  | cons a t => cases t <;> simp

/-- Both programs read the same, where the bytes are there. -/
theorem get32_eq_ok {buf : List UInt8} {i v : Nat} :
    get32 (buf.drop i) = .ok v ↔ Iptfs.get32 buf i = .ok v := by
  unfold get32 Iptfs.get32
  generalize buf.drop i = mv
  match mv with
  | [] => simp
  | [_] => simp
  | [_, _] => simp
  | [_, _, _] => simp
  | _ :: _ :: _ :: _ :: _ => simp

end Iptfs.Py
