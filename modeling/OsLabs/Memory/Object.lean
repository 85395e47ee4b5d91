import Mathlib.Algebra.Group.Nat.Defs
import Mathlib.Data.List.OfFn
import Mathlib.Logic.Function.Basic

/-!
# Objects in memory and the bytes of a socket call

An object of `n` bytes is what a C variable of that size occupies. `send` takes its
bytes from the beginning of an object; `recv` overwrites the beginning of an object with
the bytes it returns and leaves the rest as it was. A 32-bit `int` is stored in
little-endian order.
-/

namespace OsLabs.Memory

/-- The bytes of an object of size `n`. -/
abbrev Object (n : Nat) := Fin n → UInt8

/-- What a `recv` call returns: at least one byte, the end of the stream, or `-1`. -/
inductive Recv where
  | data (bytes : List UInt8)
  | closed
  | error

variable {n : Nat}

/-- All bytes of an object, as `send` passes them on. -/
def bytes (obj : Object n) : List UInt8 := List.ofFn obj

/-- The object after a `recv` that returned `msg`. -/
def recvInto (obj : Object n) (msg : List UInt8) : Object n :=
  fun i => msg[i.val]?.getD (obj i)

@[simp] theorem length_bytes (obj : Object n) : (bytes obj).length = n := by
  simp [bytes]

/-- A whole object that is received replaces every byte. -/
@[simp] theorem recvInto_bytes (obj sent : Object n) : recvInto obj (bytes sent) = sent := by
  funext i
  simp [recvInto, bytes]

theorem recvInto_of_lt {obj : Object n} {msg : List UInt8} {i : Fin n}
    (h : i.val < msg.length) : recvInto obj msg i = msg[i.val] := by
  simp [recvInto, h]

/-! ## Integers -/

/-- Byte `k` of a 32-bit integer, the least significant one first. -/
def intByte (v : BitVec 32) (k : Nat) : UInt8 := UInt8.ofNat (v.toNat / 256 ^ k)

/-- The four bytes of an `int` object. -/
def intBytes (v : BitVec 32) : List UInt8 :=
  [intByte v 0, intByte v 1, intByte v 2, intByte v 3]

/-- The integer stored in four bytes. -/
def intOf (b₀ b₁ b₂ b₃ : UInt8) : BitVec 32 :=
  BitVec.ofNat 32 (b₀.toNat + 256 * b₁.toNat + 65536 * b₂.toNat + 16777216 * b₃.toNat)

@[simp] theorem intOf_intByte (v : BitVec 32) :
    intOf (intByte v 0) (intByte v 1) (intByte v 2) (intByte v 3) = v := by
  apply BitVec.eq_of_toNat_eq
  have hBound := v.isLt
  simp only [intOf, intByte, UInt8.toNat_ofNat', BitVec.toNat_ofNat]
  omega

end OsLabs.Memory
