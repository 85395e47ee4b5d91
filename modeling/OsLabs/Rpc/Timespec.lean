import Mathlib.Algebra.Group.Nat.Defs
import Mathlib.Algebra.Ring.Int.Defs

/-!
# The times that the servers return

A server reads `struct timespec` from `clock_gettime` and puts it together to one number, which
it stores in a `long` or in an `int`. An integer that does not fit is reduced modulo a power of
two.
-/

namespace OsLabs.Rpc

structure Timespec where
  tvSec : Int
  tvNsec : Int
deriving DecidableEq

def Timespec.nanoseconds (ts : Timespec) : Int := ts.tvSec * 1000000000 + ts.tvNsec

def Timespec.milliseconds (ts : Timespec) : Int := ts.nanoseconds.tdiv 1000000

/-- Stored in an `int`. -/
def toInt (n : Int) : Int := n.bmod (2 ^ 32)

/-- Stored in a `long`. -/
def toLong (n : Int) : Int := n.bmod (2 ^ 64)

theorem toInt_pos_iff (n : Int) : 0 < toInt n ↔ 0 < n % 2 ^ 32 ∧ n % 2 ^ 32 < 2 ^ 31 := by
  have hNonneg : 0 ≤ n % 2 ^ 32 := Int.emod_nonneg n (by decide)
  have hLt : n % 2 ^ 32 < 2 ^ 32 := Int.emod_lt_of_pos n (by decide)
  simp only [toInt, Int.bmod]
  split
  · omega
  · omega

end OsLabs.Rpc
