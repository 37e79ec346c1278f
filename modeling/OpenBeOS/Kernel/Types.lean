import Mathlib

/-! # Types of the kernel -/

namespace Kernel

/-- An address or a size. -/
abbrev addr := BitVec 32

def KERNEL_BASE : addr := 0x80000000
def KERNEL_TOP : addr := KERNEL_BASE + (0x80000000 - 1)

/-- The value of an `int` that the integer is assigned to. -/
def toInt (x : Int) : Int := x.bmod (2 ^ 32)

theorem toInt_of_range {x : Int} (hlow : -2 ^ 31 ≤ x) (hhigh : x < 2 ^ 31) : toInt x = x :=
  Int.bmod_eq_of_le (by omega) (by omega)

end Kernel
