import Mathlib

/-! # Common definitions (`bfs.h`)

The status codes the file system's functions return, and the `block_run`.
-/

namespace BFS

/-- The `status_t` values the modelled functions return. -/
inductive Status
  | B_OK
  | B_ERROR
  | B_IO_ERROR
  | B_NO_MEMORY
  | B_BAD_VALUE
  | B_BAD_DATA
  | B_BAD_INDEX
  | B_BAD_TYPE
  | B_DEVICE_FULL
  | B_ENTRY_NOT_FOUND
  | B_NAME_IN_USE
  | B_INTERRUPTED
  | EFBIG
  | B_NOT_A_DIRECTORY
  | B_IS_A_DIRECTORY
  | B_DIRECTORY_NOT_EMPTY
  deriving Repr, DecidableEq

/-- A run of blocks inside one allocation group. -/
structure block_run where
  allocation_group : Int
  start : Nat
  length : Nat
  deriving Repr, DecidableEq

/-- The run whose fields are all zero: an unused entry. -/
def block_run.zero : block_run := ⟨0, 0, 0⟩

/-- `block_run::IsZero()`. -/
def block_run.IsZero (run : block_run) : Bool :=
  run.allocation_group = 0 ∧ run.start = 0 ∧ run.length = 0

/-- The block `i` of a group belongs to the run. -/
def block_run.Contains (run : block_run) (group : Int) (i : Nat) : Prop :=
  run.allocation_group = group ∧ run.start ≤ i ∧ i < run.start + run.length

instance (run : block_run) (group : Int) (i : Nat) : Decidable (run.Contains group i) :=
  inferInstanceAs (Decidable (_ ∧ _ ∧ _))

/-- A value stored in a `uint16`. -/
def toUint16 (n : Nat) : Nat := n % 65536

theorem toUint16_lt (n : Nat) : toUint16 n < 65536 := Nat.mod_lt _ (by decide)

theorem toUint16_of_lt {n : Nat} (h : n < 65536) : toUint16 n = n := Nat.mod_eq_of_lt h

/-- An `int` result: 32 bits. -/
def wrapInt32 (v : Int) : Int := (v + 2 ^ 31) % 2 ^ 32 - 2 ^ 31

theorem wrapInt32_of_lt {v : Int} (h : 0 ≤ v) (hlt : v < 2 ^ 31) : wrapInt32 v = v := by
  unfold wrapInt32
  omega

end BFS
