import OpenBeOS.Kernel.Types
import OpenBeOS.Lib.RefCount

/-! # File descriptors

The calls of `fd.c`, and the making and freeing of an `io_context` in `vfs.c`, cut into their sections
under an `io_mutex` and the drops of a reference.
-/

namespace Kernel

open RefCount


def DEFAULT_FD_TABLE_SIZE : Nat := 128

inductive FdError where
  | EINVAL
  | EBADF
  | EOPNOTSUPP
  | ERR_NO_MORE_HANDLES
  deriving DecidableEq

/-! ## The descriptors of a process -/

/-- Descriptors are given by their numbers; the table has `table_size` entries. -/
structure io_context where
  num_used_fds : Int
  fds : List (Option Nat)

namespace io_context

section

variable (ioctx : io_context)

def table_size : Nat := ioctx.fds.length

/-- The descriptors in the table, one for each slot that holds one. -/
def slots : List Nat := ioctx.fds.filterMap id

/-- The descriptor of a valid `fd`. -/
def get (fd : Int) : Option Nat :=
  if fd ≥ 0 ∧ fd < ioctx.table_size then ioctx.fds.getD fd.toNat none else none

/-- The section of `new_fd`. -/
def insert (f : Nat) : Except FdError Nat × io_context :=
  match ioctx.fds.findIdx? (·.isNone) with
  | some fd => (.ok fd, ⟨ioctx.num_used_fds + 1, ioctx.fds.set fd (some f)⟩)
  | none => (.error .ERR_NO_MORE_HANDLES, ioctx)

/-- The section of `remove_fd`. -/
def remove (fd : Int) : Option Nat × io_context :=
  match ioctx.get fd with
  | some f => (some f, ⟨ioctx.num_used_fds - 1, ioctx.fds.set fd.toNat none⟩)
  | none => (none, ioctx)

end

end io_context

/-! ## The calls of a process -/

/-- What one of the `user_` and `sys_` functions does: whether it works on the descriptors of the kernel,
whether it checks that its buffer is not in the kernel, what it returns for an operation that the
descriptor does not have, whether it calls `put_fd`, and whether its operation is `fd_close`. -/
structure FdRoutine where
  kernel : Bool
  check_user_addr : Bool
  noOp : FdError
  put : Bool
  close : Bool
  deriving DecidableEq

def user_read : FdRoutine := ⟨false, true, .EINVAL, true, false⟩
def user_write : FdRoutine := ⟨false, true, .EINVAL, true, false⟩
def user_ioctl : FdRoutine := ⟨false, true, .EOPNOTSUPP, false, false⟩
def user_read_dir : FdRoutine := ⟨false, true, .EOPNOTSUPP, true, false⟩
def user_rewind_dir : FdRoutine := ⟨false, false, .EOPNOTSUPP, true, false⟩
def user_fstat : FdRoutine := ⟨false, true, .EOPNOTSUPP, true, false⟩
def user_close : FdRoutine := ⟨false, false, .EOPNOTSUPP, true, true⟩
def sys_read : FdRoutine := ⟨true, false, .EINVAL, true, false⟩
def sys_write : FdRoutine := ⟨true, false, .EINVAL, true, false⟩
-- `CHECK_SYS_ADDR` asks for an address below and above the kernel
def sys_ioctl : FdRoutine := ⟨true, false, .EOPNOTSUPP, true, false⟩
def sys_read_dir : FdRoutine := ⟨false, false, .EOPNOTSUPP, true, false⟩
def sys_rewind_dir : FdRoutine := ⟨false, false, .EOPNOTSUPP, true, false⟩
def sys_close : FdRoutine := ⟨true, false, .EOPNOTSUPP, true, true⟩

def fdRoutines : List FdRoutine :=
  [user_read, user_write, user_ioctl, user_read_dir, user_rewind_dir, user_fstat, user_close,
    sys_read, sys_write, sys_ioctl, sys_read_dir, sys_rewind_dir, sys_close]

/-- Where a call is. -/
inductive FdCall where
  /-- `alloc_fd` has returned a descriptor that `new_fd` has not put into a table. -/
  | opening (ctx f : Nat)
  /-- `get_fd` has returned the descriptor, and its operation has not returned. -/
  | operating (ctx : Nat) (fd : Int) (f : Nat) (routine : FdRoutine)
  /-- `remove_fd` has taken `g` out of the table; `f` is the descriptor of a call to close it. -/
  | removing (g : Nat) (f : Option Nat)
  | putting (f : Nat) (result : Except FdError Int)
  | returned (result : Except FdError Int)

/-- The descriptors that a call has references to. -/
def FdCall.holds : FdCall → List Nat
  | .opening _ f => [f]
  | .operating _ _ f _ => [f]
  | .removing g f => g :: f.toList
  | .putting f _ => [f]
  | .returned _ => []

/-- The context that a call will go back to. -/
def FdCall.context : FdCall → Option Nat
  | .opening ctx _ => some ctx
  | .operating ctx _ _ _ => some ctx
  | _ => none

/-! ## The system -/

/-- A context is `none` when it has been freed; the kernel's is the first one. `counts` has the
`ref_count` of each descriptor and how often it has been freed, `next_fd` is the descriptor allocated
next, and `inherited` the number of descriptors a context has from its parent. -/
structure FdSystem where
  contexts : List (Option io_context)
  counts : Counts Nat
  next_fd : Nat
  calls : List FdCall
  inherited : Nat → Nat

namespace FdSystem

section

variable (s : FdSystem)

def context (ctx : Nat) : Option io_context := s.contexts.getD ctx none

def setContext (ctx : Nat) (ioctx : Option io_context) : FdSystem :=
  { s with contexts := s.contexts.set ctx ioctx }

def setCall (i : Nat) (call : FdCall) : FdSystem :=
  { s with calls := s.calls.set i call }

def addCall (call : FdCall) : FdSystem := { s with calls := s.calls ++ [call] }

def put_fd (f : Nat) : FdSystem := { s with counts := s.counts.release f }

def acquire (f : Nat) : FdSystem := { s with counts := s.counts.acquire f }

/-- `alloc_fd` for a call that will put the descriptor into the table of the context. -/
def alloc_fd (ctx : Nat) : FdSystem :=
  { s with counts := s.counts.make s.next_fd, next_fd := s.next_fd + 1 }.addCall
    (.opening ctx s.next_fd)

/-- If the table is full, the caller keeps the descriptor. -/
def new_fd (i ctx f : Nat) : Option FdSystem :=
  (s.context ctx).map fun ioctx =>
    match ioctx.insert f with
    | (.ok fd, ioctx) => (s.setContext ctx (some ioctx)).setCall i (.returned (.ok fd))
    | (.error _, _) => s

/-- The call up to the operation of the descriptor. -/
def begin (routine : FdRoutine) (ctx : Nat) (buffer : addr) (fd : Int) :
    Option FdSystem :=
  if routine.check_user_addr ∧ KERNEL_BASE ≤ buffer ∧ buffer ≤ KERNEL_TOP then
    some (s.addCall (.returned (.error .EINVAL)))
  else
    let ctx := if routine.kernel then 0 else ctx
    (s.context ctx).map fun ioctx =>
      match ioctx.get fd with
      | some f => (s.acquire f).addCall (.operating ctx fd f routine)
      | none => s.addCall (.returned (.error .EBADF))

end

/-- Where a call is behind its operation. -/
def finish (routine : FdRoutine) (f : Nat) (result : Except FdError Int) : FdCall :=
  if routine.put then .putting f result else .returned result

/-- The rest of the operation, `none` if the descriptor has no such operation; `fd_close` calls
`remove_fd`. -/
def operate (s : FdSystem) (i ctx : Nat) (fd : Int) (f : Nat) (routine : FdRoutine) :
    (op : Option Int) → Option FdSystem
  | none => some (s.setCall i (finish routine f (.error routine.noOp)))
  | some retval =>
    if routine.close then
      (s.context ctx).map fun ioctx =>
        match ioctx.remove fd with
        | (some g, ioctx) => (s.setContext ctx (some ioctx)).setCall i (.removing g (some f))
        | (none, _) => s.setCall i (finish routine f (.ok retval))
    else some (s.setCall i (finish routine f (.ok retval)))

def remove_fd (s : FdSystem) (ctx : Nat) (fd : Int) : Option FdSystem :=
  (s.context ctx).map fun ioctx =>
    match ioctx.remove fd with
    | (some g, ioctx) => (s.setContext ctx (some ioctx)).addCall (.removing g none)
    | (none, _) => s

/-- The child has the table of its parent, and the count of a new context. -/
def vfs_new_io_context (s : FdSystem) : (parent_ioctx : Option Nat) → Option FdSystem
  | none =>
    some { s with
      contexts := s.contexts ++ [some ⟨0, List.replicate DEFAULT_FD_TABLE_SIZE none⟩]
      inherited := Function.update s.inherited s.contexts.length 0 }
  | some parent =>
    (s.context parent).map fun ioctx =>
    { s with
      contexts := s.contexts ++ [some ⟨0, ioctx.fds⟩]
      counts := s.counts.acquireAll ioctx.slots
      inherited := Function.update s.inherited s.contexts.length ioctx.slots.length }

def vfs_free_io_context (s : FdSystem) (ctx : Nat) : Option FdSystem :=
  (s.context ctx).map fun ioctx =>
    { s with counts := s.counts.releaseAll ioctx.slots }.setContext ctx none

/-- `go` is the next section of a call; `op` is what its operation returns. -/
inductive FdAction where
  | alloc_fd (ctx : Nat)
  | call (routine : FdRoutine) (ctx : Nat) (buffer : addr) (fd : Int)
  | remove_fd (ctx : Nat) (fd : Int)
  | go (i : Nat) (op : Option Int)
  | vfs_new_io_context (parent_ioctx : Option Nat)
  | vfs_free_io_context (ctx : Nat)

def goOn (s : FdSystem) (i : Nat) (op : Option Int) : FdCall → Option FdSystem
  | .opening ctx f => s.new_fd i ctx f
  | .operating ctx fd f routine => s.operate i ctx fd f routine op
  | .removing g (some f) => some ((s.put_fd g).setCall i (.putting f (.ok 0)))
  | .removing g none => some ((s.put_fd g).setCall i (.returned (.ok 0)))
  | .putting f result => some ((s.put_fd f).setCall i (.returned result))
  | .returned _ => none

/-- A context is freed when no call is left in it, as its process has no thread any more. -/
def step (s : FdSystem) : FdAction → Option FdSystem
  | .alloc_fd ctx => some (s.alloc_fd ctx)
  | .call routine ctx buffer fd =>
    if routine ∈ fdRoutines then s.begin routine ctx buffer fd else none
  | .remove_fd ctx fd => s.remove_fd ctx fd
  | .go i op =>
    match s.calls[i]? with
    | some call => s.goOn i op call
    | none => none
  | .vfs_new_io_context parent_ioctx => s.vfs_new_io_context parent_ioctx
  | .vfs_free_io_context ctx =>
    if ∀ call ∈ s.calls, call.context ≠ some ctx then s.vfs_free_io_context ctx else none

def Step (s : FdSystem) (a : FdAction) (s' : FdSystem) : Prop := s.step a = some s'

def Init (s : FdSystem) : Prop := s.contexts = [] ∧ s.next_fd = 0 ∧ s.calls = []

/-! ## The references to a descriptor -/

def slotRefs (f : Nat) : Option io_context → Nat
  | some ioctx => ioctx.slots.count f
  | none => 0

def callRefs (f : Nat) (call : FdCall) : Nat := call.holds.count f

/-- The slots that hold the descriptor, and the calls that have a reference to it. -/
def references (s : FdSystem) (f : Nat) : Nat :=
  (s.contexts.map (slotRefs f)).sum + (s.calls.map (callRefs f)).sum

end FdSystem

end Kernel
