import OpenBeOS.Lib.Chain

/-! # Kernel modules

The tables of loaded files and of known modules of `module.c`, and the functions that change them. An
element of a table is linked by `khash.c` and by `insque`, and `next` of both structures is the first
word: for the hash table it is the pointer to the next element of a bucket, for `insque` the pointer
to the next one of a circular list. A call that follows a null pointer, or does not end, has no
result.
-/

namespace Kernel

open Chain Function

/-- A string without its end. -/
abbrev Str := List (BitVec 8)

/-! ## Elements in a hash table and in a circular list -/

/-- The head of the circular list, or the element that was allocated as number `n`. -/
inductive Node where
  | head
  | elem (n : Nat)
  deriving DecidableEq

/-- The words of the elements, `next` being shared, and the buckets of the hash table. The head of the
list has no string. -/
structure Table where
  next : Node → Option Node
  prev : Node → Option Node
  buckets : Nat → Option Node
  key : Nat → Str
  made : Nat

def MODULES_HASH_SIZE : Nat := 16

/-- A `char` has a sign. -/
def hash_hash_str (str : Str) : BitVec 32 :=
  str.foldl (fun hash ch => ((hash ^^^ (hash >>> 28)) <<< 4) ^^^ ch.signExtend 32) 0

def bucket (str : Str) : Nat := (hash_hash_str str).toNat % MODULES_HASH_SIZE

namespace Table

section

variable (t : Table)

/-- A new element, with its string. -/
def create (str : Str) : Table :=
  { t with key := update t.key t.made str, made := t.made + 1 }

def insque (n : Nat) : Option Table :=
  (t.next .head).map fun link =>
    { t with
      next := update (update t.next (.elem n) (some link)) .head (some (.elem n))
      prev := update (update t.prev (.elem n) (some .head)) link
        (some (.elem n)) }

def remque (n : Nat) : Option Table :=
  (t.next (.elem n)).bind fun link => (t.prev (.elem n)).map fun rlink =>
    { t with
      next := update t.next rlink (some link)
      prev := update (update t.prev link (some rlink)) (.elem n) none }

def hash_insert (n : Nat) : Table :=
  { t with
    next := update t.next (.elem n) (t.buckets (bucket (t.key n)))
    buckets := update t.buckets (bucket (t.key n)) (some (.elem n)) }

/-- The loop passes at most the elements and the head, or does not end. -/
def hash_remove (n : Nat) : Option Table :=
  (walk t.next (fun i => i = .elem n) (t.made + 2) none (t.buckets (bucket (t.key n)))).map fun
    | (_, none) => t
    | (some last_i, some _) => { t with next := update t.next last_i (t.next (.elem n)) }
    | (none, some _) => { t with buckets := update t.buckets (bucket (t.key n)) (t.next (.elem n)) }

/-- The loop of `hash_lookup`. The compare function gives the null pointer of the head to `strcmp`. -/
def lookupFrom (t : Table) (str : Str) : Nat → Option Node → Option (Option Nat)
  | 0, _ => none
  | _ + 1, none => some none
  | _ + 1, some .head => none
  | fuel + 1, some (.elem n) =>
    if t.key n = str then some (some n) else t.lookupFrom str fuel (t.next (.elem n))

def hash_lookup (str : Str) : Option (Option Nat) :=
  t.lookupFrom str (t.made + 2) (t.buckets (bucket str))

end

/-- The empty table, and the empty list. -/
def empty (key : Nat → Str) : Table where
  next := fun i => if i = .head then some .head else none
  prev := fun i => if i = .head then some .head else none
  buckets := fun _ => none
  key := key
  made := 0

end Table

/-! ## Files and modules -/

inductive module_state where
  | MOD_QUERIED
  | MOD_LOADED
  | MOD_INIT
  | MOD_RDY
  | MOD_UNINIT
  | MOD_ERROR
  deriving DecidableEq

inductive ModuleError where
  | ENOENT
  | ENOMEM
  | EINVAL
  | EALREADY
  | ERR_GENERAL
  /-- What `std_ops` returns. -/
  | std_ops (err : Int)
  deriving DecidableEq

inductive StdOp where
  | B_MODULE_INIT
  | B_MODULE_UNINIT
  deriving DecidableEq

/-- What loading a file comes to: the image, the memory for the `loaded_module`, and the symbol
`modules` in the image. -/
structure Loading where
  image : Bool
  memory : Bool
  modules : Bool

def Loading.ok (loading : Loading) : Bool := loading.image && loading.memory && loading.modules

/-- The tables and the fields of their elements. `loaded` has the files that were loaded and not
unloaded, `gets` the number of successful calls of `get_module` for each module that no `put_module`
has followed, `ops` the calls of `std_ops`, and `modules_lock` how often the lock is held. -/
structure Modules where
  files : Table
  known : Table
  file_ref_cnt : Nat → Int
  file : Nat → Str
  ref_cnt : Nat → Int
  state : Nat → module_state
  keep_loaded : Nat → Bool
  module_file : Nat → Option Nat
  loaded : List Nat
  gets : Nat → Nat
  ops : List (Nat × StdOp)
  modules_lock : Nat

namespace Modules

section

variable (s : Modules)

def load_module_file (path : Str) (loading : Loading) : Option Modules :=
  if loading.ok then
    (((s.files.create path).hash_insert s.files.made).insque s.files.made).map fun files =>
      { s with
        files
        file_ref_cnt := update s.file_ref_cnt s.files.made 0
        loaded := s.files.made :: s.loaded }
  else some s

def unload_module_file (path : Str) : Option Modules :=
  (s.files.hash_lookup path).bind fun
    | none => some s
    | some n =>
      if s.file_ref_cnt n ≠ 0 then some s
      else (s.files.remque n).bind fun files => (files.hash_remove n).map fun files =>
      { s with files, loaded := s.loaded.erase n }

/-- `ref_cnt`, and `keep_loaded` of a module without the flag, are what was in the memory. -/
def simple_module_info (name : Str) (keep : Bool) (file : Str) (memory : Bool) :
    Option (Modules × Except ModuleError Unit) :=
  (s.known.hash_lookup name).bind fun
    | some _ => some (s, .error .EALREADY)
    | none =>
      if memory then
        ((s.known.create name).insque s.known.made).map fun known =>
          ({ s with
            known := known.hash_insert s.known.made
            file := update s.file s.known.made file
            state := update s.state s.known.made .MOD_QUERIED
            keep_loaded :=
              if keep then update s.keep_loaded s.known.made true else s.keep_loaded
            module_file := update s.module_file s.known.made none }, .ok ())
      else some (s, .error .ENOMEM)

def setState (m : Nat) (state : module_state) : Modules :=
  { s with state := update s.state m state }

def logOp (m : Nat) (op : StdOp) : Modules := { s with ops := s.ops ++ [(m, op)] }

/-- `res` is what `std_ops` returns. -/
def init_module (m : Nat) (res : Int) : Modules × Except ModuleError Unit :=
  match s.state m with
  | .MOD_QUERIED | .MOD_LOADED =>
    let s := s.logOp m .B_MODULE_INIT
    if res = 0 then (s.setState m .MOD_RDY, .ok ())
    else (s.setState m .MOD_LOADED, .error (.std_ops res))
  | .MOD_RDY => (s, .ok ())
  | .MOD_INIT | .MOD_UNINIT | .MOD_ERROR => (s, .error .ERR_GENERAL)

/-- Uninitialising a module in the middle of it is a panic. -/
def uninit_module (m : Nat) (res : Int) : Option Modules :=
  match s.state m with
  | .MOD_QUERIED | .MOD_LOADED => some s
  | .MOD_INIT | .MOD_UNINIT => none
  | .MOD_RDY =>
    let s := s.logOp m .B_MODULE_UNINIT
    some (if res = 0 then s.setState m .MOD_LOADED
      else
        { s.setState m .MOD_ERROR with keep_loaded := update s.keep_loaded m true })
  | .MOD_ERROR => some s

/-- The macros `INC_MOD_REF_COUNT` and `DEC_MOD_REF_COUNT`. -/
def addRefs (m file : Nat) (n : Int) : Modules :=
  { s with
    ref_cnt := update s.ref_cnt m (s.ref_cnt m + n)
    file_ref_cnt := update s.file_ref_cnt file (s.file_ref_cnt file + n) }

/-- `get_module` finds the file in `module_files`, or loads it. -/
def find_file (path : Str) (loading : Loading) : Option (Modules × Option Nat) :=
  (s.files.hash_lookup path).bind fun
    | some lm => some (s, some lm)
    | none =>
      (s.load_module_file path loading).bind fun s =>
      (s.files.hash_lookup path).map fun lm => (s, lm)

/-- `get_module` with the file of the module, up to the release of the lock. -/
def take (m file : Nat) : Modules :=
  { s.addRefs m file 1 with
    module_file := update s.module_file m (some file)
    modules_lock := s.modules_lock - 1 }

end

/-- A successful get is counted. -/
def handOut (m : Nat) : Modules × Except ModuleError Unit → Modules × Except ModuleError Unit
  | (s, .ok ()) => ({ s with gets := update s.gets m (s.gets m + 1) }, .ok ())
  | (s, .error err) => (s, .error err)

/-- `get_module` behind `search_module`, which is a number of calls of `load_module_file`,
`simple_module_info` and `unload_module_file`. -/
def get_module (s : Modules) (name : Str) (loading : Loading) (res : Int) :
    Option (Modules × Except ModuleError Unit) :=
  (s.known.hash_lookup name).bind fun
    | none => some (s, .error .ENOENT)
    | some m =>
      (find_file { s with modules_lock := s.modules_lock + 1 } (s.file m) loading).map fun
        -- the lock is kept
        | (s, none) => (s, .error .ENOENT)
        | (s, some lm) => handOut m ((s.take m lm).init_module m res)

def put_module (s : Modules) (name : Str) (res : Int) :
    Option (Modules × Except ModuleError Unit) :=
  (s.known.hash_lookup name).bind fun
    | none => some (s, .error .EINVAL)
    | some m =>
      (s.module_file m).bind fun lm =>
      let s := { s.addRefs m lm (-1) with gets := update s.gets m (s.gets m - 1) }
      if s.ref_cnt m = 0 ∧ s.keep_loaded m = false then
        (s.uninit_module m res).bind fun s =>
          (s.unload_module_file (s.file m)).map fun s => (s, .ok ())
      else some (s, .ok ())

/-! ## The calls -/

/-- A call, with what the loader, `kmalloc` and `std_ops` answer. -/
inductive ModuleAction where
  | load_module_file (path : Str) (loading : Loading)
  | unload_module_file (path : Str)
  | simple_module_info (name : Str) (keep : Bool) (file : Str) (memory : Bool)
  | get_module (name : Str) (loading : Loading) (res : Int)
  | put_module (name : Str) (res : Int)

/-- `put_module` follows a successful `get_module` for the same name. -/
def step (s : Modules) : ModuleAction → Option Modules
  | .load_module_file path loading => s.load_module_file path loading
  | .unload_module_file path => s.unload_module_file path
  | .simple_module_info name keep file memory =>
    (s.simple_module_info name keep file memory).map Prod.fst
  | .get_module name loading res => (s.get_module name loading res).map Prod.fst
  | .put_module name res =>
    if ∃ m < s.known.made, s.known.key m = name ∧ 0 < s.gets m then
      (s.put_module name res).map Prod.fst
    else none

def Step (s : Modules) (a : ModuleAction) (s' : Modules) : Prop := s.step a = some s'

/-- What `module_init` sets up; the memory is what it was. -/
def Init (s : Modules) : Prop :=
  (∃ path name, s.files = .empty path ∧ s.known = .empty name) ∧ s.loaded = [] ∧
    (∀ m, s.gets m = 0) ∧ s.ops = [] ∧ s.modules_lock = 0

end Modules

end Kernel
