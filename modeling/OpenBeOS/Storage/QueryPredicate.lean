import Mathlib

/-! # The predicate stack of a query

`QueryPredicate.cpp` and the push functions of `BQuery`. The nodes wait on a stack, an operator on
top of its operands; `ConvertToTree` takes the stack apart and gives every node its children, and
`GetString` renders the tree. A string is the list of its characters, without the NUL; memory is
available. `none` is an error, which is always `B_BAD_VALUE`.

Dates and floating point numbers are left out.
-/

namespace StorageKit

/-- `query_op`. -/
inductive query_op where
  | B_INVALID_OP
  | B_EQ
  | B_GT
  | B_GE
  | B_LT
  | B_LE
  | B_NE
  | B_CONTAINS
  | B_BEGINS_WITH
  | B_ENDS_WITH
  | B_AND
  | B_OR
  | B_NOT
  | _B_RESERVED_OP_
  deriving Repr, DecidableEq

open query_op

/-! ## Nodes -/

/-- A `QueryNode *`. The `ValueNode` stands for the four types of integers. -/
inductive QueryNode where
  | NULL
  | AttributeNode (fAttribute : List Char)
  | StringNode (fValue : List Char)
  | ValueNode (fValue : Int)
  | SpecialOpNode (fOp : query_op)
  | UnaryOpNode (fOp : query_op) (fChild : QueryNode)
  | BinaryOpNode (fOp : query_op) (fChild1 fChild2 : QueryNode)
  deriving Repr, DecidableEq

namespace QueryNode

/-- The letters of a string whose case does not matter are sets, of the lower and the upper case. -/
def foldCase (value : List Char) : List Char :=
  value.flatMap fun c => if c.isAlpha then ['[', c.toLower, c.toUpper, ']'] else [c]

/-- `new StringNode()`. -/
def newStringNode (value : List Char) (caseInsensitive : Bool) : QueryNode :=
  StringNode (if caseInsensitive then foldCase value else value)

def Arity : QueryNode → Nat
  | UnaryOpNode .. => 1
  | BinaryOpNode .. => 2
  | _ => 0

def SetChildAt (child : QueryNode) : QueryNode → Nat → Option QueryNode
  | UnaryOpNode fOp _, 0 => some (UnaryOpNode fOp child)
  | BinaryOpNode fOp _ fChild2, 0 => some (BinaryOpNode fOp child fChild2)
  | BinaryOpNode fOp fChild1 _, 1 => some (BinaryOpNode fOp fChild1 child)
  | _, _ => none

/-! ## The predicate -/

/-- The characters `CharacterEscape()` is told to escape. -/
def isEscaped (c : Char) : Bool := c = '"' || c = '\\' || c = '\''

/-- `CharacterEscape("\"\\'", '\\')`. -/
def CharacterEscape (string : List Char) : List Char :=
  string.flatMap fun c => if isEscaped c then ['\\', c] else [c]

/-- `StringNode::GetString()`. -/
def quote (fValue : List Char) : List Char := '"' :: (CharacterEscape fValue ++ ['"'])

/-- A number in a `BString`. -/
def decimal : Int → List Char
  | .ofNat n => Nat.toDigits 10 n
  | .negSucc n => '-' :: Nat.toDigits 10 (n + 1)

/-- Two strings in parentheses, with the text of an operator between them. -/
def parenthesize (childString1 op childString2 : List Char) : List Char :=
  '(' :: (childString1 ++ (op ++ (childString2 ++ [')'])))

/-- The second operand of the operators with wildcards; only a `StringNode` gets them. -/
def wildcards (before after childString2 : List Char) : QueryNode → List Char
  | StringNode fValue => quote (before ++ (fValue ++ after))
  | _ => childString2

/-- The `switch` of `BinaryOpNode::GetString()`. -/
def binaryString (fChild2 : QueryNode) (childString1 childString2 : List Char) :
    query_op → Option (List Char)
  | B_EQ => some (parenthesize childString1 ['=', '='] childString2)
  | B_GT => some (parenthesize childString1 ['>'] childString2)
  | B_GE => some (parenthesize childString1 ['>', '='] childString2)
  | B_LT => some (parenthesize childString1 ['<'] childString2)
  | B_LE => some (parenthesize childString1 ['<', '='] childString2)
  | B_NE => some (parenthesize childString1 ['!', '='] childString2)
  | B_CONTAINS =>
    some (parenthesize childString1 ['=', '='] (wildcards ['*'] ['*'] childString2 fChild2))
  | B_BEGINS_WITH =>
    some (parenthesize childString1 ['=', '='] (wildcards [] ['*'] childString2 fChild2))
  | B_ENDS_WITH =>
    some (parenthesize childString1 ['=', '='] (wildcards ['*'] [] childString2 fChild2))
  | B_AND => some (parenthesize childString1 ['&', '&'] childString2)
  | B_OR => some (parenthesize childString1 ['|', '|'] childString2)
  | _ => none

def GetString : QueryNode → Option (List Char)
  | NULL => none
  | AttributeNode fAttribute => some fAttribute
  | StringNode fValue => some (quote fValue)
  | ValueNode fValue => some (decimal fValue)
  | SpecialOpNode _ => none
  | UnaryOpNode fOp fChild => do
    let childString ← fChild.GetString
    if fOp = B_NOT then some ('(' :: '!' :: (childString ++ [')'])) else none
  | BinaryOpNode fOp fChild1 fChild2 => do
    let childString1 ← fChild1.GetString
    let childString2 ← fChild2.GetString
    binaryString fChild2 childString1 childString2 fOp

end QueryNode

open QueryNode

/-! ## The stack

The list starts with the last item, which is the next one to be popped. -/

def PopNode : List QueryNode → Option (QueryNode × List QueryNode)
  | [] => none
  | node :: fNodes => some (node, fNodes)

/-- The loop of `_GetSubTree()`: the children below `i`, from the last to the first. -/
def childLoop (getSubTree : List QueryNode → Option (QueryNode × List QueryNode))
    (node : QueryNode) : Nat → List QueryNode → Option (QueryNode × List QueryNode)
  | 0, fNodes => some (node, fNodes)
  | i + 1, fNodes => do
    let (child, fNodes) ← getSubTree fNodes
    let node ← SetChildAt child node i
    childLoop getSubTree node i fNodes

/-- `_GetSubTree()`. Every call pops a node: `depth` calls inside of each other suffice for a stack
of `depth` nodes less one. -/
def _GetSubTree : Nat → List QueryNode → Option (QueryNode × List QueryNode)
  | 0, _ => none
  | depth + 1, fNodes => do
    let (node, fNodes) ← PopNode fNodes
    childLoop (_GetSubTree depth) node node.Arity fNodes

/-- `ConvertToTree()`: no node may be left. -/
def ConvertToTree (fNodes : List QueryNode) : Option QueryNode := do
  let (rootNode, fNodes) ← _GetSubTree (fNodes.length + 1) fNodes
  if fNodes.isEmpty then some rootNode else none

/-- The calls that push. -/
inductive Push where
  | PushAttr (attrName : List Char)
  | PushUInt32 (value : UInt32)
  | PushInt32 (value : Int32)
  | PushUInt64 (value : UInt64)
  | PushInt64 (value : Int64)
  | PushString (value : List Char) (caseInsensitive : Bool)
  | PushOp (op : query_op)

/-- `BQuery::PushOp()`: the node for an operator. -/
def newOpNode : query_op → QueryNode
  | B_NOT => UnaryOpNode B_NOT NULL
  | B_INVALID_OP => SpecialOpNode B_INVALID_OP
  | _B_RESERVED_OP_ => SpecialOpNode _B_RESERVED_OP_
  | op => BinaryOpNode op NULL NULL

/-- The node a call pushes. -/
def Push.node : Push → QueryNode
  | PushAttr attrName => AttributeNode attrName
  | PushUInt32 value => ValueNode value.toNat
  | PushInt32 value => ValueNode value.toInt
  | PushUInt64 value => ValueNode value.toNat
  | PushInt64 value => ValueNode value.toInt
  | PushString value caseInsensitive => newStringNode value caseInsensitive
  | PushOp op => newOpNode op

/-- The stack after calls. -/
def stack (calls : List Push) : List QueryNode := (calls.map Push.node).reverse

/-- `GetPredicate()` after calls, with `_EvaluateStack()`. -/
def GetPredicate (calls : List Push) : Option (List Char) := do
  let node ← ConvertToTree (stack calls)
  node.GetString

/-! ## Pushed trees -/

/-- The characters of the names. -/
def isNameChar (c : Char) : Bool := c.isAlphanum || c = ':' || c = '_'

/-- An attribute name. -/
def AttrName : Type := {attrName : List Char // attrName ≠ [] ∧ ∀ c ∈ attrName, isNameChar c = true}

/-- A value that is compared with. -/
inductive Value where
  | uint32 (value : UInt32)
  | int32 (value : Int32)
  | uint64 (value : UInt64)
  | int64 (value : Int64)
  | string (value : List Char) (caseInsensitive : Bool)

/-- The operators between an attribute and a value. -/
def query_op.Compares (op : query_op) : Prop :=
  op ∈ [B_EQ, B_GT, B_GE, B_LT, B_LE, B_NE, B_CONTAINS, B_BEGINS_WITH, B_ENDS_WITH]

instance (op : query_op) : Decidable op.Compares := inferInstanceAs (Decidable (_ ∈ _))

/-- An attribute, a value and an operator between them. -/
structure Condition where
  attrName : AttrName
  value : Value
  op : query_op
  compares : op.Compares

/-- A well-formed predicate. -/
inductive Predicate where
  | condition (c : Condition)
  | not (p : Predicate)
  | and (p q : Predicate)
  | or (p q : Predicate)

def Value.push : Value → Push
  | uint32 value => .PushUInt32 value
  | int32 value => .PushInt32 value
  | uint64 value => .PushUInt64 value
  | int64 value => .PushInt64 value
  | string value caseInsensitive => .PushString value caseInsensitive

/-- The calls for a predicate: the operands, and then the operator. -/
def Predicate.calls : Predicate → List Push
  | condition c => [.PushAttr c.attrName.val, c.value.push, .PushOp c.op]
  | not p => p.calls ++ [.PushOp B_NOT]
  | and p q => p.calls ++ q.calls ++ [.PushOp B_AND]
  | or p q => p.calls ++ q.calls ++ [.PushOp B_OR]

/-- The tree for a predicate. -/
def Predicate.tree : Predicate → QueryNode
  | condition c => BinaryOpNode c.op (AttributeNode c.attrName.val) c.value.push.node
  | not p => UnaryOpNode B_NOT p.tree
  | and p q => BinaryOpNode B_AND p.tree q.tree
  | or p q => BinaryOpNode B_OR p.tree q.tree

/-! ## The stack yields the tree -/

@[simp] theorem stack_append (calls calls' : List Push) :
    stack (calls ++ calls') = stack calls' ++ stack calls := by
  simp [stack]

@[simp] theorem stack_singleton (call : Push) : stack [call] = [call.node] := rfl

theorem Value.arity (value : Value) : value.push.node.Arity = 0 := by
  cases value <;> rfl

variable {op : query_op}

theorem query_op.Compares.node (h : op.Compares) : newOpNode op = BinaryOpNode op NULL NULL := by
  revert h
  cases op <;> simp [query_op.Compares, newOpNode]

theorem getSubTree_leaf {node : QueryNode} (h : node.Arity = 0) (depth : Nat)
    (fNodes : List QueryNode) : _GetSubTree (depth + 1) (node :: fNodes) = some (node, fNodes) := by
  show childLoop (_GetSubTree depth) node node.Arity fNodes = _
  rw [h]
  rfl

theorem getSubTree_binary {depth : Nat} {fChild1 fChild2 : QueryNode}
    {fNodes fNodes' fNodes'' : List QueryNode}
    (h2 : _GetSubTree depth fNodes = some (fChild2, fNodes'))
    (h1 : _GetSubTree depth fNodes' = some (fChild1, fNodes'')) :
    _GetSubTree (depth + 1) (BinaryOpNode op NULL NULL :: fNodes) =
      some (BinaryOpNode op fChild1 fChild2, fNodes'') := by
  show childLoop (_GetSubTree depth) (BinaryOpNode op NULL NULL) 2 fNodes = _
  simp only [childLoop, h2, h1, SetChildAt, Option.bind_eq_bind, Option.bind_some]

theorem getSubTree_unary {depth : Nat} {fChild : QueryNode}
    {fNodes fNodes' : List QueryNode} (h : _GetSubTree depth fNodes = some (fChild, fNodes')) :
    _GetSubTree (depth + 1) (UnaryOpNode op NULL :: fNodes) =
      some (UnaryOpNode op fChild, fNodes') := by
  show childLoop (_GetSubTree depth) (UnaryOpNode op NULL) 1 fNodes = _
  simp only [childLoop, h, SetChildAt, Option.bind_eq_bind, Option.bind_some]

/-- On the nodes of a predicate `_GetSubTree()` yields its tree and leaves the nodes below. -/
theorem getSubTree_calls (p : Predicate) : ∀ (depth : Nat) (fNodes : List QueryNode),
    (stack p.calls).length < depth →
      _GetSubTree depth (stack p.calls ++ fNodes) = some (p.tree, fNodes) := by
  induction p with
  | condition c =>
    intro depth fNodes hdepth
    have hlength : (stack (Predicate.condition c).calls).length = 3 := rfl
    obtain ⟨depth, rfl⟩ : ∃ d, depth = d + 2 := ⟨depth - 2, by omega⟩
    show _GetSubTree (depth + 2) (newOpNode c.op :: c.value.push.node :: _ :: fNodes) = _
    rw [c.compares.node]
    exact getSubTree_binary (getSubTree_leaf c.value.arity _ _) (getSubTree_leaf rfl _ _)
  | not p ih =>
    intro depth fNodes hdepth
    simp only [Predicate.calls, stack_append, stack_singleton, List.length_append,
      List.length_singleton] at hdepth ⊢
    obtain ⟨depth, rfl⟩ : ∃ d, depth = d + 1 := ⟨depth - 1, by omega⟩
    exact getSubTree_unary (ih depth fNodes (by omega))
  | and p q ihp ihq | or p q ihp ihq =>
    intro depth fNodes hdepth
    simp only [Predicate.calls, stack_append, stack_singleton, List.length_append,
      List.length_singleton, List.append_assoc] at hdepth ⊢
    obtain ⟨depth, rfl⟩ : ∃ d, depth = d + 1 := ⟨depth - 1, by omega⟩
    exact getSubTree_binary (ihq depth _ (by omega)) (ihp depth fNodes (by omega))

theorem convertToTree_calls (p : Predicate) : ConvertToTree (stack p.calls) = some p.tree := by
  have h := getSubTree_calls p ((stack p.calls).length + 1) [] (Nat.lt_succ_self _)
  rw [List.append_nil] at h
  rw [ConvertToTree, h]
  rfl

end StorageKit
