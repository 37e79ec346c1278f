import OpenBeOS.BFS.Definitions

/-! # The query parser

`Expression` and the part of `Term`, `Equation` and `Operator` that parsing needs. A `char *`
into the query is the rest of the string it points at, without the NUL: the empty list is the
pointer at the NUL. `advance` and `charAt` check that a pointer stays inside the string.

The three parse functions call each other; they count down the depth of these calls, and
`Expression` starts with a depth that the length of the string never exhausts.
-/

namespace BFS

/-- What can go wrong while parsing. -/
inductive Fault where
  /-- A character behind the terminating NUL is read. -/
  | behindNul
  /-- A method of a `NULL` term is called. -/
  | nullTerm
  /-- `complementOp[]` is read outside of its bounds. -/
  | behindArray
  /-- The calls are nested deeper than the depth allows. -/
  | depth
  deriving Repr, DecidableEq

/-- `enum ops`. -/
inductive ops where
  | OP_NONE
  | OP_AND
  | OP_OR
  | OP_EQUATION
  | OP_EQUAL
  | OP_UNEQUAL
  | OP_GREATER_THAN
  | OP_LESS_THAN
  | OP_GREATER_THAN_OR_EQUAL
  | OP_LESS_THAN_OR_EQUAL
  deriving Repr, DecidableEq

open ops

def INODE_FILE_NAME_LENGTH : Nat := 256

/-! ## Pointers into the string -/

/-- `string + n`. -/
def advance (string : List Char) (n : Nat) : Except Fault (List Char) :=
  if n ≤ string.length then .ok (string.drop n) else .error .behindNul

/-- `string[n]`. -/
def charAt (string : List Char) (n : Nat) : Except Fault Char :=
  if n ≤ string.length then .ok (string.getD n '\x00') else .error .behindNul

/-- The characters `skipWhitespace()` skips. -/
def isWhitespace (c : Char) : Bool := c = ' ' || c = '\t'

def skipWhitespace (expr : List Char) (skip : Nat) : Except Fault (List Char) := do
  let string ← advance expr skip
  return string.dropWhile isWhitespace

/-- The characters from `stop` up to where `skipWhitespaceReverse()` ends; it never gives up the
character at `stop`. -/
def skipWhitespaceReverse : List Char → List Char
  | [] => []
  | c :: text => c :: (text.reverse.dropWhile isWhitespace).reverse

/-! ## Patterns -/

/-- `isPattern()`: is there a pattern symbol? -/
def isPattern (string : List Char) : Bool := string.any fun c => c = '*' || c = '?' || c = '['

/-- What `isValidPattern()` returns. -/
inductive PatternStatus where
  | B_OK
  | PATTERN_INVALID_ESCAPE
  | PATTERN_INVALID_RANGE
  | PATTERN_INVALID_SET
  deriving Repr, DecidableEq

mutual

/-- `isValidPattern()`: the outer loop. -/
def isValidPattern : List Char → PatternStatus
  | [] => .B_OK
  | c :: pattern =>
    if c = '\\' then
      match pattern with
      -- the escape character must not be at the end of the pattern
      | [] => .PATTERN_INVALID_ESCAPE
      | _ :: pattern => isValidPattern pattern
    else if c = '[' then
      match pattern with
      | [] => .PATTERN_INVALID_SET
      | d :: pattern =>
        if d = ']' then .PATTERN_INVALID_SET else isValidSet (d :: pattern)
    else isValidPattern pattern

/-- `isValidPattern()`: the loop inside a set. It stops at the closing bracket, which the outer
loop takes for an ordinary character. -/
def isValidSet : List Char → PatternStatus
  | [] => .PATTERN_INVALID_SET
  | c :: pattern =>
    if c = ']' then isValidPattern pattern
    else if c = '\\' then
      match pattern with
      | [] => .PATTERN_INVALID_ESCAPE
      | d :: pattern =>
        if d = '-' && pattern.head? = some '-' then .PATTERN_INVALID_RANGE
        else isValidSet pattern
    else if c = '-' && pattern.head? = some '-' then .PATTERN_INVALID_RANGE
    else isValidSet pattern

end

/-! ## Terms -/

/-- The fields of an `Equation` the constructor fills in; a string is `NULL` or its characters. -/
structure Equation where
  fOp : ops
  fAttribute : Option (List Char)
  fString : Option (List Char)
  fIsPattern : Bool
  fIsSpecialTime : Bool
  deriving Repr, DecidableEq

/-- A `Term *`. -/
inductive Term where
  | null
  | equation (e : Equation)
  | operator (fOp : ops) (fLeft fRight : Term)
  deriving Repr, DecidableEq

/-- `Equation::InitCheck()`. -/
def Equation.InitCheck (equation : Equation) : Status :=
  if equation.fAttribute = none || equation.fString = none || equation.fOp = OP_NONE then
    .B_BAD_VALUE
  else .B_OK

/-- `InitCheck()` of a term that is not `NULL`. -/
def Term.InitCheck : Term → Status
  | null => .B_OK
  | equation e => e.InitCheck
  | operator fOp fLeft fRight =>
    if (fOp ≠ OP_AND && fOp ≠ OP_OR) || fLeft = null || fLeft.InitCheck ≠ .B_OK ||
        fRight = null || fRight.InitCheck ≠ .B_OK then .B_ERROR
    else .B_OK

/-- `complementOp[fOp - OP_EQUAL]`. -/
def complementOp : ops → Except Fault ops
  | OP_EQUAL => .ok OP_UNEQUAL
  | OP_UNEQUAL => .ok OP_EQUAL
  | OP_GREATER_THAN => .ok OP_LESS_THAN_OR_EQUAL
  | OP_LESS_THAN => .ok OP_GREATER_THAN_OR_EQUAL
  | OP_GREATER_THAN_OR_EQUAL => .ok OP_LESS_THAN
  | OP_LESS_THAN_OR_EQUAL => .ok OP_GREATER_THAN
  | _ => .error .behindArray

/-- `Complement()`. -/
def Term.Complement : Term → Except Fault Term
  | null => .error .nullTerm
  | equation e => do
    let fOp ← complementOp e.fOp
    return .equation { e with fOp := fOp }
  | operator fOp fLeft fRight => do
    let fLeft ← fLeft.Complement
    let fRight ← fRight.Complement
    return .operator (if fOp = OP_AND then OP_OR else OP_AND) fLeft fRight

/-! ## The equation -/

/-- The loop of `ParseQuotedString()`: the characters before the closing quote, and the rest that
starts with it; nothing if the NUL comes first. A backslash skips the next character without a
look at it. -/
def quotedLoop (quote : Char) : List Char → Except Fault (Option (List Char × List Char))
  | [] => .ok none
  | c :: string =>
    if c = quote then .ok (some ([], c :: string))
    else if c = '\\' then
      match string with
      -- `end` is at the NUL now, and the loop goes on behind it
      | [] => .error .behindNul
      | d :: string => (quotedLoop quote string).map (Option.map fun r => (c :: d :: r.1, r.2))
    else (quotedLoop quote string).map (Option.map fun r => (c :: r.1, r.2))

/-- `Equation::ParseQuotedString()`: the quoted characters, and the rest that starts with the
closing quote (`end + 1`). -/
def ParseQuotedString (start : List Char) : Except Fault (Option (List Char × List Char)) := do
  let quote ← charAt start 0
  let start ← advance start 1
  quotedLoop quote start

/-- `Equation::CopyString()` of the characters from `start` to `end`. -/
def CopyString (string : List Char) : Option (List Char) :=
  if string.length + 1 > INODE_FILE_NAME_LENGTH then none else some string

def isQuote (c : Char) : Bool := c = '"' || c = '\''

/-- The scan for the equation symbol goes on over these characters. -/
def isAttributeChar (c : Char) : Bool :=
  !(c = '=' || c = '<' || c = '>' || c = '!' || c = '&' || c = '|')

/-- The scan for the end of an unquoted value goes on over these characters. -/
def isValueChar (c : Char) : Bool := !(c = '&' || c = '|' || c = ')')

/-- Where the constructor stands after one of its parts: it has returned with this `*expr`, or it
goes on with a string it has read and with `string`. -/
inductive Parsed (α : Type) where
  | returns (expr : List Char)
  | next (value : α) (string : List Char)
  deriving Repr, DecidableEq

/-- The attribute. -/
def parseAttribute (expr : List Char) : Except Fault (Parsed (List Char)) := do
  if isQuote (← charAt expr 0) then
    match ← ParseQuotedString expr with
    | none => return .returns expr
    | some (attr, quote) =>
      let string ← skipWhitespace quote 1
      let c ← charAt string 0
      if c ≠ '=' && c ≠ '<' && c ≠ '>' && c ≠ '!' then return .returns string
      return .next attr string
  else
    let attr := skipWhitespaceReverse (expr.takeWhile isAttributeChar)
    return .next attr (expr.dropWhile isAttributeChar)

/-- The `switch` over the equation symbol; `string` is at the symbol. -/
def parseSymbol (expr string : List Char) : Except Fault (Parsed ops) := do
  let c ← charAt string 0
  if c = '=' then return .next OP_EQUAL string
  else if c = '>' then
    let fOp := if (← charAt string 1) = '=' then OP_GREATER_THAN_OR_EQUAL else OP_GREATER_THAN
    return .next fOp string
  else if c = '<' then
    let fOp := if (← charAt string 1) = '=' then OP_LESS_THAN_OR_EQUAL else OP_LESS_THAN
    return .next fOp string
  else if c = '!' then
    if (← charAt string 1) ≠ '=' then return .returns expr
    return .next OP_UNEQUAL string
  else return .returns string

/-- `string` at the first character behind the symbol and white space. -/
def skipSymbol (string : List Char) : Except Fault (List Char) := do
  let string ← if (← charAt string 1) = '=' then advance string 1 else pure string
  let string ← advance string 1
  skipWhitespace string 0

/-- The value. -/
def parseValue (expr string : List Char) : Except Fault (Parsed (List Char)) := do
  if isQuote (← charAt string 0) then
    match ← ParseQuotedString string with
    | none => return .returns expr
    | some (value, quote) =>
      let string ← skipWhitespace quote 1
      return .next value string
  else
    let value := skipWhitespaceReverse (string.takeWhile isValueChar)
    return .next value (string.dropWhile isValueChar)

/-- The check of the value string: `fIsPattern`, and `fString`, which is `NULL` for a pattern that
is not valid. -/
def checkPattern (fOp : ops) (value : List Char) : Bool × Option (List Char) :=
  if fOp = OP_EQUAL ∨ fOp = OP_UNEQUAL then
    if isPattern value ∧ isValidPattern value ≠ .B_OK then (isPattern value, none)
    else (isPattern value, some value)
  else (false, some value)

/-- The rest of the constructor, from the value on; `fAttribute` and the symbol are read. -/
def equationValue (fOp : ops) (fAttribute expr string : List Char) :
    Except Fault (Equation × List Char) := do
  match ← parseValue expr string with
  | .returns expr => return (⟨fOp, some fAttribute, none, false, false⟩, expr)
  | .next value string =>
    match CopyString value with
    | none => return (⟨fOp, some fAttribute, none, false, false⟩, expr)
    | some fString =>
      let p := checkPattern fOp fString
      let fIsSpecialTime : Bool := fAttribute = "last_modified".toList
      return (⟨fOp, some fAttribute, p.2, p.1, fIsSpecialTime⟩, string)

/-- `new Equation(expr)`: the equation and the new `*expr`. -/
def newEquation (expr : List Char) : Except Fault (Equation × List Char) := do
  let equation : Equation := ⟨OP_EQUATION, none, none, false, false⟩
  match ← parseAttribute expr with
  | .returns expr => return (equation, expr)
  | .next attr string =>
    -- attribute string is empty (which is not allowed)
    if attr = [] then return (equation, expr)
    match ← parseSymbol expr string with
    | .returns expr => return (equation, expr)
    | .next fOp string =>
      let string ← skipSymbol string
      match CopyString attr with
      | none => return (⟨fOp, none, none, false, false⟩, expr)
      | some fAttribute => equationValue fOp fAttribute expr string

/-! ## The expression -/

/-- `Expression::IsOperator()`: the rest behind the operator. -/
def IsOperator (expr : List Char) (op : Char) : Except Fault (Option (List Char)) := do
  if (← charAt expr 0) = op then
    if (← charAt expr 1) = op then
      let string ← advance expr 2
      return some string
  return none

/-- The end of a group in `ParseEquation()`, behind the call of `ParseOr()`. -/
def closeGroup (not : Bool) (term : Term) (expr : List Char) : Except Fault (Term × List Char) := do
  let expr ← skipWhitespace expr 0
  if (← charAt expr 0) ≠ ')' then return (.null, expr)
  -- if the term is negated, we just complement the tree (De Morgan's law)
  let term ← if not then term.Complement else pure term
  let expr ← skipWhitespace expr 1
  return (term, expr)

/-- The part of `ParseEquation()` that makes an equation. -/
def equationTerm (expr : List Char) : Except Fault (Term × List Char) := do
  let (equation, expr) ← newEquation expr
  if equation.InitCheck ≠ .B_OK then return (.null, expr)
  return (.equation equation, expr)

mutual

/-- `Expression::ParseEquation()`. -/
def ParseEquation : Nat → List Char → Except Fault (Term × List Char)
  | 0, _ => .error .depth
  | depth + 1, expr => do
    let expr ← skipWhitespace expr 0
    let not : Bool := (← charAt expr 0) = '!'
    let expr ← if not then skipWhitespace expr 1 else pure expr
    let c ← charAt expr 0
    if not && c ≠ '(' then return (.null, expr)
    if c = ')' then return (.null, expr)
    else if c = '(' then
      let expr ← skipWhitespace expr 1
      let (term, expr) ← ParseOr depth expr
      closeGroup not term expr
    else equationTerm expr

/-- `Expression::ParseAnd()`. -/
def ParseAnd : Nat → List Char → Except Fault (Term × List Char)
  | 0, _ => .error .depth
  | depth + 1, expr => do
    let (left, expr) ← ParseEquation depth expr
    if left = .null then return (.null, expr)
    andLoop depth left expr

/-- The loop of `ParseAnd()`. -/
def andLoop : Nat → Term → List Char → Except Fault (Term × List Char)
  | 0, _, _ => .error .depth
  | depth + 1, left, expr => do
    match ← IsOperator expr '&' with
    | none => return (left, expr)
    | some expr =>
      let (right, expr) ← ParseAnd depth expr
      if right = .null then return (.null, expr)
      andLoop depth (.operator OP_AND left right) expr

/-- `Expression::ParseOr()`. -/
def ParseOr : Nat → List Char → Except Fault (Term × List Char)
  | 0, _ => .error .depth
  | depth + 1, expr => do
    let (left, expr) ← ParseAnd depth expr
    if left = .null then return (.null, expr)
    orLoop depth left expr

/-- The loop of `ParseOr()`. -/
def orLoop : Nat → Term → List Char → Except Fault (Term × List Char)
  | 0, _, _ => .error .depth
  | depth + 1, left, expr => do
    match ← IsOperator expr '|' with
    | none => return (left, expr)
    | some expr =>
      let (right, expr) ← ParseAnd depth expr
      if right = .null then return (.null, expr)
      orLoop depth (.operator OP_OR left right) expr

end

/-- A depth that parsing a string of this length does not exhaust. -/
def parseDepth (expr : List Char) : Nat := 4 * expr.length + 4

/-- `Expression::Expression()`: `fTerm` and `fPosition`. -/
def Expression (expr : List Char) : Except Fault (Term × List Char) := do
  let (fTerm, fPosition) ← ParseOr (parseDepth expr) expr
  if fTerm ≠ .null && fTerm.InitCheck ≠ .B_OK then return (.null, fPosition)
  return (fTerm, fPosition)

end BFS
