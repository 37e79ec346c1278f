import OpenBeOS.BFS.CompareKeys
import OpenBeOS.BFS.MatchString
import OpenBeOS.BFS.QueryGrammar

/-! # Matching a query term

`Match()`, `Complement()` and `Score()` of equations and operators. An equation keeps the value it
was last converted to, so `Match()` also returns the changed term. The conversions of the C library
(`strtol()` and the like) are a parameter: the bytes of the number they get from a string.
-/

namespace BFS.Query

open ops

/-! ## Types and values -/

/-- A `type_code`; 0 is the one of an equation that was not converted yet. -/
inductive type_code where
  | zero
  | B_MIME_STRING_TYPE
  | key (type : KeyType)
  | other (code : Nat)
  deriving DecidableEq

/-- `B_STRING_TYPE`. -/
abbrev B_STRING_TYPE : type_code := .key .STRING_TYPE

/-- `B_INT64_TYPE`. -/
abbrev B_INT64_TYPE : type_code := .key .INT64_TYPE

/-- `compareKeys()`, for any type code. -/
def compareTyped (type : type_code) (key1 key2 : Key) : Int :=
  match type with
  | .key type => compareKeys type key1 key2
  | _ => 0

def INODE_TIME_SHIFT : Nat := 16

/-- The bytes of an `int64`. -/
def int64Bytes (v : Int) : Key :=
  (List.range 8).map fun i => UInt8.ofNat ((v % 2 ^ 64).toNat / 256 ^ i)

/-- The `int64` at a place, and 0 for what is not there. -/
def readInt64 (value : Key) : Int := signed (2 ^ 63) (keyNat 8 value)

/-! ## Equations -/

/-- An `Equation`; the bytes of `fValue` in use are `fSize` many. -/
structure Equation where
  fOp : ops
  fAttribute : Key
  fString : Key
  fValue : Key
  fType : type_code
  fIsPattern : Bool
  fIsSpecialTime : Bool
  fScore : Int
  deriving DecidableEq

/-- What `Match()` returns. -/
inductive MatchResult where
  | NO_MATCH
  | MATCH_OK
  | error (status : Status)
  deriving DecidableEq

open MatchResult

/-- The C string in a buffer. -/
def cString (value : Key) : Key := value.takeWhile (· ≠ 0)

section

variable (strto : KeyType → Key → Key)

/-- The value of a string for a type, if there is a conversion. -/
def convert (string : Key) : type_code → Option Key
  | .B_MIME_STRING_TYPE => some (string.take (INODE_FILE_NAME_LENGTH - 1))
  | .key .STRING_TYPE => some (string.take (INODE_FILE_NAME_LENGTH - 1))
  | .key type => some (strto type string)
  | _ => none

/-- `Equation::ConvertValue()`. -/
def Equation.ConvertValue (e : Equation) (type : type_code) : Status × Equation :=
  -- has the type already been converted?
  if type = e.fType then (.B_OK, e)
  else
    match convert strto e.fString type with
    | none => (.B_ERROR, { e with fType := type })
    | some value => (.B_OK, { e with
        fType := type
        fValue := value
        -- patterns are only allowed for string types
        fIsPattern := e.fIsPattern && decide (type = B_STRING_TYPE) })

/-- The number by which `CompareTo()` decides. -/
def Equation.compare (e : Equation) (value : Key) : Int :=
  if e.fIsPattern then
    if matchString e.fValue (cString value) = .ok .MATCH_OK then 0 else 1
  else if e.fIsSpecialTime then
    -- the index is a shifted int64 index, but we have to match against an unshifted value
    compareTyped e.fType (int64Bytes (readInt64 value >>> INODE_TIME_SHIFT))
      ((e.fValue ++ List.replicate 8 0).take 8)
  else compareTyped e.fType value e.fValue

/-- `Equation::CompareTo()`. -/
def Equation.CompareTo (e : Equation) (value : Key) : Bool := e.fOp.holds (e.compare value)

/-- The comparison with a value, at the bottom of `Match()`. -/
def Equation.matchValue (e : Equation) (type : type_code) (value : Equation → Key) :
    MatchResult × Equation :=
  match e.ConvertValue strto type with
  | (.B_OK, e) => (if e.CompareTo (value e) then MATCH_OK else NO_MATCH, e)
  | (status, e) => (error status, e)

/-- `Equation::MatchEmptyString()`; the empty string is compared with the size of the value. -/
def Equation.MatchEmptyString (e : Equation) : MatchResult × Equation :=
  if e.fType ≠ .zero ∧ e.fType ≠ B_STRING_TYPE then (NO_MATCH, e)
  else e.matchValue strto B_STRING_TYPE fun e => List.replicate e.fValue.length 0

/-- An attribute, as `FindSmallData()`, `GetAttribute()` and `ReadAt()` get it. -/
inductive Attribute where
  | missing
  | unreadable
  | value (type : type_code) (data : Key)

/-- What `Match()` needs of an inode. -/
structure Inode where
  Name : Option Key
  size : Key
  last_modified_time : Key
  attributeOf : Key → Attribute

/-- The changed attribute of a live query: its name, type and new value. -/
structure Change where
  attributeName : Key
  type : type_code
  key : Option Key

/-- A literal of the source. -/
def literal (text : String) : Key := text.toList.map fun c => UInt8.ofNat c.toNat

/-- Where `Match()` gets the value from. -/
inductive Found where
  | noMatch
  | error (status : Status)
  | emptyString
  | value (type : type_code) (buffer : Key)

/-- The first part of `Equation::Match()`. -/
def Equation.find (e : Equation) (inode : Inode) (change : Option Change) : Found :=
  match change.filter fun c => e.fAttribute = c.attributeName with
  | some c =>
    match c.key with
    | none => if c.type = B_STRING_TYPE then .emptyString else .noMatch
    | some key => .value c.type key
  | none =>
    if e.fAttribute = literal "name" then
      match inode.Name with
      | none => .error .B_ERROR
      | some name => .value B_STRING_TYPE name
    else if e.fAttribute = literal "size" then .value B_INT64_TYPE inode.size
    else if e.fAttribute = literal "last_modified" then
      .value B_INT64_TYPE inode.last_modified_time
    else
      match inode.attributeOf e.fAttribute with
      | .missing => .emptyString
      | .unreadable => .error .B_IO_ERROR
      | .value type data => .value type data

/-- `Equation::Match()`, from where the value was found. -/
def Equation.matchFound (e : Equation) : Found → MatchResult × Equation
  | .noMatch => (NO_MATCH, e)
  | .error status => (error status, e)
  | .emptyString => e.MatchEmptyString strto
  | .value type buffer => e.matchValue strto type fun _ => buffer

/-- `Equation::Match()`. -/
def Equation.Match (inode : Inode) (change : Option Change) (e : Equation) :
    MatchResult × Equation :=
  e.matchFound strto (e.find inode change)

/-- `Equation::Complement()`. -/
def Equation.Complement (e : Equation) : Except Fault Equation := do
  let fOp ← complementOp e.fOp
  return { e with fOp := fOp }

/-! ## Terms -/

/-- A `Term`; an operator that is not `&&` is taken for a `||`. -/
inductive Term where
  | equation (e : Equation)
  | operator (fOp : ops) (fLeft fRight : Term)
  deriving DecidableEq

/-- `Score()`. -/
def Term.Score : Term → Int
  | equation e => e.fScore
  | operator fOp fLeft fRight =>
    if fOp = OP_AND then
      -- return the one with the better score
      if fRight.Score > fLeft.Score then fRight.Score else fLeft.Score
    -- for OP_OR, be honest, and return the one with the worse score
    else if fRight.Score < fLeft.Score then fRight.Score else fLeft.Score

/-- `Match()`. -/
def Term.Match (inode : Inode) (change : Option Change) : Term → MatchResult × Term
  | equation e =>
    let r := e.Match strto inode change
    (r.1, equation r.2)
  | operator fOp fLeft fRight =>
    if fOp = OP_AND then
      let left := fLeft.Match inode change
      if left.1 ≠ MATCH_OK then (left.1, operator fOp left.2 fRight)
      else
        let right := fRight.Match inode change
        (right.1, operator fOp left.2 right.2)
    -- choose the term with the better score for OP_OR
    else if fRight.Score > fLeft.Score then
      let right := fRight.Match inode change
      if right.1 ≠ NO_MATCH then (right.1, operator fOp fLeft right.2)
      else
        let left := fLeft.Match inode change
        (left.1, operator fOp left.2 right.2)
    else
      let left := fLeft.Match inode change
      (left.1, operator fOp left.2 fRight)

/-- `Complement()`. -/
def Term.Complement : Term → Except Fault Term
  | equation e => do
    let e ← e.Complement
    return .equation e
  | operator fOp fLeft fRight => do
    let fLeft ← fLeft.Complement
    let fRight ← fRight.Complement
    return .operator (if fOp = OP_AND then OP_OR else OP_AND) fLeft fRight

end

/-! ## What a term means -/

/-- Whether the comparison with a value is true, and not if there is no conversion. -/
def Equation.meetsValue (strto : KeyType → Key → Key) (e : Equation) (type : type_code)
    (value : Equation → Key) : Bool :=
  match e.ConvertValue strto type with
  | (.B_OK, e) => e.CompareTo (value e)
  | _ => false

/-- Whether the comparison of an equation is true. It is not where there is nothing to compare: in a
live query whose attribute is gone and was no string, and for a missing attribute if the equation
was converted to another type than a string before. -/
def Equation.meets (strto : KeyType → Key → Key) (inode : Inode) (change : Option Change)
    (e : Equation) : Bool :=
  match e.find inode change with
  | .noMatch => false
  | .error _ => false
  | .emptyString =>
    decide (e.fType = .zero ∨ e.fType = B_STRING_TYPE) &&
      e.meetsValue strto B_STRING_TYPE fun e => List.replicate e.fValue.length 0
  | .value type buffer => e.meetsValue strto type fun _ => buffer

/-- The equations of a term. -/
def Term.equations : Term → List Equation
  | equation e => [e]
  | operator _ fLeft fRight => fLeft.equations ++ fRight.equations

/-- The value of a term as a Boolean combination of its equations. -/
def Term.holds (leaf : Equation → Bool) : Term → Bool
  | equation e => leaf e
  | operator fOp fLeft fRight =>
    if fOp = OP_AND then fLeft.holds leaf && fRight.holds leaf
    else fLeft.holds leaf || fRight.holds leaf

/-- The term without the right operands of `||` that do not have the better score. -/
def Term.bestScored : Term → Term
  | equation e => equation e
  | operator fOp fLeft fRight =>
    if fOp = OP_AND then operator fOp fLeft.bestScored fRight.bestScored
    else if fRight.Score > fLeft.Score then operator fOp fLeft.bestScored fRight.bestScored
    else fLeft.bestScored

/-- Operators are `&&` or `||`, and equations compare. -/
def Term.Proper : Term → Prop
  | equation e => e.fOp.Compares
  | operator fOp fLeft fRight => (fOp = OP_AND ∨ fOp = OP_OR) ∧ fLeft.Proper ∧ fRight.Proper

/-- The equation with the other operator. -/
def Equation.negate (e : Equation) : Equation := { e with fOp := e.fOp.complement }

/-- De Morgan's law on a term. -/
def Term.negate : Term → Term
  | equation e => equation e.negate
  | operator fOp fLeft fRight =>
    operator (if fOp = OP_AND then OP_OR else OP_AND) fLeft.negate fRight.negate

theorem Term.holds_of_bestScored {leaf : Equation → Bool} {t : Term}
    (h : t.bestScored.holds leaf = true) : t.holds leaf = true := by
  induction t with
  | equation e => exact h
  | operator fOp fLeft fRight ihl ihr =>
    rw [bestScored] at h
    by_cases hand : fOp = OP_AND
    · rw [if_pos hand, holds, if_pos hand, Bool.and_eq_true] at h
      rw [holds, if_pos hand, Bool.and_eq_true]
      exact ⟨ihl h.1, ihr h.2⟩
    · rw [if_neg hand] at h
      rw [holds, if_neg hand, Bool.or_eq_true]
      by_cases hscore : fRight.Score > fLeft.Score
      · rw [if_pos hscore, holds, if_neg hand, Bool.or_eq_true] at h
        exact h.imp ihl ihr
      · rw [if_neg hscore] at h
        exact .inl (ihl h)

section

variable {strto : KeyType → Key → Key} {inode : Inode} {change : Option Change}

/-- `Match()` evaluates the term without the operands that are left out, unless it fails. -/
theorem Term.match_eq (t : Term) (h : ∀ status, (t.Match strto inode change).1 ≠ error status) :
    (t.Match strto inode change).1 = MATCH_OK ↔
      t.bestScored.holds (fun e => decide ((e.Match strto inode change).1 = MATCH_OK)) = true := by
  induction t with
  | equation e => simp [Term.Match, bestScored, holds]
  | operator fOp fLeft fRight ihl ihr =>
    rw [bestScored]
    rw [Term.Match] at h ⊢
    by_cases hand : fOp = OP_AND
    · rw [if_pos hand] at h ⊢
      rw [if_pos hand, holds, if_pos hand, Bool.and_eq_true]
      by_cases hleft : (fLeft.Match strto inode change).1 = MATCH_OK
      · simp only [hleft, ne_eq, not_true_eq_false, if_false] at h ⊢
        rw [ihr h, ← ihl (by rw [hleft]; nofun)]
        simp [hleft]
      · simp only [ne_eq, hleft, not_false_eq_true, if_true] at h ⊢
        rw [← ihl h]
        simp [hleft]
    · rw [if_neg hand] at h ⊢
      rw [if_neg hand]
      by_cases hscore : fRight.Score > fLeft.Score
      · rw [if_pos hscore] at h ⊢
        rw [if_pos hscore, holds, if_neg hand, Bool.or_eq_true]
        by_cases hright : (fRight.Match strto inode change).1 = NO_MATCH
        · simp only [hright, ne_eq, not_true_eq_false, if_false] at h ⊢
          rw [ihl h, ← ihr (by rw [hright]; nofun)]
          simp [hright]
        · simp only [ne_eq, hright, not_false_eq_true, if_true] at h ⊢
          -- it is `MATCH_OK`, since it is no error
          have hok : (fRight.Match strto inode change).1 = MATCH_OK := by
            cases hr : (fRight.Match strto inode change).1 with
            | NO_MATCH => exact absurd hr hright
            | MATCH_OK => rfl
            | error status => exact absurd hr (h status)
          rw [← ihr (by rw [hok]; nofun)]
          simp [hok]
      · rw [if_neg hscore] at h ⊢
        rw [if_neg hscore]
        exact ihl h

variable {e : Equation} {type : type_code} {value : Equation → Key} {t : Term}

/-- It fails only if an equation does. -/
theorem Term.match_no_error
    (h : ∀ e ∈ t.equations, ∀ status, (e.Match strto inode change).1 ≠ error status) :
    ∀ status, (t.Match strto inode change).1 ≠ error status := by
  induction t with
  | equation e => exact h e (List.mem_singleton_self e)
  | operator fOp fLeft fRight ihl ihr =>
    have hleft := ihl fun e he => h e (List.mem_append_left _ he)
    have hright := ihr fun e he => h e (List.mem_append_right _ he)
    intro status
    rw [Term.Match]
    split
    · simp only
      split
      · exact hleft status
      · exact hright status
    · split
      · simp only
        split
        · exact hright status
        · exact hleft status
      · exact hleft status

/-- **Matching is Boolean evaluation** exactly if a true term stays true when the right operands of
`||` without the better score are left out. -/
theorem Term.match_boolean_iff (t : Term)
    (h : ∀ e ∈ t.equations, (e.Match strto inode change).1 = MATCH_OK ∨
      (e.Match strto inode change).1 = NO_MATCH) :
    ((t.Match strto inode change).1 = MATCH_OK ↔
        t.holds (fun e => decide ((e.Match strto inode change).1 = MATCH_OK)) = true) ↔
      (t.holds (fun e => decide ((e.Match strto inode change).1 = MATCH_OK)) = true →
        t.bestScored.holds (fun e => decide ((e.Match strto inode change).1 = MATCH_OK)) = true) := by
  have hmatch := t.match_eq (Term.match_no_error fun e he status => by
    rcases h e he with hok | hno
    · rw [hok]
      nofun
    · rw [hno]
      nofun)
  rw [hmatch]
  exact ⟨fun hiff => hiff.2, fun himp => ⟨Term.holds_of_bestScored, himp⟩⟩

/-- `name = text`, as it is parsed, with the score of an index of one node. -/
def nameIs (text : String) : Equation where
  fOp := OP_EQUAL
  fAttribute := literal "name"
  fString := literal text
  fValue := []
  fType := .zero
  fIsPattern := false
  fIsSpecialTime := false
  fScore := 2048 * 1024

/-- A file without attributes. -/
def fileNamed (name : String) : Inode where
  Name := some (literal name)
  size := List.replicate 8 0
  last_modified_time := List.replicate 8 0
  attributeOf := fun _ => .missing

/-- `name = a || name = b`. -/
def nameIsAOrB : Term := .operator OP_OR (.equation (nameIs "a")) (.equation (nameIs "b"))

theorem Term.match_boolean_iff_two :
    ((nameIsAOrB.Match (fun _ string => string) (fileNamed "a") none).1 = MATCH_OK ↔
        nameIsAOrB.holds (fun e => decide ((e.Match (fun _ string => string) (fileNamed "a")
          none).1 = MATCH_OK)) = true) ↔
      (nameIsAOrB.holds (fun e => decide ((e.Match (fun _ string => string) (fileNamed "a")
          none).1 = MATCH_OK)) = true →
        nameIsAOrB.bestScored.holds (fun e => decide ((e.Match (fun _ string => string)
          (fileNamed "a") none).1 = MATCH_OK)) = true) :=
  Term.match_boolean_iff nameIsAOrB (by decide +kernel)

/-- Of two equal scores only the left operand of `||` is looked at. -/
theorem Term.not_match_boolean : ¬ ∀ (strto : KeyType → Key → Key) (inode : Inode)
    (change : Option Change) (t : Term),
    (∀ e ∈ t.equations, (e.Match strto inode change).1 = MATCH_OK ∨
      (e.Match strto inode change).1 = NO_MATCH) →
    ((t.Match strto inode change).1 = MATCH_OK ↔
      t.holds (fun e => decide ((e.Match strto inode change).1 = MATCH_OK)) = true) := by
  intro hclaim
  have hb := hclaim (fun _ string => string) (fileNamed "b") none nameIsAOrB (by decide +kernel)
  have hfalse : ¬ (nameIsAOrB.Match (fun _ string => string) (fileNamed "b") none).1 = MATCH_OK := by
    decide +kernel
  exact hfalse (hb.mpr (by decide +kernel))

/-! ## Equations and their negation -/

theorem Equation.matchValue_iff :
    (e.matchValue strto type value).1 = MATCH_OK ↔ e.meetsValue strto type value = true := by
  rw [matchValue, meetsValue]
  rcases e.ConvertValue strto type with ⟨status, e'⟩
  cases status <;> simp

theorem Equation.match_iff :
    (e.Match strto inode change).1 = MATCH_OK ↔ e.meets strto inode change = true := by
  rw [Match, meets]
  cases e.find inode change with
  | noMatch | error status => simp [matchFound]
  | value type buffer => exact matchValue_iff
  | emptyString =>
    simp only [matchFound, MatchEmptyString]
    by_cases hblind : e.fType ≠ .zero ∧ e.fType ≠ B_STRING_TYPE
    · rw [if_pos hblind]
      simp [hblind.1, hblind.2]
    · rw [if_neg hblind, matchValue_iff, Bool.and_eq_true, decide_eq_true_eq]
      refine ⟨fun h => ⟨?_, h⟩, fun h => h.2⟩
      by_contra hne
      exact hblind (not_or.mp hne)

theorem Equation.ConvertValue_negate (e : Equation) (type : type_code) :
    e.negate.ConvertValue strto type =
      ((e.ConvertValue strto type).1, (e.ConvertValue strto type).2.negate) := by
  rw [ConvertValue, ConvertValue]
  by_cases htype : type = e.fType
  · rw [if_pos htype, if_pos (show type = e.negate.fType from htype)]
  · rw [if_neg htype, if_neg (show ¬ type = e.negate.fType from htype)]
    change (match convert strto e.fString type with | none => _ | some value => _) = _
    cases convert strto e.fString type <;> rfl

theorem Equation.fType_ConvertValue : (e.ConvertValue strto type).2.fType = type := by
  rw [ConvertValue]
  split
  · exact (by assumption : type = e.fType).symm
  · split <;> rfl

theorem Equation.fOp_ConvertValue : (e.ConvertValue strto type).2.fOp = e.fOp := by
  rw [ConvertValue]
  split
  · rfl
  · split <;> rfl

theorem Equation.find_ConvertValue :
    (e.ConvertValue strto type).2.find inode change = e.find inode change := by
  rw [ConvertValue]
  split
  · rfl
  · split <;> rfl

theorem Equation.compare_negate (e : Equation) (value : Key) :
    e.negate.compare value = e.compare value := rfl

theorem Equation.meetsValue_negate (hop : e.fOp.Compares) (hvalue : ∀ e, value e.negate = value e)
    (h : e.negate.meetsValue strto type value = true) : e.meetsValue strto type value = false := by
  rw [meetsValue, ConvertValue_negate] at h
  rw [meetsValue]
  have hsame : (e.ConvertValue strto type).2.fOp.Compares := by
    rw [fOp_ConvertValue]
    exact hop
  rcases hc : e.ConvertValue strto type with ⟨status, e'⟩
  rw [hc] at h hsame
  cases status with
  | B_OK =>
    simp only [CompareTo, hvalue, compare_negate] at h ⊢
    rw [negate, ops.holds_complement _ hsame] at h
    simpa using h
  | _ => rfl

theorem Equation.meets_negate (hop : e.fOp.Compares)
    (h : e.negate.meets strto inode change = true) : e.meets strto inode change = false := by
  have hfind : e.negate.find inode change = e.find inode change := rfl
  rw [meets, hfind] at h
  rw [meets]
  cases hf : e.find inode change with
  | noMatch | error status => rfl
  | value type buffer =>
    rw [hf] at h
    exact meetsValue_negate hop (fun _ => rfl) h
  | emptyString =>
    rw [hf, Bool.and_eq_true] at h
    simp only [meetsValue_negate hop (fun _ => rfl) h.2, Bool.and_false]

theorem Equation.matchValue_again
    (h : ∀ status, (e.matchValue strto type value).1 ≠ error status) :
    ((e.matchValue strto type value).2.negate.matchValue strto type value).1 =
      (e.negate.matchValue strto type value).1 := by
  have htype : (e.ConvertValue strto type).2.fType = type := fType_ConvertValue
  rw [matchValue] at h ⊢
  rw [matchValue, matchValue, ConvertValue_negate e]
  rcases hc : e.ConvertValue strto type with ⟨status, e'⟩
  rw [hc] at h htype
  cases status with
  | B_OK =>
    have hagain : e'.ConvertValue strto type = (.B_OK, e') := by
      rw [ConvertValue, if_pos htype.symm]
    simp only [ConvertValue_negate e', hagain]
  | _ => exact absurd rfl (h _)

theorem Equation.matchValue_snd :
    (e.matchValue strto type value).2 = (e.ConvertValue strto type).2 := by
  rw [matchValue]
  split
  · rename_i hc
    rw [hc]
  · rename_i hc
    rw [hc]

theorem Equation.Match_of_find {found : Found} (h : e.find inode change = found) :
    e.Match strto inode change = e.matchFound strto found := by
  rw [Match, h]

/-- A matched equation, negated, says the same as the negated equation. -/
theorem Equation.match_again
    (h : ∀ status, (e.Match strto inode change).1 ≠ error status) :
    ((e.Match strto inode change).2.negate.Match strto inode change).1 =
      (e.negate.Match strto inode change).1 := by
  cases hf : e.find inode change with
  | noMatch | error status => rw [Match_of_find hf, matchFound]
  | value type buffer =>
    have hnegate : e.negate.find inode change = .value type buffer := hf
    have hlater : (e.matchValue strto type fun _ => buffer).2.negate.find inode change =
        .value type buffer := by
      rw [matchValue_snd]
      exact find_ConvertValue.trans hf
    rw [Match_of_find hf, matchFound] at h ⊢
    rw [Match_of_find hlater, Match_of_find hnegate]
    exact matchValue_again h
  | emptyString =>
    have hnegate : e.negate.find inode change = .emptyString := hf
    rw [Match_of_find hf, matchFound, MatchEmptyString] at h ⊢
    rw [Match_of_find hnegate, matchFound, MatchEmptyString]
    by_cases hblind : e.fType ≠ .zero ∧ e.fType ≠ B_STRING_TYPE
    · rw [if_pos hblind, if_pos (show e.negate.fType ≠ .zero ∧ e.negate.fType ≠ B_STRING_TYPE
        from hblind), Match_of_find hnegate, matchFound, MatchEmptyString, if_pos (show e.negate.fType ≠ .zero ∧
        e.negate.fType ≠ B_STRING_TYPE from hblind)]
    · rw [if_neg hblind] at h ⊢
      rw [if_neg (show ¬ (e.negate.fType ≠ .zero ∧ e.negate.fType ≠ B_STRING_TYPE) from hblind)]
      have hlater : (e.matchValue strto B_STRING_TYPE fun e =>
          List.replicate e.fValue.length 0).2.negate.find inode change = .emptyString := by
        rw [matchValue_snd]
        exact find_ConvertValue.trans hf
      have htype : (e.matchValue strto B_STRING_TYPE fun e =>
          List.replicate e.fValue.length 0).2.negate.fType = B_STRING_TYPE := by
        rw [matchValue_snd]
        exact fType_ConvertValue
      rw [Match_of_find hlater, matchFound, MatchEmptyString, if_neg (fun hne => hne.2 htype)]
      exact matchValue_again h

/-! ## Terms and their negation -/

theorem Term.holds_negate {leaf : Equation → Bool} (hproper : t.Proper)
    (hleaf : ∀ e : Equation, e.fOp.Compares → leaf e.negate = true → leaf e = false)
    (h : t.negate.holds leaf = true) : t.holds leaf = false := by
  induction t with
  | equation e => exact hleaf e hproper h
  | operator fOp fLeft fRight ihl ihr =>
    obtain ⟨hop, hl, hr⟩ := hproper
    rw [negate] at h
    rcases hop with rfl | rfl
    · rw [if_pos rfl, holds, if_neg (by decide), Bool.or_eq_true] at h
      rw [holds, if_pos rfl, Bool.and_eq_false_iff]
      exact h.imp (ihl hl) (ihr hr)
    · rw [if_neg (by decide), holds, if_pos rfl, Bool.and_eq_true] at h
      rw [holds, if_neg (by decide), Bool.or_eq_false_iff]
      exact ⟨ihl hl h.1, ihr hr h.2⟩

theorem ops.complement_complement {fOp : ops} (h : fOp.Compares) :
    fOp.complement.complement = fOp := by
  revert h
  cases fOp <;> decide

theorem Term.negate_negate (hproper : t.Proper) : t.negate.negate = t := by
  induction t with
  | equation e =>
    rw [negate, negate, Equation.negate, Equation.negate, ops.complement_complement hproper]
  | operator fOp fLeft fRight ihl ihr =>
    obtain ⟨hop, hl, hr⟩ := hproper
    rw [negate, negate, ihl hl, ihr hr]
    rcases hop with rfl | rfl <;> rfl

theorem Term.proper_negate (hproper : t.Proper) : t.negate.Proper := by
  induction t with
  | equation e => exact ops.Compares.complement hproper
  | operator fOp fLeft fRight ihl ihr =>
    obtain ⟨hop, hl, hr⟩ := hproper
    refine ⟨?_, ihl hl, ihr hr⟩
    rcases hop with rfl | rfl
    · exact .inr rfl
    · exact .inl rfl

theorem Term.Complement_eq (hproper : t.Proper) : t.Complement = .ok t.negate := by
  induction t with
  | equation e =>
    rw [Complement, Equation.Complement, complementOp_eq hproper]
    rfl
  | operator fOp fLeft fRight ihl ihr =>
    rw [Complement, ihl hproper.2.1, ihr hproper.2.2]
    rfl

/-- The second term is the first one, with some of its equations converted while they matched. -/
inductive Term.Converted (strto : KeyType → Key → Key) (inode : Inode) (change : Option Change) :
    Term → Term → Prop
  | same (t : Term) : Converted strto inode change t t
  | equation {e : Equation} : (∀ status, (e.Match strto inode change).1 ≠ error status) →
      Converted strto inode change (.equation e) (.equation (e.Match strto inode change).2)
  | operator {fOp : ops} {fLeft fRight left right : Term} :
      Converted strto inode change fLeft left → Converted strto inode change fRight right →
      Converted strto inode change (.operator fOp fLeft fRight) (.operator fOp left right)

/-- What `Match()` leaves behind. -/
theorem Term.match_converted
    (h : ∀ status, (t.Match strto inode change).1 ≠ error status) :
    t.Converted strto inode change (t.Match strto inode change).2 := by
  induction t with
  | equation e => exact .equation h
  | operator fOp fLeft fRight ihl ihr =>
    rw [Term.Match] at h ⊢
    by_cases hand : fOp = OP_AND
    · rw [if_pos hand] at h ⊢
      by_cases hleft : (fLeft.Match strto inode change).1 = MATCH_OK
      · simp only [hleft, ne_eq, not_true_eq_false, if_false] at h ⊢
        exact .operator (ihl (by rw [hleft]; nofun)) (ihr h)
      · simp only [ne_eq, hleft, not_false_eq_true, if_true] at h ⊢
        exact .operator (ihl h) (.same _)
    · rw [if_neg hand] at h ⊢
      by_cases hscore : fRight.Score > fLeft.Score
      · rw [if_pos hscore] at h ⊢
        by_cases hright : (fRight.Match strto inode change).1 = NO_MATCH
        · simp only [hright, ne_eq, not_true_eq_false, if_false] at h ⊢
          exact .operator (ihl h) (ihr (by rw [hright]; nofun))
        · simp only [ne_eq, hright, not_false_eq_true, if_true] at h ⊢
          exact .operator (.same _) (ihr h)
      · rw [if_neg hscore] at h ⊢
        exact .operator (ihl h) (.same _)

theorem Equation.fScore_Match : (e.Match strto inode change).2.fScore = e.fScore := by
  have hconvert : ∀ type, (e.ConvertValue strto type).2.fScore = e.fScore := by
    intro type
    rw [ConvertValue]
    split
    · rfl
    · split <;> rfl
  rw [Match]
  cases e.find inode change with
  | noMatch | error status => rfl
  | value type buffer => exact (congrArg _ matchValue_snd).trans (hconvert _)
  | emptyString =>
    rw [matchFound, MatchEmptyString]
    split
    · rfl
    · rw [matchValue_snd]
      exact hconvert _

theorem Equation.fOp_Match : (e.Match strto inode change).2.fOp = e.fOp := by
  rw [Match]
  cases e.find inode change with
  | noMatch | error status => rfl
  | value type buffer => exact (congrArg _ matchValue_snd).trans fOp_ConvertValue
  | emptyString =>
    rw [matchFound, MatchEmptyString]
    split
    · rfl
    · rw [matchValue_snd]
      exact fOp_ConvertValue

theorem Term.Converted.score {t t' : Term} (h : t.Converted strto inode change t') :
    t'.negate.Score = t.negate.Score := by
  induction h with
  | same t => rfl
  | equation _ => exact Equation.fScore_Match
  | operator _ _ ihl ihr => simp only [negate, Score, ihl, ihr]

theorem Term.Converted.proper {t t' : Term} (h : t.Converted strto inode change t')
    (hproper : t.Proper) : t'.Proper := by
  induction h with
  | same t => exact hproper
  | equation _ =>
    rw [Term.Proper, Equation.fOp_Match]
    exact hproper
  | operator _ _ ihl ihr => exact ⟨hproper.1, ihl hproper.2.1, ihr hproper.2.2⟩

theorem Term.match_operator {fOp : ops} {fLeft fRight : Term} :
    ((operator fOp fLeft fRight).Match strto inode change).1 =
      if fOp = OP_AND then
        if (fLeft.Match strto inode change).1 ≠ MATCH_OK then (fLeft.Match strto inode change).1
        else (fRight.Match strto inode change).1
      else if fRight.Score > fLeft.Score ∧ (fRight.Match strto inode change).1 ≠ NO_MATCH then
        (fRight.Match strto inode change).1
      else (fLeft.Match strto inode change).1 := by
  rw [Term.Match]
  by_cases hand : fOp = OP_AND
  · rw [if_pos hand, if_pos hand]
    simp only
    split <;> rfl
  · rw [if_neg hand, if_neg hand]
    by_cases hscore : fRight.Score > fLeft.Score
    · by_cases hright : (fRight.Match strto inode change).1 = NO_MATCH
      · simp only [hscore, hright, ne_eq, not_true_eq_false, and_false, if_false, if_true]
      · simp only [hscore, hright, ne_eq, not_false_eq_true, and_true, if_true]
    · simp only [hscore, false_and, if_false]

theorem Term.Converted.match_negate {t t' : Term} (h : t.Converted strto inode change t') :
    (t'.negate.Match strto inode change).1 = (t.negate.Match strto inode change).1 := by
  induction h with
  | same t => rfl
  | equation herror => exact Equation.match_again herror
  | operator hl hr ihl ihr =>
    rw [negate, negate, match_operator, match_operator, hl.score, hr.score, ihl, ihr]

/-- **The complement is the negation** exactly if the term or its De Morgan complement is true even
without the right operands of `||` that do not have the better score. -/
theorem Term.complement_negates_iff {t t₁ t₂ t₃ : Term} {s₁ s₂ : MatchResult} (hproper : t.Proper)
    (hbefore : t.Match strto inode change = (s₁, t₁)) (hcomplement : t₁.Complement = .ok t₂)
    (hafter : t₂.Match strto inode change = (s₂, t₃))
    (hs₁ : ∀ status, s₁ ≠ error status) (hs₂ : ∀ status, s₂ ≠ error status) :
    ((s₂ = MATCH_OK ↔ s₁ = NO_MATCH) ∧ ∃ t', t.Complement = .ok t' ∧ t'.Complement = .ok t) ↔
      (t.bestScored.holds (Equation.meets strto inode change) = true ∨
        t.negate.bestScored.holds (Equation.meets strto inode change) = true) := by
  have htwice : ∃ t', t.Complement = .ok t' ∧ t'.Complement = .ok t := by
    refine ⟨t.negate, Complement_eq hproper, ?_⟩
    rw [Complement_eq (proper_negate hproper), negate_negate hproper]
  have hleaf : (fun e : Equation => decide ((e.Match strto inode change).1 = MATCH_OK)) =
      Equation.meets strto inode change := by
    funext e
    rw [Bool.eq_iff_iff, decide_eq_true_eq]
    exact Equation.match_iff
  have hfirst : (t.Match strto inode change).1 = s₁ := by rw [hbefore]
  have hconverted : t.Converted strto inode change t₁ := by
    have hall : t.Converted strto inode change (t.Match strto inode change).2 :=
      match_converted (by rw [hbefore]; exact hs₁)
    rwa [hbefore] at hall
  -- the second match is the one of the negated term
  obtain rfl : t₁.negate = t₂ := by
    rw [Complement_eq (hconverted.proper hproper)] at hcomplement
    injection hcomplement
  have hsecond : (t.negate.Match strto inode change).1 = s₂ := by
    rw [← hconverted.match_negate, hafter]
  have hone := t.match_eq (by rw [hfirst]; exact hs₁)
  have htwo := t.negate.match_eq (by rw [hsecond]; exact hs₂)
  rw [hleaf, hfirst] at hone
  rw [hleaf, hsecond] at htwo
  have hexclusive : t.negate.bestScored.holds (Equation.meets strto inode change) = true →
      t.bestScored.holds (Equation.meets strto inode change) ≠ true := by
    intro hn hp
    have hfalse := holds_negate hproper (fun e hop h => Equation.meets_negate hop h)
      (holds_of_bestScored hn)
    rw [holds_of_bestScored hp] at hfalse
    cases hfalse
  have hno : s₁ = NO_MATCH ↔ s₁ ≠ MATCH_OK := by
    cases s₁ with
    | NO_MATCH | MATCH_OK => simp
    | error status => exact absurd rfl (hs₁ status)
  rw [and_iff_left htwice, hno, htwo, ne_eq, hone]
  constructor
  · intro h
    by_cases hp : t.bestScored.holds (Equation.meets strto inode change) = true
    · exact .inl hp
    · exact .inr (h.mpr hp)
  · intro h
    refine ⟨hexclusive, fun hp => h.resolve_left hp⟩

/-- `count = 1`, after a file whose `count` is an `int64`. -/
def countIsOne : Equation where
  fOp := OP_EQUAL
  fAttribute := literal "count"
  fString := literal "1"
  fValue := int64Bytes 1
  fType := B_INT64_TYPE
  fIsPattern := false
  fIsSpecialTime := false
  fScore := 0

theorem Term.complement_negates_iff_name : ((MATCH_OK = MATCH_OK ↔ NO_MATCH = NO_MATCH) ∧
        ∃ t', (equation (nameIs "a")).Complement = .ok t' ∧
          t'.Complement = .ok (equation (nameIs "a"))) ↔
      ((equation (nameIs "a")).bestScored.holds
          (Equation.meets (fun _ string => string) (fileNamed "b") none) = true ∨
        (equation (nameIs "a")).negate.bestScored.holds
          (Equation.meets (fun _ string => string) (fileNamed "b") none) = true) :=
  Term.complement_negates_iff (show (nameIs "a").fOp.Compares by decide)
    (show (equation (nameIs "a")).Match (fun _ string => string) (fileNamed "b") none =
      (NO_MATCH, equation { nameIs "a" with fValue := literal "a", fType := B_STRING_TYPE })
      by decide +kernel)
    (show Term.Complement (equation { nameIs "a" with
        fValue := literal "a", fType := B_STRING_TYPE }) =
      .ok (equation { nameIs "a" with
        fOp := OP_UNEQUAL, fValue := literal "a", fType := B_STRING_TYPE }) from rfl)
    (show Term.Match (fun _ string => string) (fileNamed "b") none (equation { nameIs "a" with
        fOp := OP_UNEQUAL, fValue := literal "a", fType := B_STRING_TYPE }) =
      (MATCH_OK, equation { nameIs "a" with
        fOp := OP_UNEQUAL, fValue := literal "a", fType := B_STRING_TYPE }) by decide +kernel)
    nofun nofun

/-- A file without the attribute matches neither the equation nor its complement. -/
theorem Term.not_complement_negates : ¬ ∀ (strto : KeyType → Key → Key) (inode : Inode)
    (change : Option Change) (t t₁ t₂ t₃ : Term) (s₁ s₂ : MatchResult), t.Proper →
    t.Match strto inode change = (s₁, t₁) → t₁.Complement = .ok t₂ →
    t₂.Match strto inode change = (s₂, t₃) →
    (∀ status, s₁ ≠ error status) → (∀ status, s₂ ≠ error status) →
    ((s₂ = MATCH_OK ↔ s₁ = NO_MATCH) ∧ ∃ t', t.Complement = .ok t' ∧ t'.Complement = .ok t) := by
  intro hclaim
  have hneither := hclaim (fun _ string => string) (fileNamed "a") none (equation countIsOne)
    (equation countIsOne) (equation countIsOne.negate) (equation countIsOne.negate) NO_MATCH
    NO_MATCH (show countIsOne.fOp.Compares by decide) (by decide +kernel) rfl (by decide +kernel) nofun nofun
  cases hneither.1.mpr rfl

end

end BFS.Query
