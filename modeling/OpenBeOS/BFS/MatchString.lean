import OpenBeOS.BFS.Packed
import OpenBeOS.BFS.QueryParser

/-! # Matching patterns (`matchString()`)

The pattern and the string are the bytes in front of their NUL; an empty list is a pointer to the
NUL. A read behind the NUL of the pattern is a fault. Each round of `matchString()` takes at least
one character of the pattern, so the length of the pattern bounds the rounds.
-/

namespace BFS.Query

/-- `enum match`, as far as `matchString()` returns it. -/
inductive match_status where
  | NO_MATCH
  | MATCH_OK
  | MATCH_BAD_PATTERN
  deriving Repr, DecidableEq

open match_status

/-- The loop of `utf8ToUnicode()` over the bytes behind the first one. -/
def continuation : Nat → Nat → List UInt8 → Option (Nat × List UInt8)
  | 0, c, string => some (c, string)
  | _ + 1, _, [] => none
  | length + 1, c, b :: string =>
    if b &&& 0x80 > 0 then continuation length (c <<< 6 ||| (b &&& 0x3f).toNat) string else none

/-- `utf8ToUnicode()` in front of a byte that is not the NUL: the character and the string behind
it. -/
def utf8ToUnicode (b : UInt8) (string : List UInt8) : Nat × List UInt8 :=
  let c :=
    if b &&& 0xf0 = 0xc0 ∨ b &&& 0xf0 = 0xd0 then continuation 1 (b &&& 0x1f).toNat string
    else if b &&& 0xf0 = 0xe0 then continuation 2 (b &&& 0x1f).toNat string
    else if b &&& 0xf0 = 0xf0 then continuation 3 (b &&& 0x0f).toNat string
    else none
  -- valid 1-byte character and invalid characters
  c.getD (b.toNat, string)

/-! ## Sets -/

/-- `'\\'`. -/
def backslash : UInt8 := 92

/-- `']'`. -/
def bracket : UInt8 := 93

/-- `'-'`. -/
def dash : UInt8 := 45

/-- The pattern behind a backslash in front of it. -/
def unescape : List UInt8 → List UInt8
  | [] => []
  | b :: pattern => if b = backslash then pattern else b :: pattern

/-- Whether a range goes on here. -/
def isRange (pattern : List UInt8) : Bool :=
  pattern.head? = some dash && pattern.tail.head? ≠ some bracket && pattern.tail ≠ []

/-- The loop over the elements of a set: whether `c` is one of them, and the pattern behind the
element or at the closing bracket; nothing for a bad pattern. Behind a backslash at the NUL, the
character is 0 and the pattern is behind the NUL, which is no pattern. -/
def setLoop (c : Nat) : Nat → List UInt8 → Except Fault (Option (Bool × Option (List UInt8)))
  | 0, _ => .error .depth
  | fuel + 1, pattern =>
    if pattern = [] then .ok none
    else if pattern.head? = some bracket then .ok (some (false, some pattern))
    else
      match unescape pattern with
      | [] => if c = 0 then .ok (some (true, none)) else .error .behindNul
      | b :: pattern =>
        let first := utf8ToUnicode b pattern
        -- does this character match, or is this a range?
        if first.1 = c then .ok (some (true, some first.2))
        else if isRange first.2 then
          match unescape first.2.tail with
          | [] => .ok none
          | b :: pattern =>
            let last := utf8ToUnicode b pattern
            if c ≥ first.1 ∧ c ≤ last.1 then .ok (some (true, some last.2))
            else setLoop c fuel last.2
        else setLoop c fuel first.2

/-- The pattern behind the next closing bracket. -/
def skipSet : List UInt8 → Option (List UInt8)
  | [] => none
  | b :: pattern => if b = bracket then some pattern else skipSet pattern

/-- The case of a set: the pattern behind it if it matches `c`. -/
inductive SetResult where
  | bad
  | noMatch
  | matched (pattern : List UInt8)
  deriving Repr, DecidableEq

/-- The mark at the start of a set that inverts it. -/
def isInvertMark (b : UInt8) : Bool := b = 94 || b = 33

/-- The case `'['`; `pattern` is behind the bracket. -/
def matchSet (c : Nat) (pattern : List UInt8) : Except Fault SetResult := do
  let invert := pattern.head?.any isInvertMark
  let pattern := if invert then pattern.tail else pattern
  if pattern = [] ∨ pattern.head? = some bracket then .ok .bad
  else
    match ← setLoop c (pattern.length + 1) pattern with
    | none => .ok .bad
    | some (matched, pattern) =>
      if matched ≠ invert then
        match pattern with
        | none => .error .behindNul
        | some pattern =>
          match skipSet pattern with
          | none => .ok .bad
          | some pattern => .ok (.matched pattern)
      else .ok .noMatch

/-! ## matchString -/

/-- `'*'`. -/
def star : UInt8 := 42

/-- `'?'`. -/
def questionMark : UInt8 := 63

/-- `'['`. -/
def openBracket : UInt8 := 91

/-- Behind a `*`, the pattern is compacted: all further `*` and `?` are taken, and a character of
the string for each `?`. Nothing if the string ends. -/
def compact : List UInt8 → List UInt8 → Option (List UInt8 × List UInt8)
  | [], string => some ([], string)
  | b :: pattern, string =>
    if b = questionMark then
      if string.tail = [] then none else compact pattern string.tail
    else if b = star then compact pattern string
    else some (b :: pattern, string)

/-- The loop that looks for the rest of the pattern; `matchRest` is the recursive call. -/
def starLoop (matchRest : List UInt8 → Except Fault match_status) (next : UInt8) :
    List UInt8 → Except Fault match_status
  | [] => .ok NO_MATCH
  | b :: string => do
    let status ← if next = b ∨ next = openBracket ∨ next = backslash then matchRest (b :: string)
      else .ok NO_MATCH
    if status ≠ NO_MATCH then .ok status else starLoop matchRest next string

/-- The rounds of `matchString()`. -/
def matchRounds : Nat → List UInt8 → List UInt8 → Except Fault match_status
  | 0, _, _ => .error .depth
  | _ + 1, [], string => .ok (if string = [] then MATCH_OK else NO_MATCH)
  | _ + 1, b :: pattern, [] =>
    -- end of string == valid end of pattern?
    .ok (if ((b :: pattern).dropWhile (· = star)) = [] then MATCH_OK else NO_MATCH)
  | fuel + 1, b :: pattern, d :: string =>
    if b = questionMark then matchRounds fuel pattern (utf8ToUnicode d string).2
    else if b = star then
      match compact pattern (d :: string) with
      | none => .ok NO_MATCH
      -- if the pattern is done, we have matched the string
      | some ([], _) => .ok MATCH_OK
      | some (next :: pattern, string) => starLoop (matchRounds fuel (next :: pattern)) next string
    else if b = openBracket then do
      let c := utf8ToUnicode d string
      match ← matchSet c.1 pattern with
      | .bad => .ok MATCH_BAD_PATTERN
      | .noMatch => .ok NO_MATCH
      | .matched pattern => matchRounds fuel pattern c.2
    else if b = backslash ∧ pattern = [] then .ok MATCH_BAD_PATTERN
    -- a backslash is compared itself
    else if b = d then matchRounds fuel pattern string
    else .ok NO_MATCH

/-- `matchString()`. -/
def matchString (pattern string : List UInt8) : Except Fault match_status :=
  matchRounds (pattern.length + 1) pattern string

end BFS.Query
