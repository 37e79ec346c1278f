import OpenBeOS.BFS.QueryParser

/-! # The grammar of queries

The texts that make up a query, from the white space and the quoted strings to the `||` of
expressions, and the formula each of them stands for. The grammar knows nothing of the parser
but the classes of characters and, for the limits of a comparison, `isValidPattern()`.
-/

namespace BFS

open ops

/-! ## Tokens -/

/-- White space. -/
def White (text : List Char) : Prop := ∀ c ∈ text, isWhitespace c = true

/-- No white space at the start. -/
def NoWhite (text : List Char) : Prop := ∀ c, text.head? = some c → isWhitespace c = false

/-- What stands between two quotes: a backslash takes the next character with it. -/
inductive QuotedBody (quote : Char) : List Char → Prop
  | nil : QuotedBody quote []
  | char {c : Char} {text : List Char} : c ≠ quote → c ≠ '\\' → QuotedBody quote text →
      QuotedBody quote (c :: text)
  | escaped {c : Char} {text : List Char} : QuotedBody quote text →
      QuotedBody quote ('\\' :: c :: text)

/-- `text` is `string` in quotes. -/
def Quoted (text string : List Char) : Prop :=
  ∃ quote, isQuote quote = true ∧ QuotedBody quote string ∧ text = quote :: (string ++ [quote])

/-- A string without quotes, of the characters the scan goes on over. -/
structure Bare (isChar : Char → Bool) (string : List Char) : Prop where
  chars : ∀ c ∈ string, isChar c = true
  head : ∀ c, string.head? = some c → isWhitespace c = false ∧ isQuote c = false
  last : ∀ c, string.getLast? = some c → isWhitespace c = false

/-- The text of an attribute. Brackets do not start it; `!` is no character of it at all. -/
def AttributeText (text string : List Char) : Prop :=
  string ≠ [] ∧ (Quoted text string ∨ text = string ∧ Bare isAttributeChar string ∧
      ∀ c, string.head? = some c → c ≠ '(' ∧ c ≠ ')')

/-- The text of a value. -/
def ValueText (text string : List Char) : Prop :=
  Quoted text string ∨ text = string ∧ Bare isValueChar string

/-- The symbols. -/
inductive Symbol : List Char → ops → Prop
  | equal : Symbol ['='] OP_EQUAL
  | equal' : Symbol ['=', '='] OP_EQUAL
  | unequal : Symbol ['!', '='] OP_UNEQUAL
  | greater : Symbol ['>'] OP_GREATER_THAN
  | greaterOrEqual : Symbol ['>', '='] OP_GREATER_THAN_OR_EQUAL
  | less : Symbol ['<'] OP_LESS_THAN
  | lessOrEqual : Symbol ['<', '='] OP_LESS_THAN_OR_EQUAL

/-- An attribute and a symbol, in front of `next`. A symbol is read as long as it can be. -/
inductive Comparing : List Char → List Char → ops → List Char → Prop
  | mk {text string white symbol white' next : List Char} {fOp : ops} :
      AttributeText text string → White white → Symbol symbol fOp → White white' →
      (symbol.length = 1 → (white' ++ next).head? ≠ some '=') →
      Comparing (text ++ (white ++ (symbol ++ white'))) string fOp next

/-- `attribute op value`. -/
inductive Comparison : List Char → List Char → ops → List Char → Prop
  | mk {text attr value string white : List Char} {fOp : ops} :
      Comparing text attr fOp value → ValueText value string → White white →
      Comparison (text ++ (value ++ white)) attr fOp string

/-! ## Formulas -/

/-- What a query says, with all its parentheses. -/
inductive Formula where
  | comparison (attr : List Char) (fOp : ops) (string : List Char)
  | not (f : Formula)
  | and (f g : Formula)
  | or (f g : Formula)

/-- A comparison the parser is meant to accept: attribute and value fit into a name, and a pattern
is a valid one. -/
def Accepted (attr : List Char) (fOp : ops) (string : List Char) : Prop :=
  attr.length < INODE_FILE_NAME_LENGTH ∧ string.length < INODE_FILE_NAME_LENGTH ∧
    (fOp = OP_EQUAL ∨ fOp = OP_UNEQUAL → isPattern string = true → isValidPattern string = .B_OK)

mutual

/-- `eq := [ '!' ] '(' or ')' | attribute op value`, for the comparisons of `ok`. -/
inductive EquationText (ok : List Char → ops → List Char → Prop) : List Char → Formula → Prop
  | comparison {white text attr string : List Char} {fOp : ops} :
      White white → Comparison text attr fOp string → ok attr fOp string →
      EquationText ok (white ++ text) (.comparison attr fOp string)
  | group {white text white' : List Char} {f : Formula} :
      White white → OrText ok text f → White white' →
      EquationText ok (white ++ '(' :: (text ++ ')' :: white')) f
  | negated {white white' text white'' : List Char} {f : Formula} :
      White white → White white' → OrText ok text f → White white'' →
      EquationText ok (white ++ '!' :: (white' ++ '(' :: (text ++ ')' :: white''))) (.not f)

/-- `and := eq {'&&' eq}`. -/
inductive AndText (ok : List Char → ops → List Char → Prop) : List Char → Formula → Prop
  | equation {text : List Char} {f : Formula} : EquationText ok text f → AndText ok text f
  | and {text text' : List Char} {f g : Formula} :
      EquationText ok text f → AndText ok text' g →
      AndText ok (text ++ '&' :: '&' :: text') (.and f g)

/-- `or := and {'||' and}`. -/
inductive OrText (ok : List Char → ops → List Char → Prop) : List Char → Formula → Prop
  | and {text : List Char} {f : Formula} : AndText ok text f → OrText ok text f
  | or {text text' : List Char} {f g : Formula} :
      OrText ok text f → AndText ok text' g →
      OrText ok (text ++ '|' :: '|' :: text') (.or f g)

end

/-! ## What a formula and a term mean

A comparison is decided by the sign of a number that depends on the attribute, the value and on
whether the value is a pattern. -/

/-- The `switch` of `Equation::CompareTo()`. -/
def ops.holds (fOp : ops) (compare : Int) : Bool :=
  match fOp with
  | OP_EQUAL => compare = 0
  | OP_UNEQUAL => compare ≠ 0
  | OP_LESS_THAN => compare < 0
  | OP_LESS_THAN_OR_EQUAL => compare ≤ 0
  | OP_GREATER_THAN => compare > 0
  | OP_GREATER_THAN_OR_EQUAL => compare ≥ 0
  | _ => false

/-- The truth of a formula. -/
def Formula.eval (compare : List Char → List Char → Bool → Int) : Formula → Bool
  | comparison attr fOp string =>
    fOp.holds (compare attr string (decide (fOp = OP_EQUAL ∨ fOp = OP_UNEQUAL) && isPattern string))
  | not f => !f.eval compare
  | and f g => f.eval compare && g.eval compare
  | or f g => f.eval compare || g.eval compare

/-- The truth of a term as a Boolean expression. -/
def Term.eval (compare : List Char → List Char → Bool → Int) : Term → Bool
  | null => false
  | equation e => e.fOp.holds (compare (e.fAttribute.getD []) (e.fString.getD []) e.fIsPattern)
  | operator fOp fLeft fRight =>
    if fOp = OP_AND then fLeft.eval compare && fRight.eval compare
    else fLeft.eval compare || fRight.eval compare

/-! ## The term of a formula -/

/-- The other symbol of a comparison. -/
def ops.complement : ops → ops
  | OP_EQUAL => OP_UNEQUAL
  | OP_UNEQUAL => OP_EQUAL
  | OP_GREATER_THAN => OP_LESS_THAN_OR_EQUAL
  | OP_LESS_THAN => OP_GREATER_THAN_OR_EQUAL
  | OP_GREATER_THAN_OR_EQUAL => OP_LESS_THAN
  | OP_LESS_THAN_OR_EQUAL => OP_GREATER_THAN
  | fOp => fOp

/-- De Morgan's law on a tree. -/
def Term.negate : Term → Term
  | null => null
  | equation e => equation { e with fOp := e.fOp.complement }
  | operator fOp fLeft fRight =>
    operator (if fOp = OP_AND then OP_OR else OP_AND) fLeft.negate fRight.negate

/-- The equation of a comparison. -/
def comparisonEquation (attr : List Char) (fOp : ops) (string : List Char) : Equation where
  fOp := fOp
  fAttribute := some attr
  fString := some string
  fIsPattern := decide (fOp = OP_EQUAL ∨ fOp = OP_UNEQUAL) && isPattern string
  fIsSpecialTime := decide (attr = "last_modified".toList)

/-- The tree of a formula. -/
def Formula.toTerm : Formula → Term
  | comparison attr fOp string => .equation (comparisonEquation attr fOp string)
  | not f => f.toTerm.negate
  | and f g => .operator OP_AND f.toTerm g.toTerm
  | or f g => .operator OP_OR f.toTerm g.toTerm

/-- `fOp` compares. -/
def ops.Compares (fOp : ops) : Prop := fOp ∈ [OP_EQUAL, OP_UNEQUAL, OP_GREATER_THAN,
  OP_LESS_THAN, OP_GREATER_THAN_OR_EQUAL, OP_LESS_THAN_OR_EQUAL]

instance (fOp : ops) : Decidable fOp.Compares := inferInstanceAs (Decidable (_ ∈ _))

/-- Every operator has two children, every equation an attribute, a value and a symbol. -/
def Term.WellFormed : Term → Prop
  | null => False
  | equation e => e.fAttribute ≠ none ∧ e.fString ≠ none ∧ e.fOp.Compares
  | operator fOp fLeft fRight => (fOp = OP_AND ∨ fOp = OP_OR) ∧ fLeft.WellFormed ∧ fRight.WellFormed

variable {fOp : ops} {t : Term}

theorem Symbol.compares {symbol : List Char} (h : Symbol symbol fOp) : fOp.Compares := by
  cases h <;> decide

theorem ops.Compares.complement (h : fOp.Compares) : fOp.complement.Compares := by
  revert h
  cases fOp <;> decide

theorem complementOp_eq (h : fOp.Compares) : complementOp fOp = .ok fOp.complement := by
  revert h
  cases fOp <;> intro h <;> first | rfl | exact absurd h (by decide)

theorem Term.WellFormed.negate (h : t.WellFormed) : t.negate.WellFormed := by
  induction t with
  | null => exact h
  | equation e => exact ⟨h.1, h.2.1, h.2.2.complement⟩
  | operator fOp fLeft fRight ihl ihr =>
    refine ⟨?_, ihl h.2.1, ihr h.2.2⟩
    rcases h.1 with rfl | rfl
    · exact Or.inr rfl
    · exact Or.inl rfl

theorem Term.WellFormed.complement_eq (h : t.WellFormed) : t.Complement = .ok t.negate := by
  induction t with
  | null => exact h.elim
  | equation e => simp only [Term.Complement, complementOp_eq h.2.2]; rfl
  | operator fOp fLeft fRight ihl ihr =>
    simp only [Term.Complement, ihl h.2.1, ihr h.2.2]
    rfl

theorem Term.WellFormed.ne_null (h : t.WellFormed) : t ≠ .null := by
  rintro rfl
  exact h

theorem Term.WellFormed.initCheck (h : t.WellFormed) : t.InitCheck = .B_OK := by
  induction t with
  | null => rfl
  | equation e =>
    obtain ⟨ha, hs, hop⟩ := h
    have hne : e.fOp ≠ OP_NONE := fun hn => absurd (hn ▸ hop) (by decide)
    simp [Term.InitCheck, Equation.InitCheck, ha, hs, hne]
  | operator fOp fLeft fRight ihl ihr =>
    obtain ⟨hop, hl, hr⟩ := h
    rcases hop with rfl | rfl <;>
      simp [Term.InitCheck, ihl hl, ihr hr, hl.ne_null, hr.ne_null]

theorem ops.holds_complement (n : Int) (h : fOp.Compares) :
    fOp.complement.holds n = !fOp.holds n := by
  have hcases : fOp = OP_EQUAL ∨ fOp = OP_UNEQUAL ∨ fOp = OP_GREATER_THAN ∨ fOp = OP_LESS_THAN ∨
      fOp = OP_GREATER_THAN_OR_EQUAL ∨ fOp = OP_LESS_THAN_OR_EQUAL := by
    revert h
    cases fOp <;> decide
  rcases hcases with rfl | rfl | rfl | rfl | rfl | rfl <;>
    simp only [ops.complement, ops.holds, ← decide_not] <;> congr 1 <;> apply propext <;> omega

theorem Term.eval_negate (compare : List Char → List Char → Bool → Int)
    (h : t.WellFormed) : t.negate.eval compare = !t.eval compare := by
  induction t with
  | null => exact h.elim
  | equation e =>
    exact ops.holds_complement _ h.2.2
  | operator fOp fLeft fRight ihl ihr =>
    obtain ⟨hop, hl, hr⟩ := h
    rcases hop with rfl | rfl <;> simp [Term.negate, Term.eval, ihl hl, ihr hr]

theorem Comparison.compares {text attr string : List Char}
    (h : Comparison text attr fOp string) : fOp.Compares := by
  obtain ⟨⟨-, -, hs, -, -⟩, -, -⟩ := h
  exact hs.compares

end BFS
