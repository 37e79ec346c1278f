import OpenBeOS.BFS.QueryExpression
import OpenBeOS.Storage.QueryPredicate

/-! # What a pushed predicate means to the file system

A condition is meant to compare the attribute with its value, or with the wildcard pattern that is
made of it. The predicate string of a pushed tree is a text of the grammar of queries, whose
strings are the escaped ones: the parser never takes the backslashes away again. So the file system
means the same just where nothing is escaped and where it takes for patterns what is meant as one.
-/

namespace StorageKit

open BFS ops query_op QueryNode

/-! ## The meaning of a predicate -/

/-- The comparison that is meant by an operator. -/
def query_op.comparison : query_op → ops
  | B_GT => OP_GREATER_THAN
  | B_GE => OP_GREATER_THAN_OR_EQUAL
  | B_LT => OP_LESS_THAN
  | B_LE => OP_LESS_THAN_OR_EQUAL
  | B_NE => OP_UNEQUAL
  | _ => OP_EQUAL

/-- The text an attribute is compared with. -/
def Value.text (op : query_op) : Value → List Char
  | uint32 value => decimal value.toNat
  | int32 value => decimal value.toInt
  | uint64 value => decimal value.toNat
  | int64 value => decimal value.toInt
  | string value caseInsensitive =>
    let text := if caseInsensitive then foldCase value else value
    match op with
    | B_CONTAINS => '*' :: (text ++ ['*'])
    | B_BEGINS_WITH => text ++ ['*']
    | B_ENDS_WITH => '*' :: text
    | _ => text

/-- Is the text meant as a wildcard pattern? -/
def Value.isWildcard (op : query_op) : Value → Bool
  | string value caseInsensitive =>
    decide (op = B_CONTAINS ∨ op = B_BEGINS_WITH ∨ op = B_ENDS_WITH) ||
      (caseInsensitive && value.any Char.isAlpha)
  | _ => false

/-- What decides a comparison: the attribute, and a text that is a pattern or not. -/
structure Comparand where
  attr : List Char
  text : List Char
  isPattern : Bool
  deriving DecidableEq

def Condition.text (c : Condition) : List Char := c.value.text c.op

/-- What a condition is meant to compare. -/
def Condition.comparand (c : Condition) : Comparand :=
  ⟨c.attrName.val, c.text, c.value.isWildcard c.op⟩

def Predicate.conditions : Predicate → List Condition
  | condition c => [c]
  | not p => p.conditions
  | and p q => p.conditions ++ q.conditions
  | or p q => p.conditions ++ q.conditions

/-- The truth of a predicate, where `compare` is an inode: the sign of each comparison on it. -/
def Predicate.eval (compare : List Char → List Char → Bool → Int) : Predicate → Bool
  | condition c => c.op.comparison.holds (compare c.attrName.val c.text (c.value.isWildcard c.op))
  | not p => !p.eval compare
  | and p q => p.eval compare && q.eval compare
  | or p q => p.eval compare || q.eval compare

end StorageKit

/-- What the equations of a term compare, from the left to the right. -/
def BFS.Term.comparands : BFS.Term → List StorageKit.Comparand
  | null => []
  | equation e => [⟨e.fAttribute.getD [], e.fString.getD [], e.fIsPattern⟩]
  | operator _ fLeft fRight => fLeft.comparands ++ fRight.comparands

namespace StorageKit

open BFS ops query_op QueryNode

/-- The predicate string is accepted, and its term makes the comparisons of the pushed tree and has
the truth of it on every inode. -/
def Predicate.MeansTheSame (p : Predicate) : Prop :=
  ∃ predicate fTerm, GetPredicate p.calls = some predicate ∧
    Expression predicate = .ok (fTerm, []) ∧ fTerm ≠ .null ∧
    fTerm.comparands = p.conditions.map Condition.comparand ∧
    ∀ compare, fTerm.eval compare = p.eval compare

/-- A condition the file system understands: attribute and text fit into a name, nothing in the text
is escaped, and the text is taken for a pattern just if it is meant as one, a valid one then. -/
structure Condition.Plain (c : Condition) : Prop where
  attr : c.attrName.val.length < INODE_FILE_NAME_LENGTH
  length : c.text.length < INODE_FILE_NAME_LENGTH
  unescaped : ∀ ch ∈ c.text, isEscaped ch = false
  wildcard : c.value.isWildcard c.op =
    (decide (c.op.comparison = OP_EQUAL ∨ c.op.comparison = OP_UNEQUAL) && isPattern c.text)
  valid : c.value.isWildcard c.op = true → isValidPattern c.text = .B_OK

/-! ## The predicate string -/

theorem characterEscape_cons (c : Char) (string : List Char) : CharacterEscape (c :: string) =
      (if isEscaped c then ['\\', c] else [c]) ++ CharacterEscape string := by
  rfl

theorem quotedBody_escape (string : List Char) : QuotedBody '"' (CharacterEscape string) := by
  induction string with
  | nil => exact .nil
  | cons c string ih =>
    rw [characterEscape_cons]
    by_cases hc : isEscaped c = true
    · rw [if_pos hc]
      exact .escaped ih
    · rw [if_neg hc]
      refine .char ?_ ?_ ih
      · rintro rfl
        exact hc rfl
      · rintro rfl
        exact hc rfl

/-- Only a string without escaped characters stays as it is. -/
theorem characterEscape_eq_iff (string : List Char) :
    CharacterEscape string = string ↔ ∀ c ∈ string, isEscaped c = false := by
  have hlength : ∀ string, string.length ≤ (CharacterEscape string).length := by
    intro string
    induction string with
    | nil => exact Nat.le_refl _
    | cons c string ih =>
      rw [characterEscape_cons]
      split <;> simp <;> omega
  induction string with
  | nil => simp [CharacterEscape]
  | cons c string ih =>
    rw [characterEscape_cons]
    by_cases hc : isEscaped c = true
    · rw [if_pos hc]
      constructor
      · intro h
        have := congrArg List.length h
        have := hlength string
        simp at *
        omega
      · intro h
        rw [h c (List.mem_cons_self ..)] at hc
        cases hc
    · rw [if_neg hc]
      simp [ih, hc]

theorem quoted_quote (fValue : List Char) : Quoted (quote fValue) (CharacterEscape fValue) :=
  ⟨'"', rfl, quotedBody_escape fValue, rfl⟩

theorem mem_decimal {n : Int} {c : Char} (h : c ∈ decimal n) : c.isDigit = true ∨ c = '-' := by
  cases n with
  | ofNat n => exact Or.inl (Nat.isDigit_of_mem_toDigits (by decide) (by decide) h)
  | negSucc n =>
    rcases List.mem_cons.mp h with rfl | h
    · exact Or.inr rfl
    · exact Or.inl (Nat.isDigit_of_mem_toDigits (by decide) (by decide) h)

theorem ne_of_mem_decimal {n : Int} {c d : Char} (h : c ∈ decimal n)
    (hd : d.isDigit = false ∧ d ≠ '-') : c ≠ d := by
  rintro rfl
  rcases mem_decimal h with hc | hc
  · rw [hd.1] at hc
    cases hc
  · exact hd.2 hc

theorem valueText_decimal (n : Int) : ValueText (decimal n) (decimal n) := by
  have hwhite : ∀ c ∈ decimal n, isWhitespace c = false := by
    intro c hc
    simp [isWhitespace, ne_of_mem_decimal hc (d := ' ') (by decide),
      ne_of_mem_decimal hc (d := '\t') (by decide)]
  refine Or.inr ⟨rfl, ?_, ?_, ?_⟩
  · intro c hc
    simp [isValueChar, ne_of_mem_decimal hc (d := '&') (by decide),
      ne_of_mem_decimal hc (d := '|') (by decide), ne_of_mem_decimal hc (d := ')') (by decide)]
  · intro c hc
    have hc := List.mem_of_mem_head? hc
    refine ⟨hwhite c hc, ?_⟩
    simp [isQuote, ne_of_mem_decimal hc (d := '"') (by decide),
      ne_of_mem_decimal hc (d := '\'') (by decide)]
  · intro c hc
    exact hwhite c (List.mem_of_mem_getLast? hc)

theorem characterEscape_decimal (n : Int) : CharacterEscape (decimal n) = decimal n := by
  rw [characterEscape_eq_iff]
  intro c hc
  simp [isEscaped, ne_of_mem_decimal hc (d := '"') (by decide),
    ne_of_mem_decimal hc (d := '\\') (by decide), ne_of_mem_decimal hc (d := '\'') (by decide)]

/-- The operator in the predicate string. -/
def query_op.symbol : query_op → List Char
  | B_GT => ['>']
  | B_GE => ['>', '=']
  | B_LT => ['<']
  | B_LE => ['<', '=']
  | B_NE => ['!', '=']
  | _ => ['=', '=']

theorem query_op.Compares.symbol {op : query_op} (h : op.Compares) :
    Symbol op.symbol op.comparison := by
  cases op <;> first | exact absurd h (by decide) | constructor

/-- The value in the predicate string. -/
def Condition.valueString (c : Condition) : List Char :=
  match c.value with
  | .string .. => quote c.text
  | _ => c.text

theorem Condition.number_or_string (c : Condition) :
    (∃ n, c.valueString = decimal n ∧ c.text = decimal n) ∨ c.valueString = quote c.text := by
  obtain ⟨attrName, value, op, hop⟩ := c
  cases value with
  | uint32 value => exact Or.inl ⟨value.toNat, rfl, rfl⟩
  | int32 value => exact Or.inl ⟨value.toInt, rfl, rfl⟩
  | uint64 value => exact Or.inl ⟨value.toNat, rfl, rfl⟩
  | int64 value => exact Or.inl ⟨value.toInt, rfl, rfl⟩
  | string value caseInsensitive => exact Or.inr rfl

theorem Condition.valueText (c : Condition) : ValueText c.valueString (CharacterEscape c.text) := by
  rcases c.number_or_string with ⟨n, hs, ht⟩ | hs
  · rw [hs, ht, characterEscape_decimal]
    exact valueText_decimal n
  · rw [hs]
    exact Or.inl (quoted_quote _)

theorem Condition.valueString_head (c : Condition) : c.valueString.head? ≠ some '=' := by
  rcases c.number_or_string with ⟨n, hs, -⟩ | hs
  · rw [hs]
    intro hn
    exact ne_of_mem_decimal (List.mem_of_mem_head? hn) (by decide) rfl
  · rw [hs]
    intro h
    cases h

/-- A name reads as an attribute. -/
theorem AttrName.attributeText (attrName : AttrName) : AttributeText attrName.val attrName.val := by
  obtain ⟨name, hne, hname⟩ := attrName
  have hchar : ∀ c ∈ name, ∀ d, isNameChar d = false → c ≠ d := by
    rintro c hc d hd rfl
    rw [hname c hc] at hd
    cases hd
  have hwhite : ∀ c ∈ name, isWhitespace c = false := by
    intro c hc
    simp [isWhitespace, hchar c hc ' ' (by decide), hchar c hc '\t' (by decide)]
  refine ⟨hne, Or.inr ⟨rfl, ⟨?_, ?_, ?_⟩, ?_⟩⟩
  · intro c hc
    simp [isAttributeChar, hchar c hc '=' (by decide), hchar c hc '<' (by decide),
      hchar c hc '>' (by decide), hchar c hc '!' (by decide), hchar c hc '&' (by decide),
      hchar c hc '|' (by decide)]
  · intro c hc
    have hc := List.mem_of_mem_head? hc
    refine ⟨hwhite c hc, ?_⟩
    simp [isQuote, hchar c hc '"' (by decide), hchar c hc '\'' (by decide)]
  · intro c hc
    exact hwhite c (List.mem_of_mem_getLast? hc)
  · intro c hc
    have hc := List.mem_of_mem_head? hc
    exact ⟨hchar c hc '(' (by decide), hchar c hc ')' (by decide)⟩

theorem Condition.comparing (c : Condition) :
    Comparing (c.attrName.val ++ c.op.symbol) c.attrName.val c.op.comparison c.valueString := by
  have h : Comparing (c.attrName.val ++ ([] ++ (c.op.symbol ++ []))) c.attrName.val
      c.op.comparison c.valueString :=
    .mk c.attrName.attributeText White.nil c.compares.symbol White.nil
      fun _ => c.valueString_head
  simpa using h

/-- A predicate without its parentheses. -/
def Predicate.body : Predicate → List Char
  | condition c => c.attrName.val ++ c.op.symbol ++ c.valueString
  | not p => '!' :: '(' :: (p.body ++ [')'])
  | and p q => '(' :: (p.body ++ [')']) ++ '&' :: '&' :: '(' :: (q.body ++ [')'])
  | or p q => '(' :: (p.body ++ [')']) ++ '|' :: '|' :: '(' :: (q.body ++ [')'])

theorem Condition.getString (c : Condition) : (Predicate.condition c).tree.GetString =
      some ('(' :: ((Predicate.condition c).body ++ [')'])) := by
  obtain ⟨attrName, value, op, hop⟩ := c
  cases op
  case B_INVALID_OP | B_AND | B_OR | B_NOT | _B_RESERVED_OP_ => exact absurd hop (by decide)
  all_goals
    cases value <;>
      simp [Predicate.tree, Predicate.body, GetString, binaryString, parenthesize, wildcards,
        Value.push, Push.node, newStringNode, Condition.valueString, Condition.text, Value.text,
        query_op.symbol]

theorem Predicate.getString (p : Predicate) :
    p.tree.GetString = some ('(' :: (p.body ++ [')'])) := by
  induction p with
  | condition c => exact c.getString
  | not p ih => simp [Predicate.tree, GetString, ih, Predicate.body]
  | and p q ihp ihq | or p q ihp ihq =>
    simp [Predicate.tree, GetString, ihp, ihq, Predicate.body, binaryString, parenthesize]

theorem getPredicate_calls (p : Predicate) :
    GetPredicate p.calls = some ('(' :: (p.body ++ [')'])) := by
  rw [GetPredicate, convertToTree_calls]
  exact p.getString

/-! ## What the parser makes of it -/

/-- The formula of the predicate string. -/
def Predicate.formula : Predicate → Formula
  | condition c => .comparison c.attrName.val c.op.comparison (CharacterEscape c.text)
  | not p => .not p.formula
  | and p q => .and p.formula q.formula
  | or p q => .or p.formula q.formula

/-- The comparison of a condition is one the parser accepts. -/
def Condition.Accepted (c : Condition) : Prop :=
  BFS.Accepted c.attrName.val c.op.comparison (CharacterEscape c.text)

theorem Condition.comparisonText (c : Condition) :
    Comparison (Predicate.condition c).body c.attrName.val c.op.comparison
      (CharacterEscape c.text) := by
  have h := Comparison.mk c.comparing c.valueText White.nil
  rwa [List.append_nil] at h

theorem orText_group {ok : List Char → ops → List Char → Prop} {text : List Char} {f : Formula}
    (h : OrText ok text f) : EquationText ok ('(' :: (text ++ [')'])) f := by
  have h := EquationText.group White.nil h White.nil
  simpa using h

variable {p : Predicate}

theorem Predicate.orText (h : ∀ c ∈ p.conditions, c.Accepted) :
    OrText BFS.Accepted p.body p.formula := by
  induction p with
  | condition c =>
    have h := EquationText.comparison White.nil c.comparisonText
      (h c (List.mem_singleton.mpr rfl))
    exact .and (.equation h)
  | not p ih =>
    have h := EquationText.negated White.nil White.nil (ih h) White.nil
    exact .and (.equation h)
  | and p q ihp ihq =>
    have hp := ihp fun c hc => h c (List.mem_append_left _ hc)
    have hq := ihq fun c hc => h c (List.mem_append_right _ hc)
    exact .and (.and (orText_group hp) (.equation (orText_group hq)))
  | or p q ihp ihq =>
    have hp := ihp fun c hc => h c (List.mem_append_left _ hc)
    have hq := ihq fun c hc => h c (List.mem_append_right _ hc)
    exact .or (.and (.equation (orText_group hp))) (.equation (orText_group hq))

/-! ## Predicates that are refused -/

/-- There is no tree: a fault, or `NULL`. -/
def NoTree (result : Except Fault (Term × List Char)) : Prop :=
  (∃ fault, result = .error fault) ∨ ∃ rest, result = .ok (.null, rest)

theorem passedOn_noTree : PassedOn NoTree := ⟨Or.inl ⟨_, rfl⟩, fun _ h => h⟩

/-- A comparison that is not accepted makes no equation. -/
theorem newEquation_refused {text attr value string : List Char} {fOp : ops}
    (h : Comparing text attr fOp value) (hvalue : ValueText value string)
    (hn : ¬ BFS.Accepted attr fOp string) (rest : List Char) :
    ∃ equation rest', newEquation (text ++ (value ++ ')' :: rest)) = .ok (equation, rest') ∧
      equation.InitCheck ≠ .B_OK := by
  have hnull : ∀ fAttribute, Equation.InitCheck ⟨fOp, fAttribute, none, false, false⟩ ≠ .B_OK := by
    intro fAttribute
    simp [Equation.InitCheck]
  have hhead : (')' :: rest).head? ≠ some '=' := by simp
  have hequation := newEquation_comparing h hhead
  by_cases ha : attr.length < INODE_FILE_NAME_LENGTH
  · by_cases hs : string.length < INODE_FILE_NAME_LENGTH
    · -- both strings fit: then the value is a pattern that is not valid
      have hcomparison := Comparison.mk h hvalue White.nil
      rw [List.append_nil] at hcomparison
      have hbad : FailedEquation (text ++ value) := by
        by_contra hfailed
        refine hn ⟨ha, hs, fun hop hp => ?_⟩
        by_contra hv
        exact hfailed (.pattern hcomparison ha hs hop hp hv)
      obtain ⟨equation, heq, hinit⟩ := @newEquation_failed _ rest hbad
      rw [List.append_assoc] at heq
      exact ⟨equation, _, heq, hinit⟩
    · rw [if_pos ha] at hequation
      have hbehind : behindWhite (value ++ ')' :: rest) = value ++ ')' :: rest := by
        apply behindWhite_of_noWhite
        intro c hc
        cases value with
        | nil =>
          cases hc
          rfl
        | cons d tail => exact hvalue.noWhite c hc
      have hparse : ∀ expr, parseValue expr (value ++ ([] ++ ')' :: rest)) =
          .ok (.next string (')' :: rest)) := fun _ =>
        parseValue_text hvalue White.nil (fun _ => rfl) (stops_close rest)
      simp only [List.nil_append] at hparse
      rw [equationValue, hbehind, hparse, ok_bind] at hequation
      simp only [copyString_eq, if_neg hs] at hequation
      exact ⟨_, _, hequation, hnull _⟩
  · rw [if_neg ha] at hequation
    exact ⟨_, _, hequation, hnull _⟩

theorem closeGroup_noTree (not : Bool) {result : Except Fault (Term × List Char)}
    (h : NoTree result) : NoTree (result.bind fun r => closeGroup not r.1 r.2) := by
  rcases h with ⟨fault, rfl⟩ | ⟨rest, rfl⟩
  · exact Or.inl ⟨fault, rfl⟩
  · show NoTree (closeGroup not .null rest)
    rw [closeGroup_null]
    split
    · split
      · exact Or.inl ⟨_, rfl⟩
      · exact Or.inr ⟨_, rfl⟩
    · exact Or.inr ⟨_, rfl⟩

theorem group_noTree {inner : List Char} (h : ∀ depth, NoTree (ParseOr depth inner)) :
    ∀ depth, NoTree (ParseEquation depth ('(' :: inner)) := by
  intro depth
  cases depth with
  | zero => exact Or.inl ⟨_, by rw [ParseEquation]⟩
  | succ depth =>
    have hgroup := parseEquation_group White.nil depth inner
    rw [List.nil_append] at hgroup
    rw [hgroup]
    exact closeGroup_noTree false (h depth)

theorem negated_noTree {inner : List Char} (h : ∀ depth, NoTree (ParseOr depth inner)) :
    ∀ depth, NoTree (ParseEquation depth ('!' :: '(' :: inner)) := by
  intro depth
  cases depth with
  | zero => exact Or.inl ⟨_, by rw [ParseEquation]⟩
  | succ depth =>
    have hgroup := parseEquation_negated White.nil White.nil depth inner
    simp only [List.nil_append] at hgroup
    rw [hgroup]
    exact closeGroup_noTree true (h depth)

theorem parseOr_noTree {string : List Char} (h : ∀ depth, NoTree (ParseEquation depth string)) :
    ∀ depth, NoTree (ParseOr depth string) := fun depth =>
  (OrPrefix.leads passedOn_noTree h (.and .nil)).1 depth

/-- A predicate with a condition that is not accepted has no tree. -/
theorem Predicate.noTree (h : ∃ c ∈ p.conditions, ¬ c.Accepted) :
    ∀ (rest : List Char) depth, NoTree (ParseOr depth (p.body ++ ')' :: rest)) := by
  induction p with
  | condition c =>
    intro rest
    obtain ⟨c', hc', hn⟩ := h
    obtain rfl := List.mem_singleton.mp hc'
    apply parseOr_noTree
    intro depth
    cases depth with
    | zero => exact Or.inl ⟨_, by rw [ParseEquation]⟩
    | succ depth =>
      obtain ⟨equation, rest', heq, hinit⟩ := newEquation_refused c'.comparing c'.valueText hn rest
      obtain ⟨hat, hnot⟩ := @Comparing.atEquation _ _ _ (c'.valueString ++ ')' :: rest) _
        c'.comparing
      have hparse := parseEquation_equation White.nil hat hnot depth
      simp only [List.nil_append, equationTerm, heq, ok_bind, ne_eq, hinit, not_false_eq_true,
        if_true] at hparse
      rw [Predicate.body, List.append_assoc, hparse]
      exact Or.inr ⟨_, rfl⟩
  | not p ih =>
    intro rest
    apply parseOr_noTree
    have hinner := negated_noTree (ih h (')' :: rest))
    simpa [Predicate.body] using hinner
  | and p q ihp ihq =>
    intro rest
    by_cases hp : ∀ c ∈ p.conditions, c.Accepted
    · -- the second operand is refused, behind the first one
      have hq : ∃ c ∈ q.conditions, ¬ c.Accepted := by
        obtain ⟨c, hc, hn⟩ := h
        rcases List.mem_append.mp hc with hc | hc
        · exact absurd (hp c hc) hn
        · exact ⟨c, hc, hn⟩
      have hinner := group_noTree (ihq hq (')' :: rest))
      have hlead : OrPrefix (('(' :: (p.body ++ [')'])) ++ '&' :: '&' :: []) :=
        .and (.cons (orText_group (Predicate.orText hp)) .nil)
      intro depth
      have := (hlead.leads passedOn_noTree hinner).1 depth
      simpa [Predicate.body] using this
    · push Not at hp
      apply parseOr_noTree
      have hinner := group_noTree
        (ihp hp ('&' :: '&' :: '(' :: (q.body ++ [')']) ++ ')' :: rest))
      simpa [Predicate.body] using hinner
  | or p q ihp ihq =>
    intro rest
    by_cases hp : ∀ c ∈ p.conditions, c.Accepted
    · have hq : ∃ c ∈ q.conditions, ¬ c.Accepted := by
        obtain ⟨c, hc, hn⟩ := h
        rcases List.mem_append.mp hc with hc | hc
        · exact absurd (hp c hc) hn
        · exact ⟨c, hc, hn⟩
      have hinner := group_noTree (ihq hq (')' :: rest))
      have hlead : OrPrefix (('(' :: (p.body ++ [')'])) ++ '|' :: '|' :: []) :=
        .cons (.equation (orText_group (Predicate.orText hp))) (.and .nil)
      intro depth
      have := (hlead.leads passedOn_noTree hinner).1 depth
      simpa [Predicate.body] using this
    · push Not at hp
      apply parseOr_noTree
      have hinner := group_noTree
        (ihp hp ('|' :: '|' :: '(' :: (q.body ++ [')']) ++ ')' :: rest))
      simpa [Predicate.body] using hinner

/-- **The parser accepts a pushed predicate just if it accepts all of its conditions.** -/
theorem expression_predicate_iff (p : Predicate) (fTerm : Term) :
    Expression ('(' :: (p.body ++ [')'])) = .ok (fTerm, []) ∧ fTerm ≠ .null ↔
      (∀ c ∈ p.conditions, c.Accepted) ∧ fTerm = p.formula.toTerm := by
  constructor
  · rintro ⟨heq, hne⟩
    have haccepted : ∀ c ∈ p.conditions, c.Accepted := by
      by_contra hn
      push Not at hn
      have hnone := parseOr_noTree (group_noTree (Predicate.noTree hn []))
        (parseDepth ('(' :: (p.body ++ [')'])))
      rw [← expression_eq, heq] at hnone
      rcases hnone with ⟨fault, h⟩ | ⟨rest, h⟩
      · cases h
      · cases h
        exact hne rfl
    have htext := OrText.and (.equation (orText_group (Predicate.orText haccepted)))
    have heq' := (((expression_tree_iff _).1 p.formula.toTerm).mpr ⟨_, htext, rfl⟩).1
    rw [heq] at heq'
    cases heq'
    exact ⟨haccepted, rfl⟩
  · rintro ⟨haccepted, rfl⟩
    have htext := OrText.and (.equation (orText_group (Predicate.orText haccepted)))
    exact ((expression_tree_iff _).1 p.formula.toTerm).mpr ⟨_, htext, rfl⟩

/-! ## The same comparisons -/

@[simp] theorem term_comparands_negate (t : Term) : t.negate.comparands = t.comparands := by
  induction t with
  | null | equation e => rfl
  | operator fOp fLeft fRight ihl ihr => simp [Term.negate, Term.comparands, ihl, ihr]

/-- What the file system compares for a condition. -/
def Condition.compared (c : Condition) : Comparand :=
  ⟨c.attrName.val, CharacterEscape c.text,
    decide (c.op.comparison = OP_EQUAL ∨ c.op.comparison = OP_UNEQUAL) &&
      isPattern (CharacterEscape c.text)⟩

theorem Predicate.comparands_formula (p : Predicate) :
    p.formula.toTerm.comparands = p.conditions.map Condition.compared := by
  induction p with
  | condition c => rfl
  | not p ih => simp [Predicate.formula, Formula.toTerm, ih, Predicate.conditions]
  | and p q ihp ihq | or p q ihp ihq =>
    simp [Predicate.formula, Formula.toTerm, Term.comparands, ihp, ihq, Predicate.conditions]

theorem Predicate.eval_formula
    (h : ∀ c ∈ p.conditions, c.compared = c.comparand)
    (compare : List Char → List Char → Bool → Int) :
    p.formula.eval compare = p.eval compare := by
  induction p with
  | condition c =>
    have hc := h c (List.mem_singleton.mpr rfl)
    obtain ⟨-, htext, hpattern⟩ := Comparand.mk.inj hc
    show c.op.comparison.holds (compare _ _ _) = _
    rw [hpattern, htext]
    rfl
  | not p ih => simp [Predicate.formula, Formula.eval, Predicate.eval, ih h]
  | and p q ihp ihq | or p q ihp ihq =>
    simp [Predicate.formula, Formula.eval, Predicate.eval,
      ihp fun c hc => h c (List.mem_append_left _ hc),
      ihq fun c hc => h c (List.mem_append_right _ hc)]

theorem Condition.plain_iff (c : Condition) : c.Plain ↔ c.Accepted ∧ c.compared = c.comparand := by
  constructor
  · intro h
    have hescape := (characterEscape_eq_iff c.text).mpr h.unescaped
    refine ⟨⟨h.attr, ?_, ?_⟩, ?_⟩
    · rw [hescape]
      exact h.length
    · intro hop hp
      rw [hescape] at hp ⊢
      refine h.valid ?_
      rw [h.wildcard, hp, decide_eq_true hop]
      rfl
    · rw [Condition.compared, Condition.comparand, hescape, h.wildcard]
  · rintro ⟨⟨hattr, hlength, hvalid⟩, hsame⟩
    obtain ⟨-, hescape, hpattern⟩ := Comparand.mk.inj hsame
    rw [hescape] at hlength hvalid hpattern
    refine ⟨hattr, hlength, (characterEscape_eq_iff c.text).mp hescape, hpattern.symm, ?_⟩
    intro hwild
    rw [← hpattern, Bool.and_eq_true, decide_eq_true_iff] at hwild
    exact hvalid hwild.1 hwild.2

/-- The name is a quote. -/
def quoteCondition : Condition :=
  ⟨⟨['n', 'a', 'm', 'e'], List.cons_ne_nil _ _, List.all_eq_true.mp rfl⟩, .string ['"'] false, B_EQ,
    by decide⟩

end StorageKit
