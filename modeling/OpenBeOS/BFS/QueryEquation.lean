import OpenBeOS.BFS.QueryTokens

/-! # Reading an equation

`newEquation` on a text of the grammar, and the text it has read when it returns: a comparison
if its equation passes `InitCheck()`; if it does not and a closing bracket follows, one of the
two texts of `FailedEquation`; and a text with a `TrailingEscape` when it leaves the string.
-/

namespace BFS

open ops List

/-! ## The attribute -/

/-- `expr` starts with an equation: `ParseEquation()` has dealt with everything else. -/
structure AtEquation (expr : List Char) : Prop where
  noWhite : NoWhite expr
  group : cur expr ≠ '('
  close : cur expr ≠ ')'

theorem parseAttribute_quoted {text string white rest : List Char} (h : Quoted text string)
    (hw : White white) (hr : NoWhite rest) :
    parseAttribute (text ++ (white ++ rest)) =
      if cur rest ≠ '=' && cur rest ≠ '<' && cur rest ≠ '>' && cur rest ≠ '!' then
        .ok (.returns rest) else .ok (.next string rest) := by
  obtain ⟨quote, hq, hbody, rfl⟩ := h
  have hloop := quotedLoop_closed hq hbody (white ++ rest)
  have happ : quote :: (string ++ [quote]) ++ (white ++ rest) =
      quote :: (string ++ quote :: (white ++ rest)) := by simp
  rw [happ, parseAttribute]
  simp only [charAt_zero, ok_bind, cur_cons, hq, if_true, parseQuotedString_cons, hloop,
    skipWhitespace_cons_one, behindWhite_append hw hr]
  split <;> simp_all

theorem parseAttribute_bare {string white rest : List Char} (h : Bare isAttributeChar string)
    (hne : string ≠ []) (hw : White white) (hr : Stops isAttributeChar rest) :
    parseAttribute (string ++ (white ++ rest)) = .ok (.next string rest) := by
  obtain ⟨hscan, hdrop⟩ := scan_bare white_attributeChar h hw (fun hn => absurd hn hne) hr
  have hq : isQuote (cur (string ++ (white ++ rest))) = false := by
    obtain ⟨c, tail, rfl⟩ := exists_cons_of_ne_nil hne
    exact (h.head c rfl).2
  rw [parseAttribute]
  simp only [charAt_zero, ok_bind, hq, hscan, hdrop]
  rfl

/-- The symbol characters. -/
def isSymbolChar (c : Char) : Bool := c = '=' || c = '<' || c = '>' || c = '!'

theorem parseAttribute_text {text string white rest : List Char} (h : AttributeText text string)
    (hw : White white) (hr : isSymbolChar (cur rest) = true) :
    parseAttribute (text ++ (white ++ rest)) = .ok (.next string rest) := by
  have hcases : cur rest = '=' ∨ cur rest = '<' ∨ cur rest = '>' ∨ cur rest = '!' := by
    simpa [isSymbolChar, or_assoc] using hr
  obtain ⟨c, tail, rfl⟩ : ∃ c tail, rest = c :: tail := by
    rcases rest with _ | ⟨c, tail⟩
    · simp [isSymbolChar] at hr
    · exact ⟨c, tail, rfl⟩
  rcases h with ⟨hne, hquoted | ⟨rfl, hbare, -⟩⟩
  · have hno : NoWhite (c :: tail) := by
      intro d hd
      cases hd
      rcases hcases with h | h | h | h <;> (rw [cur_cons] at h; subst h; rfl)
    rw [parseAttribute_quoted hquoted hw hno]
    rcases hcases with h | h | h | h <;> simp [h]
  · refine parseAttribute_bare hbare hne hw ?_
    intro d hd
    cases hd
    rcases hcases with h | h | h | h <;> (rw [cur_cons] at h; subst h; rfl)

/-- What `parseAttribute` has done. -/
inductive AttributeResult (expr : List Char) : Except Fault (Parsed (List Char)) → Prop
  | fault : TrailingEscape expr → AttributeResult expr (.error .behindNul)
  | unread : AttributeResult expr (.ok (.returns expr))
  | quoted {text string white rest : List Char} : Quoted text string → White white →
      NoWhite rest → expr = text ++ (white ++ rest) → AttributeResult expr (.ok (.returns rest))
  | empty {rest : List Char} : AttributeResult expr (.ok (.next [] rest))
  | attr {text string white rest : List Char} : AttributeText text string → White white →
      cur rest ≠ ')' → NoWhite rest → expr = text ++ (white ++ rest) →
      AttributeResult expr (.ok (.next string rest))

theorem parseAttribute_spec {expr : List Char} (h : AtEquation expr) :
    AttributeResult expr (parseAttribute expr) := by
  by_cases hq : isQuote (cur expr) = true
  · obtain ⟨quote, tail, rfl⟩ : ∃ quote tail, expr = quote :: tail := by
      rcases expr with _ | ⟨c, tail⟩
      · simp [isQuote] at hq
      · exact ⟨c, tail, rfl⟩
    have hq' : isQuote quote = true := hq
    rcases hl : quotedLoop quote tail with f | (_ | ⟨string, rest⟩)
    · obtain ⟨rfl, text, hb, rfl⟩ := quotedLoop_error hl
      have : parseAttribute (quote :: (text ++ ['\\'])) = .error .behindNul := by
        rw [parseAttribute]
        simp [hq', parseQuotedString_cons, hl]
      rw [this]
      exact .fault ⟨quote, text, hq', hb, rfl⟩
    · have : parseAttribute (quote :: tail) = .ok (.returns (quote :: tail)) := by
        rw [parseAttribute]
        simp [hq', parseQuotedString_cons, hl]
      rw [this]
      exact .unread
    · obtain ⟨hb, rfl, rest, rfl⟩ := quotedLoop_some hl
      obtain ⟨white, hw, hrest⟩ := exists_white rest
      have hquoted : Quoted (quote :: (string ++ [quote])) string := ⟨quote, hq', hb, rfl⟩
      have hexpr : quote :: (string ++ quote :: rest) =
          quote :: (string ++ [quote]) ++ (white ++ behindWhite rest) := by
        rw [← hrest]
        simp
      have hno := noWhite_behindWhite rest
      rw [hexpr, parseAttribute_quoted hquoted hw hno]
      split
      · exact .quoted hquoted hw hno rfl
      · next hsym =>
        by_cases hs : string = []
        · rw [hs]
          exact .empty
        · refine .attr ⟨hs, Or.inl hquoted⟩ hw ?_ hno rfl
          intro hc
          rw [hc] at hsym
          exact hsym (by decide)
  · have hq' : isQuote (cur expr) = false := by simpa using hq
    obtain ⟨white, hw, hbare, hexpr⟩ := @scan_spec isAttributeChar _ h.noWhite hq'
    have hval : parseAttribute expr = .ok (.next
        (skipWhitespaceReverse (expr.takeWhile isAttributeChar))
        (expr.dropWhile isAttributeChar)) := by
      rw [parseAttribute]
      simp only [charAt_zero, ok_bind, hq']
      rfl
    rw [hval]
    by_cases hs : skipWhitespaceReverse (expr.takeWhile isAttributeChar) = []
    · rw [hs]
      exact .empty
    · have hstops := stops_dropWhile isAttributeChar expr
      refine .attr ⟨hs, Or.inr ⟨rfl, hbare, ?_⟩⟩ hw ?_ (hstops.noWhite white_attributeChar) hexpr
      · intro c hc
        have hcur : cur expr = c := by
          obtain ⟨rest, hrest⟩ := head?_eq_iff.mp hc
          rw [hexpr, hrest]
          rfl
        exact ⟨hcur ▸ h.group, hcur ▸ h.close⟩
      · intro hc
        obtain ⟨rest, hrest⟩ := (cur_eq_iff (by decide)).mp hc
        have := hstops ')' (by rw [hrest]; rfl)
        exact absurd this (by decide)

/-! ## The symbol -/

theorem Symbol.isSymbolChar {symbol : List Char} {fOp : ops} (h : Symbol symbol fOp)
    (rest : List Char) : isSymbolChar (cur (symbol ++ rest)) = true := by
  cases h <;> rfl

theorem cur_ne_of_head? {string : List Char} {c : Char} (hc : c ≠ '\x00')
    (h : string.head? ≠ some c) : cur string ≠ c := by
  intro hcur
  obtain ⟨rest, hrest⟩ := (cur_eq_iff hc).mp hcur
  exact h (by rw [hrest]; rfl)

theorem parseSymbol_symbol {symbol : List Char} {fOp : ops} (h : Symbol symbol fOp)
    {rest : List Char} (hlong : symbol.length = 1 → rest.head? ≠ some '=') (expr : List Char) :
    parseSymbol expr (symbol ++ rest) = .ok (.next fOp (symbol ++ rest)) ∧
      skipSymbol (symbol ++ rest) = .ok (behindWhite rest) := by
  have hcur : symbol.length = 1 → cur rest ≠ '=' := fun hl => cur_ne_of_head? (by decide) (hlong hl)
  cases h <;> first
    | simp [parseSymbol, skipSymbol, hcur rfl]
    | simp [parseSymbol, skipSymbol]

/-- What `parseSymbol` has done: it has found a symbol, or it returns. -/
theorem parseSymbol_spec (expr string : List Char) :
    (∃ symbol fOp rest, Symbol symbol fOp ∧ (symbol.length = 1 → rest.head? ≠ some '=') ∧
      string = symbol ++ rest) ∨
    ∃ rest, parseSymbol expr string = .ok (.returns rest) ∧ (rest = expr ∨ rest = string) := by
  rcases string with _ | ⟨c, rest⟩
  · exact Or.inr ⟨[], by simp [parseSymbol], Or.inr rfl⟩
  by_cases hc : c = '=' ∨ c = '<' ∨ c = '>' ∨ c = '!'
  · by_cases hnext : rest.head? = some '='
    · obtain ⟨rest', rfl⟩ := head?_eq_iff.mp hnext
      left
      rcases hc with rfl | rfl | rfl | rfl
      · exact ⟨['=', '='], _, rest', .equal', by simp, rfl⟩
      · exact ⟨['<', '='], _, rest', .lessOrEqual, by simp, rfl⟩
      · exact ⟨['>', '='], _, rest', .greaterOrEqual, by simp, rfl⟩
      · exact ⟨['!', '='], _, rest', .unequal, by simp, rfl⟩
    · rcases hc with rfl | rfl | rfl | rfl
      · exact Or.inl ⟨['='], _, rest, .equal, fun _ => hnext, rfl⟩
      · exact Or.inl ⟨['<'], _, rest, .less, fun _ => hnext, rfl⟩
      · exact Or.inl ⟨['>'], _, rest, .greater, fun _ => hnext, rfl⟩
      · have hcur := cur_ne_of_head? (c := '=') (by decide) hnext
        exact Or.inr ⟨expr, by simp [parseSymbol, hcur], Or.inl rfl⟩
  · simp only [not_or] at hc
    obtain ⟨h1, h2, h3, h4⟩ := hc
    exact Or.inr ⟨c :: rest, by simp [parseSymbol, h1, h2, h3, h4], Or.inr rfl⟩

/-! ## The value -/

theorem parseValue_text {text string white rest expr : List Char} (h : ValueText text string)
    (hw : White white) (hne : text = [] → white = []) (hr : Stops isValueChar rest) :
    parseValue expr (text ++ (white ++ rest)) = .ok (.next string rest) := by
  rcases h with ⟨quote, hq, hbody, rfl⟩ | ⟨rfl, hbare⟩
  · have hloop := quotedLoop_closed hq hbody (white ++ rest)
    have happ : quote :: (string ++ [quote]) ++ (white ++ rest) =
        quote :: (string ++ quote :: (white ++ rest)) := by simp
    rw [happ, parseValue]
    simp [hq, parseQuotedString_cons, hloop, behindWhite_append hw (hr.noWhite white_valueChar)]
  · obtain ⟨hscan, hdrop⟩ := scan_bare white_valueChar hbare hw hne hr
    have hq : isQuote (cur (text ++ (white ++ rest))) = false := by
      rcases text with _ | ⟨c, tail⟩
      · rw [hne rfl]
        rcases rest with _ | ⟨c, tail⟩
        · rfl
        · have hstop := hr c rfl
          show isQuote c = false
          cases hquote : isQuote c with
          | false => rfl
          | true => rcases (isQuote_iff c).mp hquote with rfl | rfl <;> simp [isValueChar] at hstop
      · exact (hbare.head c rfl).2
    rw [parseValue]
    simp only [charAt_zero, ok_bind, hq, hscan, hdrop]
    rfl

/-- What `parseValue` has done. -/
inductive ValueResult (expr string : List Char) : Except Fault (Parsed (List Char)) → Prop
  | fault : TrailingEscape string → ValueResult expr string (.error .behindNul)
  | unread : ValueResult expr string (.ok (.returns expr))
  | value {text value white rest : List Char} : ValueText text value → White white →
      NoWhite rest → string = text ++ (white ++ rest) →
      ValueResult expr string (.ok (.next value rest))

theorem parseValue_spec (expr : List Char) {string : List Char} (h : NoWhite string) :
    ValueResult expr string (parseValue expr string) := by
  by_cases hq : isQuote (cur string) = true
  · obtain ⟨quote, tail, rfl⟩ : ∃ quote tail, string = quote :: tail := by
      rcases string with _ | ⟨c, tail⟩
      · simp [isQuote] at hq
      · exact ⟨c, tail, rfl⟩
    have hq' : isQuote quote = true := hq
    rcases hl : quotedLoop quote tail with f | (_ | ⟨value, rest⟩)
    · obtain ⟨rfl, text, hb, rfl⟩ := quotedLoop_error hl
      have : parseValue expr (quote :: (text ++ ['\\'])) = .error .behindNul := by
        rw [parseValue]
        simp [hq', parseQuotedString_cons, hl]
      rw [this]
      exact .fault ⟨quote, text, hq', hb, rfl⟩
    · have : parseValue expr (quote :: tail) = .ok (.returns expr) := by
        rw [parseValue]
        simp [hq', parseQuotedString_cons, hl]
      rw [this]
      exact .unread
    · obtain ⟨hb, rfl, rest, rfl⟩ := quotedLoop_some hl
      obtain ⟨white, hw, hrest⟩ := exists_white rest
      have hval : parseValue expr (quote :: (value ++ quote :: rest)) =
          .ok (.next value (behindWhite rest)) := by
        rw [parseValue]
        simp [hq', parseQuotedString_cons, hl]
      rw [hval]
      refine .value (Or.inl ⟨quote, hq', hb, rfl⟩) hw (noWhite_behindWhite rest) ?_
      rw [← hrest]
      simp
  · have hq' : isQuote (cur string) = false := by simpa using hq
    obtain ⟨white, hw, hbare, hstring⟩ := @scan_spec isValueChar _ h hq'
    have hval : parseValue expr string = .ok (.next
        (skipWhitespaceReverse (string.takeWhile isValueChar))
        (string.dropWhile isValueChar)) := by
      rw [parseValue]
      simp only [charAt_zero, ok_bind, hq']
      rfl
    rw [hval]
    exact .value (Or.inr ⟨rfl, hbare⟩) hw
      ((stops_dropWhile isValueChar string).noWhite white_valueChar) hstring

/-! ## The equation -/

/-- The text of an equation the parser gives up behind: a quoted attribute without a symbol, or a
comparison whose value is not a valid pattern. -/
inductive FailedEquation : List Char → Prop
  | noSymbol {text string white : List Char} : Quoted text string → White white →
      FailedEquation (text ++ white)
  | pattern {text attr string : List Char} {fOp : ops} : Comparison text attr fOp string →
      attr.length < INODE_FILE_NAME_LENGTH → string.length < INODE_FILE_NAME_LENGTH →
      fOp = OP_EQUAL ∨ fOp = OP_UNEQUAL → isPattern string = true →
      isValidPattern string ≠ .B_OK → FailedEquation text

/-- An equation whose quoted attribute or value ends with the string, behind a backslash. -/
inductive EscapedEquation : List Char → Prop
  | attr {text : List Char} : TrailingEscape text → EscapedEquation text
  | value {text attr value : List Char} {fOp : ops} : Comparing text attr fOp value →
      attr.length < INODE_FILE_NAME_LENGTH → TrailingEscape value → EscapedEquation (text ++ value)

theorem copyString_eq (string : List Char) :
    CopyString string = if string.length < INODE_FILE_NAME_LENGTH then some string else none := by
  by_cases h : string.length < INODE_FILE_NAME_LENGTH
  · rw [if_pos h, CopyString, if_neg (by omega)]
  · rw [if_neg h, CopyString, if_pos (by omega)]

/-- Behind an attribute and a symbol the constructor goes on with the value. -/
theorem newEquation_comparing {text attr next rest : List Char} {fOp : ops}
    (h : Comparing text attr fOp next) (hr : rest.head? ≠ some '=') :
    newEquation (text ++ (next ++ rest)) =
      if attr.length < INODE_FILE_NAME_LENGTH then
        equationValue fOp attr (text ++ (next ++ rest)) (behindWhite (next ++ rest))
      else .ok (⟨fOp, none, none, false, false⟩, text ++ (next ++ rest)) := by
  obtain ⟨htext, hw, hsym, hw', hlong⟩ := h
  next text white symbol white' =>
  have hlong' : symbol.length = 1 → (white' ++ (next ++ rest)).head? ≠ some '=' := by
    intro hl
    have hl' := hlong hl
    rw [← append_assoc]
    rcases hnil : white' ++ next with _ | ⟨c, tail⟩
    · simpa using hr
    · rw [hnil] at hl'
      simpa using hl'
  have hattr := parseAttribute_text htext hw (hsym.isSymbolChar (white' ++ (next ++ rest)))
  obtain ⟨hsymbol, hskip⟩ := parseSymbol_symbol hsym hlong'
    (text ++ (white ++ (symbol ++ (white' ++ (next ++ rest)))))
  have hwhite : behindWhite (white' ++ (next ++ rest)) = behindWhite (next ++ rest) := by
    rw [behindWhite, dropWhile_append_of_pos (fun c hc => hw' c hc)]
    rfl
  simp only [append_assoc] at hattr ⊢
  rw [newEquation]
  simp only [hattr, ok_bind, if_neg htext.1, hsymbol, hskip, hwhite, copyString_eq]
  by_cases ha : attr.length < INODE_FILE_NAME_LENGTH
  · simp only [if_pos ha]
  · simp only [if_neg ha]
    rfl

theorem ValueText.noWhite {text string : List Char} (h : ValueText text string) : NoWhite text := by
  rcases h with ⟨quote, hq, -, rfl⟩ | ⟨rfl, hbare⟩
  · intro c hc
    cases hc
    rcases (isQuote_iff quote).mp hq with rfl | rfl <;> rfl
  · exact fun c hc => (hbare.head c hc).1

theorem checkPattern_eq (fOp : ops) (string : List Char) :
    checkPattern fOp string = (decide (fOp = OP_EQUAL ∨ fOp = OP_UNEQUAL) && isPattern string,
      if (fOp = OP_EQUAL ∨ fOp = OP_UNEQUAL) ∧ isPattern string = true ∧
        isValidPattern string ≠ .B_OK then none else some string) := by
  rw [checkPattern]
  split
  · next h =>
    split
    · next hp => simp [h, hp]
    · next hp => simp [h, hp]
  · next h => simp [h]

/-- The constructor on a comparison whose strings are not too long. -/
theorem newEquation_comparison {text attr string rest : List Char} {fOp : ops}
    (h : Comparison text attr fOp string) (ha : attr.length < INODE_FILE_NAME_LENGTH)
    (hs : string.length < INODE_FILE_NAME_LENGTH) (hr : Stops isValueChar rest) :
    newEquation (text ++ rest) = .ok (⟨fOp, some attr, (checkPattern fOp string).2,
      (checkPattern fOp string).1, decide (attr = "last_modified".toList)⟩, rest) := by
  obtain ⟨hcomp, hvalue, hw⟩ := h
  next text value white =>
  have hrest : (white ++ rest).head? ≠ some '=' := by
    intro hhead
    rcases white with _ | ⟨c, tail⟩
    · exact absurd (hr '=' hhead) (by decide)
    · have hc : c = '=' := by simpa using hhead
      exact absurd (hw c (mem_cons_self ..)) (by rw [hc]; decide)
  have hval : ∀ expr, parseValue expr (behindWhite (value ++ (white ++ rest))) =
      .ok (.next string rest) := by
    intro expr
    by_cases hnil : value = []
    · have : behindWhite (value ++ (white ++ rest)) = [] ++ ([] ++ rest) := by
        rw [hnil]
        exact behindWhite_append hw (hr.noWhite white_valueChar)
      rw [this]
      exact parseValue_text (hnil ▸ hvalue) White.nil (fun _ => rfl) hr
    · have : behindWhite (value ++ (white ++ rest)) = value ++ (white ++ rest) := by
        apply behindWhite_of_noWhite
        intro c hc
        obtain ⟨d, tail, rfl⟩ := exists_cons_of_ne_nil hnil
        exact hvalue.noWhite c hc
      rw [this]
      exact parseValue_text hvalue hw (fun hn => absurd hn hnil) hr
  have := newEquation_comparing hcomp hrest
  rw [if_pos ha, equationValue, hval] at this
  simp only [append_assoc]
  rw [this]
  simp only [ok_bind, copyString_eq, if_pos hs]
  rfl

theorem newEquation_accepted {text attr string rest : List Char} {fOp : ops}
    (h : Comparison text attr fOp string) (ha : Accepted attr fOp string)
    (hr : Stops isValueChar rest) :
    newEquation (text ++ rest) = .ok (comparisonEquation attr fOp string, rest) := by
  have hnot : ¬ ((fOp = OP_EQUAL ∨ fOp = OP_UNEQUAL) ∧ isPattern string = true ∧
      isValidPattern string ≠ .B_OK) := fun hn => hn.2.2 (ha.2.2 hn.1 hn.2.1)
  rw [newEquation_comparison h ha.1 ha.2.1 hr, checkPattern_eq, if_neg hnot]
  rfl

theorem newEquation_failed {text rest : List Char} (h : FailedEquation text) :
    ∃ equation, newEquation (text ++ ')' :: rest) = .ok (equation, ')' :: rest) ∧
      equation.InitCheck ≠ .B_OK := by
  rcases h with ⟨hq, hw⟩ | ⟨hcomp, ha, hs, hop, hp, hv⟩
  · next text string white =>
    have hno : NoWhite (')' :: rest) := by
      intro c hc
      cases hc
      rfl
    have hattr : parseAttribute (text ++ (white ++ ')' :: rest)) =
        .ok (.returns (')' :: rest)) := by
      rw [parseAttribute_quoted hq hw hno]
      simp
    refine ⟨⟨OP_EQUATION, none, none, false, false⟩, ?_, by decide⟩
    rw [append_assoc, newEquation, hattr]
    rfl
  · have hr : Stops isValueChar (')' :: rest) := by
      intro c hc
      cases hc
      rfl
    refine ⟨_, newEquation_comparison hcomp ha hs hr, ?_⟩
    rw [checkPattern_eq, if_pos ⟨hop, hp, hv⟩]
    simp [Equation.InitCheck]

theorem TrailingEscape.quote {text : List Char} (h : TrailingEscape text) :
    ∃ quote tail, isQuote quote = true ∧ text = quote :: tail ∧
      ParseQuotedString text = .error .behindNul := by
  obtain ⟨quote, string, hq, hb, rfl⟩ := h
  exact ⟨quote, _, hq, rfl, by rw [parseQuotedString_cons, quotedLoop_trailing hq hb]⟩

theorem newEquation_escaped {text : List Char} (h : EscapedEquation text) :
    newEquation text = .error .behindNul := by
  rcases h with h | ⟨hcomp, ha, htrail⟩
  · obtain ⟨quote, tail, hq, rfl, hparse⟩ := h.quote
    have hattr : parseAttribute (quote :: tail) = .error .behindNul := by
      simp [parseAttribute, hq, hparse]
    rw [newEquation, hattr]
    rfl
  · obtain ⟨quote, tail, hq, rfl, hparse⟩ := htrail.quote
    have hno : NoWhite (quote :: tail) := by
      intro c hc
      cases hc
      rcases (isQuote_iff quote).mp hq with rfl | rfl <;> rfl
    have hval : ∀ expr, parseValue expr (quote :: tail) = .error .behindNul := by
      intro expr
      simp [parseValue, hq, hparse]
    have := @newEquation_comparing _ _ _ [] _ hcomp (by simp)
    rw [append_nil, if_pos ha, behindWhite_of_noWhite hno, equationValue, hval] at this
    exact this

/-- What `newEquation` has done. -/
inductive EquationResult (expr : List Char) : Except Fault (Equation × List Char) → Prop
  | fault : EscapedEquation expr → EquationResult expr (.error .behindNul)
  | failed {equation : Equation} {rest : List Char} : equation.InitCheck ≠ .B_OK → NoWhite rest →
      (∀ rest', rest = ')' :: rest' → ∃ text, FailedEquation text ∧ expr = text ++ rest) →
      EquationResult expr (.ok (equation, rest))
  | comparison {text attr string rest : List Char} {fOp : ops} :
      Comparison text attr fOp string → Accepted attr fOp string → NoWhite rest →
      expr = text ++ rest →
      EquationResult expr (.ok (comparisonEquation attr fOp string, rest))

theorem newEquation_spec {expr : List Char} (h : AtEquation expr) :
    EquationResult expr (newEquation expr) := by
  -- a return with `*expr` left where it was fails, and not at a bracket
  have hstart : ∀ equation : Equation, equation.InitCheck ≠ .B_OK →
      EquationResult expr (.ok (equation, expr)) := by
    intro equation hinit
    refine .failed hinit h.noWhite fun rest' hrest => ?_
    exact absurd (by rw [hrest]; rfl) h.close
  have hinit : ∀ (fOp : ops) (fAttribute : Option (List Char)),
      Equation.InitCheck ⟨fOp, fAttribute, none, false, false⟩ ≠ .B_OK := by
    intro fOp fAttribute
    simp [Equation.InitCheck]
  have hattr := parseAttribute_spec h
  rw [newEquation]
  generalize parseAttribute expr = result at hattr
  rcases hattr with htrail | - | ⟨hq, hw, hno, hexpr⟩ | - | ⟨htext, hw, hcur, hno, hexpr⟩
  · exact .fault (.attr htrail)
  · exact hstart _ (hinit _ _)
  · refine .failed (hinit _ _) hno fun rest' hrest => ?_
    exact ⟨_, .noSymbol hq hw, by rw [hexpr, append_assoc]⟩
  · exact hstart _ (hinit _ _)
  next text attr white rest =>
  simp only [ok_bind, if_neg htext.1]
  rcases parseSymbol_spec expr rest with ⟨symbol, fOp, tail, hsym, hlong, rfl⟩ |
    ⟨rest', hret, hrest'⟩
  swap
  · rw [hret]
    rcases hrest' with rfl | rfl
    · exact hstart _ (hinit _ _)
    · refine .failed (hinit _ _) hno fun rest'' hr => ?_
      exact absurd (by rw [hr]; rfl) hcur
  obtain ⟨hsymbol, hskip⟩ := parseSymbol_symbol hsym hlong expr
  rw [hsymbol]
  simp only [ok_bind, hskip, copyString_eq]
  by_cases ha : attr.length < INODE_FILE_NAME_LENGTH
  swap
  · rw [if_neg ha]
    exact hstart _ (hinit _ _)
  rw [if_pos ha]
  obtain ⟨white', hw', htail⟩ := exists_white tail
  have hcomp : ∀ next rest : List Char, behindWhite tail = next ++ rest →
      Comparing (text ++ (white ++ (symbol ++ white'))) attr fOp next := by
    intro next rest hsplit
    refine .mk htext hw hsym hw' fun hl hhead => hlong hl ?_
    obtain ⟨rest', hrest'⟩ := head?_eq_iff.mp hhead
    rw [htail, hsplit, ← append_assoc, hrest']
    rfl
  have hvalue := parseValue_spec expr (noWhite_behindWhite tail)
  simp only [equationValue]
  generalize parseValue expr (behindWhite tail) = result at hvalue
  rcases hvalue with htrail | - | ⟨hvt, hwv, hnov, hsplit⟩
  · refine .fault ?_
    have := EscapedEquation.value (hcomp _ [] (append_nil _).symm) ha htrail
    rw [hexpr, htail]
    simpa using this
  · exact hstart _ (hinit _ _)
  next vtext value vwhite vrest =>
  simp only [ok_bind, copyString_eq]
  by_cases hs : value.length < INODE_FILE_NAME_LENGTH
  swap
  · rw [if_neg hs]
    exact hstart _ (hinit _ _)
  rw [if_pos hs]
  have hcomparison := Comparison.mk (hcomp _ _ hsplit) hvt hwv
  have hall : expr = text ++ (white ++ (symbol ++ white')) ++ (vtext ++ vwhite) ++ vrest := by
    rw [hexpr, htail, hsplit]
    simp
  simp only [checkPattern_eq]
  by_cases hbad : (fOp = OP_EQUAL ∨ fOp = OP_UNEQUAL) ∧ isPattern value = true ∧
      isValidPattern value ≠ .B_OK
  · rw [if_pos hbad]
    refine .failed (by simp [Equation.InitCheck]) hnov fun rest' _ => ?_
    exact ⟨_, .pattern hcomparison ha hs hbad.1 hbad.2.1 hbad.2.2, hall⟩
  · rw [if_neg hbad]
    refine .comparison hcomparison ⟨ha, hs, fun hop hp => ?_⟩ hnov hall
    by_contra hv
    exact hbad ⟨hop, hp, hv⟩

theorem comparisonEquation_initCheck {attr string : List Char} {fOp : ops} (h : fOp.Compares) :
    (comparisonEquation attr fOp string).InitCheck = .B_OK := by
  have hne : fOp ≠ OP_NONE := fun hn => absurd (hn ▸ h) (by decide)
  simp [Equation.InitCheck, comparisonEquation, hne]

end BFS
