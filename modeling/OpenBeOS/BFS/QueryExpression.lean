import OpenBeOS.BFS.QueryOutcome

/-! # The expressions the parser accepts

The converse of `parse_outcome`: on a text of the grammar the parse functions yield its tree, on a
failed text `NULL`, and on a faulty text they fault; all of this unless the depth is exhausted.
Together they settle what `Expression` does: `expression_safe_iff` says on which strings it is
safe, `expression_tree_iff` which strings it accepts.
-/

namespace BFS

open ops List

/-! ## Results up to the depth -/

/-- The result, if the depth has sufficed. -/
def UpToDepth (result expected : Except Fault (Term × List Char)) : Prop :=
  result = .error .depth ∨ result = expected

theorem behindWhite_idem (string : List Char) :
    behindWhite (behindWhite string) = behindWhite string :=
  behindWhite_of_noWhite (noWhite_behindWhite string)

section

variable (depth : Nat) (string : List Char)

theorem parseEquation_behindWhite :
    ParseEquation depth (behindWhite string) = ParseEquation depth string := by
  cases depth with
  | zero => rw [ParseEquation, ParseEquation]
  | succ depth => rw [parseEquation_eq, parseEquation_eq, behindWhite_idem]

theorem parseAnd_behindWhite :
    ParseAnd depth (behindWhite string) = ParseAnd depth string := by
  cases depth with
  | zero => rw [ParseAnd, ParseAnd]
  | succ depth => rw [ParseAnd, ParseAnd, parseEquation_behindWhite]

theorem parseOr_behindWhite :
    ParseOr depth (behindWhite string) = ParseOr depth string := by
  cases depth with
  | zero => rw [ParseOr, ParseOr]
  | succ depth => rw [ParseOr, ParseOr, parseAnd_behindWhite]

end

theorem parseEquation_group {white : List Char} (hw : White white) (depth : Nat)
    (inner : List Char) :
    ParseEquation (depth + 1) (white ++ '(' :: inner) =
      (ParseOr depth inner).bind fun r => closeGroup false r.1 r.2 := by
  have hbehind : behindWhite (white ++ '(' :: inner) = '(' :: inner :=
    behindWhite_append hw (by intro c hc; cases hc; rfl)
  rw [parseEquation_eq, hbehind, tail_cons, cur_cons, if_neg (by decide), if_neg (by decide),
    if_pos rfl, parseOr_behindWhite]

theorem parseEquation_negated {white white' : List Char} (hw : White white) (hw' : White white')
    (depth : Nat) (inner : List Char) :
    ParseEquation (depth + 1) (white ++ '!' :: (white' ++ '(' :: inner)) =
      (ParseOr depth inner).bind fun r => closeGroup true r.1 r.2 := by
  have hbehind : behindWhite (white ++ '!' :: (white' ++ '(' :: inner)) =
      '!' :: (white' ++ '(' :: inner) :=
    behindWhite_append hw (by intro c hc; cases hc; rfl)
  have hbehind' : behindWhite (white' ++ '(' :: inner) = '(' :: inner :=
    behindWhite_append hw' (by intro c hc; cases hc; rfl)
  rw [parseEquation_eq, hbehind, tail_cons, hbehind', tail_cons, parseOr_behindWhite]
  rfl

theorem parseEquation_equation {white expr : List Char} (hw : White white) (h : AtEquation expr)
    (hnot : cur expr ≠ '!') (depth : Nat) :
    ParseEquation (depth + 1) (white ++ expr) = equationTerm expr := by
  rw [parseEquation_eq, behindWhite_append hw h.noWhite, if_neg hnot, if_neg h.close,
    if_neg h.group]

variable {op : Char}

theorem isOperator_cons (rest : List Char) :
    IsOperator (op :: op :: rest) op = .ok (some rest) := by
  simp [IsOperator]

theorem isOperator_none (hop : op ≠ '\x00') {string : List Char}
    (h : NoOperator op string) : IsOperator string op = .ok none := by
  rcases isOperator_eq hop string with ⟨rest, hrest, -⟩ | ⟨-, hnone⟩
  · exact absurd hrest (h rest)
  · exact hnone

/-! ## Trees -/

theorem quoted_atEquation {text string rest : List Char} (h : Quoted text string) :
    AtEquation (text ++ rest) ∧ cur (text ++ rest) ≠ '!' := by
  obtain ⟨quote, hq, -, rfl⟩ := h
  rcases (isQuote_iff quote).mp hq with rfl | rfl
  · have hcur : cur ('"' :: (string ++ ['"']) ++ rest) = '"' := rfl
    exact ⟨⟨by intro c hc; cases hc; rfl, by rw [hcur]; decide, by rw [hcur]; decide⟩,
      by rw [hcur]; decide⟩
  · have hcur : cur ('\'' :: (string ++ ['\'']) ++ rest) = '\'' := rfl
    exact ⟨⟨by intro c hc; cases hc; rfl, by rw [hcur]; decide, by rw [hcur]; decide⟩,
      by rw [hcur]; decide⟩

theorem AttributeText.atEquation {text string rest : List Char} (h : AttributeText text string) :
    AtEquation (text ++ rest) ∧ cur (text ++ rest) ≠ '!' := by
  rcases h with ⟨hne, hq | ⟨rfl, hbare, hhead⟩⟩
  · exact quoted_atEquation hq
  · obtain ⟨c, tail, rfl⟩ := exists_cons_of_ne_nil hne
    refine ⟨⟨?_, (hhead c rfl).1, (hhead c rfl).2⟩, ?_⟩
    · intro d hd
      cases hd
      exact (hbare.head c rfl).1
    · have := hbare.chars c (mem_cons_self ..)
      intro hc
      rw [show c = '!' from hc] at this
      exact absurd this (by decide)

theorem Comparing.atEquation {text attr next rest : List Char} {fOp : ops}
    (h : Comparing text attr fOp next) :
    AtEquation (text ++ rest) ∧ cur (text ++ rest) ≠ '!' := by
  obtain ⟨ht, -, -, -, -⟩ := h
  rw [append_assoc]
  exact ht.atEquation

theorem Comparison.atEquation {text attr string rest : List Char} {fOp : ops}
    (h : Comparison text attr fOp string) :
    AtEquation (text ++ rest) ∧ cur (text ++ rest) ≠ '!' := by
  obtain ⟨ht, -, -⟩ := h
  rw [append_assoc]
  exact ht.atEquation

theorem stops_close (rest : List Char) : Stops isValueChar (')' :: rest) := by
  intro c hc
  cases hc
  rfl

theorem stops_operator (h : op = '&' ∨ op = '|') (rest : List Char) :
    Stops isValueChar (op :: op :: rest) := by
  intro c hc
  cases hc
  rcases h with rfl | rfl <;> rfl

theorem noOperator_close (op : Char) (h : op ≠ ')') (rest : List Char) :
    NoOperator op (')' :: rest) := by
  intro rest' hrest'
  exact h (List.cons.inj hrest').1.symm

theorem closeGroup_text {f : Formula} (h : f.toTerm.WellFormed) (not : Bool)
    {white rest : List Char} (hw : White white) (hr : NoWhite rest) :
    closeGroup not f.toTerm (')' :: (white ++ rest)) =
      .ok ((if not then f.not else f).toTerm, rest) := by
  have hno : NoWhite (')' :: (white ++ rest)) := (stops_close _).noWhite white_valueChar
  rw [closeGroup_tree h, behindWhite_of_noWhite hno, tail_cons, behindWhite_append hw hr]
  rfl

theorem orLoop_stop (t : Term) {rest : List Char} (h : NoOperator '|' rest) (depth : Nat) :
    UpToDepth (orLoop depth t rest) (.ok (t, rest)) := by
  cases depth with
  | zero => exact Or.inl (by rw [orLoop])
  | succ depth =>
    right
    rw [orLoop, isOperator_none (by decide) h]
    rfl

mutual

theorem EquationText.parse : ∀ {text : List Char} {f : Formula}, EquationText Accepted text f →
    ∀ (rest : List Char), Stops isValueChar rest → ∀ depth,
      UpToDepth (ParseEquation depth (text ++ rest)) (.ok (f.toTerm, rest))
  | _, _, _, _, _, 0 => Or.inl (by rw [ParseEquation])
  | _, _, .comparison hw hc ha, rest, hr, depth + 1 => by
    right
    obtain ⟨hat, hnot⟩ := @Comparison.atEquation _ _ _ rest _ hc
    rw [append_assoc, parseEquation_equation hw hat hnot, equationTerm,
      newEquation_accepted hc ha hr, ok_bind]
    simp only [comparisonEquation_initCheck hc.compares, ne_eq, not_true_eq_false, if_false]
    rfl
  | _, f, .group hw ht hw', rest, hr, depth + 1 => by
    rw [append_assoc, cons_append, parseEquation_group hw, append_assoc, cons_append]
    rcases ht.parse _ (stops_close _) (noOperator_close _ (by decide) _)
      (noOperator_close _ (by decide) _) depth with h | h
    · exact Or.inl (by rw [h]; rfl)
    · right
      rw [h]
      exact closeGroup_text ht.wellFormed false hw' (hr.noWhite white_valueChar)
  | _, _, .negated hw hw' ht hw'', rest, hr, depth + 1 => by
    rw [append_assoc, cons_append, append_assoc, cons_append,
      parseEquation_negated hw hw', append_assoc, cons_append]
    rcases ht.parse _ (stops_close _) (noOperator_close _ (by decide) _)
      (noOperator_close _ (by decide) _) depth with h | h
    · exact Or.inl (by rw [h]; rfl)
    · right
      rw [h]
      exact closeGroup_text ht.wellFormed true hw'' (hr.noWhite white_valueChar)

theorem AndText.parse : ∀ {text : List Char} {f : Formula}, AndText Accepted text f →
    ∀ (rest : List Char), Stops isValueChar rest → NoOperator '&' rest → ∀ depth,
      UpToDepth (ParseAnd depth (text ++ rest)) (.ok (f.toTerm, rest))
  | _, _, _, _, _, _, 0 => Or.inl (by rw [ParseAnd])
  | _, _, .equation h, rest, hr, hop, depth + 1 => by
    rw [ParseAnd]
    rcases h.parse rest hr depth with heq | heq
    · exact Or.inl (by rw [heq]; rfl)
    · rw [heq, ok_bind]
      simp only [if_neg h.wellFormed.ne_null]
      cases depth with
      | zero => exact Or.inl (by rw [andLoop])
      | succ depth =>
        right
        rw [andLoop, isOperator_none (by decide) hop]
        rfl
  | _, _, @AndText.and _ text text' f g h h', rest, hr, hop, depth + 1 => by
    have happ : ∀ text : List Char, text ++ '&' :: '&' :: text' ++ rest =
        text ++ '&' :: '&' :: (text' ++ rest) := by simp
    rw [ParseAnd, happ]
    rcases h.parse _ (stops_operator (Or.inl rfl) _) depth with heq | heq
    · exact Or.inl (by rw [heq]; rfl)
    · rw [heq, ok_bind]
      simp only [if_neg h.wellFormed.ne_null]
      cases depth with
      | zero => exact Or.inl (by rw [andLoop])
      | succ depth =>
        rw [andLoop, isOperator_cons, ok_bind]
        rcases h'.parse rest hr hop depth with heq' | heq'
        · exact Or.inl (by simp only [heq', error_bind])
        · simp only [heq', ok_bind, if_neg h'.wellFormed.ne_null]
          cases depth with
          | zero => exact Or.inl (by rw [andLoop])
          | succ depth =>
            right
            rw [andLoop, isOperator_none (by decide) hop]
            rfl

theorem OrText.parseLoop : ∀ {text : List Char} {f : Formula}, OrText Accepted text f →
    ∀ (rest : List Char), Stops isValueChar rest → NoOperator '&' rest → ∀ depth,
      ∃ depth', UpToDepth (ParseOr depth (text ++ rest)) (orLoop depth' f.toTerm rest)
  | _, _, _, _, _, _, 0 => ⟨0, Or.inl (by rw [ParseOr])⟩
  | _, _, .and h, rest, hr, hop, depth + 1 => by
    refine ⟨depth, ?_⟩
    rw [ParseOr]
    rcases h.parse rest hr hop depth with heq | heq
    · exact Or.inl (by rw [heq]; rfl)
    · right
      rw [heq, ok_bind]
      simp only [if_neg h.wellFormed.ne_null]
  | _, _, @OrText.or _ text text' f g h h', rest, hr, hop, depth + 1 => by
    have happ : ∀ text : List Char, text ++ '|' :: '|' :: text' ++ rest =
        text ++ '|' :: '|' :: (text' ++ rest) := by simp
    rw [happ]
    have hno : NoOperator '&' ('|' :: '|' :: (text' ++ rest)) := by
      intro tail htail
      exact absurd (List.cons.inj htail).1 (by decide)
    obtain ⟨depth', hpar⟩ := h.parseLoop _ (stops_operator (Or.inr rfl) _) hno (depth + 1)
    rcases hpar with hpar | hpar
    · exact ⟨0, Or.inl hpar⟩
    rw [hpar]
    cases depth' with
    | zero => exact ⟨0, Or.inl (by rw [orLoop])⟩
    | succ depth' =>
      refine ⟨depth', ?_⟩
      rw [orLoop, isOperator_cons, ok_bind]
      rcases h'.parse rest hr hop depth' with heq | heq
      · exact Or.inl (by simp only [heq, error_bind])
      · right
        simp only [heq, ok_bind, if_neg h'.wellFormed.ne_null]
        rfl

theorem OrText.parse {text : List Char} {f : Formula} (h : OrText Accepted text f)
    (rest : List Char) (hr : Stops isValueChar rest) (hand : NoOperator '&' rest)
    (hor : NoOperator '|' rest) (depth : Nat) :
    UpToDepth (ParseOr depth (text ++ rest)) (.ok (f.toTerm, rest)) := by
  obtain ⟨depth', hloop⟩ := h.parseLoop rest hr hand depth
  rcases hloop with hloop | hloop
  · exact Or.inl hloop
  · rcases orLoop_stop f.toTerm hor depth' with hstop | hstop
    · exact Or.inl (hloop.trans hstop)
    · exact Or.inr (hloop.trans hstop)

end

/-! ## Faults and failures -/

theorem FailedEquation.atEquation {text rest : List Char} (h : FailedEquation text) :
    AtEquation (text ++ rest) ∧ cur (text ++ rest) ≠ '!' := by
  rcases h with ⟨hq, -⟩ | ⟨hc, -, -, -, -, -⟩
  · rw [append_assoc]
    exact quoted_atEquation hq
  · exact hc.atEquation

theorem EscapedEquation.atEquation {text : List Char} (h : EscapedEquation text) :
    AtEquation text ∧ cur text ≠ '!' := by
  rcases h with ⟨quote, string, hq, -, rfl⟩ | ⟨hc, -, -⟩
  · rcases (isQuote_iff quote).mp hq with rfl | rfl
    · exact ⟨⟨by intro c hc; cases hc; rfl, by simp, by simp⟩, by simp⟩
    · exact ⟨⟨by intro c hc; cases hc; rfl, by simp, by simp⟩, by simp⟩
  · exact hc.atEquation

/-- A property of results the parse functions pass on: of faults, and of some `NULL` terms. -/
structure PassedOn (Q : Except Fault (Term × List Char) → Prop) : Prop where
  depth : Q (.error .depth)
  cases : ∀ result, Q result → (∃ fault, result = .error fault) ∨ ∃ rest, result = .ok (.null, rest)

section Leads

variable {Q : Except Fault (Term × List Char) → Prop} {string : List Char}

theorem PassedOn.bind (hQ : PassedOn Q) (result : Except Fault (Term × List Char))
    (f : Term → List Char → Except Fault (Term × List Char)) (hresult : Q result) :
    Q (result >>= fun r => if r.1 = .null then .ok (.null, r.2) else f r.1 r.2) := by
  rcases hQ.cases result hresult with ⟨fault, rfl⟩ | ⟨rest, rfl⟩
  · exact hresult
  · exact hresult

/-- What `ParseEquation()` results in is the result of `ParseAnd()` behind any `AndPrefix`. -/
theorem AndPrefix.leads (hQ : PassedOn Q) (h : ∀ depth, Q (ParseEquation depth string))
    {text : List Char} (ht : AndPrefix text) :
    ∀ depth, Q (ParseAnd depth (text ++ string)) := by
  induction ht with
  | nil =>
    intro depth
    cases depth with
    | zero => rw [ParseAnd]; exact hQ.depth
    | succ depth => rw [ParseAnd]; exact hQ.bind _ _ (h depth)
  | cons ht _ ih =>
    intro depth
    rw [append_assoc, cons_append, cons_append]
    cases depth with
    | zero => rw [ParseAnd]; exact hQ.depth
    | succ depth =>
      rw [ParseAnd]
      rcases ht.parse _ (stops_operator (Or.inl rfl) _) depth with heq | heq
      · rw [heq]; exact hQ.depth
      · rw [heq, ok_bind]
        simp only [if_neg ht.wellFormed.ne_null]
        cases depth with
        | zero => rw [andLoop]; exact hQ.depth
        | succ depth =>
          rw [andLoop, isOperator_cons, ok_bind]
          exact hQ.bind _ (fun right expr => andLoop depth (.operator OP_AND _ right) expr)
            (ih depth)

/-- The same for `ParseOr()` and for its loop, behind any `OrPrefix`. -/
theorem OrPrefix.leads (hQ : PassedOn Q) (h : ∀ depth, Q (ParseEquation depth string))
    {text : List Char} (ht : OrPrefix text) :
    (∀ depth, Q (ParseOr depth (text ++ string))) ∧
      ∀ depth t, Q (orLoop depth t ('|' :: '|' :: (text ++ string))) := by
  induction ht with
  | and hand =>
    have hled := hand.leads hQ h
    refine ⟨fun depth => ?_, fun depth t => ?_⟩
    · cases depth with
      | zero => rw [ParseOr]; exact hQ.depth
      | succ depth => rw [ParseOr]; exact hQ.bind _ _ (hled depth)
    · cases depth with
      | zero => rw [orLoop]; exact hQ.depth
      | succ depth =>
        rw [orLoop, isOperator_cons, ok_bind]
        exact hQ.bind _ (fun right expr => orLoop depth (.operator OP_OR t right) expr)
          (hled depth)
  | @cons text rest f ht _ ih =>
    have hno : ∀ tail : List Char, NoOperator '&' ('|' :: '|' :: tail) := by
      intro tail tail' htail
      exact absurd (List.cons.inj htail).1 (by decide)
    rw [append_assoc, cons_append, cons_append]
    refine ⟨fun depth => ?_, fun depth t => ?_⟩
    · cases depth with
      | zero => rw [ParseOr]; exact hQ.depth
      | succ depth =>
        rw [ParseOr]
        rcases ht.parse _ (stops_operator (Or.inr rfl) _) (hno _) depth with heq | heq
        · rw [heq]; exact hQ.depth
        · rw [heq, ok_bind]
          simp only [if_neg ht.wellFormed.ne_null]
          exact ih.2 depth _
    · cases depth with
      | zero => rw [orLoop]; exact hQ.depth
      | succ depth =>
        rw [orLoop, isOperator_cons, ok_bind]
        rcases ht.parse ('|' :: '|' :: (rest ++ string)) (stops_operator (Or.inr rfl) _) (hno _)
          depth with heq | heq
        · simp only [heq, error_bind]; exact hQ.depth
        · simp only [heq, ok_bind, if_neg ht.wellFormed.ne_null]
          exact ih.2 depth _

end Leads

/-- On a failed text in front of a closing bracket the result is `NULL`, at the bracket. -/
theorem Failed.parse {text : List Char} (h : Failed text) : ∀ (rest : List Char) depth,
      UpToDepth (ParseEquation depth (text ++ ')' :: rest)) (.ok (.null, ')' :: rest)) := by
  have hpassed : ∀ rest : List Char,
      PassedOn fun result => UpToDepth result (.ok (.null, ')' :: rest)) :=
    fun rest => ⟨Or.inl rfl, fun _ hr => hr.imp (fun h => ⟨_, h⟩) (fun h => ⟨_, h⟩)⟩
  have hno : ∀ rest : List Char, NoWhite (')' :: rest) :=
    fun rest => (stops_close rest).noWhite white_valueChar
  induction h with
  | empty hw =>
    intro rest depth
    cases depth with
    | zero => exact Or.inl (by rw [ParseEquation])
    | succ depth =>
      right
      rw [parseEquation_eq, behindWhite_append hw (hno rest), cur_cons, if_neg (by decide),
        if_pos rfl]
  | not hw hw' =>
    intro rest depth
    cases depth with
    | zero => exact Or.inl (by rw [ParseEquation])
    | succ depth =>
      right
      rw [append_assoc, cons_append, parseEquation_eq,
        behindWhite_append hw (by intro c hc; cases hc; rfl), cur_cons, if_pos rfl,
        tail_cons, behindWhite_append hw' (hno rest), cur_cons, if_neg (by decide)]
  | @group white p q white' hw hp _ hw' ih =>
    intro rest depth
    cases depth with
    | zero => exact Or.inl (by rw [ParseEquation])
    | succ depth =>
      have happ : white ++ '(' :: (p ++ (q ++ ')' :: white')) ++ ')' :: rest =
          white ++ '(' :: (p ++ (q ++ ')' :: (white' ++ ')' :: rest))) := by simp
      rw [happ, parseEquation_group hw]
      rcases (hp.leads (hpassed _) (ih _)).1 depth with heq | heq
      · exact Or.inl (by rw [heq]; rfl)
      · right
        rw [heq]
        show closeGroup false .null _ = _
        rw [closeGroup_null, behindWhite_of_noWhite (hno _), cur_cons, if_pos rfl, tail_cons,
          behindWhite_append hw' (hno rest)]
        rfl
  | equation hw he =>
    intro rest depth
    cases depth with
    | zero => exact Or.inl (by rw [ParseEquation])
    | succ depth =>
      right
      obtain ⟨hat, hnot⟩ := @FailedEquation.atEquation _ (')' :: rest) he
      obtain ⟨equation, heq, hinit⟩ := @newEquation_failed _ rest he
      rw [append_assoc, parseEquation_equation hw hat hnot, equationTerm, heq, ok_bind]
      simp only [ne_eq, hinit, not_false_eq_true, if_true]
      rfl

/-- On a faulty text there is no result. -/
theorem Faulty.parse {text : List Char} (h : Faulty text) :
    ∀ depth, ∃ fault, ParseEquation depth text = .error fault := by
  have hpassed : PassedOn fun result => ∃ fault, result = .error fault :=
    ⟨⟨_, rfl⟩, fun _ hr => Or.inl hr⟩
  have hnull : ∀ rest : List Char,
      PassedOn fun result => UpToDepth result (.ok (.null, ')' :: rest)) :=
    fun rest => ⟨Or.inl rfl, fun _ hr => hr.imp (fun h => ⟨_, h⟩) (fun h => ⟨_, h⟩)⟩
  induction h with
  | escaped hw he =>
    intro depth
    cases depth with
    | zero => exact ⟨_, by rw [ParseEquation]⟩
    | succ depth =>
      obtain ⟨hat, hnot⟩ := he.atEquation
      rw [parseEquation_equation hw hat hnot, equationTerm, newEquation_escaped he]
      exact ⟨_, rfl⟩
  | group hw hp _ ih =>
    intro depth
    cases depth with
    | zero => exact ⟨_, by rw [ParseEquation]⟩
    | succ depth =>
      obtain ⟨fault, hfault⟩ := (hp.leads hpassed ih).1 depth
      exact ⟨fault, by rw [parseEquation_group hw, hfault]; rfl⟩
  | negatedGroup hw hw' hp _ ih =>
    intro depth
    cases depth with
    | zero => exact ⟨_, by rw [ParseEquation]⟩
    | succ depth =>
      obtain ⟨fault, hfault⟩ := (hp.leads hpassed ih).1 depth
      exact ⟨fault, by rw [parseEquation_negated hw hw', hfault]; rfl⟩
  | negatedNull hw hw' hp hq =>
    next rest =>
    intro depth
    cases depth with
    | zero => exact ⟨_, by rw [ParseEquation]⟩
    | succ depth =>
      rw [parseEquation_negated hw hw']
      rcases (hp.leads (hnull rest) (hq.parse rest)).1 depth with heq | heq
      · exact ⟨.depth, by rw [heq]; rfl⟩
      · refine ⟨.nullTerm, ?_⟩
        rw [heq]
        show closeGroup true .null _ = _
        rw [closeGroup_null,
          behindWhite_of_noWhite ((stops_close rest).noWhite white_valueChar), cur_cons,
          if_pos rfl]
        rfl

/-! ## The expression -/

theorem expression_outcome (expr : List Char) :
    OrOutcome (parseDepth expr) expr (ParseOr (parseDepth expr) expr) ∧
      ParseOr (parseDepth expr) expr ≠ .error .depth := by
  have h := (parse_outcome (parseDepth expr)).2.2.2.1 expr
  refine ⟨h, fun hdepth => ?_⟩
  rw [hdepth] at h
  rcases h with hlt | ⟨hne, -⟩
  · rw [parseDepth] at hlt
    omega
  · exact hne rfl

theorem expression_eq (expr : List Char) : Expression expr = ParseOr (parseDepth expr) expr := by
  have h := (expression_outcome expr).1
  rw [Expression]
  generalize ParseOr (parseDepth expr) expr = result at h
  rcases h with - | - | - | ⟨-, hwf, -, -, -⟩
  · rfl
  · rfl
  · rfl
  · simp only [ok_bind, hwf.initCheck]
    simp

/-- `Expression` ends without a fault, with no tree or with one in which every operator has two
children and every equation an attribute, a value and a comparison operator. -/
def ExpressionSafe (expr : List Char) : Prop :=
  ∃ fTerm fPosition, Expression expr = .ok (fTerm, fPosition) ∧ (fTerm = .null ∨ fTerm.WellFormed)

/-- **`Expression` is safe** on all strings but those that lead over complete operands to a quoted
string which ends behind a backslash, or to a failed group that is to be negated. -/
theorem expression_safe_iff (expr : List Char) : ExpressionSafe expr ↔ ¬ OrLed Faulty expr := by
  rw [ExpressionSafe, expression_eq]
  obtain ⟨hout, hdepth⟩ := expression_outcome expr
  constructor
  · rintro ⟨fTerm, fPosition, heq, -⟩ ⟨p, q, hp, hq, rfl⟩
    have hpassed : PassedOn fun result => ∃ fault, result = .error fault :=
      ⟨⟨_, rfl⟩, fun _ hr => Or.inl hr⟩
    obtain ⟨fault, hfault⟩ := (hp.leads hpassed hq.parse).1 (parseDepth (p ++ q))
    rw [hfault] at heq
    cases heq
  · intro hsafe
    generalize ParseOr (parseDepth expr) expr = result at hout hdepth
    rcases hout with - | ⟨-, hfaulty⟩ | ⟨-, -⟩ | ⟨-, hwf, -, -, -⟩
    · exact absurd rfl hdepth
    · exact absurd hfaulty hsafe
    · exact ⟨_, _, rfl, Or.inl rfl⟩
    · exact ⟨_, _, rfl, Or.inr hwf⟩

/-- `!()` is not safe: `Complement()` is called for no term. -/
theorem expression_negated_empty_not_safe : ¬ ExpressionSafe ['!', '(', ')'] := by
  rintro ⟨fTerm, fPosition, heq, -⟩
  cases heq

/-! ## The language -/

section Meaning

variable (compare : List Char → List Char → Bool → Int) {ok : List Char → ops → List Char → Prop}

mutual

theorem EquationText.eval_toTerm : ∀ {text : List Char} {f : Formula}, EquationText ok text f →
    f.toTerm.eval compare = f.eval compare
  | _, _, .comparison _ _ _ => rfl
  | _, _, .group _ h _ => h.eval_toTerm
  | _, _, .negated _ _ h _ => by
    rw [Formula.toTerm, Term.eval_negate compare h.wellFormed, h.eval_toTerm]
    rfl

theorem AndText.eval_toTerm : ∀ {text : List Char} {f : Formula}, AndText ok text f →
    f.toTerm.eval compare = f.eval compare
  | _, _, .equation h => h.eval_toTerm
  | _, _, .and h h' => by
    simp [Formula.toTerm, Term.eval, Formula.eval, h.eval_toTerm, h'.eval_toTerm]

theorem OrText.eval_toTerm : ∀ {text : List Char} {f : Formula}, OrText ok text f →
    f.toTerm.eval compare = f.eval compare
  | _, _, .and h => h.eval_toTerm
  | _, _, .or h h' => by
    simp [Formula.toTerm, Term.eval, Formula.eval, h.eval_toTerm, h'.eval_toTerm]

end

end Meaning

/-- **The strings `Expression` accepts.** It yields a tree and has read the whole string just for
the strings of the grammar whose comparisons are accepted; whenever it yields a tree, the text it
has read is such a string; and the tree means what the formula of that text says. -/
theorem expression_tree_iff (expr : List Char) :
    (∀ fTerm, Expression expr = .ok (fTerm, []) ∧ fTerm ≠ .null ↔
      ∃ f, OrText Accepted expr f ∧ fTerm = f.toTerm) ∧
    (∀ fTerm fPosition, Expression expr = .ok (fTerm, fPosition) → fTerm ≠ .null →
      ∃ text f, expr = text ++ fPosition ∧ OrText Accepted text f ∧ fTerm = f.toTerm ∧
        ∀ compare, fTerm.eval compare = f.eval compare) := by
  have hread : ∀ fTerm fPosition, Expression expr = .ok (fTerm, fPosition) → fTerm ≠ .null →
      ∃ text f, expr = text ++ fPosition ∧ OrText Accepted text f ∧ fTerm = f.toTerm ∧
        ∀ compare, fTerm.eval compare = f.eval compare := by
    intro fTerm fPosition heq hne
    obtain ⟨hout, -⟩ := expression_outcome expr
    rw [expression_eq] at heq
    rw [heq] at hout
    rcases hout with - | - | - | ⟨htext, -, -, -, hsplit⟩
    · exact absurd rfl hne
    · exact ⟨_, _, hsplit, htext, rfl, fun compare => htext.eval_toTerm compare⟩
  refine ⟨fun fTerm => ⟨?_, ?_⟩, hread⟩
  · rintro ⟨heq, hne⟩
    obtain ⟨text, f, hsplit, htext, hterm, -⟩ := hread fTerm [] heq hne
    rw [append_nil] at hsplit
    exact ⟨f, hsplit ▸ htext, hterm⟩
  · rintro ⟨f, htext, rfl⟩
    refine ⟨?_, htext.wellFormed.ne_null⟩
    have hstops : Stops isValueChar [] := by
      intro c hc
      cases hc
    have hno : ∀ op : Char, NoOperator op [] := by
      intro op rest hrest
      cases hrest
    have hparse := htext.parse [] hstops (hno _) (hno _) (parseDepth expr)
    rw [append_nil] at hparse
    rw [expression_eq]
    exact hparse.resolve_left (expression_outcome expr).2

/-- `a=[` is a string of the grammar, but `[` is not a valid pattern. -/
theorem expression_invalid_pattern_not_accepted : ¬ ∀ expr : List Char,
      (∃ fTerm fPosition, Expression expr = .ok (fTerm, fPosition) ∧ fTerm ≠ .null) ↔
        ∃ f, OrText (fun _ _ _ => True) expr f := by
  intro h
  have htext : OrText (fun _ _ _ => True) ['a', '=', '['] (.comparison ['a'] OP_EQUAL ['[']) := by
    have hattr : AttributeText ['a'] ['a'] := by
      refine ⟨by decide, Or.inr ⟨rfl, ⟨?_, ?_, ?_⟩, ?_⟩⟩
      · simp only [mem_singleton, forall_eq]
        decide
      all_goals
        rintro c ⟨⟩
        decide
    have hvalue : ValueText ['['] ['['] := by
      refine Or.inr ⟨rfl, ⟨?_, ?_, ?_⟩⟩
      · simp only [mem_singleton, forall_eq]
        decide
      all_goals
        rintro c ⟨⟩
        decide
    have hcomp : Comparing ['a', '='] ['a'] OP_EQUAL ['['] :=
      .mk hattr White.nil .equal White.nil (by decide)
    exact .and (.equation (.comparison White.nil (.mk hcomp hvalue White.nil) trivial))
  obtain ⟨fTerm, fPosition, heq, hne⟩ := (h _).mpr ⟨_, htext⟩
  have hnull : Expression ['a', '=', '['] = .ok (.null, []) := rfl
  rw [hnull] at heq
  cases heq
  exact hne rfl

end BFS
