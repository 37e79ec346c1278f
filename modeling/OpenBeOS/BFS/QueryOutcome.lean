import OpenBeOS.BFS.QueryEquation

/-! # What the parse functions have read

Every result of a parse function tells about the string: a tree is the tree of a text in front of
the rest, a fault stands at a faulty text, a `NULL` term in front of a closing bracket at a failed
one. The functions reach the equation they fault or fail at over complete operands with their
operators, `AndPrefix` and `OrPrefix`.
-/

namespace BFS

open ops List

/-! ## Texts the parser faults or fails at -/

/-- Equations, with `&&` behind each of them. -/
inductive AndPrefix : List Char → Prop
  | nil : AndPrefix []
  | cons {text rest : List Char} {f : Formula} : EquationText Accepted text f → AndPrefix rest →
      AndPrefix (text ++ '&' :: '&' :: rest)

/-- Operands of `||`, with `||` behind each of them, and then equations with `&&`. -/
inductive OrPrefix : List Char → Prop
  | and {text : List Char} : AndPrefix text → OrPrefix text
  | cons {text rest : List Char} {f : Formula} : AndText Accepted text f → OrPrefix rest →
      OrPrefix (text ++ '|' :: '|' :: rest)

/-- A text that is no equation, so that `ParseEquation()` returns `NULL` behind it if a closing
bracket follows. -/
inductive Failed : List Char → Prop
  | empty {white : List Char} : White white → Failed white
  | not {white white' : List Char} : White white → White white' → Failed (white ++ '!' :: white')
  | group {white text text' white' : List Char} : White white → OrPrefix text → Failed text' →
      White white' → Failed (white ++ '(' :: (text ++ (text' ++ ')' :: white')))
  | equation {white text : List Char} : White white → FailedEquation text → Failed (white ++ text)

/-- A text that makes `ParseEquation()` fault: a quoted string ends behind a backslash, or a group
that is to be negated has failed. -/
inductive Faulty : List Char → Prop
  | escaped {white text : List Char} : White white → EscapedEquation text → Faulty (white ++ text)
  | group {white text text' : List Char} : White white → OrPrefix text → Faulty text' →
      Faulty (white ++ '(' :: (text ++ text'))
  | negatedGroup {white white' text text' : List Char} : White white → White white' →
      OrPrefix text → Faulty text' → Faulty (white ++ '!' :: (white' ++ '(' :: (text ++ text')))
  | negatedNull {white white' text text' rest : List Char} : White white → White white' →
      OrPrefix text → Failed text' →
      Faulty (white ++ '!' :: (white' ++ '(' :: (text ++ (text' ++ ')' :: rest))))

/-- A text of `P` behind an `AndPrefix`. -/
def AndLed (P : List Char → Prop) (string : List Char) : Prop :=
  ∃ text text', AndPrefix text ∧ P text' ∧ string = text ++ text'

/-- A text of `P` behind an `OrPrefix`. -/
def OrLed (P : List Char → Prop) (string : List Char) : Prop :=
  ∃ text text', OrPrefix text ∧ P text' ∧ string = text ++ text'

variable {ok : List Char → ops → List Char → Prop} {P : List Char → Prop}

theorem AndLed.of {string : List Char} (h : P string) : AndLed P string :=
  ⟨[], string, .nil, h, rfl⟩

theorem AndLed.cons {text string : List Char} {f : Formula}
    (ht : EquationText Accepted text f) (h : AndLed P string) :
    AndLed P (text ++ '&' :: '&' :: string) := by
  obtain ⟨p, q, hp, hq, rfl⟩ := h
  exact ⟨_, q, .cons ht hp, hq, by simp⟩

theorem OrLed.of {string : List Char} (h : AndLed P string) : OrLed P string := by
  obtain ⟨p, q, hp, hq, rfl⟩ := h
  exact ⟨p, q, .and hp, hq, rfl⟩

theorem OrLed.cons {text string : List Char} {f : Formula}
    (ht : AndText Accepted text f) (h : OrLed P string) :
    OrLed P (text ++ '|' :: '|' :: string) := by
  obtain ⟨p, q, hp, hq, rfl⟩ := h
  exact ⟨_, q, .cons ht hp, hq, by simp⟩

/-! ## The trees of the grammar -/

mutual

theorem EquationText.wellFormed :
    ∀ {text : List Char} {f : Formula}, EquationText ok text f → f.toTerm.WellFormed
  | _, _, .comparison _ hc _ => ⟨by simp [comparisonEquation], by simp [comparisonEquation],
      hc.compares⟩
  | _, _, .group _ h _ => h.wellFormed
  | _, _, .negated _ _ h _ => h.wellFormed.negate

theorem AndText.wellFormed :
    ∀ {text : List Char} {f : Formula}, AndText ok text f → f.toTerm.WellFormed
  | _, _, .equation h => h.wellFormed
  | _, _, .and h h' => ⟨Or.inl rfl, h.wellFormed, h'.wellFormed⟩

theorem OrText.wellFormed :
    ∀ {text : List Char} {f : Formula}, OrText ok text f → f.toTerm.WellFormed
  | _, _, .and h => h.wellFormed
  | _, _, .or h h' => ⟨Or.inr rfl, h.wellFormed, h'.wellFormed⟩

end

variable {ok : List Char → ops → List Char → Prop} {white text : List Char} {depth : Nat}
  {f : Formula}

theorem EquationText.cons_white (hw : White white) (h : EquationText ok text f) :
    EquationText ok (white ++ text) f := by
  rcases h with ⟨hw', hc, ha⟩ | ⟨hw', ht, hw''⟩ | ⟨hw', hw'', ht, hw'''⟩
  · rw [← append_assoc]
    exact .comparison (hw.append hw') hc ha
  · rw [← append_assoc]
    exact .group (hw.append hw') ht hw''
  · rw [← append_assoc]
    exact .negated (hw.append hw') hw'' ht hw'''

theorem AndText.cons_white (hw : White white) (h : AndText ok text f) : AndText ok (white ++ text) f := by
  rcases h with h | ⟨h, h'⟩
  · exact .equation (h.cons_white hw)
  · rw [← append_assoc]
    exact .and (h.cons_white hw) h'

theorem OrText.cons_white {white : List Char}
    (hw : White white) :
    ∀ {text : List Char} {f : Formula}, OrText ok text f → OrText ok (white ++ text) f
  | _, _, .and h => .and (h.cons_white hw)
  | _, _, .or h h' => by
    rw [← append_assoc]
    exact .or (h.cons_white hw) h'

theorem Failed.cons_white (hw : White white) (h : Failed text) : Failed (white ++ text) := by
  rcases h with hw' | ⟨hw', hw''⟩ | ⟨hw', ht, hf, hw''⟩ | ⟨hw', he⟩
  · exact .empty (hw.append hw')
  · rw [← append_assoc]
    exact .not (hw.append hw') hw''
  · rw [← append_assoc]
    exact .group (hw.append hw') ht hf hw''
  · rw [← append_assoc]
    exact .equation (hw.append hw') he

theorem Faulty.cons_white (hw : White white) (h : Faulty text) : Faulty (white ++ text) := by
  rcases h with ⟨hw', he⟩ | ⟨hw', ht, hf⟩ | ⟨hw', hw'', ht, hf⟩ | ⟨hw', hw'', ht, hf⟩
  · rw [← append_assoc]
    exact .escaped (hw.append hw') he
  · rw [← append_assoc]
    exact .group (hw.append hw') ht hf
  · rw [← append_assoc]
    exact .negatedGroup (hw.append hw') hw'' ht hf
  · rw [← append_assoc]
    exact .negatedNull (hw.append hw') hw'' ht hf

theorem OrLed.cons_white {P : List Char → Prop} {white string : List Char} (hw : White white)
    (hP : ∀ text, P text → P (white ++ text)) (h : OrLed P string) :
    OrLed P (white ++ string) := by
  obtain ⟨p, q, hp, hq, rfl⟩ := h
  rcases hp with (_ | ⟨ht, hrest⟩) | ⟨ht, hrest⟩
  · exact ⟨[], white ++ q, .and .nil, hP q hq, rfl⟩
  · exact ⟨_, q, .and (.cons (ht.cons_white hw) hrest), hq, by simp⟩
  · exact ⟨_, q, .cons (ht.cons_white hw) hrest, hq, by simp⟩

/-! ## The calls -/

/-- `ParseEquation()` by the first characters of the string. -/
theorem parseEquation_eq (depth : Nat) (expr : List Char) : ParseEquation (depth + 1) expr =
      if cur (behindWhite expr) = '!' then
        if cur (behindWhite (behindWhite expr).tail) = '(' then
          (ParseOr depth (behindWhite (behindWhite (behindWhite expr).tail).tail)).bind
            fun r => closeGroup true r.1 r.2
        else .ok (.null, behindWhite (behindWhite expr).tail)
      else if cur (behindWhite expr) = ')' then .ok (.null, behindWhite expr)
      else if cur (behindWhite expr) = '(' then
        (ParseOr depth (behindWhite (behindWhite expr).tail)).bind
          fun r => closeGroup false r.1 r.2
      else equationTerm (behindWhite expr) := by
  have hskip : ∀ {x : List Char} {c : Char}, c ≠ '\x00' → cur x = c →
      skipWhitespace x 1 = .ok (behindWhite x.tail) := by
    intro x c hc hx
    obtain ⟨rest, rfl⟩ := (cur_eq_iff hc).mp hx
    simp
  rw [ParseEquation]
  simp only [skipWhitespace_zero, ok_bind, charAt_zero]
  by_cases hnot : cur (behindWhite expr) = '!'
  · simp only [hnot, decide_true, if_true, hskip (by decide) hnot, ok_bind, Bool.true_and]
    by_cases hopen : cur (behindWhite (behindWhite expr).tail) = '('
    · simp [hopen, hskip (by decide) hopen]
      rfl
    · simp [hopen]
  · simp only [hnot, decide_false, Bool.false_eq_true, if_false, pure_eq_ok, ok_bind,
      Bool.false_and]
    by_cases hclose : cur (behindWhite expr) = ')'
    · simp [hclose]
    · by_cases hopen : cur (behindWhite expr) = '('
      · simp [hopen, hskip (by decide) hopen]
        rfl
      · simp [hclose, hopen]

theorem isOperator_eq {op : Char} (hop : op ≠ '\x00') (expr : List Char) :
    (∃ rest, expr = op :: op :: rest ∧ IsOperator expr op = .ok (some rest)) ∨
      (∀ rest, expr ≠ op :: op :: rest) ∧ IsOperator expr op = .ok none := by
  rcases expr with _ | ⟨c, _ | ⟨d, rest⟩⟩
  · exact Or.inr ⟨by simp, by simp [IsOperator, hop.symm]⟩
  · refine Or.inr ⟨by simp, ?_⟩
    by_cases hc : c = op
    · simp [IsOperator, hc, hop.symm]
    · simp [IsOperator, hc]
  · by_cases hc : c = op
    · by_cases hd : d = op
      · exact Or.inl ⟨rest, by rw [hc, hd], by simp [IsOperator, hc, hd]⟩
      · exact Or.inr ⟨by simp [hd], by simp [IsOperator, hc, hd]⟩
    · exact Or.inr ⟨by simp [hc], by simp [IsOperator, hc]⟩

/-! ## Outcomes -/

/-- A result of a parse function on `string`. `Text` are the texts it reads a tree from, `Stop`
is what it leaves. -/
inductive Outcome (bound : Nat) (Faulty Failed : List Char → Prop)
    (Text : List Char → Formula → Prop) (Stop : List Char → Prop) (depth : Nat)
    (string : List Char) : Except Fault (Term × List Char) → Prop
  | depth : depth < bound → Outcome bound Faulty Failed Text Stop depth string (.error .depth)
  | fault {fault : Fault} : fault ≠ .depth → Faulty string →
      Outcome bound Faulty Failed Text Stop depth string (.error fault)
  | null {rest : List Char} : NoWhite rest →
      (∀ rest', rest = ')' :: rest' → ∃ text, Failed text ∧ string = text ++ rest) →
      Outcome bound Faulty Failed Text Stop depth string (.ok (.null, rest))
  | tree {text rest : List Char} {f : Formula} : Text text f → f.toTerm.WellFormed →
      NoWhite rest → Stop rest → string = text ++ rest →
      Outcome bound Faulty Failed Text Stop depth string (.ok (f.toTerm, rest))

/-- The string does not go on with the operator. -/
def NoOperator (op : Char) (string : List Char) : Prop := ∀ rest, string ≠ op :: op :: rest

abbrev EquationOutcome (depth : Nat) (string : List Char) :=
  Outcome (4 * string.length + 1) Faulty Failed (EquationText Accepted) (fun _ => True) depth string

abbrev AndOutcome (depth : Nat) (string : List Char) :=
  Outcome (4 * string.length + 2) (AndLed Faulty) (AndLed Failed) (AndText Accepted)
    (NoOperator '&') depth string

abbrev OrOutcome (depth : Nat) (string : List Char) :=
  Outcome (4 * string.length + 3) (OrLed Faulty) (OrLed Failed) (OrText Accepted)
    (fun _ => True) depth string

/-- A text behind the operator. -/
def Behind (op : Char) (P : List Char → Prop) (string : List Char) : Prop :=
  ∃ rest, P rest ∧ string = op :: op :: rest

/-- The loop of `ParseAnd()`, with `f` read already. -/
abbrev AndLoopOutcome (f : Formula) (depth : Nat) (string : List Char) :=
  Outcome (4 * string.length + 1) (Behind '&' (AndLed Faulty)) (Behind '&' (AndLed Failed))
    (fun text g => text = [] ∧ g = f ∨
      ∃ text' g', AndText Accepted text' g' ∧ text = '&' :: '&' :: text' ∧ g = .and f g')
    (NoOperator '&') depth string

/-- The loop of `ParseOr()`, with `before` read already. -/
abbrev OrLoopOutcome (before : List Char) (depth : Nat) (string : List Char) :=
  Outcome (4 * string.length + 1) (Behind '|' (OrLed Faulty)) (Behind '|' (OrLed Failed))
    (fun text g => OrText Accepted (before ++ text) g) (fun _ => True) depth string

theorem closeGroup_tree (h : f.toTerm.WellFormed) (not : Bool) (rest : List Char) :
    closeGroup not f.toTerm rest =
      if cur (behindWhite rest) = ')' then
        .ok ((if not then f.not else f).toTerm, behindWhite (behindWhite rest).tail)
      else .ok (.null, behindWhite rest) := by
  rw [closeGroup]
  simp only [skipWhitespace_zero, ok_bind, charAt_zero]
  by_cases hc : cur (behindWhite rest) = ')'
  · obtain ⟨tail, htail⟩ := (cur_eq_iff (by decide)).mp hc
    cases not
    · simp [htail]
    · simp [htail, h.complement_eq]
      rfl
  · simp [hc]

theorem closeGroup_null (not : Bool) (rest : List Char) : closeGroup not .null rest =
      if cur (behindWhite rest) = ')' then
        if not then .error .nullTerm else .ok (.null, behindWhite (behindWhite rest).tail)
      else .ok (.null, behindWhite rest) := by
  rw [closeGroup]
  simp only [skipWhitespace_zero, ok_bind, charAt_zero]
  by_cases hc : cur (behindWhite rest) = ')'
  · obtain ⟨tail, htail⟩ := (cur_eq_iff (by decide)).mp hc
    cases not
    · simp [htail]
    · simp [htail, Term.Complement]
  · simp [hc]

/-- A group behind `before`, which is white space or, for a group to be negated, `!` between white
space. -/
theorem group_outcome {string before inner : List Char} (not : Bool)
    (hstring : string = before ++ '(' :: inner)
    (hgroup : ∀ text text' : List Char, OrPrefix text → Faulty text' →
      Faulty (before ++ '(' :: (text ++ text')))
    (hnull : ∀ text text' rest : List Char, OrPrefix text → Failed text' → not = true →
      Faulty (before ++ '(' :: (text ++ (text' ++ ')' :: rest))))
    (hfail : ∀ text text' white : List Char, OrPrefix text → Failed text' → White white →
      not = false → Failed (before ++ '(' :: (text ++ (text' ++ ')' :: white))))
    (htree : ∀ (text white : List Char) (f : Formula), OrText Accepted text f → White white →
      EquationText Accepted (before ++ '(' :: (text ++ ')' :: white)) (if not then f.not else f))
    (ih : OrOutcome depth (behindWhite inner) (ParseOr depth (behindWhite inner))) :
    EquationOutcome (depth + 1) string
      ((ParseOr depth (behindWhite inner)).bind fun r => closeGroup not r.1 r.2) := by
  obtain ⟨white, hwhite, hinner⟩ := exists_white inner
  generalize hresult : ParseOr depth (behindWhite inner) = result at ih
  rcases ih with hdepth | ⟨hfault, hfaulty⟩ | ⟨hno, hfailed⟩ | ⟨htext, hwf, hno, -, hsplit⟩
  · refine .depth ?_
    have : (behindWhite inner).length ≤ inner.length := by
      conv_rhs => rw [hinner]
      rw [length_append]
      omega
    rw [hstring, length_append, length_cons]
    omega
  · refine .fault hfault ?_
    obtain ⟨p, q, hp, hq, hpq⟩ := hfaulty.cons_white hwhite (fun _ h => h.cons_white hwhite)
    rw [hstring, hinner, hpq]
    exact hgroup p q hp hq
  · next rest =>
    show EquationOutcome (depth + 1) string (closeGroup not .null rest)
    rw [closeGroup_null]
    by_cases hc : cur (behindWhite rest) = ')'
    · rw [if_pos hc]
      obtain ⟨tail, htail⟩ := (cur_eq_iff (by decide)).mp hc
      rw [behindWhite_of_noWhite hno] at htail
      obtain ⟨text, hled, hsplit⟩ := hfailed tail htail
      obtain ⟨p, q, hp, hq, hpq⟩ := hled.cons_white hwhite (fun _ h => h.cons_white hwhite)
      have hall : string = before ++ '(' :: (p ++ (q ++ ')' :: tail)) := by
        rw [hstring, hinner, hsplit, htail, ← append_assoc white, hpq, append_assoc]
      cases hnot : not with
      | true =>
        refine .fault (by decide) ?_
        rw [hall]
        exact hnull p q tail hp hq hnot
      | false =>
        obtain ⟨white', hwhite', hsplit'⟩ := exists_white tail
        refine .null (noWhite_behindWhite _) fun rest' _ => ?_
        refine ⟨_, hfail p q white' hp hq hwhite' hnot, ?_⟩
        rw [hall, behindWhite_of_noWhite hno, htail, tail_cons]
        conv_lhs => rw [hsplit']
        simp
    · rw [if_neg hc]
      refine .null (noWhite_behindWhite _) fun rest' hrest' => ?_
      exact absurd (by rw [hrest']; rfl) hc
  · next text rest f =>
    show EquationOutcome (depth + 1) string (closeGroup not f.toTerm rest)
    rw [closeGroup_tree hwf]
    by_cases hc : cur (behindWhite rest) = ')'
    · rw [if_pos hc]
      obtain ⟨tail, htail⟩ := (cur_eq_iff (by decide)).mp hc
      rw [behindWhite_of_noWhite hno] at htail ⊢
      obtain ⟨white', hwhite', hsplit'⟩ := exists_white tail
      have heq := htree _ white' f (htext.cons_white hwhite) hwhite'
      refine .tree heq heq.wellFormed (noWhite_behindWhite _) trivial ?_
      rw [hstring, hinner, hsplit, htail, tail_cons]
      conv_lhs => rw [hsplit']
      simp
    · rw [if_neg hc]
      refine .null (noWhite_behindWhite _) fun rest' hrest' => ?_
      exact absurd (by rw [hrest']; rfl) hc

theorem equationTerm_outcome {white expr : List Char} (hw : White white)
    (h : AtEquation expr) :
    EquationOutcome depth (white ++ expr) (equationTerm expr) := by
  have hspec := newEquation_spec h
  rw [equationTerm]
  generalize newEquation expr = result at hspec
  rcases hspec with hesc | ⟨hinit, hno, hfailed⟩ | ⟨hcomp, hacc, hno, hsplit⟩
  · exact .fault (by decide) (.escaped hw hesc)
  · simp only [ok_bind, ne_eq, hinit, not_false_eq_true, if_true]
    refine .null hno fun rest' hrest' => ?_
    obtain ⟨text, hf, rfl⟩ := hfailed rest' hrest'
    exact ⟨_, .equation hw hf, by rw [append_assoc]⟩
  · next text attr string rest fOp =>
    have hinit := @comparisonEquation_initCheck attr string _ hcomp.compares
    simp only [ok_bind, hinit, ne_eq, not_true_eq_false, if_false]
    have heq := EquationText.comparison hw hcomp hacc
    exact .tree heq heq.wellFormed hno trivial (by rw [hsplit, append_assoc])

theorem parseEquation_outcome
    (ih : ∀ string, OrOutcome depth string (ParseOr depth string)) (string : List Char) :
    EquationOutcome (depth + 1) string (ParseEquation (depth + 1) string) := by
  obtain ⟨white, hw, hstring⟩ := exists_white string
  have hno := noWhite_behindWhite string
  rw [parseEquation_eq]
  by_cases hnot : cur (behindWhite string) = '!'
  · rw [if_pos hnot]
    obtain ⟨tail, htail⟩ := (cur_eq_iff (by decide)).mp hnot
    obtain ⟨white', hw', htail'⟩ := exists_white tail
    rw [htail, tail_cons]
    by_cases hopen : cur (behindWhite tail) = '('
    · rw [if_pos hopen]
      obtain ⟨inner, hinner⟩ := (cur_eq_iff (by decide)).mp hopen
      rw [hinner, tail_cons]
      have happ : ∀ x, white ++ '!' :: white' ++ '(' :: x = white ++ '!' :: (white' ++ '(' :: x) := by
        simp
      refine @group_outcome _ _ (white ++ '!' :: white') _ true ?_ ?_ ?_ ?_ ?_
        (ih (behindWhite inner))
      · rw [hstring, htail, htail', hinner, happ]
      · intro p q hp hq
        rw [happ]
        exact .negatedGroup hw hw' hp hq
      · intro p q rest hp hq _
        rw [happ]
        exact .negatedNull hw hw' hp hq
      · intro p q white'' _ _ _ hn
        cases hn
      · intro text white'' f hf hw''
        rw [happ]
        exact .negated hw hw' hf hw''
    · rw [if_neg hopen]
      refine .null (noWhite_behindWhite tail) fun rest' hrest' => ?_
      refine ⟨_, .not hw hw', hstring.trans ?_⟩
      rw [htail]
      conv_lhs => rw [htail']
      simp
  rw [if_neg hnot]
  by_cases hclose : cur (behindWhite string) = ')'
  · rw [if_pos hclose]
    exact .null hno fun rest' _ => ⟨white, .empty hw, hstring⟩
  rw [if_neg hclose]
  by_cases hopen : cur (behindWhite string) = '('
  · rw [if_pos hopen]
    obtain ⟨inner, hinner⟩ := (cur_eq_iff (by decide)).mp hopen
    rw [hinner, tail_cons]
    refine @group_outcome _ _ white _ false ?_ ?_ ?_ ?_ ?_ (ih (behindWhite inner))
    · rw [hstring, hinner]
    · exact fun p q hp hq => .group hw hp hq
    · intro p q rest _ _ hn
      cases hn
    · exact fun p q white' hp hq hw' _ => .group hw hp hq hw'
    · exact fun text white' f hf hw' => .group hw hf hw'
  · rw [if_neg hopen]
    conv => arg 2; rw [hstring]
    exact equationTerm_outcome hw ⟨hno, hopen, hclose⟩

theorem parseAnd_outcome
    (ih : ∀ string, EquationOutcome depth string (ParseEquation depth string))
    (ihLoop : ∀ (f : Formula) (string : List Char), NoWhite string →
      f.toTerm.WellFormed → AndLoopOutcome f depth string (andLoop depth f.toTerm string))
    (string : List Char) : AndOutcome (depth + 1) string (ParseAnd (depth + 1) string) := by
  have hih := ih string
  rw [ParseAnd]
  generalize ParseEquation depth string = result at hih
  rcases hih with hdepth | ⟨hfault, hfaulty⟩ | ⟨hno, hfailed⟩ | ⟨htext, hwf, hno, -, hsplit⟩
  · exact .depth (by omega)
  · exact .fault hfault (.of hfaulty)
  · refine .null hno fun rest' hrest' => ?_
    obtain ⟨text, hf, hsplit⟩ := hfailed rest' hrest'
    exact ⟨text, .of hf, hsplit⟩
  next text rest f =>
  simp only [ok_bind, if_neg hwf.ne_null]
  have hloop := ihLoop f rest hno hwf
  have hlen : rest.length ≤ string.length := by
    rw [hsplit, length_append]
    omega
  generalize andLoop depth f.toTerm rest = result at hloop
  rcases hloop with hdepth | ⟨hfault, hfaulty⟩ | ⟨hno', hfailed⟩ | ⟨htext', hwf', hno', hstop, hsplit'⟩
  · exact .depth (by omega)
  · obtain ⟨tail, hled, rfl⟩ := hfaulty
    refine .fault hfault ?_
    rw [hsplit]
    exact .cons htext hled
  · refine .null hno' fun rest' hrest' => ?_
    obtain ⟨-, ⟨tail, hled, rfl⟩, hrest⟩ := hfailed rest' hrest'
    refine ⟨_, .cons htext hled, ?_⟩
    rw [hsplit, hrest]
    simp
  · rcases htext' with ⟨rfl, rfl⟩ | ⟨text', g', hand, rfl, rfl⟩
    · exact .tree (.equation htext) hwf' hno' hstop (by rw [hsplit, hsplit']; rfl)
    · refine .tree (.and htext hand) hwf' hno' hstop ?_
      rw [hsplit, hsplit']
      simp

section

variable (ih : ∀ string, AndOutcome depth string (ParseAnd depth string))
include ih

theorem andLoop_outcome
    (ihLoop : ∀ (f : Formula) (string : List Char), NoWhite string →
      f.toTerm.WellFormed → AndLoopOutcome f depth string (andLoop depth f.toTerm string))
    (f : Formula) (string : List Char) (hno : NoWhite string) (hf : f.toTerm.WellFormed) :
    AndLoopOutcome f (depth + 1) string (andLoop (depth + 1) f.toTerm string) := by
  rw [andLoop]
  rcases @isOperator_eq '&' (by decide) string with ⟨tail, rfl, hop⟩ | ⟨hstop, hop⟩
  swap
  · rw [hop]
    exact .tree (Or.inl ⟨rfl, rfl⟩) hf hno hstop rfl
  simp only [hop, ok_bind]
  have hih := ih tail
  have hlen : ('&' :: '&' :: tail).length = tail.length + 2 := rfl
  generalize ParseAnd depth tail = result at hih
  rcases hih with hdepth | ⟨hfault, hfaulty⟩ | ⟨hno', hfailed⟩ | ⟨htext, hwf, hno', hstop, hsplit⟩
  · exact .depth (by omega)
  · exact .fault hfault ⟨tail, hfaulty, rfl⟩
  · refine .null hno' fun rest' hrest' => ?_
    obtain ⟨text, hled, rfl⟩ := hfailed rest' hrest'
    exact ⟨_, ⟨text, hled, rfl⟩, rfl⟩
  next text rest g =>
  simp only [ok_bind, if_neg hwf.ne_null]
  -- `ParseAnd()` has read all the `&&`, so the loop ends
  have hloop := ihLoop (.and f g) rest hno' ⟨Or.inl rfl, hf, hwf⟩
  have hle : rest.length ≤ tail.length := by
    rw [hsplit, length_append]
    omega
  change AndLoopOutcome f (depth + 1) _ (andLoop depth (Formula.and f g).toTerm rest)
  generalize andLoop depth (Formula.and f g).toTerm rest = result at hloop
  rcases hloop with hdepth | ⟨hfault, tail', -, hrest⟩ | ⟨hno'', hfailed⟩ |
    ⟨htext', hwf', hno'', hstop', hsplit'⟩
  · exact .depth (by omega)
  · exact absurd hrest (hstop tail')
  · refine .null hno'' fun rest' hrest' => ?_
    obtain ⟨-, ⟨tail', -, rfl⟩, hrest⟩ := hfailed rest' hrest'
    exact absurd hrest (hstop _)
  · rcases htext' with ⟨rfl, rfl⟩ | ⟨text', g', -, rfl, -⟩
    · refine .tree (Or.inr ⟨text, g, htext, rfl, rfl⟩) hwf' hno'' hstop' ?_
      rw [hsplit, hsplit']
      simp
    · exact absurd hsplit' (hstop _)

theorem parseOr_outcome
    (ihLoop : ∀ (f : Formula) (before string : List Char), NoWhite string →
      OrText Accepted before f → OrLoopOutcome before depth string (orLoop depth f.toTerm string))
    (string : List Char) : OrOutcome (depth + 1) string (ParseOr (depth + 1) string) := by
  have hih := ih string
  rw [ParseOr]
  generalize ParseAnd depth string = result at hih
  rcases hih with hdepth | ⟨hfault, hfaulty⟩ | ⟨hno, hfailed⟩ | ⟨htext, hwf, hno, hstop, hsplit⟩
  · exact .depth (by omega)
  · exact .fault hfault (.of hfaulty)
  · refine .null hno fun rest' hrest' => ?_
    obtain ⟨text, hf, hsplit⟩ := hfailed rest' hrest'
    exact ⟨text, .of hf, hsplit⟩
  next text rest f =>
  simp only [ok_bind, if_neg hwf.ne_null]
  have hloop := ihLoop f text rest hno (.and htext)
  have hlen : rest.length ≤ string.length := by
    rw [hsplit, length_append]
    omega
  generalize orLoop depth f.toTerm rest = result at hloop
  rcases hloop with hdepth | ⟨hfault, hfaulty⟩ | ⟨hno', hfailed⟩ | ⟨htext', hwf', hno', -, hsplit'⟩
  · exact .depth (by omega)
  · obtain ⟨tail, hled, rfl⟩ := hfaulty
    refine .fault hfault ?_
    rw [hsplit]
    exact .cons htext hled
  · refine .null hno' fun rest' hrest' => ?_
    obtain ⟨-, ⟨tail, hled, rfl⟩, hrest⟩ := hfailed rest' hrest'
    refine ⟨_, .cons htext hled, ?_⟩
    rw [hsplit, hrest]
    simp
  · exact .tree htext' hwf' hno' trivial (by rw [hsplit, hsplit', append_assoc])

theorem orLoop_outcome
    (ihLoop : ∀ (f : Formula) (before string : List Char), NoWhite string →
      OrText Accepted before f → OrLoopOutcome before depth string (orLoop depth f.toTerm string))
    (f : Formula) (before string : List Char) (hno : NoWhite string)
    (hf : OrText Accepted before f) :
    OrLoopOutcome before (depth + 1) string (orLoop (depth + 1) f.toTerm string) := by
  rw [orLoop]
  rcases @isOperator_eq '|' (by decide) string with ⟨tail, rfl, hop⟩ | ⟨hstop, hop⟩
  swap
  · rw [hop]
    refine @Outcome.tree _ _ _ _ _ _ _ [] _ _ ?_ hf.wellFormed hno trivial rfl
    rw [append_nil]
    exact hf
  simp only [hop, ok_bind]
  have hih := ih tail
  have hlen : ('|' :: '|' :: tail).length = tail.length + 2 := rfl
  generalize ParseAnd depth tail = result at hih
  rcases hih with hdepth | ⟨hfault, hfaulty⟩ | ⟨hno', hfailed⟩ | ⟨htext, hwf, hno', hstop, hsplit⟩
  · exact .depth (by omega)
  · exact .fault hfault ⟨tail, .of hfaulty, rfl⟩
  · refine .null hno' fun rest' hrest' => ?_
    obtain ⟨text, hled, rfl⟩ := hfailed rest' hrest'
    exact ⟨_, ⟨text, .of hled, rfl⟩, rfl⟩
  next text rest g =>
  simp only [ok_bind, if_neg hwf.ne_null]
  have hloop := ihLoop (.or f g) (before ++ '|' :: '|' :: text) rest hno' (.or hf htext)
  have hle : rest.length ≤ tail.length := by
    rw [hsplit, length_append]
    omega
  change OrLoopOutcome before (depth + 1) _ (orLoop depth (Formula.or f g).toTerm rest)
  generalize orLoop depth (Formula.or f g).toTerm rest = result at hloop
  rcases hloop with hdepth | ⟨hfault, tail', hled, hrest⟩ | ⟨hno'', hfailed⟩ |
    ⟨htext', hwf', hno'', -, hsplit'⟩
  · exact .depth (by omega)
  · refine .fault hfault ⟨tail, ?_, rfl⟩
    rw [hsplit, hrest]
    exact .cons htext hled
  · refine .null hno'' fun rest' hrest' => ?_
    obtain ⟨-, ⟨tail', hled, rfl⟩, hrest⟩ := hfailed rest' hrest'
    refine ⟨_, ⟨_, .cons htext hled, rfl⟩, ?_⟩
    rw [hsplit, hrest]
    simp
  · next text' rest' h =>
    refine @Outcome.tree _ _ _ _ _ _ _ ('|' :: '|' :: (text ++ text')) _ _ ?_ hwf' hno'' trivial ?_
    · simpa using htext'
    · rw [hsplit, hsplit']
      simp

end

/-- **Every result of the parse functions** tells what has been read. The induction is on the
depth; at each depth, the functions rely on the ones they call. -/
theorem parse_outcome (depth : Nat) :
    (∀ string, EquationOutcome depth string (ParseEquation depth string)) ∧
    (∀ string, AndOutcome depth string (ParseAnd depth string)) ∧
    (∀ (f : Formula) string, NoWhite string → f.toTerm.WellFormed →
      AndLoopOutcome f depth string (andLoop depth f.toTerm string)) ∧
    (∀ string, OrOutcome depth string (ParseOr depth string)) ∧
    (∀ (f : Formula) before string, NoWhite string → OrText Accepted before f →
      OrLoopOutcome before depth string (orLoop depth f.toTerm string)) := by
  induction depth with
  | zero =>
    refine ⟨fun s => ?_, fun s => ?_, fun f s _ _ => ?_, fun s => ?_, fun f b s _ _ => ?_⟩
    · rw [ParseEquation]
      exact .depth (by omega)
    · rw [ParseAnd]
      exact .depth (by omega)
    · rw [andLoop]
      exact .depth (by omega)
    · rw [ParseOr]
      exact .depth (by omega)
    · rw [orLoop]
      exact .depth (by omega)
  | succ depth ih =>
    obtain ⟨ihEquation, ihAnd, ihAndLoop, ihOr, ihOrLoop⟩ := ih
    exact ⟨parseEquation_outcome ihOr, parseAnd_outcome ihEquation ihAndLoop,
      andLoop_outcome ihAnd ihAndLoop, parseOr_outcome ihAnd ihOrLoop,
      orLoop_outcome ihAnd ihOrLoop⟩

end BFS
