import OpenBeOS.BFS.PatternSets

/-! # `matchString()` and the language of a pattern

Where `matchString()` finds the texts of the pattern's language, and no others. It does not know the
escapes outside of sets, takes the `?` behind a `*` for a byte that is not the last one, goes to the
next bracket behind the element of a set that matches, and looks behind a `*` into the middle of
characters.
-/

namespace BFS.Query

open Utf8 match_status List

/-- The matcher's answer is whether the proposition holds. -/
def Decides (r : Except Fault match_status) (p : Prop) : Prop :=
  (p → r = .ok MATCH_OK) ∧ (¬ p → r = .ok NO_MATCH)

theorem Decides.congr {r : Except Fault match_status} {p q : Prop} (h : Decides r p) (hiff : q ↔ p) :
    Decides r q := ⟨fun hq => h.1 (hiff.mp hq), fun hq => h.2 (mt hiff.mpr hq)⟩

theorem decides_ok {p : Prop} (h : p) : Decides (.ok MATCH_OK) p :=
  ⟨fun _ => rfl, fun hn => absurd h hn⟩

theorem decides_no {p : Prop} (h : ¬ p) : Decides (.ok NO_MATCH) p :=
  ⟨fun hp => absurd hp h, fun _ => rfl⟩

/-! ## Literals -/

/-- The bytes of a literal are compared one after the other. -/
theorem matchRounds_append : ∀ {front : List UInt8} {fuel : Nat} (pattern string : List UInt8),
    (∀ b ∈ front, b ≠ questionMark ∧ b ≠ star ∧ b ≠ openBracket ∧ b ≠ backslash) →
    front.length ≤ fuel → matchRounds fuel (front ++ pattern) string =
      if front <+: string then matchRounds (fuel - front.length) pattern (string.drop front.length)
      else .ok NO_MATCH
  | [], fuel, pattern, string, _, _ => by
    rw [if_pos nil_prefix]
    rfl
  | _ :: _, 0, _, _, _, hfuel => absurd hfuel (Nat.not_succ_le_zero _)
  | b :: front, fuel + 1, pattern, [], hfront, _ => by
    obtain ⟨-, hstar, -, -⟩ := hfront b mem_cons_self
    rw [cons_append, matchRounds, dropWhile_cons_of_neg (by simpa using hstar),
      if_neg (cons_ne_nil _ _), if_neg (by simp)]
  | b :: front, fuel + 1, pattern, d :: string, hfront, hfuel => by
    obtain ⟨hquestion, hstar, hset, hescape⟩ := hfront b mem_cons_self
    rw [length_cons] at hfuel
    rw [cons_append, matchRounds, if_neg hquestion, if_neg hstar, if_neg hset,
      if_neg fun h => hescape h.1]
    by_cases hb : b = d
    · rw [if_pos hb, matchRounds_append pattern string
        (fun x hx => hfront x (mem_cons_of_mem b hx)) (by omega), hb]
      simp only [cons_prefix_cons, true_and, length_cons, Nat.add_sub_add_right, drop_succ_cons]
    · rw [if_neg hb, if_neg fun h => hb (cons_prefix_cons.mp h).1]

variable {pattern text : List Char} {c : Char}

theorem encode_ordinary (h : IsOrdinary c) : ∀ b ∈ String.utf8EncodeChar c,
    b ≠ questionMark ∧ b ≠ star ∧ b ≠ openBracket ∧ b ≠ backslash := by
  intro b hb
  have hne : ∀ {d : Char}, d.toNat < 128 → c ≠ d → b ≠ UInt8.ofNat d.toNat := by
    rintro d hd hcd rfl
    exact not_mem_encode hd hcd hb
  exact ⟨hne (d := '?') (by decide) h.1, hne (d := '*') (by decide) h.2.1,
    hne (d := '[') (by decide) h.2.2.1, hne (d := '\\') (by decide) h.2.2.2⟩

/-- **A literal** takes its own character, and no other. -/
theorem matchRounds_literal (h : IsOrdinary c) {fuel : Nat} (pattern text : List Char)
    (hfuel : (bytes (c :: pattern)).length ≤ fuel) :
    matchRounds fuel (bytes (c :: pattern)) (bytes text) =
      if text.head? = some c then
        matchRounds (fuel - (String.utf8EncodeChar c).length) (bytes pattern) (bytes text.tail)
      else .ok NO_MATCH := by
  rw [bytes_cons, length_append] at hfuel
  rw [bytes_cons, matchRounds_append _ _ (encode_ordinary h) (by omega)]
  by_cases hc : text.head? = some c
  · obtain ⟨rest, rfl⟩ := List.head?_eq_some_iff.mp hc
    rw [if_pos (prefix_bytes_iff.mpr ⟨rest, rfl⟩), if_pos hc, bytes_cons, drop_left, tail_cons]
  · rw [if_neg hc, if_neg]
    intro hprefix
    obtain ⟨rest, rfl⟩ := prefix_bytes_iff.mp hprefix
    exact hc rfl

/-! ## Runs of stars and question marks -/

/-- The question marks in the run behind a star. -/
def questions : List PatternSymbol → Nat
  | .star :: symbols => questions symbols
  | .question :: symbols => questions symbols + 1
  | _ => 0

/-- The symbols behind the run. -/
def behindRun : List PatternSymbol → List PatternSymbol
  | .star :: symbols => behindRun symbols
  | .question :: symbols => behindRun symbols
  | symbols => symbols

/-- A star, and the run behind it, take at least as many characters as there are question marks. -/
theorem mem_language_run : ∀ {symbols : List PatternSymbol} {text : List Char},
    text ∈ language (.star :: symbols) ↔ questions symbols ≤ text.length ∧
      ∃ rest, rest <:+ text.drop (questions symbols) ∧ rest ∈ language (behindRun symbols)
  | [], text => by
    rw [mem_language_star]
    simp [questions, behindRun]
  | .star :: symbols, text => by
    have hagain : text ∈ language (.star :: .star :: symbols) ↔
        text ∈ language (.star :: symbols) := by
      rw [mem_language_star]
      constructor
      · rintro ⟨rest, hrest, hmem⟩
        obtain ⟨rest', hrest', hmem'⟩ := mem_language_star.mp hmem
        exact mem_language_star.mpr ⟨rest', hrest'.trans hrest, hmem'⟩
      · exact fun h => ⟨text, suffix_rfl, h⟩
    rw [hagain, questions, behindRun]
    exact mem_language_run
  | .question :: symbols, text => by
    have htail : text ∈ language (.star :: .question :: symbols) ↔
        ∃ c rest, text = c :: rest ∧ rest ∈ language (.star :: symbols) := by
      rw [mem_language_star]
      constructor
      · rintro ⟨suffix, ⟨front, rfl⟩, hmem⟩
        obtain ⟨c, rest, rfl, -, hrest⟩ := (mem_language_cons (by simp)).mp hmem
        cases front with
        | nil => exact ⟨c, rest, rfl, mem_language_star.mpr ⟨rest, suffix_rfl, hrest⟩⟩
        | cons d front =>
          exact ⟨d, _, rfl, mem_language_star.mpr ⟨rest, ⟨front ++ [c], by simp⟩, hrest⟩⟩
      · rintro ⟨c, rest, rfl, hmem⟩
        obtain ⟨suffix, ⟨front, rfl⟩, hsuffix⟩ := mem_language_star.mp hmem
        obtain ⟨front', d, hfront⟩ : ∃ front' d, c :: front = front' ++ [d] :=
          ⟨(c :: front).dropLast, _, (dropLast_append_getLast (by simp)).symm⟩
        refine ⟨d :: suffix, ⟨front', ?_⟩,
          (mem_language_cons (by simp)).mpr ⟨d, suffix, rfl, rfl, hsuffix⟩⟩
        rw [← cons_append, hfront, append_assoc, singleton_append]
    rw [htail, questions, behindRun]
    constructor
    · rintro ⟨c, rest, rfl, hmem⟩
      obtain ⟨hlength, suffix, hsuffix, hmem'⟩ := mem_language_run.mp hmem
      exact ⟨Nat.succ_le_succ hlength, suffix, hsuffix, hmem'⟩
    · rintro ⟨hlength, suffix, hsuffix, hmem⟩
      cases text with
      | nil => exact absurd hlength (Nat.not_succ_le_zero _)
      | cons c rest =>
        exact ⟨c, rest, rfl,
          mem_language_run.mpr ⟨Nat.le_of_succ_le_succ hlength, suffix, hsuffix, hmem⟩⟩
  | .set invert items :: symbols, text => by
    rw [mem_language_star]
    simp [questions, behindRun]
  | .literal escaped c :: symbols, text => by
    rw [mem_language_star]
    simp [questions, behindRun]

theorem run_stops {symbol : PatternSymbol} (symbols : List PatternSymbol) (hstar : symbol ≠ .star)
    (hquestion : symbol ≠ .question) :
    questions (symbol :: symbols) = 0 ∧ behindRun (symbol :: symbols) = symbol :: symbols := by
  cases symbol with
  | star => exact absurd rfl hstar
  | question => exact absurd rfl hquestion
  | set invert items | literal escaped c => exact ⟨rfl, rfl⟩

theorem readSymbols_head {n : Nat} {pattern : List Char} {symbols : List PatternSymbol}
    (h : readSymbols (n + 1) (c :: pattern) = some symbols) (hstar : c ≠ '*') (hquestion : c ≠ '?') :
    ∃ symbol others, symbols = symbol :: others ∧ symbol ≠ .star ∧ symbol ≠ .question := by
  rcases readSymbols_cases h with ⟨hc, -⟩ | ⟨hc, -⟩ | ⟨-, d, -, others, -, -, rfl⟩ |
      ⟨-, items, -, others, -, -, rfl⟩ | ⟨-, others, -, rfl⟩
  · exact absurd hc hstar
  · exact absurd hc hquestion
  · exact ⟨_, others, rfl, by simp, by simp⟩
  · exact ⟨_, others, rfl, by simp, by simp⟩
  · exact ⟨_, others, rfl, by simp, by simp⟩

/-- Compacting the pattern takes the run, and a byte for each question mark. -/
theorem compact_bytes : ∀ {n : Nat} {pattern : List Char} {symbols : List PatternSymbol},
    readSymbols n pattern = some symbols →
    ∃ m behind, readSymbols m behind = some (behindRun symbols) ∧
      (bytes behind).length ≤ (bytes pattern).length ∧ behind.head? ≠ some '*' ∧
      behind.head? ≠ some '?' ∧ ∀ string, string ≠ [] → compact (bytes pattern) string =
        if questions symbols < string.length then
          some (bytes behind, string.drop (questions symbols))
        else none
  | 0, _, _, h => by cases h
  | n + 1, [], symbols, h => by
    rw [readSymbols, Option.some.injEq] at h
    subst h
    refine ⟨n + 1, [], rfl, le_refl _, by simp, by simp, fun string hstring => ?_⟩
    rw [bytes_nil, compact, show questions [] = 0 from rfl,
      if_pos (length_pos_iff.mpr hstring), drop_zero]
  | n + 1, c :: pattern, symbols, h => by
    by_cases hrun : c = '*' ∨ c = '?'
    · rcases readSymbols_cases h with ⟨rfl, others, hothers, rfl⟩ | ⟨rfl, others, hothers, rfl⟩ |
          ⟨rfl, -⟩ | ⟨rfl, -⟩ | ⟨hordinary, -⟩
      · obtain ⟨m, behind, hread, hlength, h1, h2, hcompact⟩ := compact_bytes hothers
        have hbytes := bytes_ascii (c := '*') (by decide) pattern
        refine ⟨m, behind, hread, by rw [hbytes, length_cons]; omega, h1, h2,
          fun string hstring => ?_⟩
        rw [hbytes, compact, if_neg (by decide), if_pos (show UInt8.ofNat '*'.toNat = star from rfl)]
        exact hcompact string hstring
      · obtain ⟨m, behind, hread, hlength, h1, h2, hcompact⟩ := compact_bytes hothers
        have hbytes := bytes_ascii (c := '?') (by decide) pattern
        refine ⟨m, behind, hread, by rw [hbytes, length_cons]; omega, h1, h2,
          fun string hstring => ?_⟩
        rw [hbytes, compact, if_pos (show UInt8.ofNat '?'.toNat = questionMark from rfl), questions]
        cases string with
        | nil => exact absurd rfl hstring
        | cons d string =>
          rw [tail_cons, length_cons, drop_succ_cons]
          by_cases hempty : string = []
          · rw [if_pos hempty, if_neg (by rw [hempty, length_nil]; omega)]
          · rw [if_neg hempty, hcompact string hempty]
            simp only [Nat.add_lt_add_iff_right]
      · exact absurd hrun (by decide)
      · exact absurd hrun (by decide)
      · exact absurd hrun (not_or.mpr ⟨hordinary.2.1, hordinary.1⟩)
    · rw [not_or] at hrun
      obtain ⟨symbol, others, rfl, hstar, hquestion⟩ := readSymbols_head h hrun.1 hrun.2
      obtain ⟨hzero, hsame⟩ := run_stops others hstar hquestion
      obtain ⟨b, rest, heq, -⟩ := encode_eq c
      have hbyte : ∀ {d : Char}, d.toNat < 128 → c ≠ d → b ≠ UInt8.ofNat d.toNat := by
        rintro d hd hcd rfl
        exact not_mem_encode hd hcd (heq ▸ mem_cons_self)
      have hnoQuestion : b ≠ questionMark := hbyte (d := '?') (by decide) hrun.2
      have hnoStar : b ≠ star := hbyte (d := '*') (by decide) hrun.1
      refine ⟨n + 1, c :: pattern, by rw [hsame]; exact h, le_refl _, by simpa using hrun.1,
        by simpa using hrun.2, fun string hstring => ?_⟩
      rw [bytes_cons, heq, cons_append, compact, if_neg hnoQuestion, if_neg hnoStar, hzero,
        if_pos (length_pos_iff.mpr hstring), drop_zero]

/-! ## Where the matcher is right -/

/-- The set is right about this character: it is not the first one of a range that is written
backwards, and behind what it matches no bracket is in the way. -/
def PlainSet (invert : Bool) (items : List SetItem) (c : Char) : Prop :=
  (items.any (·.catches c.toNat) = true → items.any (·.has c.toNat) = true) ∧
    (invert = false → Clear c.toNat items = true)

instance (invert : Bool) (items : List SetItem) (c : Char) : Decidable (PlainSet invert items c) :=
  inferInstanceAs (Decidable (_ ∧ _))

/-- The symbol matches a byte in the middle of a character. -/
def PatternSymbol.takesInside (b : UInt8) : PatternSymbol → Bool
  | .set invert items => items.any (·.catches b.toNat) ≠ invert
  | _ => false

/-- The run behind a star: with a question mark in it the pattern goes on, two of them are only for
texts without longer characters, and what the pattern goes on with does not match inside of one. -/
def PlainRun (symbols : List PatternSymbol) (text : List Char) : Prop :=
  match behindRun symbols with
  | [] => questions symbols = 0
  | next :: _ => (2 ≤ questions symbols → ∀ c ∈ text, c.toNat < 128) ∧
      ∀ b ∈ insides text, next.takesInside b = false

/-- **The matcher is right** about the text. -/
structure PlainPattern (symbols : List PatternSymbol) (text : List Char) : Prop where
  literals : ∀ c, .literal true c ∉ symbols
  sets : ∀ invert items, .set invert items ∈ symbols →
    items ≠ [] ∧ ∀ c ∈ text, PlainSet invert items c
  runs : ∀ rest, .star :: rest <:+ symbols → PlainRun rest text

theorem insides_of_suffix {text text' : List Char} (h : text' <:+ text) :
    ∀ b ∈ insides text', b ∈ insides text := by
  intro b hb
  obtain ⟨c, hc, hb⟩ := mem_flatMap.mp hb
  exact mem_flatMap.mpr ⟨c, h.subset hc, hb⟩

theorem PlainPattern.suffix {symbols symbols' : List PatternSymbol} {text text' : List Char}
    (h : PlainPattern symbols text) (hsymbols : symbols' <:+ symbols) (htext : text' <:+ text) :
    PlainPattern symbols' text' := by
  refine ⟨fun c hc => h.literals c (hsymbols.subset hc), fun invert items hset => ?_,
    fun rest hrest => ?_⟩
  · obtain ⟨hitems, hplain⟩ := h.sets invert items (hsymbols.subset hset)
    exact ⟨hitems, fun c hc => hplain c (htext.subset hc)⟩
  · have hrun := h.runs rest (hrest.trans hsymbols)
    rw [PlainRun] at hrun ⊢
    split
    · rename_i heq
      rwa [heq] at hrun
    · rename_i next others heq
      rw [heq] at hrun
      exact ⟨fun htwo c hc => hrun.1 htwo c (htext.subset hc),
        fun b hb => hrun.2 b (insides_of_suffix htext b hb)⟩

theorem takes_set {invert : Bool} {items : List SetItem} (h : PlainSet invert items c) :
    (PatternSymbol.set invert items).takes c = true ↔ items.any (·.catches c.toNat) ≠ invert := by
  have hcatches : items.any (·.has c.toNat) = true → items.any (·.catches c.toNat) = true := by
    intro hany
    obtain ⟨i, hi, hhas⟩ := any_eq_true.mp hany
    refine any_eq_true.mpr ⟨i, hi, ?_⟩
    cases i with
    | char d => exact hhas
    | range first last =>
      rw [SetItem.catches, Bool.or_eq_true]
      exact .inr hhas
  have hiff : items.any (·.has c.toNat) = items.any (·.catches c.toNat) :=
    Bool.eq_iff_iff.mpr ⟨hcatches, h.1⟩
  rw [PatternSymbol.takes, hiff, decide_eq_true_eq]

/-! ## The search behind a star -/

theorem starLoop_inside (matchRest : List UInt8 → Except Fault match_status) (next : UInt8) :
    ∀ (front string : List UInt8), (∀ b ∈ front, ∀ rest,
      next = b ∨ next = openBracket ∨ next = backslash → matchRest (b :: rest) = .ok NO_MATCH) →
    starLoop matchRest next (front ++ string) = starLoop matchRest next string
  | [], _, _ => rfl
  | b :: front, string, h => by
    have hrest := starLoop_inside matchRest next front string fun x hx => h x (mem_cons_of_mem b hx)
    rw [cons_append, starLoop]
    by_cases hb : next = b ∨ next = openBracket ∨ next = backslash
    · rw [if_pos hb, h b mem_cons_self _ hb]
      exact hrest
    · rw [if_neg hb]
      exact hrest

/-- **The search** finds a place from which the rest of the pattern matches, if there is one. -/
theorem starLoop_decides (matchRest : List UInt8 → Except Fault match_status) (next : UInt8)
    (l : Language Char) : ∀ (text : List Char),
    (∀ b ∈ insides text, ∀ rest, next = b ∨ next = openBracket ∨ next = backslash →
      matchRest (b :: rest) = .ok NO_MATCH) →
    (∀ rest, rest <:+ text → Decides (matchRest (bytes rest)) (rest ∈ l)) →
    (∀ rest, rest <:+ text → rest ∈ l → ∃ b string, bytes rest = b :: string ∧
      (next = b ∨ next = openBracket ∨ next = backslash)) →
    Decides (starLoop matchRest next (bytes text)) (∃ rest, rest <:+ text ∧ rest ∈ l)
  | [], _, _, hnext => by
    refine decides_no ?_
    rintro ⟨rest, hrest, hmem⟩
    obtain ⟨b, string, heq, -⟩ := hnext rest hrest hmem
    rw [suffix_nil.mp hrest] at heq
    cases heq
  | c :: text, hinside, hmatch, hnext => by
    have hsuffix : text <:+ c :: text := suffix_cons c text
    have hrest := starLoop_decides matchRest next l text
      (fun b hb => hinside b (by rw [insides_cons]; exact mem_append_right _ hb))
      (fun rest hr => hmatch rest (hr.trans hsuffix))
      (fun rest hr => hnext rest (hr.trans hsuffix))
    obtain ⟨b, string, heq, -⟩ := encode_eq c
    have hbytes : bytes (c :: text) = b :: (string ++ bytes text) := by
      rw [bytes_cons, heq, cons_append]
    have hskip := starLoop_inside matchRest next string (bytes text) fun x hx => hinside x (by
        rw [insides_cons, heq]
        exact mem_append_left _ hx)
    have hhere := hmatch (c :: text) suffix_rfl
    rw [hbytes] at hhere ⊢
    have hcases : (∃ rest, rest <:+ c :: text ∧ rest ∈ l) ↔
        c :: text ∈ l ∨ ∃ rest, rest <:+ text ∧ rest ∈ l := by
      constructor
      · rintro ⟨rest, hr, hmem⟩
        rcases suffix_cons_iff.mp hr with rfl | hr
        · exact .inl hmem
        · exact .inr ⟨rest, hr, hmem⟩
      · rintro (hmem | ⟨rest, hr, hmem⟩)
        · exact ⟨_, suffix_rfl, hmem⟩
        · exact ⟨rest, hr.trans hsuffix, hmem⟩
    rw [starLoop, hskip]
    by_cases hmem : c :: text ∈ l
    · obtain ⟨b', string', heq', hb⟩ := hnext _ suffix_rfl hmem
      rw [hbytes, List.cons.injEq] at heq'
      rw [if_pos (heq'.1 ▸ hb), hhere.1 hmem]
      exact decides_ok (hcases.mpr (.inl hmem))
    · have hgo := hrest.congr (hcases.trans (or_iff_right hmem))
      split
      · rw [hhere.2 hmem]
        exact hgo
      · exact hgo

/-! ## matchString -/

/-- The end of the text. -/
theorem stars_nil : ∀ {n : Nat} {pattern : List Char} {symbols : List PatternSymbol},
    readSymbols n pattern = some symbols →
    ((bytes pattern).dropWhile (· = star) = [] ↔ [] ∈ language symbols)
  | 0, _, _, h => by cases h
  | n + 1, [], symbols, h => by
    rw [readSymbols, Option.some.injEq] at h
    subst h
    exact iff_of_true rfl (mem_language_nil.mpr rfl)
  | n + 1, c :: pattern, symbols, h => by
    have hother : ∀ {symbol : PatternSymbol} {others : List PatternSymbol}, c ≠ '*' →
        symbol ≠ .star → ((bytes (c :: pattern)).dropWhile (· = star) = [] ↔
          [] ∈ language (symbol :: others)) := by
      intro symbol others hstar hsymbol
      obtain ⟨b, rest, heq, -⟩ := encode_eq c
      have hb : b ≠ star := by
        rintro rfl
        exact not_mem_encode (d := '*') (by decide) hstar (heq ▸ mem_cons_self)
      rw [bytes_cons, heq, cons_append, dropWhile_cons_of_neg (by simpa using hb)]
      refine iff_of_false (cons_ne_nil _ _) fun hmem => ?_
      obtain ⟨d, text, hnil, -⟩ := (mem_language_cons hsymbol).mp hmem
      cases hnil
    rcases readSymbols_cases h with ⟨rfl, others, hothers, rfl⟩ | ⟨rfl, others, -, rfl⟩ |
        ⟨rfl, d, -, others, -, -, rfl⟩ | ⟨rfl, items, -, others, -, -, rfl⟩ |
        ⟨hordinary, others, -, rfl⟩
    · rw [bytes_ascii (by decide), dropWhile_cons_of_pos (by decide), stars_nil hothers,
        mem_language_star]
      constructor
      · exact fun h => ⟨[], suffix_rfl, h⟩
      · rintro ⟨rest, hrest, hmem⟩
        rwa [suffix_nil.mp hrest] at hmem
    · exact hother (by decide) (by simp)
    · exact hother (by decide) (by simp)
    · exact hother (by decide) (by simp)
    · exact hother hordinary.2.1 (by simp)

/-- What a pattern goes on with behind a run: a set, or a character that stands for itself. -/
theorem behind_cases {m : Nat} {behind : List Char} {next : PatternSymbol}
    {others : List PatternSymbol} (h : readSymbols m behind = some (next :: others))
    (hstar : behind.head? ≠ some '*') (hquestion : behind.head? ≠ some '?')
    (hplain : ∀ c, next ≠ .literal true c) :
    ∃ p pattern, behind = p :: pattern ∧
      ((p = '[' ∧ ∃ n items rest, readItems n (behindMark pattern) = some (items, rest) ∧
        next = .set (isInverted pattern) items) ∨ IsOrdinary p ∧ next = .literal false p) := by
  cases m with
  | zero => cases h
  | succ m =>
    cases behind with
    | nil => cases h
    | cons p pattern =>
      refine ⟨p, pattern, rfl, ?_⟩
      rcases readSymbols_cases h with ⟨rfl, -⟩ | ⟨rfl, -⟩ | ⟨-, d, _, _, -, -, heq⟩ |
          ⟨hp, items, rest, _, hitems, -, heq⟩ | ⟨hordinary, _, -, heq⟩
      · exact absurd rfl hstar
      · exact absurd rfl hquestion
      · rw [List.cons.injEq] at heq
        exact absurd heq.1 (hplain d)
      · rw [List.cons.injEq] at heq
        exact .inl ⟨hp, m, items, rest, hitems, heq.1⟩
      · rw [List.cons.injEq] at heq
        exact .inr ⟨hordinary, heq.1⟩

theorem matchRounds_inside {fuel n : Nat} {pattern rest : List Char} {items : List SetItem}
    {b : UInt8} (hfuel : 0 < fuel) (h : readItems n (behindMark pattern) = some (items, rest))
    (hitems : items ≠ []) (hb : IsInside b)
    (hinside : (PatternSymbol.set (isInverted pattern) items).takesInside b = false)
    (string : List UInt8) :
    matchRounds fuel (bytes ('[' :: pattern)) (b :: string) = .ok NO_MATCH := by
  obtain ⟨fuel, rfl⟩ : ∃ k, fuel = k + 1 := ⟨fuel - 1, by omega⟩
  rw [PatternSymbol.takesInside, decide_eq_false_iff_not, not_not] at hinside
  have hset := matchSet_bytes (k := b.toNat) h hitems fun hinvert => by
    rw [hinvert] at hinside
    exact clear_of_not_any hinside
  rw [if_neg (not_not.mpr hinside)] at hset
  rw [bytes_ascii (by decide), matchRounds, if_neg (by decide), if_neg (by decide),
    if_pos (show UInt8.ofNat '['.toNat = openBracket from rfl)]
  simp only [utf8ToUnicode_inside hb, hset, bind, Except.bind]

theorem behindRun_suffix : ∀ symbols : List PatternSymbol, behindRun symbols <:+ symbols
  | [] => suffix_rfl
  | .star :: symbols => (behindRun_suffix symbols).trans (suffix_cons _ symbols)
  | .question :: symbols => (behindRun_suffix symbols).trans (suffix_cons _ symbols)
  | .set _ _ :: _ => suffix_rfl
  | .literal _ _ :: _ => suffix_rfl

/-- **A star** takes any characters, if the rest of the pattern is matched rightly. -/
theorem star_decides {fuel n : Nat}
    {symbols : List PatternSymbol} (h : readSymbols n pattern = some symbols)
    (hplain : PlainPattern (.star :: symbols) (c :: text)) (hfuel : (bytes pattern).length < fuel)
    (hrest : ∀ {m : Nat} {behind rest : List Char}, readSymbols m behind = some (behindRun symbols) →
      rest <:+ c :: text → (bytes behind).length < fuel →
      Decides (matchRounds fuel (bytes behind) (bytes rest)) (rest ∈ language (behindRun symbols))) :
    Decides (matchRounds (fuel + 1) (bytes ('*' :: pattern)) (bytes (c :: text)))
      (c :: text ∈ language (.star :: symbols)) := by
  obtain ⟨m, behind, hread, hlength, hnoStar, hnoQuestion, hcompact⟩ := compact_bytes h
  have hrun := hplain.runs symbols suffix_rfl
  obtain ⟨b, string, heq, -⟩ := encode_eq c
  have hbytes : bytes (c :: text) = b :: (string ++ bytes text) := by
    rw [bytes_cons, heq, cons_append]
  have hround := hcompact (bytes (c :: text)) (by rw [hbytes]; exact cons_ne_nil _ _)
  have hchars := length_le_bytes (c :: text)
  refine Decides.congr ?_ mem_language_run
  rw [bytes_ascii (by decide), hbytes, matchRounds, if_neg (by decide),
    if_pos (show UInt8.ofNat '*'.toNat = star from rfl), ← hbytes, hround]
  rw [PlainRun] at hrun
  cases hbehind : behindRun symbols with
  | nil =>
    simp only [hbehind] at hrun
    have hnil : behind = [] := by
      rw [hbehind] at hread
      cases m with
      | zero => cases hread
      | succ m =>
        cases behind with
        | nil => rfl
        | cons p pattern =>
          obtain ⟨symbol, others, hcons, -⟩ := readSymbols_head hread
            (fun hp => hnoStar (by rw [hp]; rfl)) fun hp => hnoQuestion (by rw [hp]; rfl)
          cases hcons
    rw [hrun, hbytes, hnil, if_pos (by simp)]
    exact decides_ok ⟨Nat.zero_le _, [], nil_suffix, mem_language_nil.mpr rfl⟩
  | cons next others =>
    simp only [hbehind] at hrun
    have hmem : next ∈ PatternSymbol.star :: symbols := by
      refine mem_cons_of_mem _ ((behindRun_suffix symbols).subset ?_)
      rw [hbehind]
      exact mem_cons_self
    have hread' := hread
    rw [hbehind] at hread'
    obtain ⟨p, pattern', rfl, hnext⟩ := behind_cases hread' hnoStar hnoQuestion fun d hd =>
      hplain.literals d (hd ▸ hmem)
    have hone : next ≠ .star := by
      rcases hnext with ⟨-, _, _, _, -, rfl⟩ | ⟨-, rfl⟩ <;> simp
    have hnonempty : ∀ rest, rest ∈ language (next :: others) → rest ≠ [] := by
      rintro rest hrest rfl
      obtain ⟨d, r, hcons, -⟩ := (mem_language_cons hone).mp hrest
      cases hcons
    have hshort : questions symbols ≤ (c :: text).length ∨
        ¬ ∃ rest, rest <:+ (c :: text).drop (questions symbols) ∧
          rest ∈ language (next :: others) := by
      by_cases hle : questions symbols ≤ (c :: text).length
      · exact .inl hle
      · refine .inr ?_
        rintro ⟨rest, hsuffix, hmem⟩
        rw [drop_of_length_le (by omega)] at hsuffix
        exact hnonempty rest hmem (suffix_nil.mp hsuffix)
    obtain ⟨x, xs, hx, hinsideX, -⟩ := encode_eq p
    have hbehindBytes : bytes (p :: pattern') = x :: (xs ++ bytes pattern') := by
      rw [bytes_cons, hx, cons_append]
    by_cases hlong : questions symbols < (bytes (c :: text)).length
    · rw [if_pos hlong]
      obtain ⟨front, hdrop, hfront⟩ := drop_bytes (questions symbols) (c :: text) hrun.1
      have hdropSuffix := drop_suffix (questions symbols) (c :: text)
      have hinside : ∀ d ∈ insides (c :: text), ∀ rest, x = d ∨ x = openBracket ∨ x = backslash →
          matchRounds fuel (bytes (p :: pattern')) (d :: rest) = .ok NO_MATCH := by
        intro d hd rest hx'
        have hdInside := isInside_of_mem_insides hd
        rcases hnext with ⟨rfl, k, items, rest', hitems, rfl⟩ | ⟨hordinary, rfl⟩
        · exact matchRounds_inside (by omega) hitems (hplain.sets _ _ hmem).1 hdInside
            (hrun.2 d hd) rest
        · have hplainX := encode_ordinary hordinary x (hx ▸ mem_cons_self)
          rcases hx' with rfl | rfl | rfl
          · exact absurd hdInside hinsideX
          · exact absurd rfl hplainX.2.2.1
          · exact absurd rfl hplainX.2.2.2
      have hsearch := starLoop_decides (matchRounds fuel (bytes (p :: pattern'))) x
        (language (next :: others)) ((c :: text).drop (questions symbols))
        (fun d hd => hinside d (insides_of_suffix hdropSuffix d hd))
        (fun rest hsuffix => hbehind ▸ hrest hread (hsuffix.trans hdropSuffix) (by omega))
        (fun rest hsuffix hmem' => by
          obtain ⟨d, r, rfl, htakes, -⟩ := (mem_language_cons hone).mp hmem'
          rcases hnext with ⟨rfl, -⟩ | ⟨-, rfl⟩
          · obtain ⟨e, es, he, -⟩ := encode_eq d
            refine ⟨e, es ++ bytes r, by rw [bytes_cons, he, cons_append], .inr (.inl ?_)⟩
            rw [encode_ascii (by decide), List.cons.injEq] at hx
            exact hx.1.symm
          · have hpd : p = d := of_decide_eq_true htakes
            refine ⟨x, xs ++ bytes r, by rw [bytes_cons, ← hpd, hx, cons_append], .inl rfl⟩)
      simp only [hbehindBytes, hdrop]
      rw [← hbehindBytes, starLoop_inside _ _ front _ fun d hd => hinside d (hfront d hd)]
      refine hsearch.congr ⟨fun h => h.2, fun h => ⟨?_, h⟩⟩
      exact hshort.resolve_right (not_not.mpr h)
    · rw [if_neg hlong]
      refine decides_no ?_
      rintro ⟨-, rest, hsuffix, hmem'⟩
      rw [drop_of_length_le (by omega)] at hsuffix
      exact hnonempty rest hmem' (suffix_nil.mp hsuffix)

/-- **A plain pattern** is matched by the texts of its language. -/
theorem matchRounds_decides : ∀ {fuel n : Nat} {pattern text : List Char}
    {symbols : List PatternSymbol}, readSymbols n pattern = some symbols →
    PlainPattern symbols text → (bytes pattern).length < fuel →
    Decides (matchRounds fuel (bytes pattern) (bytes text)) (text ∈ language symbols) := by
  intro fuel
  induction fuel using Nat.strong_induction_on with
  | _ fuel ih =>
    intro n pattern text symbols h hplain hfuel
    obtain ⟨fuel, rfl⟩ : ∃ k, fuel = k + 1 := ⟨fuel - 1, by omega⟩
    obtain ⟨n, rfl⟩ : ∃ k, n = k + 1 := by
      cases n with
      | zero => cases h
      | succ n => exact ⟨n, rfl⟩
    cases text with
    | nil =>
      have hnil := stars_nil h
      cases pattern with
      | nil =>
        rw [bytes_nil, matchRounds, if_pos rfl]
        exact decides_ok (hnil.mp rfl)
      | cons c pattern =>
        obtain ⟨b, rest, heq, -⟩ := encode_eq c
        rw [bytes_cons, heq, cons_append] at hnil ⊢
        rw [bytes_nil, matchRounds]
        by_cases hstars : (b :: (rest ++ bytes pattern)).dropWhile (· = star) = []
        · rw [if_pos hstars]
          exact decides_ok (hnil.mp hstars)
        · rw [if_neg hstars]
          exact decides_no (mt hnil.mpr hstars)
    | cons c text =>
      have hsuffix : text <:+ c :: text := suffix_cons c text
      cases pattern with
      | nil =>
        rw [readSymbols, Option.some.injEq] at h
        subst h
        obtain ⟨b, rest, heq, -⟩ := encode_eq c
        rw [bytes_nil, bytes_cons, heq, matchRounds, if_neg (by simp)]
        exact decides_no fun hmem => cons_ne_nil _ _ (mem_language_nil.mp hmem)
      | cons p pattern =>
        rcases readSymbols_cases h with ⟨rfl, others, hothers, rfl⟩ |
            ⟨rfl, others, hothers, rfl⟩ | ⟨-, d, _, others, -, -, rfl⟩ | ⟨rfl, items, behind, others, hitems, hothers, rfl⟩ |
            ⟨hordinary, others, hothers, rfl⟩
        · -- a star
          rw [bytes_ascii (by decide), length_cons] at hfuel
          refine star_decides hothers hplain (by omega)
            fun {m behind rest} hread hrest hlength => ?_
          refine ih fuel (Nat.lt_succ_self _) hread ?_ hlength
          exact hplain.suffix ((behindRun_suffix others).trans (suffix_cons _ others)) hrest
        · -- a question mark
          rw [bytes_ascii (by decide), length_cons] at hfuel
          obtain ⟨b, string, hb, hchar⟩ := utf8ToUnicode_char c (bytes text)
          have hnext := ih fuel (Nat.lt_succ_self _) hothers
            (hplain.suffix (suffix_cons _ others) hsuffix) (by omega)
          rw [bytes_ascii (by decide), bytes_cons c, hb, matchRounds,
            if_pos (show UInt8.ofNat '?'.toNat = questionMark from rfl), hchar]
          refine hnext.congr ((mem_language_cons (by simp)).trans ?_)
          simp [PatternSymbol.takes]
        · -- an escape
          exact absurd mem_cons_self (hplain.literals d)
        · -- a set
          rw [bytes_ascii (by decide), length_cons] at hfuel
          obtain ⟨b, string, hb, hchar⟩ := utf8ToUnicode_char c (bytes text)
          obtain ⟨hnonempty, hchars⟩ := hplain.sets _ _ mem_cons_self
          have hset := hchars c mem_cons_self
          have hresult := matchSet_bytes (k := c.toNat) hitems hnonempty hset.2
          have hnext := ih fuel (Nat.lt_succ_self _) hothers
            (hplain.suffix (suffix_cons _ others) hsuffix)
            (Nat.lt_of_lt_of_le (behind_length hitems) (by omega))
          rw [bytes_ascii (by decide), bytes_cons c, hb, matchRounds, if_neg (by decide),
            if_neg (by decide), if_pos (show UInt8.ofNat '['.toNat = openBracket from rfl)]
          simp only [hchar, hresult, bind, Except.bind]
          refine Decides.congr ?_ (mem_language_cons (by simp))
          by_cases hmatched : items.any (·.catches c.toNat) ≠ isInverted pattern
          · simp only [if_pos hmatched]
            refine hnext.congr
              ⟨?_, fun hmem => ⟨c, text, rfl, (takes_set hset).mpr hmatched, hmem⟩⟩
            rintro ⟨d, rest, heq, -, hmem⟩
            rw [List.cons.injEq] at heq
            exact heq.2 ▸ hmem
          · simp only [if_neg hmatched]
            refine decides_no ?_
            rintro ⟨d, rest, heq, htakes, -⟩
            rw [List.cons.injEq] at heq
            exact hmatched ((takes_set hset).mp (heq.1 ▸ htakes))
        · -- a literal
          have hone : PatternSymbol.literal false p ≠ .star := by simp
          have hpos : 0 < (String.utf8EncodeChar p).length :=
            length_pos_iff.mpr String.utf8EncodeChar_ne_nil
          have hlength : (bytes (p :: pattern)).length =
              (String.utf8EncodeChar p).length + (bytes pattern).length := by
            rw [bytes_cons, length_append]
          rw [matchRounds_literal hordinary _ _ (by omega)]
          refine Decides.congr ?_ (mem_language_cons hone)
          by_cases hp : p = c
          · rw [if_pos (by rw [hp]; rfl), tail_cons]
            have hnext := ih (fuel + 1 - (String.utf8EncodeChar p).length) (by omega) hothers
              (hplain.suffix (suffix_cons _ others) hsuffix) (by omega)
            refine hnext.congr ⟨?_, fun hmem => ⟨c, text, rfl, decide_eq_true hp, hmem⟩⟩
            rintro ⟨d, rest, heq, -, hmem⟩
            rw [List.cons.injEq] at heq
            exact heq.2 ▸ hmem
          · rw [if_neg (by simpa using Ne.symm hp)]
            refine decides_no ?_
            rintro ⟨d, rest, heq, htakes, -⟩
            rw [List.cons.injEq] at heq
            exact hp ((of_decide_eq_true htakes).trans heq.1.symm)

/-- The pattern is valid, and the matcher is wrong about the text. -/
def IsWrong (pattern text : List Char) : Prop :=
  isValidPattern (chars (bytes pattern)) = .B_OK ∧ ∃ symbols, readPattern pattern = some symbols ∧
    ¬ Decides (matchString (bytes pattern) (bytes text)) (text ∈ language symbols)

theorem IsWrong.missed (symbols : List PatternSymbol)
    (hvalid : isValidPattern (chars (bytes pattern)) = .B_OK)
    (hread : readPattern pattern = some symbols)
    (hmatch : matchString (bytes pattern) (bytes text) ≠ .ok MATCH_OK)
    (hmem : text ∈ language symbols) : IsWrong pattern text :=
  ⟨hvalid, symbols, hread, fun h => hmatch (h.1 hmem)⟩

theorem IsWrong.found (symbols : List PatternSymbol)
    (hvalid : isValidPattern (chars (bytes pattern)) = .B_OK)
    (hread : readPattern pattern = some symbols)
    (hmatch : matchString (bytes pattern) (bytes text) ≠ .ok NO_MATCH)
    (hmem : text ∉ language symbols) : IsWrong pattern text :=
  ⟨hvalid, symbols, hread, fun h => hmatch (h.2 hmem)⟩

end BFS.Query
