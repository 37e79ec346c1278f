import OpenBeOS.BFS.QueryGrammar

/-! # Reading the tokens of a query

What the scans of the parser do on a text that starts with a token, and, the other way, which
token has been read when a scan is done.
-/

namespace BFS

open ops List

/-! ## Pointers -/

@[simp] theorem ok_bind {α β : Type} (a : α) (f : α → Except Fault β) :
    (Except.ok a >>= f) = f a := rfl

@[simp] theorem error_bind {α β : Type} (e : Fault) (f : α → Except Fault β) :
    ((Except.error e : Except Fault α) >>= f) = .error e := rfl

@[simp] theorem pure_eq_ok {α : Type} (a : α) : (pure a : Except Fault α) = .ok a := rfl

/-- The character a pointer is at. -/
def cur (string : List Char) : Char := string.headD '\x00'

@[simp] theorem cur_cons (c : Char) (string : List Char) : cur (c :: string) = c := rfl

@[simp] theorem cur_nil : cur [] = '\x00' := rfl

@[simp] theorem charAt_zero (string : List Char) : charAt string 0 = .ok (cur string) := by
  cases string <;> rfl

@[simp] theorem charAt_cons_one (c : Char) (string : List Char) :
    charAt (c :: string) 1 = .ok (cur string) := by
  cases string <;> simp [charAt, cur]

@[simp] theorem advance_zero (string : List Char) : advance string 0 = .ok string := by
  simp [advance]

@[simp] theorem advance_cons_one (c : Char) (string : List Char) :
    advance (c :: string) 1 = .ok string := by
  simp [advance]

@[simp] theorem advance_cons_two (c d : Char) (string : List Char) :
    advance (c :: d :: string) 2 = .ok string := by
  simp [advance]

/-- The string behind its white space. -/
def behindWhite (string : List Char) : List Char := string.dropWhile isWhitespace

@[simp] theorem skipWhitespace_zero (string : List Char) :
    skipWhitespace string 0 = .ok (behindWhite string) := by
  simp [skipWhitespace, behindWhite]

@[simp] theorem skipWhitespace_cons_one (c : Char) (string : List Char) :
    skipWhitespace (c :: string) 1 = .ok (behindWhite string) := by
  simp [skipWhitespace, behindWhite]

variable {string : List Char} {isChar : Char → Bool} {quote : Char}

theorem cur_eq_iff {c : Char} (hc : c ≠ '\x00') : cur string = c ↔ ∃ rest, string = c :: rest := by
  cases string with
  | nil => simp [hc.symm]
  | cons d rest => simp

theorem head?_eq_iff {c : Char} : string.head? = some c ↔ ∃ rest, string = c :: rest := by
  cases string <;> simp

/-! ## White space -/

theorem White.nil : White [] := by
  intro c hc
  cases hc

theorem White.append {text text' : List Char} (h : White text) (h' : White text') :
    White (text ++ text') := by
  intro c hc
  rcases mem_append.mp hc with hc | hc
  · exact h c hc
  · exact h' c hc

theorem behindWhite_append {white string : List Char} (hw : White white) (hs : NoWhite string) :
    behindWhite (white ++ string) = string := by
  have hd : string.dropWhile isWhitespace = string := by
    cases string with
    | nil => rfl
    | cons c rest => exact dropWhile_cons_of_neg (by simpa using hs c rfl)
  rw [behindWhite, dropWhile_append_of_pos (fun c hc => hw c hc), hd]

theorem behindWhite_of_noWhite (hs : NoWhite string) : behindWhite string = string :=
  behindWhite_append White.nil hs

theorem noWhite_dropWhile_of
    (hchar : ∀ c, isWhitespace c = true → isChar c = true) (string : List Char) :
    NoWhite (string.dropWhile isChar) := by
  intro c hc
  have hneg : isChar c = false := by
    obtain ⟨rest, hrest⟩ := head?_eq_iff.mp hc
    have := List.head?_dropWhile_not isChar string
    rw [hc] at this
    simpa using this
  cases hw : isWhitespace c with
  | false => rfl
  | true => rw [hchar c hw] at hneg; exact absurd hneg (by decide)

theorem noWhite_behindWhite (string : List Char) : NoWhite (behindWhite string) :=
  noWhite_dropWhile_of (fun _ h => h) string

theorem exists_white (string : List Char) :
    ∃ white, White white ∧ string = white ++ behindWhite string :=
  ⟨string.takeWhile isWhitespace, fun _ hc => mem_takeWhile_imp hc, takeWhile_append_dropWhile.symm⟩

theorem isWhitespace_iff (c : Char) : isWhitespace c = true ↔ c = ' ' ∨ c = '\t' := by
  simp [isWhitespace]

theorem isQuote_iff (c : Char) : isQuote c = true ↔ c = '"' ∨ c = '\'' := by
  simp [isQuote]

theorem white_attributeChar (c : Char) (h : isWhitespace c = true) : isAttributeChar c = true := by
  rcases (isWhitespace_iff c).mp h with rfl | rfl <;> rfl

theorem white_valueChar (c : Char) (h : isWhitespace c = true) : isValueChar c = true := by
  rcases (isWhitespace_iff c).mp h with rfl | rfl <;> rfl

/-! ## Quoted strings -/

/-- A quoted string that ends with the string: behind a backslash. -/
def TrailingEscape (string : List Char) : Prop :=
  ∃ quote text, isQuote quote = true ∧ QuotedBody quote text ∧ string = quote :: (text ++ ['\\'])

theorem ne_backslash_of_isQuote (h : isQuote quote = true) : '\\' ≠ quote := by
  rcases (isQuote_iff quote).mp h with rfl | rfl <;> decide

theorem quotedLoop_quote (quote : Char) (string : List Char) :
    quotedLoop quote (quote :: string) = .ok (some ([], quote :: string)) := by
  unfold quotedLoop
  rw [if_pos rfl]

theorem quotedLoop_char {quote c : Char} (hc : c ≠ quote) (hb : c ≠ '\\') (string : List Char) :
    quotedLoop quote (c :: string) =
      (quotedLoop quote string).map (Option.map fun r => (c :: r.1, r.2)) := by
  rw [quotedLoop.eq_def]
  simp only [if_neg hc, if_neg hb]

theorem quotedLoop_escaped (hq : '\\' ≠ quote) (d : Char) (string : List Char) :
    quotedLoop quote ('\\' :: d :: string) =
      (quotedLoop quote string).map (Option.map fun r => ('\\' :: d :: r.1, r.2)) := by
  rw [quotedLoop.eq_def]
  simp only [if_neg hq, if_pos]

theorem quotedLoop_backslash (hq : '\\' ≠ quote) : quotedLoop quote ['\\'] = .error .behindNul := by
  rw [quotedLoop.eq_def]
  simp only [if_neg hq, if_pos]

theorem quotedLoop_closed (hq : isQuote quote = true)
    (h : QuotedBody quote string) (rest : List Char) :
    quotedLoop quote (string ++ quote :: rest) = .ok (some (string, quote :: rest)) := by
  have hne := ne_backslash_of_isQuote hq
  induction h with
  | nil => exact quotedLoop_quote quote rest
  | char hcq hcb _ ih =>
    rw [cons_append, quotedLoop_char hcq hcb, ih]
    rfl
  | escaped _ ih =>
    rw [cons_append, cons_append, quotedLoop_escaped hne, ih]
    rfl

theorem quotedLoop_trailing (hq : isQuote quote = true)
    (h : QuotedBody quote string) :
    quotedLoop quote (string ++ ['\\']) = .error .behindNul := by
  have hne := ne_backslash_of_isQuote hq
  induction h with
  | nil => exact quotedLoop_backslash hne
  | char hcq hcb _ ih =>
    rw [cons_append, quotedLoop_char hcq hcb, ih]
    rfl
  | escaped _ ih =>
    rw [cons_append, cons_append, quotedLoop_escaped hne, ih]
    rfl

theorem quotedLoop_some {string text rest : List Char}
    (h : quotedLoop quote string = .ok (some (text, rest))) :
    QuotedBody quote text ∧ string = text ++ rest ∧ ∃ rest', rest = quote :: rest' := by
  fun_induction quotedLoop quote string generalizing text rest with
  | case1 => cases h
  | case2 string =>
    cases h
    exact ⟨.nil, rfl, _, rfl⟩
  | case3 => cases h
  | case4 hne d string ih =>
    rcases hl : quotedLoop quote d with e | (_ | ⟨text', rest'⟩)
    all_goals rw [hl] at h; cases h
    obtain ⟨hb, hs, hr⟩ := ih hl
    exact ⟨.escaped hb, by rw [hs]; rfl, hr⟩
  | case5 c string hc hb ih =>
    rcases hl : quotedLoop quote string with e | (_ | ⟨text', rest'⟩)
    all_goals rw [hl] at h; cases h
    obtain ⟨hbody, hs, hr⟩ := ih hl
    exact ⟨.char hc hb hbody, by rw [hs]; rfl, hr⟩

theorem quotedLoop_error {fault : Fault}
    (h : quotedLoop quote string = .error fault) :
    fault = .behindNul ∧ ∃ text, QuotedBody quote text ∧ string = text ++ ['\\'] := by
  fun_induction quotedLoop quote string with
  | case1 | case2 string => cases h
  | case3 hne =>
    cases h
    exact ⟨rfl, [], .nil, rfl⟩
  | case4 hne d string ih =>
    rcases hl : quotedLoop quote d with e | (_ | ⟨text', rest'⟩)
    all_goals rw [hl] at h; cases h
    obtain ⟨hf, text, hb, hs⟩ := ih hl
    exact ⟨hf, _, .escaped hb, by rw [hs]; rfl⟩
  | case5 c string hc hb ih =>
    rcases hl : quotedLoop quote string with e | (_ | ⟨text', rest'⟩)
    all_goals rw [hl] at h; cases h
    obtain ⟨hf, text, hbody, hs⟩ := ih hl
    exact ⟨hf, _, .char hc hb hbody, by rw [hs]; rfl⟩

theorem parseQuotedString_cons (quote : Char) (string : List Char) :
    ParseQuotedString (quote :: string) = quotedLoop quote string := by
  simp [ParseQuotedString]

/-! ## Unquoted strings -/

theorem skipWhitespaceReverse_append {string white : List Char} (hne : string ≠ [])
    (hlast : ∀ c, string.getLast? = some c → isWhitespace c = false) (hw : White white) :
    skipWhitespaceReverse (string ++ white) = string := by
  obtain ⟨c, rest, rfl⟩ := exists_cons_of_ne_nil hne
  have hdrop : ((rest ++ white).reverse.dropWhile isWhitespace) = rest.reverse := by
    rw [reverse_append, dropWhile_append_of_pos (fun d hd => hw d (mem_reverse.mp hd))]
    rcases eq_nil_or_concat rest with rfl | ⟨init, d, rfl⟩
    · rfl
    · have hd : isWhitespace d = false := hlast d (by rw [concat_eq_append]; exact List.getLast?_concat (l := c :: init))
      simp [hd]
  show c :: ((rest ++ white).reverse.dropWhile isWhitespace).reverse = c :: rest
  rw [hdrop, reverse_reverse]

/-- The trimmed string, and the white space behind it. -/
theorem skipWhitespaceReverse_spec {text : List Char} (h : NoWhite text) :
    ∃ white, White white ∧ text = skipWhitespaceReverse text ++ white ∧
      ∀ c, (skipWhitespaceReverse text).getLast? = some c → isWhitespace c = false := by
  cases text with
  | nil => exact ⟨[], White.nil, rfl, by simp [skipWhitespaceReverse]⟩
  | cons c rest =>
    have hsplit := @takeWhile_append_dropWhile _ isWhitespace rest.reverse
    refine ⟨(rest.reverse.takeWhile isWhitespace).reverse, ?_, ?_, ?_⟩
    · intro d hd
      exact mem_takeWhile_imp (mem_reverse.mp hd)
    · have := congrArg List.reverse hsplit
      rw [reverse_append, reverse_reverse] at this
      rw [skipWhitespaceReverse, cons_append, this]
    · intro d hd
      rw [skipWhitespaceReverse] at hd
      rcases hdr : rest.reverse.dropWhile isWhitespace with _ | ⟨e, init⟩
      · rw [hdr] at hd
        obtain rfl : c = d := by simpa using hd
        exact h c rfl
      · have he : isWhitespace e = false := by
          have := List.head?_dropWhile_not isWhitespace rest.reverse
          rw [hdr] at this
          simpa using this
        rw [hdr, reverse_cons] at hd
        have hde : e = d := by
          rw [← cons_append, List.getLast?_append] at hd
          simpa using hd
        exact hde ▸ he

/-- `string` ends the scan over `isChar`. -/
def Stops (isChar : Char → Bool) (string : List Char) : Prop :=
  ∀ c, string.head? = some c → isChar c = false

theorem Stops.noWhite
    (hchar : ∀ c, isWhitespace c = true → isChar c = true) (h : Stops isChar string) :
    NoWhite string := by
  intro c hc
  cases hw : isWhitespace c with
  | false => rfl
  | true => exact absurd (h c hc) (by rw [hchar c hw]; decide)

theorem stops_dropWhile (isChar : Char → Bool) (string : List Char) :
    Stops isChar (string.dropWhile isChar) := by
  intro c hc
  have := List.head?_dropWhile_not isChar string
  rw [hc] at this
  simpa using this

theorem takeWhile_append_stops {text rest : List Char}
    (ht : ∀ c ∈ text, isChar c = true) (hr : Stops isChar rest) :
    (text ++ rest).takeWhile isChar = text ∧ (text ++ rest).dropWhile isChar = rest := by
  have hrest : rest.takeWhile isChar = [] ∧ rest.dropWhile isChar = rest := by
    cases rest with
    | nil => exact ⟨rfl, rfl⟩
    | cons c rest =>
      have := hr c rfl
      simp [this]
  rw [takeWhile_append_of_pos ht, dropWhile_append_of_pos ht, hrest.1, hrest.2]
  simp

theorem scan_bare {string white rest : List Char}
    (hchar : ∀ c, isWhitespace c = true → isChar c = true) (h : Bare isChar string)
    (hw : White white) (hne : string = [] → white = []) (hr : Stops isChar rest) :
    skipWhitespaceReverse ((string ++ (white ++ rest)).takeWhile isChar) = string ∧
      (string ++ (white ++ rest)).dropWhile isChar = rest := by
  have hall : ∀ c ∈ string ++ white, isChar c = true := by
    intro c hc
    rcases mem_append.mp hc with hc | hc
    · exact h.chars c hc
    · exact hchar c (hw c hc)
  obtain ⟨htake, hdrop⟩ := takeWhile_append_stops hall hr
  rw [← append_assoc, htake, hdrop]
  refine ⟨?_, rfl⟩
  by_cases hs : string = []
  · rw [hs, hne hs]
    rfl
  · exact skipWhitespaceReverse_append hs h.last hw

/-- What the scan and the trimming have read. -/
theorem scan_spec {expr : List Char}
    (hw : NoWhite expr) (hq : isQuote (cur expr) = false) :
    ∃ white, White white ∧ Bare isChar (skipWhitespaceReverse (expr.takeWhile isChar)) ∧
      expr = skipWhitespaceReverse (expr.takeWhile isChar) ++ (white ++ expr.dropWhile isChar) := by
  have hhead : ∀ c, (expr.takeWhile isChar).head? = some c → expr.head? = some c := by
    intro c hc
    obtain ⟨rest, hrest⟩ := head?_eq_iff.mp hc
    rw [← @takeWhile_append_dropWhile _ isChar expr, hrest]
    rfl
  have hno : NoWhite (expr.takeWhile isChar) := fun c hc => hw c (hhead c hc)
  obtain ⟨white, hwhite, hsplit, hlast⟩ := skipWhitespaceReverse_spec hno
  refine ⟨white, hwhite, ⟨?_, ?_, hlast⟩, ?_⟩
  · intro c hc
    have hmem : c ∈ expr.takeWhile isChar := by
      rw [hsplit]
      exact mem_append_left _ hc
    exact mem_takeWhile_imp hmem
  · intro c hc
    have hc' : (expr.takeWhile isChar).head? = some c := by
      obtain ⟨rest, hrest⟩ := head?_eq_iff.mp hc
      rw [hsplit, hrest]
      rfl
    refine ⟨hno c hc', ?_⟩
    obtain ⟨rest, hrest⟩ := head?_eq_iff.mp (hhead c hc')
    rw [hrest] at hq
    exact hq
  · rw [← append_assoc, ← hsplit, takeWhile_append_dropWhile]

end BFS
