import OpenBeOS.BFS.PatternCheck
import OpenBeOS.Lib.Utf8

/-! # The language of a pattern

What a pattern stands for, read off its characters: the symbols of the pattern and the texts that they
stand for. Nothing here follows `matchString()`; the patterns that can be read include all that
`isValidPattern()` accepts.
-/

namespace BFS.Query

open Utf8 List Option

/-! ## Symbols -/

/-- An element of a set. -/
inductive SetItem where
  | char (c : Char)
  | range (first last : Char)
  deriving Repr, DecidableEq

/-- The element stands for the character with this number. -/
def SetItem.has (n : Nat) : SetItem → Bool
  | .char c => c.toNat = n
  | .range first last => first.toNat ≤ n && n ≤ last.toNat

/-- A symbol of a pattern. -/
inductive PatternSymbol where
  | star
  | question
  | set (invert : Bool) (items : List SetItem)
  | literal (escaped : Bool) (c : Char)
  deriving Repr, DecidableEq

/-- The symbol, if it stands for one character, stands for this one. -/
def PatternSymbol.takes (c : Char) : PatternSymbol → Bool
  | .star => false
  | .question => true
  | .set invert items => items.any (·.has c.toNat) ≠ invert
  | .literal _ d => d = c

/-- The texts that the symbol stands for. -/
def PatternSymbol.texts : PatternSymbol → Language Char
  | .star => ⊤
  | symbol => {text | ∃ c, text = [c] ∧ symbol.takes c}

/-- **The language of a pattern.** -/
def language (symbols : List PatternSymbol) : Language Char :=
  (symbols.map PatternSymbol.texts).prod

variable {symbols : List PatternSymbol} {pattern : List Char} {text : List Char}

theorem mem_language_nil : text ∈ language [] ↔ text = [] := Language.mem_one text

theorem mem_language_star :
    text ∈ language (.star :: symbols) ↔ ∃ rest, rest <:+ text ∧ rest ∈ language symbols := by
  rw [language, map_cons, prod_cons, Language.mem_mul]
  constructor
  · rintro ⟨front, -, rest, hrest, rfl⟩
    exact ⟨rest, suffix_append front rest, hrest⟩
  · rintro ⟨rest, ⟨front, rfl⟩, hrest⟩
    exact ⟨front, trivial, rest, hrest, rfl⟩

theorem mem_language_cons {symbol : PatternSymbol} (hsymbol : symbol ≠ .star) :
    text ∈ language (symbol :: symbols) ↔
      ∃ c rest, text = c :: rest ∧ symbol.takes c ∧ rest ∈ language symbols := by
  have htexts : symbol.texts = {text | ∃ c, text = [c] ∧ symbol.takes c} := by
    cases symbol with
    | star => exact absurd rfl hsymbol
    | _ => rfl
  rw [language, map_cons, prod_cons, Language.mem_mul, htexts]
  constructor
  · rintro ⟨front, ⟨c, rfl, hc⟩, rest, hrest, rfl⟩
    exact ⟨c, rest, rfl, hc, hrest⟩
  · rintro ⟨c, rest, rfl, hc, hrest⟩
    exact ⟨[c], ⟨c, rfl, hc⟩, rest, hrest, rfl⟩

/-! ## Reading a pattern -/

/-- A character in a set, and the pattern behind it. -/
def readChar : List Char → Option (Char × List Char)
  | [] => none
  | c :: pattern =>
    if c = '\\' then
      match pattern with
      | [] => none
      | d :: pattern => some (d, pattern)
    else some (c, pattern)

/-- The elements of a set, and the pattern behind its closing bracket. -/
def readItems : Nat → List Char → Option (List SetItem × List Char)
  | 0, _ => none
  | n + 1, pattern =>
    if pattern.head? = some ']' then some ([], pattern.tail)
    else do
      let first ← readChar pattern
      if first.2.head? = some '-' ∧ first.2.tail.head? ≠ some ']' then
        let last ← readChar first.2.tail
        let set ← readItems n last.2
        some (.range first.1 last.1 :: set.1, set.2)
      else
        let set ← readItems n first.2
        some (.char first.1 :: set.1, set.2)

/-- Whether the set starts with a mark that inverts it. -/
def isInverted (pattern : List Char) : Bool := pattern.head? = some '^' || pattern.head? = some '!'

/-- The set behind this mark. -/
def behindMark (pattern : List Char) : List Char :=
  if isInverted pattern then pattern.tail else pattern

/-- The symbols of a pattern. -/
def readSymbols : Nat → List Char → Option (List PatternSymbol)
  | 0, _ => none
  | _ + 1, [] => some []
  | n + 1, c :: pattern =>
    if c = '*' then (readSymbols n pattern).map (.star :: ·)
    else if c = '?' then (readSymbols n pattern).map (.question :: ·)
    else if c = '\\' then
      match pattern with
      | [] => none
      | d :: pattern => (readSymbols n pattern).map (.literal true d :: ·)
    else if c = '[' then do
      let set ← readItems n (behindMark pattern)
      let symbols ← readSymbols n set.2
      some (.set (isInverted pattern) set.1 :: symbols)
    else (readSymbols n pattern).map (.literal false c :: ·)

/-- The symbols of the whole pattern. -/
def readPattern (pattern : List Char) : Option (List PatternSymbol) :=
  readSymbols (pattern.length + 1) pattern

example : readPattern "a*[!b-d\\]]\\?".toList = some [.literal false 'a', .star,
    .set true [.range 'b' 'd', .char ']'], .literal true '?'] := by decide

theorem readChar_length {x : Char × List Char} (h : readChar pattern = some x) :
    x.2.length < pattern.length := by
  cases pattern with
  | nil => cases h
  | cons c pattern =>
    rw [readChar.eq_def] at h
    simp only at h
    split at h
    · cases pattern with
      | nil => cases h
      | cons d pattern =>
        rw [Option.some.injEq] at h
        rw [← h]
        simp only [length_cons]
        omega
    · rw [Option.some.injEq] at h
      rw [← h, length_cons]
      exact Nat.lt_succ_self _

/-- How the elements of a set go on. -/
theorem readItems_cases {n : Nat} {pattern rest : List Char} {items : List SetItem}
    (h : readItems (n + 1) pattern = some (items, rest)) :
    (pattern = ']' :: rest ∧ items = []) ∨
    pattern.head? ≠ some ']' ∧ ∃ first behind others, readChar pattern = some (first, behind) ∧
      ((∃ last tail behind', behind = '-' :: tail ∧ tail.head? ≠ some ']' ∧
          readChar tail = some (last, behind') ∧ readItems n behind' = some (others, rest) ∧
          items = .range first last :: others) ∨
        ¬ (behind.head? = some '-' ∧ behind.tail.head? ≠ some ']') ∧
          readItems n behind = some (others, rest) ∧ items = .char first :: others) := by
  rw [readItems] at h
  split at h
  · rename_i hclose
    rw [Option.some.injEq, Prod.mk.injEq] at h
    obtain ⟨tail, rfl⟩ := List.head?_eq_some_iff.mp hclose
    exact .inl ⟨by rw [← h.2]; rfl, h.1.symm⟩
  · rename_i hclose
    simp only [bind_eq_bind, bind_eq_some_iff] at h
    obtain ⟨⟨first, behind⟩, hfirst, h⟩ := h
    refine .inr ⟨hclose, first, behind, ?_⟩
    split at h
    · rename_i hrange
      simp only [bind_eq_some_iff] at h
      obtain ⟨⟨last, behind'⟩, hlast, ⟨others, rest'⟩, hothers, h⟩ := h
      rw [Option.some.injEq, Prod.mk.injEq] at h
      obtain ⟨rfl, rfl⟩ := h
      obtain ⟨tail, rfl⟩ := List.head?_eq_some_iff.mp hrange.1
      exact ⟨others, hfirst, .inl ⟨last, tail, behind', rfl, hrange.2, hlast, hothers, rfl⟩⟩
    · rename_i hrange
      simp only [bind_eq_some_iff] at h
      obtain ⟨⟨others, rest'⟩, hothers, h⟩ := h
      rw [Option.some.injEq, Prod.mk.injEq] at h
      obtain ⟨rfl, rfl⟩ := h
      exact ⟨others, hfirst, .inr ⟨hrange, hothers, rfl⟩⟩

/-- The character has no meaning of its own. -/
def IsOrdinary (c : Char) : Prop := c ≠ '?' ∧ c ≠ '*' ∧ c ≠ '[' ∧ c ≠ '\\'

/-- How a pattern goes on. -/
theorem readSymbols_cases {n : Nat} {c : Char}
    (h : readSymbols (n + 1) (c :: pattern) = some symbols) :
    (c = '*' ∧ ∃ others, readSymbols n pattern = some others ∧ symbols = .star :: others) ∨
    (c = '?' ∧ ∃ others, readSymbols n pattern = some others ∧ symbols = .question :: others) ∨
    (c = '\\' ∧ ∃ d behind others, pattern = d :: behind ∧ readSymbols n behind = some others ∧
      symbols = .literal true d :: others) ∨
    (c = '[' ∧ ∃ items behind others, readItems n (behindMark pattern) = some (items, behind) ∧
      readSymbols n behind = some others ∧ symbols = .set (isInverted pattern) items :: others) ∨
    (IsOrdinary c ∧ ∃ others, readSymbols n pattern = some others ∧
      symbols = .literal false c :: others) := by
  rw [readSymbols.eq_def] at h
  simp only at h
  split at h
  · rename_i hc
    obtain ⟨others, hothers, rfl⟩ := map_eq_some_iff.mp h
    exact .inl ⟨hc, others, hothers, rfl⟩
  split at h
  · rename_i hc
    obtain ⟨others, hothers, rfl⟩ := map_eq_some_iff.mp h
    exact .inr (.inl ⟨hc, others, hothers, rfl⟩)
  split at h
  · rename_i hc
    cases pattern with
    | nil => cases h
    | cons d behind =>
      obtain ⟨others, hothers, rfl⟩ := map_eq_some_iff.mp h
      exact .inr (.inr (.inl ⟨hc, d, behind, others, rfl, hothers, rfl⟩))
  split at h
  · rename_i hc
    simp only [bind_eq_bind, bind_eq_some_iff] at h
    obtain ⟨⟨items, behind⟩, hitems, others, hothers, h⟩ := h
    rw [Option.some.injEq] at h
    exact .inr (.inr (.inr (.inl ⟨hc, items, behind, others, hitems, hothers, h.symm⟩)))
  · rename_i hstar hquestion hescape hset
    obtain ⟨others, hothers, rfl⟩ := map_eq_some_iff.mp h
    exact .inr (.inr (.inr (.inr ⟨⟨hquestion, hstar, hset, hescape⟩, others, hothers, rfl⟩)))

/-! ## Valid patterns can be read -/

theorem bytes_ascii {c : Char} (h : c.toNat < 128) (text : List Char) :
    bytes (c :: text) = UInt8.ofNat c.toNat :: bytes text := by
  rw [bytes_cons, encode_ascii h, singleton_append]

theorem not_mem_encode {c d : Char} (hd : d.toNat < 128) (h : c ≠ d) :
    UInt8.ofNat d.toNat ∉ String.utf8EncodeChar c := by
  intro hmem
  have hb := ofNat_toNat (show d.toNat < 256 by omega)
  have hc := mem_encode_ascii (by omega) hmem
  exact h (Char.toNat_inj.mp (hc.trans hb))

theorem isValidPattern_append : ∀ {front : List UInt8} {pattern : List UInt8}, backslash ∉ front →
    openBracket ∉ front → isValidPattern (chars (front ++ pattern)) = isValidPattern (chars pattern)
  | [], _, _, _ => rfl
  | b :: front, pattern, hescape, hopen => by
    rw [mem_cons, not_or] at hescape hopen
    have h1 : ¬ Char.ofNat b.toNat = '\\' := mt (ofNat_eq_iff (b := b) (d := backslash)).mp
      (Ne.symm hescape.1)
    have h2 : ¬ Char.ofNat b.toNat = '[' := mt (ofNat_eq_iff (b := b) (d := openBracket)).mp
      (Ne.symm hopen.1)
    rw [cons_append, chars, map_cons, isValidPattern.eq_def]
    simp only
    rw [if_neg h1, if_neg h2]
    exact isValidPattern_append hescape.2 hopen.2

theorem isValidSet_append : ∀ {front : List UInt8} {pattern : List UInt8}, backslash ∉ front →
    bracket ∉ front → isValidSet (chars (front ++ pattern)) = .B_OK →
    isValidSet (chars pattern) = .B_OK
  | [], _, _, _, h => h
  | b :: front, pattern, hescape, hclose, h => by
    rw [mem_cons, not_or] at hescape hclose
    have h1 : ¬ Char.ofNat b.toNat = '\\' := mt (ofNat_eq_iff (b := b) (d := backslash)).mp
      (Ne.symm hescape.1)
    have h2 : ¬ Char.ofNat b.toNat = ']' := mt (ofNat_eq_iff (b := b) (d := bracket)).mp
      (Ne.symm hclose.1)
    rw [cons_append, chars, map_cons, isValidSet.eq_def] at h
    simp only at h
    rw [if_neg h2, if_neg h1] at h
    split at h
    · cases h
    · exact isValidSet_append hescape.2 hclose.2 h

theorem isValidPattern_escape {b : UInt8} {pattern : List UInt8} :
    isValidPattern (chars (backslash :: b :: pattern)) = isValidPattern (chars pattern) := by
  have hescape : Char.ofNat backslash.toNat = '\\' := rfl
  rw [chars, map_cons, isValidPattern.eq_def]
  simp only
  rw [if_pos hescape]
  rfl

theorem isValidSet_escape {b : UInt8} {pattern : List UInt8}
    (h : isValidSet (chars (backslash :: b :: pattern)) = .B_OK) :
    isValidSet (chars pattern) = .B_OK := by
  have hescape : Char.ofNat backslash.toNat = '\\' := rfl
  have hclose : ¬ Char.ofNat backslash.toNat = ']' := by decide
  rw [chars, map_cons, isValidSet.eq_def] at h
  simp only at h
  rw [if_neg hclose, if_pos hescape] at h
  simp only [map_cons] at h
  split at h
  · cases h
  · exact h

theorem encode_rest (c : Char) : ∃ b rest, String.utf8EncodeChar c = b :: rest ∧
    backslash ∉ rest ∧ openBracket ∉ rest ∧ bracket ∉ rest := by
  obtain ⟨b, rest, heq, -, hrest, -⟩ := encode_eq c
  have hnot : ∀ x : UInt8, x.toNat < 128 → x ∉ rest := by
    intro x hx hmem
    have hinside := hrest x hmem
    rw [IsInside] at hinside
    omega
  exact ⟨b, rest, heq, hnot _ (by decide), hnot _ (by decide), hnot _ (by decide)⟩

/-- A character in a valid set can be read. -/
theorem readChar_of_valid (h : isValidSet (chars (bytes pattern)) = .B_OK)
    (hclose : pattern.head? ≠ some ']') :
    ∃ x, readChar pattern = some x ∧ isValidSet (chars (bytes x.2)) = .B_OK := by
  cases pattern with
  | nil => cases h
  | cons c pattern =>
    rw [readChar.eq_def]
    simp only
    by_cases hc : c = '\\'
    · subst hc
      rw [if_pos rfl]
      rw [bytes_ascii (by decide)] at h
      cases pattern with
      | nil => cases h
      | cons d pattern =>
        obtain ⟨b, rest, heq, hescape, -, hbracket⟩ := encode_rest d
        rw [bytes_cons, heq, cons_append] at h
        exact ⟨_, rfl, isValidSet_append hescape hbracket (isValidSet_escape h)⟩
    · rw [if_neg hc]
      have hbracket : c ≠ ']' := fun heq => hclose (by rw [heq]; rfl)
      rw [bytes_cons] at h
      exact ⟨_, rfl, isValidSet_append (not_mem_encode (d := '\\') (by decide) hc)
        (not_mem_encode (d := ']') (by decide) hbracket) h⟩

/-- **Valid sets** can be read to their closing brackets. -/
theorem readItems_of_valid : ∀ {n : Nat} {pattern : List Char}, pattern.length < n →
    isValidSet (chars (bytes pattern)) = .B_OK →
    ∃ set, readItems n pattern = some set ∧ set.2.length < pattern.length ∧
      isValidPattern (chars (bytes set.2)) = .B_OK
  | 0, _, hn, _ => absurd hn (Nat.not_lt_zero _)
  | n + 1, pattern, hn, h => by
    rw [readItems]
    by_cases hclose : pattern.head? = some ']'
    · rw [if_pos hclose]
      obtain ⟨rest, rfl⟩ := List.head?_eq_some_iff.mp hclose
      refine ⟨_, rfl, Nat.lt_succ_self _, ?_⟩
      rw [bytes_ascii (by decide), chars, map_cons, isValidSet.eq_def] at h
      simp only at h
      rwa [if_pos (show Char.ofNat (UInt8.ofNat ']'.toNat).toNat = ']' by decide)] at h
    rw [if_neg hclose]
    obtain ⟨first, hfirst, hvalid⟩ := readChar_of_valid h hclose
    have hlength := readChar_length hfirst
    simp only [hfirst, bind_eq_bind, bind_some]
    by_cases hrange : first.2.head? = some '-' ∧ first.2.tail.head? ≠ some ']'
    · rw [if_pos hrange]
      obtain ⟨tail, htail⟩ := List.head?_eq_some_iff.mp hrange.1
      rw [htail, bytes_ascii (by decide)] at hvalid
      rw [← singleton_append] at hvalid
      have hvalid' : isValidSet (chars (bytes tail)) = .B_OK :=
        isValidSet_append (by decide) (by decide) hvalid
      rw [htail, tail_cons] at hrange
      rw [htail, length_cons] at hlength
      obtain ⟨last, hlast, hvalid''⟩ := readChar_of_valid hvalid' hrange.2
      have hlength' := readChar_length hlast
      obtain ⟨set, hset, hshort, hrest⟩ := readItems_of_valid (n := n) (by omega) hvalid''
      simp only [htail, tail_cons, hlast, hset, bind_some]
      exact ⟨_, rfl, by simp only; omega, hrest⟩
    · rw [if_neg hrange]
      obtain ⟨set, hset, hshort, hrest⟩ := readItems_of_valid (n := n) (by omega) hvalid
      simp only [hset, bind_some]
      exact ⟨_, rfl, by simp only; omega, hrest⟩

theorem behindMark_length (pattern : List Char) : (behindMark pattern).length ≤ pattern.length := by
  rw [behindMark]
  split
  · rw [length_tail]
    omega
  · exact le_refl _

theorem behindMark_of_valid (h : isValidSet (chars (bytes pattern)) = .B_OK) :
    isValidSet (chars (bytes (behindMark pattern))) = .B_OK := by
  rw [behindMark]
  split
  · rename_i hmark
    rw [isInverted, Bool.or_eq_true, decide_eq_true_eq, decide_eq_true_eq] at hmark
    rcases hmark with hmark | hmark
    all_goals
      obtain ⟨rest, rfl⟩ := List.head?_eq_some_iff.mp hmark
      rw [bytes_cons] at h
      exact isValidSet_append (by decide) (by decide) h
  · exact h

/-- **Valid patterns** can be read. -/
theorem readSymbols_of_valid : ∀ {n : Nat} {pattern : List Char}, pattern.length < n →
    isValidPattern (chars (bytes pattern)) = .B_OK → ∃ symbols, readSymbols n pattern = some symbols
  | 0, _, hn, _ => absurd hn (Nat.not_lt_zero _)
  | n + 1, [], _, _ => ⟨[], rfl⟩
  | n + 1, c :: pattern, hn, h => by
    rw [length_cons] at hn
    rw [readSymbols.eq_def]
    simp only
    by_cases hescape : c = '\\'
    · subst hescape
      rw [if_neg (by decide), if_neg (by decide), if_pos rfl]
      rw [bytes_ascii (by decide)] at h
      cases pattern with
      | nil => cases h
      | cons d pattern =>
        obtain ⟨b, rest, heq, hbackslash, hopen, -⟩ := encode_rest d
        rw [bytes_cons, heq, cons_append] at h
        rw [length_cons] at hn
        have hvalid := isValidPattern_escape.symm.trans h
        rw [isValidPattern_append hbackslash hopen] at hvalid
        obtain ⟨symbols, hsymbols⟩ := readSymbols_of_valid (n := n) (by omega) hvalid
        simp only [hsymbols, map_some]
        exact ⟨_, rfl⟩
    by_cases hset : c = '['
    · subst hset
      rw [if_neg (by decide), if_neg (by decide), if_neg (by decide), if_pos rfl]
      have hvalid : isValidSet (chars (bytes pattern)) = .B_OK := by
        rw [bytes_ascii (by decide), chars, map_cons, isValidPattern.eq_def] at h
        simp only at h
        rw [if_neg (by decide), if_pos (by decide)] at h
        cases hpattern : bytes pattern with
        | nil =>
          rw [hpattern] at h
          cases h
        | cons b rest =>
          rw [hpattern] at h
          simp only [map_cons] at h
          split at h
          · cases h
          · exact h
      have hlength := behindMark_length pattern
      obtain ⟨set, hread, hshort, hrest⟩ :=
        readItems_of_valid (n := n) (by omega) (behindMark_of_valid hvalid)
      obtain ⟨symbols, hsymbols⟩ := readSymbols_of_valid (n := n) (by omega) hrest
      simp only [hread, hsymbols, bind_eq_bind, bind_some]
      exact ⟨_, rfl⟩
    have hvalid : isValidPattern (chars (bytes pattern)) = .B_OK := by
      rw [bytes_cons, isValidPattern_append (not_mem_encode (d := '\\') (by decide) hescape)
        (not_mem_encode (d := '[') (by decide) hset)] at h
      exact h
    obtain ⟨symbols, hsymbols⟩ := readSymbols_of_valid (n := n) (by omega) hvalid
    rw [if_neg hescape, if_neg hset, hsymbols]
    split
    · exact ⟨_, rfl⟩
    split
    · exact ⟨_, rfl⟩
    · exact ⟨_, rfl⟩

end BFS.Query
