import OpenBeOS.BFS.PatternLanguage

/-! # Sets in `matchString()`

What the loop over the elements of a set makes of their characters: which element matches, and where the
pattern goes on. It goes on behind the next closing bracket, escaped or not.
-/

namespace BFS.Query

open Utf8 List

/-! ## Characters -/

theorem ofNat_ascii : ∀ x : Fin 128, UInt8.ofNat x.val &&& 0xf0 ≠ 0xc0 ∧
    UInt8.ofNat x.val &&& 0xf0 ≠ 0xd0 ∧ UInt8.ofNat x.val &&& 0xf0 ≠ 0xe0 ∧
    UInt8.ofNat x.val &&& 0xf0 ≠ 0xf0 := by
  decide

theorem ofNat_two : ∀ x : Fin 32, (UInt8.ofNat (192 + x.val) &&& 0xf0 = 0xc0 ∨
    UInt8.ofNat (192 + x.val) &&& 0xf0 = 0xd0) ∧
    (UInt8.ofNat (192 + x.val) &&& 0x1f).toNat = x.val := by
  decide

theorem ofNat_three : ∀ x : Fin 16, UInt8.ofNat (224 + x.val) &&& 0xf0 = 0xe0 ∧
    (UInt8.ofNat (224 + x.val) &&& 0x1f).toNat = x.val := by
  decide

theorem ofNat_inside : ∀ x : Fin 64, UInt8.ofNat (128 + x.val) &&& 0xf0 ≠ 0xc0 ∧
    UInt8.ofNat (128 + x.val) &&& 0xf0 ≠ 0xd0 ∧ UInt8.ofNat (128 + x.val) &&& 0xf0 ≠ 0xe0 ∧
    UInt8.ofNat (128 + x.val) &&& 0xf0 ≠ 0xf0 := by
  decide

variable {pattern : List Char} {x : Char × List Char} {b : UInt8}

theorem utf8ToUnicode_alone (h : b &&& 0xf0 ≠ 0xc0 ∧ b &&& 0xf0 ≠ 0xd0 ∧
    b &&& 0xf0 ≠ 0xe0 ∧ b &&& 0xf0 ≠ 0xf0) (string : List UInt8) :
    utf8ToUnicode b string = (b.toNat, string) := by
  rw [utf8ToUnicode, if_neg (not_or.mpr ⟨h.1, h.2.1⟩), if_neg h.2.2.1, if_neg h.2.2.2]
  rfl

theorem utf8ToUnicode_inside (h : IsInside b) (string : List UInt8) :
    utf8ToUnicode b string = (b.toNat, string) := by
  rw [IsInside] at h
  have hb : UInt8.ofNat (128 + (b.toNat - 128)) = b := by
    rw [show 128 + (b.toNat - 128) = b.toNat by omega, UInt8.ofNat_toNat]
  exact utf8ToUnicode_alone (hb ▸ ofNat_inside ⟨b.toNat - 128, by omega⟩) string

/-- **A character of a text** is read as itself. -/
theorem utf8ToUnicode_char (c : Char) (string : List UInt8) :
    ∃ b rest, String.utf8EncodeChar c ++ string = b :: rest ∧
      utf8ToUnicode b rest = (c.toNat, string) := by
  rcases encode_forms c with ⟨h, heq⟩ | ⟨x, y, hx, hy, -, hc, heq⟩ |
      ⟨x, y, z, hx, hy, hz, -, hc, heq⟩ |
      ⟨w, x, y, z, hw, hx, hy, hz, -, hc, heq⟩
  · refine ⟨_, _, by rw [heq]; rfl, ?_⟩
    rw [utf8ToUnicode_alone (ofNat_ascii ⟨c.toNat, h⟩), ofNat_toNat (by omega)]
    rfl
  · obtain ⟨hlead, hbits⟩ := ofNat_two ⟨x, hx⟩
    refine ⟨_, _, by rw [heq]; rfl, ?_⟩
    rw [append_eq, cons_append, nil_append, utf8ToUnicode, if_pos hlead, hbits,
      continuation_cons hy, continuation, hc]
    rfl
  · obtain ⟨hlead, hbits⟩ := ofNat_three ⟨x, hx⟩
    refine ⟨_, _, by rw [heq]; rfl, ?_⟩
    rw [append_eq, cons_append, cons_append, nil_append, utf8ToUnicode, hlead,
      hbits, if_neg (by decide), if_pos rfl, continuation_cons hy, continuation_cons hz, continuation,
      hc]
    rfl
  · obtain ⟨-, hlead, hbits⟩ := ofNat_lead ⟨w, by omega⟩
    refine ⟨_, _, by rw [heq]; rfl, ?_⟩
    rw [append_eq, cons_append, cons_append, cons_append, nil_append,
      utf8ToUnicode, hlead, hbits, if_neg (by decide), if_neg (by decide), if_pos rfl,
      continuation_cons hx, continuation_cons hy, continuation_cons hz, continuation, hc]
    rfl

theorem head_bytes_iff {d : Char} (hd : d.toNat < 128) (text : List Char) :
    (bytes text).head? = some (UInt8.ofNat d.toNat) ↔ text.head? = some d := by
  cases text with
  | nil => exact iff_of_false (by simp) (by simp)
  | cons c text =>
    obtain ⟨b, rest, heq, -, -, -⟩ := encode_eq c
    rw [bytes_cons, heq, cons_append, List.head?_cons, List.head?_cons, Option.some.injEq,
      Option.some.injEq]
    constructor
    · intro hb
      by_contra hne
      exact not_mem_encode hd hne (by rw [heq, hb]; exact mem_cons_self)
    · intro hc
      rw [hc, encode_ascii hd, List.cons.injEq] at heq
      exact heq.1.symm

theorem bytes_eq_nil {text : List Char} : bytes text = [] ↔ text = [] := by
  constructor
  · intro h
    have hlength := length_le_bytes text
    rw [h, length_nil] at hlength
    exact length_eq_zero_iff.mp (by omega)
  · rintro rfl
    rfl

theorem tail_bytes {d : Char} (hd : d.toNat < 128) {text : List Char} (h : text.head? = some d) :
    (bytes text).tail = bytes text.tail := by
  obtain ⟨rest, rfl⟩ := List.head?_eq_some_iff.mp h
  rw [bytes_ascii hd]
  rfl

/-! ## Sets -/

/-- The element matches the character in `matchString()`: the first character of a range does so also
when the range is written backwards. -/
def SetItem.catches (n : Nat) : SetItem → Bool
  | .char c => c.toNat = n
  | .range first last => first.toNat = n || (first.toNat ≤ n && n ≤ last.toNat)

/-- The element is written with a closing bracket. -/
def SetItem.hasBracket : SetItem → Bool
  | .char c => c = ']'
  | .range first last => first = ']' || last = ']'

/-- Behind what matches the character, there is no bracket in front of the closing one. -/
def Clear (n : Nat) : List SetItem → Bool
  | [] => true
  | .char c :: items =>
    if c.toNat = n then items.all (!·.hasBracket) else Clear n items
  | .range first last :: items =>
    if first.toNat = n then last ≠ ']' && items.all (!·.hasBracket)
    else if first.toNat ≤ n ∧ n ≤ last.toNat then items.all (!·.hasBracket)
    else Clear n items

theorem unescape_bytes
    (h : readChar pattern = some x) : ∃ b rest, unescape (bytes pattern) = b :: rest ∧
      utf8ToUnicode b rest = (x.1.toNat, bytes x.2) := by
  cases pattern with
  | nil => cases h
  | cons c pattern =>
    rw [readChar.eq_def] at h
    simp only at h
    by_cases hc : c = '\\'
    · subst hc
      rw [if_pos rfl] at h
      cases pattern with
      | nil => cases h
      | cons d pattern =>
        rw [Option.some.injEq] at h
        obtain ⟨b, rest, heq, hread⟩ := utf8ToUnicode_char d (bytes pattern)
        refine ⟨b, rest, ?_, h ▸ hread⟩
        rw [bytes_ascii (by decide), bytes_cons, heq, unescape]
        exact if_pos rfl
    · rw [if_neg hc, Option.some.injEq] at h
      obtain ⟨b, rest, heq, hread⟩ := utf8ToUnicode_char c (bytes pattern)
      refine ⟨b, rest, ?_, h ▸ hread⟩
      have hb : b ≠ backslash := by
        rintro rfl
        have hhead := (head_bytes_iff (d := '\\') (by decide) (c :: pattern)).mp (by
          rw [bytes_cons, heq]
          rfl)
        rw [List.head?_cons, Option.some.injEq] at hhead
        exact hc hhead
      rw [bytes_cons, heq, unescape, if_neg hb]

theorem isRange_bytes (hne : pattern.head? = some '-' → pattern.tail ≠ []) :
    isRange (bytes pattern) = true ↔ pattern.head? = some '-' ∧ pattern.tail.head? ≠ some ']' := by
  by_cases hdash : pattern.head? = some '-'
  · have htail := tail_bytes (by decide) hdash
    have hclose := head_bytes_iff (d := ']') (by decide) pattern.tail
    have hbyte := (head_bytes_iff (d := '-') (by decide) pattern).mpr hdash
    have hempty := hne hdash
    rw [isRange, htail]
    simp only [Bool.and_eq_true, decide_eq_true_eq]
    constructor
    · rintro ⟨⟨-, hno⟩, -⟩
      exact ⟨hdash, fun h => hno (hclose.mpr h)⟩
    · rintro ⟨-, hno⟩
      exact ⟨⟨hbyte, fun h => hno (hclose.mp h)⟩, fun h => hempty (bytes_eq_nil.mp h)⟩
  · constructor
    · intro h
      obtain ⟨rest, heq, -⟩ := isRange_tail h
      refine absurd ((head_bytes_iff (d := '-') (by decide) pattern).mp ?_) hdash
      rw [heq]
      rfl
    · rintro ⟨h, -⟩
      exact absurd h hdash

theorem skipSet_append : ∀ {front : List UInt8} (pattern : List UInt8), bracket ∉ front →
    skipSet (front ++ pattern) = skipSet pattern
  | [], _, _ => rfl
  | b :: front, pattern, h => by
    rw [mem_cons, not_or] at h
    rw [cons_append, skipSet, if_neg (Ne.symm h.1)]
    exact skipSet_append pattern h.2

/-- A character that is no closing bracket is skipped, with its escape. -/
theorem skipSet_char (h : readChar pattern = some x)
    (hx : x.1 ≠ ']') : skipSet (bytes pattern) = skipSet (bytes x.2) := by
  have hskip : ∀ {c : Char} {rest : List Char}, c ≠ ']' →
      skipSet (bytes (c :: rest)) = skipSet (bytes rest) := by
    intro c rest hc
    rw [bytes_cons]
    exact skipSet_append _ (not_mem_encode (d := ']') (by decide) hc)
  cases pattern with
  | nil => cases h
  | cons c pattern =>
    rw [readChar.eq_def] at h
    simp only at h
    split at h
    · rename_i hc
      cases pattern with
      | nil => cases h
      | cons d pattern =>
        rw [Option.some.injEq] at h
        subst h
        rw [hskip (by rw [hc]; decide)]
        exact hskip hx
    · rw [Option.some.injEq] at h
      subst h
      exact hskip hx

theorem skipSet_items : ∀ {n : Nat} {pattern rest : List Char} {items : List SetItem},
    readItems n pattern = some (items, rest) → items.all (!·.hasBracket) = true →
    skipSet (bytes pattern) = some (bytes rest)
  | 0, _, _, _, h, _ => by cases h
  | n + 1, pattern, rest, items, h, hclear => by
    rcases readItems_cases h with ⟨rfl, -⟩ | ⟨-, first, behind, others, hfirst, hitems⟩
    · rw [bytes_ascii (by decide), skipSet, if_pos (show UInt8.ofNat ']'.toNat = bracket from rfl)]
    rcases hitems with ⟨last, tail, behind', rfl, -, hlast, hothers, rfl⟩ | ⟨-, hothers, rfl⟩
    · rw [all_cons, Bool.and_eq_true, SetItem.hasBracket, Bool.not_eq_true',
        Bool.or_eq_false_iff, decide_eq_false_iff_not, decide_eq_false_iff_not] at hclear
      rw [skipSet_char hfirst hclear.1.1, bytes_ascii (by decide), skipSet, if_neg (by decide),
        skipSet_char hlast hclear.1.2]
      exact skipSet_items hothers hclear.2
    · rw [all_cons, Bool.and_eq_true, SetItem.hasBracket, Bool.not_eq_true',
        decide_eq_false_iff_not] at hclear
      rw [skipSet_char hfirst hclear.1]
      exact skipSet_items hothers hclear.2

theorem unescape_length {pattern rest : List UInt8} (h : unescape pattern = b :: rest) :
    rest.length < pattern.length := by
  cases pattern with
  | nil => cases h
  | cons d pattern =>
    rw [unescape] at h
    split at h
    · rw [h, length_cons, length_cons]
      omega
    · rw [List.cons.injEq] at h
      rw [h.2, length_cons]
      exact Nat.lt_succ_self _

theorem readChar_bytes (h : readChar pattern = some x) :
    ∃ b rest, unescape (bytes pattern) = b :: rest ∧
      utf8ToUnicode b rest = (x.1.toNat, bytes x.2) ∧ (bytes x.2).length < (bytes pattern).length := by
  obtain ⟨b, rest, hunescape, hread⟩ := unescape_bytes h
  refine ⟨b, rest, hunescape, hread, ?_⟩
  have hsuffix := (utf8ToUnicode_suffix b rest).length_le
  rw [hread] at hsuffix
  exact Nat.lt_of_le_of_lt hsuffix (unescape_length hunescape)

theorem clear_of_not_any {k : Nat} : ∀ {items : List SetItem}, items.any (·.catches k) = false →
    Clear k items = true
  | [], _ => rfl
  | .char c :: items, h => by
    rw [any_cons, Bool.or_eq_false_iff, SetItem.catches, decide_eq_false_iff_not] at h
    rw [Clear, if_neg h.1]
    exact clear_of_not_any h.2
  | .range first last :: items, h => by
    rw [any_cons, Bool.or_eq_false_iff, SetItem.catches, Bool.or_eq_false_iff,
      decide_eq_false_iff_not, ← Bool.decide_and, decide_eq_false_iff_not] at h
    rw [Clear, if_neg h.1.1, if_neg h.1.2]
    exact clear_of_not_any h.2

/-- **The loop over the elements** finds out whether one of them matches. -/
theorem setLoop_bytes {k : Nat} : ∀ {n fuel : Nat} {pattern rest : List Char}
    {items : List SetItem},
    readItems n pattern = some (items, rest) → (bytes pattern).length < fuel →
    ∃ r, setLoop k fuel (bytes pattern) = .ok (some (items.any (·.catches k), some r)) ∧
      (Clear k items = true → skipSet r = some (bytes rest))
  | 0, _, _, _, _, h, _ => by cases h
  | _ + 1, 0, _, _, _, _, hfuel => absurd hfuel (Nat.not_lt_zero _)
  | n + 1, fuel + 1, pattern, rest, items, h, hfuel => by
    rw [setLoop]
    rcases readItems_cases h with ⟨rfl, rfl⟩ | ⟨hclose, first, behind, others, hfirst, hitems⟩
    · rw [bytes_ascii (by decide), if_neg (by simp),
        if_pos (show (UInt8.ofNat ']'.toNat :: bytes rest).head? = some bracket from rfl)]
      refine ⟨_, rfl, fun _ => ?_⟩
      rw [skipSet, if_pos (show UInt8.ofNat ']'.toNat = bracket from rfl)]
    obtain ⟨b, string, hunescape, hread, hlength⟩ := readChar_bytes hfirst
    simp only at hlength
    have hne : bytes pattern ≠ [] := by
      intro heq
      rw [heq] at hunescape
      cases hunescape
    have hbracket : (bytes pattern).head? ≠ some bracket :=
      mt (head_bytes_iff (d := ']') (by decide) pattern).mp hclose
    rw [if_neg hne, if_neg hbracket]
    simp only [hunescape, hread]
    rcases hitems with ⟨last, tail, behind', rfl, htail, hlast, hothers, rfl⟩ |
        ⟨hsingle, hothers, rfl⟩
    · -- a range
      obtain ⟨b', string', hunescape', hread', hlength'⟩ := readChar_bytes hlast
      simp only at hlength'
      have hrange : isRange (bytes ('-' :: tail)) = true :=
        (isRange_bytes fun _ hnil => by
          rw [tail_cons] at hnil
          rw [hnil] at hlast
          cases hlast).mpr ⟨rfl, htail⟩
      have htailBytes : (bytes ('-' :: tail)).tail = bytes tail := tail_bytes (by decide) rfl
      simp only [hrange, if_true, htailBytes, hunescape', hread']
      by_cases hk : first.toNat = k
      · rw [if_pos hk]
        refine ⟨bytes ('-' :: tail), by simp [SetItem.catches, hk], fun hclear => ?_⟩
        rw [Clear, if_pos hk, Bool.and_eq_true, decide_eq_true_eq] at hclear
        rw [bytes_ascii (by decide), skipSet, if_neg (by decide), skipSet_char hlast hclear.1]
        exact skipSet_items hothers hclear.2
      rw [if_neg hk]
      by_cases hin : first.toNat ≤ k ∧ k ≤ last.toNat
      · rw [if_pos hin]
        refine ⟨bytes behind', by simp [SetItem.catches, hin], fun hclear => ?_⟩
        rw [Clear, if_neg hk, if_pos hin] at hclear
        exact skipSet_items hothers hclear
      · rw [if_neg hin]
        have hbytes : (bytes ('-' :: tail)).length = (bytes tail).length + 1 := by
          rw [bytes_ascii (by decide), length_cons]
        obtain ⟨r, hloop, hskip⟩ := setLoop_bytes (k := k) hothers
          (show (bytes behind').length < fuel by omega)
        refine ⟨r, ?_, fun hclear => hskip ?_⟩
        · rw [hloop, any_cons]
          simp only [SetItem.catches, hk, hin, decide_false, Bool.false_or, ← Bool.decide_and]
        · rwa [Clear, if_neg hk, if_neg hin] at hclear
    · -- a single character
      have hrange : isRange (bytes behind) = false := by
        rw [← Bool.not_eq_true]
        intro h
        refine hsingle ((isRange_bytes fun hdash hnil => ?_).mp h)
        obtain ⟨rest', heq, hne'⟩ := isRange_tail h
        refine hne' (bytes_eq_nil.mpr hnil ▸ ?_)
        rw [← tail_bytes (by decide) hdash, heq]
        rfl
      simp only [hrange, Bool.false_eq_true, if_false]
      by_cases hk : first.toNat = k
      · rw [if_pos hk]
        refine ⟨bytes behind, by simp [SetItem.catches, hk], fun hclear => ?_⟩
        rw [Clear, if_pos hk] at hclear
        exact skipSet_items hothers hclear
      · rw [if_neg hk]
        obtain ⟨r, hloop, hskip⟩ := setLoop_bytes (k := k) hothers
          (show (bytes behind).length < fuel by omega)
        refine ⟨r, ?_, fun hclear => hskip ?_⟩
        · rw [hloop, any_cons]
          simp only [SetItem.catches, hk, decide_false, Bool.false_or]
        · rwa [Clear, if_neg hk] at hclear

theorem readItems_length : ∀ {n : Nat} {pattern rest : List Char} {items : List SetItem},
    readItems n pattern = some (items, rest) → (bytes rest).length < (bytes pattern).length
  | 0, _, _, _, h => by cases h
  | n + 1, pattern, rest, items, h => by
    rcases readItems_cases h with ⟨rfl, -⟩ | ⟨-, first, behind, others, hfirst, hitems⟩
    · rw [bytes_ascii (by decide)]
      exact Nat.lt_succ_self _
    obtain ⟨-, -, -, -, hlength⟩ := readChar_bytes hfirst
    rcases hitems with ⟨last, tail, behind', rfl, -, hlast, hothers, -⟩ | ⟨-, hothers, -⟩
    · obtain ⟨-, -, -, -, hlength'⟩ := readChar_bytes hlast
      rw [bytes_ascii (by decide), length_cons] at hlength
      have hrest := readItems_length hothers
      simp only at hlength'
      omega
    · exact Nat.lt_trans (readItems_length hothers) hlength

theorem behind_length {n : Nat} {pattern rest : List Char} {items : List SetItem}
    (h : readItems n (behindMark pattern) = some (items, rest)) :
    (bytes rest).length < (bytes pattern).length := by
  refine Nat.lt_of_lt_of_le (readItems_length h) ?_
  rw [behindMark]
  split
  · cases pattern with
    | nil => exact le_refl _
    | cons c pattern =>
      rw [tail_cons, bytes_cons, length_append]
      omega
  · exact le_refl _

/-- The mark in front of a set. -/
theorem isInverted_bytes (pattern : List Char) :
    (bytes pattern).head?.any isInvertMark = isInverted pattern ∧
      (if isInverted pattern then (bytes pattern).tail else bytes pattern) =
        bytes (behindMark pattern) := by
  have h1 := head_bytes_iff (d := '^') (by decide) pattern
  have h2 := head_bytes_iff (d := '!') (by decide) pattern
  have hmark : (bytes pattern).head?.any isInvertMark = true ↔ isInverted pattern = true := by
    rw [isInverted, Bool.or_eq_true, decide_eq_true_eq, decide_eq_true_eq, ← h1, ← h2,
      Option.any_eq_true]
    constructor
    · rintro ⟨b, hb, hmark⟩
      rw [isInvertMark, Bool.or_eq_true, decide_eq_true_eq, decide_eq_true_eq] at hmark
      rw [hb]
      exact hmark.imp (fun h => congrArg some h) fun h => congrArg some h
    · rintro (h | h)
      · exact ⟨_, h, rfl⟩
      · exact ⟨_, h, rfl⟩
  refine ⟨Bool.eq_iff_iff.mpr hmark, ?_⟩
  rw [behindMark]
  split
  · rename_i h
    rw [isInverted, Bool.or_eq_true, decide_eq_true_eq, decide_eq_true_eq] at h
    rcases h with h | h
    · exact tail_bytes (by decide) h
    · exact tail_bytes (by decide) h
  · rfl

/-- **The case of a set**, for a character behind which no bracket is in the way. -/
theorem matchSet_bytes {k n : Nat} {pattern rest : List Char} {items : List SetItem}
    (h : readItems n (behindMark pattern) = some (items, rest)) (hitems : items ≠ [])
    (hclear : isInverted pattern = false → Clear k items = true) :
    matchSet k (bytes pattern) = .ok (if items.any (·.catches k) ≠ isInverted pattern
      then .matched (bytes rest) else .noMatch) := by
  obtain ⟨hmark, hbody⟩ := isInverted_bytes pattern
  obtain ⟨r, hloop, hskip⟩ := setLoop_bytes (k := k) h (Nat.lt_succ_self _)
  have hne : ¬ (bytes (behindMark pattern) = [] ∨
      (bytes (behindMark pattern)).head? = some bracket) := by
    rintro (hnil | hclose)
    · rw [bytes_eq_nil.mp hnil] at h
      cases n with
      | zero | succ n => cases h
    · have hclose' := (head_bytes_iff (d := ']') (by decide) _).mp hclose
      cases n with
      | zero => cases h
      | succ n =>
        rw [readItems, if_pos hclose', Option.some.injEq, Prod.mk.injEq] at h
        exact hitems h.1.symm
  rw [matchSet]
  simp only [hmark, hbody, hloop, if_neg hne, bind, Except.bind]
  by_cases hmatched : items.any (·.catches k) ≠ isInverted pattern
  · rw [if_pos hmatched, if_pos hmatched]
    have hskipped : skipSet r = some (bytes rest) := by
      refine hskip ?_
      cases hinvert : isInverted pattern with
      | false => exact hclear hinvert
      | true =>
        rw [hinvert] at hmatched
        exact clear_of_not_any (Bool.eq_false_iff.mpr hmatched)
    simp only [hskipped]
  · rw [if_neg hmatched, if_neg hmatched]

end BFS.Query
