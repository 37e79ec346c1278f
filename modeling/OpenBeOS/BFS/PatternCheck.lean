import OpenBeOS.BFS.MatchString

/-! # Valid patterns

What `isValidPattern()` accepts, and which of these patterns `matchString()` finds bad. The matcher
does not know escapes outside of sets, and behind the element of a set that matches it takes the next
`]` for the end of the set.
-/

namespace BFS.Query

open match_status List Nat

/-! ## UTF-8 -/

theorem continuation_suffix : ∀ {n c : Nat} {string : List UInt8} {x : Nat × List UInt8},
    continuation n c string = some x → x.2 <:+ string
  | 0, _, _, _, h => by
    rw [continuation, Option.some.injEq] at h
    exact h ▸ suffix_rfl
  | n + 1, _, [], _, h => by cases h
  | n + 1, c, b :: string, x, h => by
    rw [continuation] at h
    split at h
    · exact (continuation_suffix h).trans (suffix_cons b string)
    · cases h

theorem utf8ToUnicode_cases {P : Nat × List UInt8 → Prop} (b : UInt8) (string : List UInt8)
    (hshort : ∀ x, continuation 1 (b &&& 0x1f).toNat string = some x → P x)
    (hmiddle : ∀ x, continuation 2 (b &&& 0x1f).toNat string = some x → P x)
    (hlong : ∀ x, continuation 3 (b &&& 0x0f).toNat string = some x → P x)
    (halone : P (b.toNat, string)) : P (utf8ToUnicode b string) := by
  have hget : ∀ c : Option (Nat × List UInt8), (∀ x, c = some x → P x) →
      P (c.getD (b.toNat, string)) := by
    intro c hc
    cases c with
    | none => exact halone
    | some x => exact hc x rfl
  rw [utf8ToUnicode]
  refine hget _ fun x hx => ?_
  split at hx
  · exact hshort x hx
  split at hx
  · exact hmiddle x hx
  split at hx
  · exact hlong x hx
  · cases hx

theorem utf8ToUnicode_suffix (b : UInt8) (string : List UInt8) :
    (utf8ToUnicode b string).2 <:+ string :=
  utf8ToUnicode_cases b string (fun _ hx => continuation_suffix hx) (fun _ hx => continuation_suffix hx)
    (fun _ hx => continuation_suffix hx) suffix_rfl

/-- The bytes of a character, in the longest form. -/
def encode (c : Nat) : List UInt8 :=
  [UInt8.ofNat (240 + c / 262144), UInt8.ofNat (128 + c / 4096 % 64),
    UInt8.ofNat (128 + c / 64 % 64), UInt8.ofNat (128 + c % 64)]

theorem ofNat_lead : ∀ x : Fin 16, UInt8.ofNat (240 + x.val) ≠ 0 ∧
    UInt8.ofNat (240 + x.val) &&& 0xf0 = 0xf0 ∧
    (UInt8.ofNat (240 + x.val) &&& 0x0f).toNat = x.val := by
  decide

theorem ofNat_continuation : ∀ x : Fin 64, UInt8.ofNat (128 + x.val) ≠ 0 ∧
    UInt8.ofNat (128 + x.val) &&& 0x80 > 0 ∧ (UInt8.ofNat (128 + x.val) &&& 0x3f).toNat = x.val := by
  decide

theorem shift_or {x y : Nat} (hy : y < 64) : x <<< 6 ||| y = x * 64 + y := by
  rw [← shiftLeft_add_eq_or_of_lt (show y < 2 ^ 6 from hy), shiftLeft_eq]

theorem continuation_cons {n c x : Nat} (hx : x < 64) (string : List UInt8) :
    continuation (n + 1) c (UInt8.ofNat (128 + x) :: string) = continuation n (c * 64 + x) string := by
  obtain ⟨-, hmark, hbits⟩ := ofNat_continuation ⟨x, hx⟩
  rw [continuation, if_pos hmark, hbits, shift_or hx]

theorem utf8ToUnicode_encode {c : Nat} (hc : c < 2 ^ 22) (string : List UInt8) :
    ∃ b rest, encode c ++ string = b :: rest ∧ utf8ToUnicode b rest = (c, string) := by
  obtain ⟨-, hmark, hbits⟩ := ofNat_lead ⟨c / 262144, by omega⟩
  simp only at hmark hbits
  refine ⟨UInt8.ofNat (240 + c / 262144), UInt8.ofNat (128 + c / 4096 % 64) ::
    UInt8.ofNat (128 + c / 64 % 64) :: UInt8.ofNat (128 + c % 64) :: string, rfl, ?_⟩
  have h1 : c / 4096 % 64 < 64 := mod_lt _ (by decide)
  have h2 : c / 64 % 64 < 64 := mod_lt _ (by decide)
  have h3 : c % 64 < 64 := mod_lt _ (by decide)
  rw [utf8ToUnicode, hmark, hbits]
  rw [if_neg (by decide), if_neg (by decide), if_pos rfl]
  rw [continuation_cons h1, continuation_cons h2, continuation_cons h3, continuation, Option.getD_some,
    Prod.mk.injEq]
  exact ⟨by omega, rfl⟩

theorem encode_ne_zero {c : Nat} (hc : c < 2 ^ 22) : (0 : UInt8) ∉ encode c := by
  have h0 := (ofNat_lead ⟨c / 262144, by omega⟩).1
  have h1 := (ofNat_continuation ⟨c / 4096 % 64, mod_lt _ (by decide)⟩).1
  have h2 := (ofNat_continuation ⟨c / 64 % 64, mod_lt _ (by decide)⟩).1
  have h3 := (ofNat_continuation ⟨c % 64, mod_lt _ (by decide)⟩).1
  simp only [encode, mem_cons, not_mem_nil, or_false, not_or]
  exact ⟨h0.symm, h1.symm, h2.symm, h3.symm⟩

/-! ## Escapes -/

/-- No escape character is at the end, when it is read together with the character behind it. -/
def paired : List UInt8 → Bool
  | [] => true
  | [b] => b ≠ backslash
  | b :: d :: pattern => if b = backslash then paired pattern else paired (d :: pattern)

/-- The same, from the middle of an escape on. -/
def Aligned (pattern : List UInt8) : Prop :=
  paired pattern = true ∨ ∃ b rest, pattern = b :: rest ∧ paired rest = true

theorem paired_cons {b : UInt8} {pattern : List UInt8} (hb : b ≠ backslash) :
    paired (b :: pattern) = paired pattern := by
  cases pattern with
  | nil => simp [paired, hb]
  | cons d pattern => rw [paired, if_neg hb]

theorem paired_unescape {pattern : List UInt8} (h : paired pattern = true) (hne : pattern ≠ []) :
    ∃ b rest, unescape pattern = b :: rest ∧ paired rest = true ∧ b :: rest <:+ pattern := by
  cases pattern with
  | nil => exact absurd rfl hne
  | cons b pattern =>
    by_cases hb : b = backslash
    · cases pattern with
      | nil => simp [paired, hb] at h
      | cons d pattern =>
        rw [paired, if_pos hb] at h
        rw [unescape, if_pos hb]
        exact ⟨d, pattern, rfl, h, suffix_cons b _⟩
    · rw [paired_cons hb] at h
      rw [unescape, if_neg hb]
      exact ⟨b, pattern, rfl, h, suffix_rfl⟩

theorem aligned_tail {b : UInt8} {pattern : List UInt8} (h : Aligned (b :: pattern)) :
    Aligned pattern := by
  rcases h with h | ⟨c, rest, heq, h⟩
  · by_cases hb : b = backslash
    · cases pattern with
      | nil => exact .inl rfl
      | cons d pattern =>
        rw [paired, if_pos hb] at h
        exact .inr ⟨d, pattern, rfl, h⟩
    · rw [paired_cons hb] at h
      exact .inl h
  · rw [List.cons.injEq] at heq
    exact .inl (heq.2 ▸ h)

theorem aligned_paired {b : UInt8} {pattern : List UInt8} (h : Aligned (b :: pattern))
    (hb : b ≠ backslash) : paired pattern = true := by
  rcases h with h | ⟨c, rest, heq, h⟩
  · rwa [paired_cons hb] at h
  · rw [List.cons.injEq] at heq
    exact heq.2 ▸ h

theorem continuation_paired : ∀ {n c : Nat} {string : List UInt8} {x : Nat × List UInt8},
    continuation n c string = some x → paired string = true → paired x.2 = true
  | 0, _, _, _, h, hp => by
    rw [continuation, Option.some.injEq] at h
    rwa [← h]
  | n + 1, _, [], _, h, _ => by cases h
  | n + 1, c, b :: string, x, h, hp => by
    rw [continuation] at h
    split at h
    · rename_i hmark
      have hb : b ≠ backslash := by
        rintro rfl
        revert hmark
        decide
      rw [paired_cons hb] at hp
      exact continuation_paired h hp
    · cases h

theorem utf8ToUnicode_paired (b : UInt8) {string : List UInt8} (h : paired string = true) :
    paired (utf8ToUnicode b string).2 = true :=
  utf8ToUnicode_cases b string (fun _ hx => continuation_paired hx h)
    (fun _ hx => continuation_paired hx h) (fun _ hx => continuation_paired hx h) h

theorem skipSet_aligned : ∀ {pattern rest : List UInt8}, Aligned pattern →
    skipSet pattern = some rest → paired rest = true ∧ ∃ b, b :: rest <:+ pattern
  | [], _, _, h => by cases h
  | b :: pattern, rest, haligned, h => by
    rw [skipSet] at h
    split at h
    · rename_i hb
      rw [Option.some.injEq] at h
      exact ⟨h ▸ aligned_paired haligned (by rw [hb]; decide), b, h ▸ suffix_rfl⟩
    · obtain ⟨hrest, d, hsuffix⟩ := skipSet_aligned (aligned_tail haligned) h
      exact ⟨hrest, d, hsuffix.trans (suffix_cons b pattern)⟩

/-! ## The elements of a set -/

/-- An element of a set: the characters it stands for, and the pattern behind it. -/
structure Element where
  first : Nat
  last : Nat
  rest : List UInt8

/-- The element stands for the character. -/
def Element.has (e : Element) (c : Nat) : Bool := e.first ≤ c && c ≤ e.last

/-- The elements of a set, and the pattern at its closing bracket. A range is there twice: its first
character alone, and as a whole. -/
def readSet : Nat → List UInt8 → List Element × Option (List UInt8)
  | 0, _ => ([], none)
  | fuel + 1, pattern =>
    if pattern = [] then ([], none)
    else if pattern.head? = some bracket then ([], some pattern)
    else
      match unescape pattern with
      | [] => ([], none)
      | b :: pattern =>
        let first := utf8ToUnicode b pattern
        let alone : Element := ⟨first.1, first.1, first.2⟩
        if isRange first.2 then
          match unescape first.2.tail with
          | [] => ([alone], none)
          | b :: pattern =>
            let last := utf8ToUnicode b pattern
            let others := readSet fuel last.2
            (alone :: ⟨first.1, last.1, last.2⟩ :: others.1, others.2)
        else
          let others := readSet fuel first.2
          (alone :: others.1, others.2)

/-- Whether the set is inverted. -/
def inverted (pattern : List UInt8) : Bool := pattern.head?.any isInvertMark

/-- The set behind its mark. -/
def setBody (pattern : List UInt8) : List UInt8 :=
  if inverted pattern then pattern.tail else pattern

/-- What a set does with a character, read off its elements. The set ends at the next `]` behind the
first element that stands for the character. -/
def setResult (c : Nat) (pattern : List UInt8) : SetResult :=
  if setBody pattern = [] ∨ (setBody pattern).head? = some bracket then .bad
  else
    let set := readSet ((setBody pattern).length + 1) (setBody pattern)
    let behind (rest : List UInt8) : SetResult := (skipSet rest).elim .bad .matched
    match set.1.find? (·.has c) with
    | some e => if inverted pattern then .noMatch else behind e.rest
    | none => set.2.elim .bad fun rest => if inverted pattern then behind rest else .noMatch

theorem isRange_tail {pattern : List UInt8} (h : isRange pattern = true) :
    ∃ rest, pattern = dash :: rest ∧ rest ≠ [] := by
  cases pattern with
  | nil => simp [isRange] at h
  | cons b rest =>
    simp only [isRange, List.head?_cons, tail_cons, Bool.and_eq_true] at h
    obtain ⟨⟨hdash, -⟩, hne⟩ := h
    have hb : some b = some dash := of_decide_eq_true hdash
    rw [Option.some.injEq] at hb
    exact ⟨rest, by rw [hb], of_decide_eq_true hne⟩

theorem has_alone (n c : Nat) (rest : List UInt8) :
    Element.has ⟨n, n, rest⟩ c = decide (n = c) := by
  rw [Bool.eq_iff_iff]
  simp only [Element.has, Bool.and_eq_true, decide_eq_true_eq]
  omega

/-- The loop over a set stops at the first element that stands for the character. -/
theorem setLoop_eq {c : Nat} : ∀ {fuel : Nat} {pattern : List UInt8}, pattern.length < fuel →
    paired pattern = true →
    setLoop c fuel pattern = .ok
      (match (readSet fuel pattern).1.find? (·.has c) with
        | some e => some (true, some e.rest)
        | none => (readSet fuel pattern).2.map fun rest => (false, some rest)) ∧
    (∀ e ∈ (readSet fuel pattern).1, paired e.rest = true ∧ e.rest <:+ pattern) ∧
    ∀ rest, (readSet fuel pattern).2 = some rest → paired rest = true ∧ rest <:+ pattern
  | 0, _, hfuel, _ => absurd hfuel (not_lt_zero _)
  | fuel + 1, pattern, hfuel, hpaired => by
    rw [setLoop, readSet]
    by_cases hempty : pattern = []
    · rw [if_pos hempty, if_pos hempty]
      exact ⟨rfl, by simp, by simp⟩
    rw [if_neg hempty, if_neg hempty]
    by_cases hclose : pattern.head? = some bracket
    · rw [if_pos hclose, if_pos hclose]
      refine ⟨rfl, by simp, fun rest hrest => ?_⟩
      rw [Option.some.injEq] at hrest
      exact ⟨hrest ▸ hpaired, hrest ▸ suffix_rfl⟩
    rw [if_neg hclose, if_neg hclose]
    obtain ⟨b, rest, hunescape, hrest, hsuffix⟩ := paired_unescape hpaired hempty
    have hfirst := utf8ToUnicode_paired b hrest
    have hfirstSuffix := ((utf8ToUnicode_suffix b rest).trans (suffix_cons b rest)).trans hsuffix
    have hfirstLength := (utf8ToUnicode_suffix b rest).length_le
    have hlength := hsuffix.length_le
    rw [length_cons] at hlength
    obtain ⟨first, hfirstEq⟩ : ∃ x, utf8ToUnicode b rest = x := ⟨_, rfl⟩
    rw [hfirstEq] at hfirst hfirstSuffix hfirstLength
    simp only [hunescape, hfirstEq]
    by_cases hrange : isRange first.2 = true
    · obtain ⟨tail, htail, hne⟩ := isRange_tail hrange
      have htailPaired := hfirst
      rw [htail, paired_cons (by decide)] at htailPaired
      obtain ⟨d, rest', hunescape', hrest', hsuffix'⟩ := paired_unescape htailPaired hne
      have hlast := utf8ToUnicode_paired d hrest'
      have hlastSuffix := (((utf8ToUnicode_suffix d rest').trans (suffix_cons d rest')).trans
        hsuffix').trans ((suffix_cons dash tail).trans (htail ▸ hfirstSuffix))
      have hlastLength := ((utf8ToUnicode_suffix d rest').trans (suffix_cons d rest')).trans
        hsuffix' |>.length_le
      rw [htail, length_cons] at hfirstLength
      obtain ⟨last, hlastEq⟩ : ∃ x, utf8ToUnicode d rest' = x := ⟨_, rfl⟩
      rw [hlastEq] at hlast hlastSuffix hlastLength
      have hunescape'' : unescape first.2.tail = d :: rest' := by
        rw [htail, tail_cons, hunescape']
      simp only [hrange, if_true, hunescape'', hlastEq]
      obtain ⟨hloop, helements, hclosing⟩ :=
        setLoop_eq (c := c) (show last.2.length < fuel by omega) hlast
      refine ⟨?_, fun e he => ?_, fun rest hrest => ?_⟩
      · rw [List.find?_cons, has_alone, List.find?_cons, hloop]
        by_cases hc : first.1 = c
        · simp [hc]
        · by_cases hin : c ≥ first.1 ∧ c ≤ last.1
          · simp [hc, hin, Element.has]
          · have hnot : Element.has ⟨first.1, last.1, last.2⟩ c = false := by
              simpa [Element.has] using hin
            simp [hc, hin, hnot]
      · rcases mem_cons.mp he with rfl | he
        · exact ⟨hfirst, hfirstSuffix⟩
        · rcases mem_cons.mp he with rfl | he
          · exact ⟨hlast, hlastSuffix⟩
          · exact (helements e he).imp_right fun h => h.trans hlastSuffix
      · exact (hclosing rest hrest).imp_right fun h => h.trans hlastSuffix
    · rw [Bool.not_eq_true] at hrange
      simp only [hrange, Bool.false_eq_true, if_false]
      obtain ⟨hloop, helements, hclosing⟩ :=
        setLoop_eq (c := c) (show first.2.length < fuel by omega) hfirst
      refine ⟨?_, fun e he => ?_, fun rest hrest => ?_⟩
      · rw [List.find?_cons, has_alone, hloop]
        by_cases hc : first.1 = c
        · simp [hc]
        · simp [hc]
      · rcases mem_cons.mp he with rfl | he
        · exact ⟨hfirst, hfirstSuffix⟩
        · exact (helements e he).imp_right fun h => h.trans hfirstSuffix
      · exact (hclosing rest hrest).imp_right fun h => h.trans hfirstSuffix

theorem setBody_paired {pattern : List UInt8} (h : paired pattern = true) :
    paired (setBody pattern) = true := by
  rw [setBody]
  split
  · rename_i hmark
    cases pattern with
    | nil => exact h
    | cons b pattern =>
      have hb : b ≠ backslash := by
        rintro rfl
        revert hmark
        simp only [inverted, List.head?_cons, Option.any_some]
        decide
      rwa [paired_cons hb] at h
  · exact h

theorem setBody_suffix (pattern : List UInt8) : setBody pattern <:+ pattern := by
  rw [setBody]
  split
  · exact tail_suffix pattern
  · exact suffix_rfl

/-- **The case of a set** is what its elements say. -/
theorem matchSet_eq {c : Nat} {pattern : List UInt8} (h : paired pattern = true) :
    matchSet c pattern = .ok (setResult c pattern) := by
  obtain ⟨hloop, -, -⟩ := setLoop_eq (c := c) (lt_succ_self (setBody pattern).length)
    (setBody_paired h)
  have hbody : (if inverted pattern then pattern.tail else pattern) = setBody pattern := rfl
  rw [matchSet, setResult]
  rw [show (pattern.head?.any isInvertMark) = inverted pattern from rfl]
  simp only [hbody, hloop, bind, Except.bind]
  split
  · rfl
  cases (readSet ((setBody pattern).length + 1) (setBody pattern)).1.find? (·.has c) with
  | some e =>
    cases inverted pattern with
    | true => simp
    | false => cases hskip : skipSet e.rest <;> simp [hskip]
  | none =>
    cases (readSet ((setBody pattern).length + 1) (setBody pattern)).2 with
    | none => simp
    | some rest =>
      cases inverted pattern with
      | true => cases hskip : skipSet rest <;> simp [hskip]
      | false => simp

/-- The pattern behind a set. -/
theorem setResult_matched {c : Nat} {pattern rest : List UInt8} (h : paired pattern = true)
    (hresult : setResult c pattern = .matched rest) :
    paired rest = true ∧ ∃ b, b :: rest <:+ pattern := by
  obtain ⟨-, helements, hclosing⟩ := setLoop_eq (c := c)
    (lt_succ_self (setBody pattern).length) (setBody_paired h)
  have hbehind : ∀ xs : List UInt8, paired xs = true → xs <:+ setBody pattern →
      (skipSet xs).elim SetResult.bad SetResult.matched = .matched rest →
      paired rest = true ∧ ∃ b, b :: rest <:+ pattern := by
    intro xs hxs hsuffix helim
    cases hskip : skipSet xs with
    | none =>
      rw [hskip] at helim
      cases helim
    | some ys =>
      rw [hskip, Option.elim_some, SetResult.matched.injEq] at helim
      obtain ⟨h1, b, h2⟩ := skipSet_aligned (.inl hxs) hskip
      rw [← helim]
      exact ⟨h1, b, (h2.trans hsuffix).trans (setBody_suffix pattern)⟩
  rw [setResult] at hresult
  split at hresult
  · cases hresult
  cases hfind : (readSet ((setBody pattern).length + 1) (setBody pattern)).1.find? (·.has c) with
  | some e =>
    obtain ⟨h1, h2⟩ := helements e (mem_of_find?_eq_some hfind)
    simp only [hfind] at hresult
    split at hresult
    · cases hresult
    · exact hbehind e.rest h1 h2 hresult
  | none =>
    simp only [hfind] at hresult
    cases hclose : (readSet ((setBody pattern).length + 1) (setBody pattern)).2 with
    | none =>
      rw [hclose] at hresult
      cases hresult
    | some xs =>
      obtain ⟨h1, h2⟩ := hclosing xs hclose
      rw [hclose, Option.elim_some] at hresult
      split at hresult
      · exact hbehind xs h1 h2 hresult
      · cases hresult

/-! ## Bad patterns -/

/-- The characters `utf8ToUnicode()` can return. -/
def IsCharacter (c : Nat) : Prop := c < 2 ^ 22

/-- A pattern with a place where the matcher finds it bad: a single backslash at the end, or a set that
is bad for some character. The matcher gets there over single bytes, also behind a backslash, and over
sets that take a character. -/
inductive Broken : List UInt8 → Prop
  | escape : Broken [backslash]
  | byte {b : UInt8} {pattern : List UInt8} :
      b ≠ openBracket → Broken pattern → Broken (b :: pattern)
  | badSet {pattern : List UInt8} {c : Nat} :
      IsCharacter c → setResult c pattern = .bad → Broken (openBracket :: pattern)
  | set {pattern rest : List UInt8} {c : Nat} :
      IsCharacter c → setResult c pattern = .matched rest → Broken rest →
      Broken (openBracket :: pattern)

theorem continuation_lt : ∀ {n c k : Nat} {string : List UInt8} {x : Nat × List UInt8},
    continuation n c string = some x → c < k → x.1 < k * 64 ^ n
  | 0, _, _, _, _, h, hc => by
    rw [continuation, Option.some.injEq] at h
    rw [← h]
    simpa using hc
  | n + 1, _, _, [], _, h, _ => by cases h
  | n + 1, c, k, b :: string, x, h, hc => by
    rw [continuation] at h
    split at h
    · have hb : (b &&& 0x3f).toNat < 64 := by
        rw [UInt8.toNat_and]
        exact lt_of_le_of_lt and_le_right (by decide)
      rw [shift_or hb] at h
      have hnext := continuation_lt h (show c * 64 + (b &&& 0x3f).toNat < k * 64 by omega)
      rw [pow_succ]
      rwa [mul_assoc, mul_comm 64] at hnext
    · cases h

theorem utf8ToUnicode_isCharacter (b : UInt8) (string : List UInt8) :
    IsCharacter (utf8ToUnicode b string).1 := by
  have hmask : (b &&& 0x1f).toNat < 32 := by
    rw [UInt8.toNat_and]
    exact lt_of_le_of_lt and_le_right (by decide)
  have hmask' : (b &&& 0x0f).toNat < 16 := by
    rw [UInt8.toNat_and]
    exact lt_of_le_of_lt and_le_right (by decide)
  refine utf8ToUnicode_cases (P := fun x => IsCharacter x.1) b string (fun _ hx => ?_) (fun _ hx => ?_)
    (fun _ hx => ?_) (lt_of_lt_of_le b.toNat_lt (by decide))
  · exact lt_of_lt_of_le (continuation_lt hx hmask) (by decide)
  · exact lt_of_lt_of_le (continuation_lt hx hmask) (by decide)
  · exact lt_of_lt_of_le (continuation_lt hx hmask') (by decide)

/-! ## Patterns that are not bad -/

/-- The matcher has an answer. -/
def Answers (r : Except Fault match_status) : Prop := r = .ok MATCH_OK ∨ r = .ok NO_MATCH

theorem starLoop_answers {matchRest : List UInt8 → Except Fault match_status} {next : UInt8}
    (h : ∀ string, Answers (matchRest string)) : ∀ string, Answers (starLoop matchRest next string)
  | [] => .inr rfl
  | b :: string => by
    have hrest : Answers (starLoop matchRest next string) := starLoop_answers h string
    rw [starLoop]
    split
    · rcases h (b :: string) with hok | hno
      · rw [hok]
        exact .inl rfl
      · rw [hno]
        exact hrest
    · exact hrest

/-- The pattern behind a star. -/
theorem compact_spec : ∀ {pattern string rest string' : List UInt8},
    compact pattern string = some (rest, string') →
    rest.length ≤ pattern.length ∧ (Aligned pattern → Aligned rest) ∧ (Broken rest → Broken pattern)
  | [], _, _, _, h => by
    rw [compact, Option.some.injEq, Prod.mk.injEq] at h
    rw [← h.1]
    exact ⟨le_refl _, id, id⟩
  | b :: pattern, string, rest, string', h => by
    have hnext : ∀ s, compact pattern s = some (rest, string') → b ≠ openBracket →
        rest.length ≤ (b :: pattern).length ∧ (Aligned (b :: pattern) → Aligned rest) ∧
          (Broken rest → Broken (b :: pattern)) := by
      intro s hs hb
      obtain ⟨h1, h2, h3⟩ := compact_spec hs
      exact ⟨by rw [length_cons]; omega, fun ha => h2 (aligned_tail ha),
        fun hbroken => .byte hb (h3 hbroken)⟩
    rw [compact] at h
    split at h
    · rename_i hb
      split at h
      · cases h
      · exact hnext _ h (by rw [hb]; decide)
    split at h
    · rename_i hb
      exact hnext _ h (by rw [hb]; decide)
    · rw [Option.some.injEq, Prod.mk.injEq] at h
      rw [← h.1]
      exact ⟨le_refl _, id, id⟩

/-- **A pattern that is not broken** is never bad. -/
theorem matchRounds_answers : ∀ {fuel : Nat} {pattern : List UInt8} (string : List UInt8),
    pattern.length < fuel → Aligned pattern → ¬ Broken pattern →
    Answers (matchRounds fuel pattern string)
  | 0, _, _, hfuel, _, _ => absurd hfuel (not_lt_zero _)
  | fuel + 1, [], string, _, _, _ => by
    rw [matchRounds]
    split
    · exact .inl rfl
    · exact .inr rfl
  | fuel + 1, b :: pattern, [], _, _, _ => by
    rw [matchRounds]
    split
    · exact .inl rfl
    · exact .inr rfl
  | fuel + 1, b :: pattern, d :: string, hfuel, haligned, hbroken => by
    rw [length_cons] at hfuel
    have htail := aligned_tail haligned
    rw [matchRounds]
    by_cases hquestion : b = questionMark
    · rw [if_pos hquestion]
      exact matchRounds_answers _ (by omega) htail fun h =>
        hbroken (.byte (by rw [hquestion]; decide) h)
    rw [if_neg hquestion]
    by_cases hstar : b = star
    · rw [if_pos hstar]
      cases hcompact : compact pattern (d :: string) with
      | none => exact .inr rfl
      | some x =>
        obtain ⟨rest, string'⟩ := x
        obtain ⟨hlength, hrest, hback⟩ := compact_spec hcompact
        cases rest with
        | nil => exact .inl rfl
        | cons next rest =>
          refine starLoop_answers (fun s => matchRounds_answers s (by omega) (hrest htail)
            fun h => hbroken ?_) string'
          exact .byte (by rw [hstar]; decide) (hback h)
    rw [if_neg hstar]
    by_cases hset : b = openBracket
    · subst hset
      have hpaired := aligned_paired haligned (by decide)
      rw [if_pos rfl]
      simp only [matchSet_eq hpaired, bind, Except.bind]
      have hc := utf8ToUnicode_isCharacter d string
      cases hresult : setResult (utf8ToUnicode d string).1 pattern with
      | bad => exact absurd (.badSet hc hresult) hbroken
      | noMatch => exact .inr rfl
      | matched rest =>
        obtain ⟨hrest, x, hsuffix⟩ := setResult_matched hpaired hresult
        have hlength := hsuffix.length_le
        rw [length_cons] at hlength
        exact matchRounds_answers _ (by omega) (.inl hrest) fun h => hbroken (.set hc hresult h)
    rw [if_neg hset, if_neg]
    · split
      · exact matchRounds_answers _ (by omega) htail fun h => hbroken (.byte hset h)
      · exact .inr rfl
    · rintro ⟨rfl, rfl⟩
      exact hbroken .escape

/-! ## Strings for broken patterns -/

theorem broken_ne_nil {pattern : List UInt8} (h : Broken pattern) : pattern ≠ [] := by
  cases h <;> simp

/-- Compacting a broken pattern, with a character for each `?`. -/
theorem broken_compact : ∀ {pattern : List UInt8}, Broken pattern → Aligned pattern → 0 ∉ pattern →
    ∃ next rest front, Broken (next :: rest) ∧ Aligned (next :: rest) ∧ 0 ∉ next :: rest ∧
      next ≠ star ∧ next ≠ questionMark ∧ (next :: rest).length ≤ pattern.length ∧ 0 ∉ front ∧
      ∀ string, string ≠ [] → compact pattern (front ++ string) = some (next :: rest, string)
  | [], h, _, _ => absurd rfl (broken_ne_nil h)
  | b :: pattern, h, haligned, hnul => by
    by_cases hspecial : b = star ∨ b = questionMark
    · have hbroken : Broken pattern := by
        cases h with
        | escape => rcases hspecial with hb | hb <;> cases hb
        | byte _ hrest => exact hrest
        | badSet | set => rcases hspecial with hb | hb <;> cases hb
      obtain ⟨next, rest, front, h1, h2, h3, h4, h5, h6, h7, h8⟩ :=
        broken_compact hbroken (aligned_tail haligned) fun h => hnul (mem_cons_of_mem _ h)
      have hlength : (next :: rest).length ≤ (b :: pattern).length := by
        rw [length_cons (a := b)]
        omega
      by_cases hquestion : b = questionMark
      · refine ⟨next, rest, 97 :: front, h1, h2, h3, h4, h5, hlength, ?_, fun string hstring => ?_⟩
        · simpa using h7
        · rw [compact, if_pos hquestion, cons_append, tail_cons, if_neg (by simp [hstring]),
            h8 string hstring]
      · refine ⟨next, rest, front, h1, h2, h3, h4, h5, hlength, h7, fun string hstring => ?_⟩
        rw [compact, if_neg hquestion, if_pos (hspecial.resolve_right hquestion), h8 string hstring]
    · rw [not_or] at hspecial
      refine ⟨b, pattern, [], h, haligned, hnul, hspecial.1, hspecial.2, le_refl _, by simp,
        fun string _ => ?_⟩
      rw [compact, if_neg hspecial.2, if_neg hspecial.1]
      rfl

theorem next_eq {next d : UInt8} {rest string : List UInt8} {fuel : Nat} (hstar : next ≠ star)
    (hquestion : next ≠ questionMark)
    (h : matchRounds (fuel + 1) (next :: rest) (d :: string) = .ok MATCH_BAD_PATTERN) :
    next = d ∨ next = openBracket ∨ next = backslash := by
  by_contra hnot
  rw [not_or, not_or] at hnot
  rw [matchRounds, if_neg hquestion, if_neg hstar, if_neg hnot.2.1, if_neg fun h => hnot.2.2 h.1,
    if_neg hnot.1] at h
  cases h

/-- **A broken pattern** is bad for some string. -/
theorem broken_bad : ∀ {n : Nat} {pattern : List UInt8}, pattern.length ≤ n → Broken pattern →
    Aligned pattern → 0 ∉ pattern → ∃ d string, 0 ∉ d :: string ∧ ∀ fuel, pattern.length < fuel →
        matchRounds fuel pattern (d :: string) = .ok MATCH_BAD_PATTERN := by
  intro n
  induction n with
  | zero =>
    intro pattern hlength h _ _
    exact absurd (length_eq_zero_iff.mp (by omega)) (broken_ne_nil h)
  | succ n ih =>
    intro pattern hlength h haligned hnul
    cases h with
    | escape =>
      refine ⟨97, [], by decide, fun fuel hfuel => ?_⟩
      obtain ⟨fuel, rfl⟩ : ∃ n, fuel = n + 1 := ⟨fuel - 1, by omega⟩
      rw [matchRounds, if_neg (by decide), if_neg (by decide), if_neg (by decide),
        if_pos ⟨rfl, rfl⟩]
    | @badSet pattern c hc hresult =>
      have hpaired := aligned_paired haligned (by decide)
      obtain ⟨d, string, hencode, hdecode⟩ := utf8ToUnicode_encode hc []
      rw [append_nil] at hencode
      refine ⟨d, string, hencode ▸ encode_ne_zero hc, fun fuel hfuel => ?_⟩
      obtain ⟨fuel, rfl⟩ : ∃ n, fuel = n + 1 := ⟨fuel - 1, by omega⟩
      rw [matchRounds, if_neg (by decide), if_neg (by decide), if_pos rfl]
      simp only [hdecode, matchSet_eq hpaired, hresult, bind, Except.bind]
    | @set pattern rest c hc hresult hbroken =>
      have hpaired := aligned_paired haligned (by decide)
      obtain ⟨hrest, x, hsuffix⟩ := setResult_matched hpaired hresult
      have hshorter := hsuffix.length_le
      rw [length_cons] at hlength hshorter
      have hrestNul : 0 ∉ rest := fun hmem =>
        hnul (mem_cons_of_mem _ (hsuffix.subset (mem_cons_of_mem _ hmem)))
      obtain ⟨d', string', hnul', hbad⟩ := ih (by omega) hbroken (.inl hrest) hrestNul
      obtain ⟨d, string, hencode, hdecode⟩ := utf8ToUnicode_encode hc (d' :: string')
      refine ⟨d, string, ?_, fun fuel hfuel => ?_⟩
      · rw [← hencode, mem_append, not_or]
        exact ⟨encode_ne_zero hc, hnul'⟩
      · obtain ⟨fuel, rfl⟩ : ∃ n, fuel = n + 1 := ⟨fuel - 1, by omega⟩
        rw [length_cons] at hfuel
        rw [matchRounds, if_neg (by decide), if_neg (by decide), if_pos rfl]
        simp only [hdecode, matchSet_eq hpaired, hresult, bind, Except.bind]
        exact hbad fuel (by omega)
    | @byte b pattern hb hbroken =>
      rw [length_cons] at hlength
      have hrestNul : 0 ∉ pattern := fun hmem => hnul (mem_cons_of_mem _ hmem)
      have htail := aligned_tail haligned
      by_cases hquestion : b = questionMark
      · obtain ⟨d, string, hnul', hbad⟩ := ih (by omega) hbroken htail hrestNul
        refine ⟨97, d :: string, by simpa using hnul', fun fuel hfuel => ?_⟩
        obtain ⟨fuel, rfl⟩ : ∃ n, fuel = n + 1 := ⟨fuel - 1, by omega⟩
        rw [length_cons] at hfuel
        rw [matchRounds, if_pos hquestion]
        exact hbad fuel (by omega)
      by_cases hstar : b = star
      · obtain ⟨next, rest, front, h1, h2, h3, h4, h5, h6, h7, h8⟩ :=
          broken_compact hbroken htail hrestNul
        obtain ⟨d, string, hnul', hbad⟩ := ih (by omega) h1 h2 h3
        obtain ⟨x, xs, hfront⟩ : ∃ x xs, front ++ d :: string = x :: xs := by
          cases front with
          | nil => exact ⟨d, string, rfl⟩
          | cons x xs => exact ⟨x, xs ++ d :: string, rfl⟩
        refine ⟨x, xs, ?_, fun fuel hfuel => ?_⟩
        · rw [← hfront, mem_append, not_or]
          exact ⟨h7, hnul'⟩
        · obtain ⟨fuel, rfl⟩ : ∃ n, fuel = n + 2 := ⟨fuel - 2, by
            rw [length_cons] at hfuel
            have := length_pos_iff.mpr (broken_ne_nil hbroken)
            omega⟩
          rw [length_cons] at hfuel
          have hrec := hbad (fuel + 1) (by omega)
          rw [matchRounds, if_neg hquestion, if_pos hstar, ← hfront, h8 _ (by simp)]
          simp only
          rw [starLoop, if_pos (next_eq h4 h5 hrec), hrec]
          rfl
      · obtain ⟨d, string, hnul', hbad⟩ := ih (by omega) hbroken htail hrestNul
        have hb0 : b ≠ 0 := fun h => hnul (by simp [h])
        refine ⟨b, d :: string, ?_, fun fuel hfuel => ?_⟩
        · rw [mem_cons, not_or]
          exact ⟨hb0.symm, hnul'⟩
        · obtain ⟨fuel, rfl⟩ : ∃ n, fuel = n + 1 := ⟨fuel - 1, by omega⟩
          rw [length_cons] at hfuel
          rw [matchRounds, if_neg hquestion, if_neg hstar, if_neg hb,
            if_neg fun h => broken_ne_nil hbroken h.2, if_pos rfl]
          exact hbad fuel (by omega)

/-! ## isValidPattern -/

/-- The pattern as `isValidPattern()` reads it. -/
def chars (pattern : List UInt8) : List Char := pattern.map fun b => Char.ofNat b.toNat

theorem ofNat_eq_iff {b d : UInt8} : Char.ofNat b.toNat = Char.ofNat d.toNat ↔ b = d := by
  have hvalid : ∀ x : UInt8, (Char.ofNat x.toNat).toNat = x.toNat := by
    intro x
    have hlt := x.toNat_lt
    rw [Char.ofNat, dif_pos (.inl (by omega))]
    rfl
  constructor
  · intro h
    have hnat := congrArg Char.toNat h
    rw [hvalid, hvalid] at hnat
    exact UInt8.toNat_inj.mp hnat
  · rintro rfl
    rfl

/-- What the two loops of `isValidPattern()` say about the pattern behind a character. -/
theorem valid_cons (b : UInt8) (pattern : List UInt8) :
    (isValidPattern (chars (b :: pattern)) = .B_OK → if b = backslash then
        ∃ d rest, pattern = d :: rest ∧ isValidPattern (chars rest) = .B_OK
      else isValidPattern (chars pattern) = .B_OK ∨ isValidSet (chars pattern) = .B_OK) ∧
    (isValidSet (chars (b :: pattern)) = .B_OK → if b = backslash then
        ∃ d rest, pattern = d :: rest ∧ isValidSet (chars rest) = .B_OK
      else isValidPattern (chars pattern) = .B_OK ∨ isValidSet (chars pattern) = .B_OK) := by
  have hescape : Char.ofNat b.toNat = '\\' ↔ b = backslash := ofNat_eq_iff (d := backslash)
  have hchars : chars (b :: pattern) = Char.ofNat b.toNat :: chars pattern := rfl
  rw [hchars]
  constructor
  · intro h
    rw [isValidPattern.eq_def] at h
    simp only at h
    by_cases hb : b = backslash
    · rw [if_pos (hescape.mpr hb)] at h
      rw [if_pos hb]
      cases pattern with
      | nil => cases h
      | cons d rest => exact ⟨d, rest, rfl, h⟩
    · rw [if_neg (mt hescape.mp hb)] at h
      rw [if_neg hb]
      split at h
      · cases pattern with
        | nil => cases h
        | cons d rest =>
          simp only [chars, map_cons] at h
          split at h
          · cases h
          · exact .inr h
      · exact .inl h
  · intro h
    rw [isValidSet.eq_def] at h
    simp only at h
    by_cases hb : b = backslash
    · have hclose : ¬ Char.ofNat b.toNat = ']' := by
        rw [hb]
        decide
      rw [if_neg hclose, if_pos (hescape.mpr hb)] at h
      rw [if_pos hb]
      cases pattern with
      | nil => cases h
      | cons d rest =>
        simp only [chars, map_cons] at h
        split at h
        · cases h
        · exact ⟨d, rest, rfl, h⟩
    · rw [if_neg hb]
      split at h
      · exact .inl h
      rw [if_neg (mt hescape.mp hb)] at h
      split at h
      · cases h
      · exact .inr h

/-- **A valid pattern has no escape character at its end.** -/
theorem paired_of_valid : ∀ {pattern : List UInt8},
    isValidPattern (chars pattern) = .B_OK ∨ isValidSet (chars pattern) = .B_OK →
    paired pattern = true
  | [], _ => rfl
  | [b], h => by
    obtain ⟨hpattern, hset⟩ := valid_cons b []
    rw [paired, decide_eq_true_eq]
    intro hb
    rw [if_pos hb] at hpattern hset
    rcases h with h | h
    · obtain ⟨d, rest, heq, -⟩ := hpattern h
      cases heq
    · obtain ⟨d, rest, heq, -⟩ := hset h
      cases heq
  | b :: d :: pattern, h => by
    obtain ⟨hpattern, hset⟩ := valid_cons b (d :: pattern)
    rw [paired]
    split
    · rename_i hb
      rw [if_pos hb] at hpattern hset
      rcases h with h | h
      · obtain ⟨e, rest, heq, hrest⟩ := hpattern h
        rw [List.cons.injEq] at heq
        exact paired_of_valid (.inl (heq.2 ▸ hrest))
      · obtain ⟨e, rest, heq, hrest⟩ := hset h
        rw [List.cons.injEq] at heq
        exact paired_of_valid (.inr (heq.2 ▸ hrest))
    · rename_i hb
      rw [if_neg hb] at hpattern hset
      rcases h with h | h
      · exact paired_of_valid (hpattern h)
      · exact paired_of_valid (hset h)

/-- **A valid pattern is never bad**, and never read behind its NUL, exactly if it is not broken. -/
theorem matchString_valid_iff {pattern : List UInt8} (hvalid : isValidPattern (chars pattern) = .B_OK)
    (hnul : 0 ∉ pattern) :
    (∀ string, 0 ∉ string → matchString pattern string = .ok MATCH_OK ∨
      matchString pattern string = .ok NO_MATCH) ↔ ¬ Broken pattern := by
  have haligned : Aligned pattern := .inl (paired_of_valid (.inl hvalid))
  constructor
  · intro h hbroken
    obtain ⟨d, string, hstring, hbad⟩ := broken_bad (le_refl _) hbroken haligned hnul
    have hmatch := h (d :: string) hstring
    rw [matchString, hbad _ (lt_succ_self _)] at hmatch
    rcases hmatch with hmatch | hmatch <;> cases hmatch
  · intro h string _
    exact matchRounds_answers string (lt_succ_self _) haligned h

/-- "a" is a valid pattern that is not broken. -/
theorem matchString_valid_iff_a :
    matchString [97] [98] = .ok MATCH_OK ∨ matchString [97] [98] = .ok NO_MATCH := by
  refine (matchString_valid_iff (by decide) (by decide)).mpr (fun h => ?_) [98] (by decide)
  cases h with
  | byte _ hrest => exact broken_ne_nil hrest rfl

/-- "[^]" is valid, and bad for "a". -/
theorem matchString_bad_set : isValidPattern (chars [91, 94, 93]) = .B_OK ∧
      matchString [91, 94, 93] [97] = .ok MATCH_BAD_PATTERN := by
  decide

end BFS.Query
