import OpenBeOS.Print.Ipp

/-! # IPP messages come back

Every attribute but a date is written with as many bytes as it counts, and is read back from them.
A date counts eleven bytes that are never written. A message comes back, with the right length,
just if it has no date and its length fits into an `int`.
-/

namespace Ipp

open Codec List

variable {tag : UInt8} {name : List UInt8}

/-! ## The parts of an attribute -/

/-- A string that a length can stand before. -/
structure Short (s : List UInt8) : Prop where
  length : s.length ≤ 32767
  noNul : 0 ∉ s

theorem reads_length {n : Nat} (h : n ≤ 32767) : Reads readLength (writeLength n) n := by
  have hread := reads_number (f := fun n => (BitVec.ofNat 16 n).toInt) (n := 2) (v := n) (by omega)
  have hvalue : (BitVec.ofNat 16 n).toInt = n := by
    rw [BitVec.toInt_ofNat']
    exact Int.bmod_eq_of_le (by omega) (by omega)
  rw [hvalue] at hread
  exact hread

theorem reads_long (value : BitVec 32) : Reads readLong (writeLong value) value := by
  have hread := reads_number (f := BitVec.ofNat 32) (n := 4) value.isLt
  rw [BitVec.ofNat_toNat, BitVec.setWidth_eq] at hread
  exact hread

theorem reads_short (value : BitVec 16) : Reads readShort (writeShort value) value := by
  have hread := reads_number (f := BitVec.ofNat 16) (n := 2) value.isLt
  rw [BitVec.ofNat_toNat, BitVec.setWidth_eq] at hread
  exact hread

theorem reads_char (c : UInt8) : Reads readChar [c] c := by
  have hread := reads_number (f := UInt8.ofNat) (n := 1) (v := c.toNat) c.toNat_lt
  rw [UInt8.ofNat_toNat] at hread
  simp only [toBytes, nil_append, UInt8.ofNat_toNat] at hread
  exact hread

theorem cstring_eq {s : List UInt8} (h : 0 ∉ s) : cstring s = s := by
  refine takeWhile_eq_self_iff.2 fun b hb => ?_
  rw [decide_eq_true_eq]
  rintro rfl
  exact h hb

theorem reads_string {s : List UInt8} (h : Short s) :
    Reads (readString []) (writeLength s.length ++ s) s := by
  refine (reads_length h.length).bind ?_
  by_cases hpos : (0 : Int) < s.length
  · rw [if_pos hpos, Int.toNat_natCast]
    have hread := (reads_read s).map (f := cstring)
    rw [cstring_eq h.noNul] at hread
    exact hread
  · rw [if_neg hpos]
    obtain rfl : s = [] := length_eq_zero_iff.1 (by omega)
    exact reads_pure []

theorem reads_numberAttr (value : BitVec 32) :
    Reads (readNumber 0) (writeLength 4 ++ writeLong value) value := by
  refine (reads_length (n := 4) (by omega)).bind ?_
  rw [if_pos (by decide)]
  exact reads_long value

theorem reads_name (h : Short name) : Reads (IppNamedAttribute.input { tag })
    (writeLength name.length ++ name) ⟨⟨tag⟩, name⟩ :=
  (reads_string h).map (f := fun name => (⟨⟨tag⟩, name⟩ : IppNamedAttribute))

/-! ## Every kind of attribute -/

/-- The attribute counts the bytes that it writes, and comes back from those behind its tag. -/
structure ReadsBack (a : Attr) (tag : UInt8) (rest : List UInt8) : Prop where
  output : a.output = tag :: rest
  length : a.length = a.output.length
  reads : Reads (IppContent.inputAttr tag) rest (some a)

theorem delimiter_readsBack (htag : charValue tag ≤ 0x0F) :
    ReadsBack (.delimiter ⟨tag⟩) tag [] := by
  refine ⟨rfl, rfl, ?_⟩
  rw [IppContent.inputAttr, if_pos htag]
  exact reads_pure _

theorem named_length (a : IppNamedAttribute) : a.output.length = a.length := by
  simp only [IppNamedAttribute.output, IppNamedAttribute.length, IppAttribute.output,
    IppAttribute.length, writeLength, length_append, length_toBytes, length_singleton]
  omega

theorem integer_readsBack (h : Short name) (value : BitVec 32) :
    ∃ rest, ReadsBack (.integer ⟨⟨⟨IPP_INTEGER⟩, name⟩, value⟩) IPP_INTEGER rest := by
  refine ⟨(writeLength name.length ++ name) ++ (writeLength 4 ++ writeLong value), rfl, ?_, ?_⟩
  · simp only [Attr.length, Attr.output, IppIntegerAttribute.length, IppIntegerAttribute.output,
      length_append, named_length, writeLength, writeLong, length_toBytes]
  · have hread : Reads (IppIntegerAttribute.input { tag := IPP_INTEGER }) _ _ :=
      (reads_name h).bind ((reads_numberAttr value).map
        (f := fun value => (⟨⟨⟨IPP_INTEGER⟩, name⟩, value⟩ : IppIntegerAttribute)))
    exact hread.map (f := fun a => some (Attr.integer a))

theorem boolean_readsBack (h : Short name) (value : Bool) :
    ∃ rest, ReadsBack (.boolean ⟨⟨⟨IPP_BOOLEAN⟩, name⟩, value⟩) IPP_BOOLEAN rest := by
  refine ⟨(writeLength name.length ++ name) ++ (writeLength 1 ++ [if value then 1 else 0]), rfl,
    ?_, ?_⟩
  · simp only [Attr.length, Attr.output, IppBooleanAttribute.length, IppBooleanAttribute.output,
      length_append, named_length, writeLength, length_toBytes, length_singleton]
  · have hread : Reads (IppBooleanAttribute.input { tag := IPP_BOOLEAN })
        ((writeLength name.length ++ name) ++ (writeLength 1 ++ [if value then 1 else 0]))
        ⟨⟨⟨IPP_BOOLEAN⟩, name⟩, value⟩ := by
      refine (reads_name h).bind ((reads_length (n := 1) (by omega)).bind ?_)
      rw [if_pos (by decide)]
      have hchar := (reads_char (if value then 1 else 0)).map
        (f := fun c => (⟨⟨⟨IPP_BOOLEAN⟩, name⟩, c ≠ 0⟩ : IppBooleanAttribute))
      cases value with
      | true | false => exact hchar
    exact hread.map (f := fun a => some (Attr.boolean a))

theorem string_readsBack {value : List UInt8} (h : Short name) (hvalue : Short value)
    (htag : IppContent.inputAttr tag =
      do return some (.string (← IppStringAttribute.input { tag }))) :
    ∃ rest, ReadsBack (.string ⟨⟨⟨tag⟩, name⟩, value⟩) tag rest := by
  refine ⟨(writeLength name.length ++ name) ++ (writeLength value.length ++ value), rfl, ?_, ?_⟩
  · simp only [Attr.length, Attr.output, IppStringAttribute.length, IppStringAttribute.output,
      length_append, named_length, writeLength, length_toBytes]
    omega
  · rw [htag]
    have hread : Reads (IppStringAttribute.input { tag }) _ _ :=
      (reads_name h).bind ((reads_string hvalue).map
        (f := fun text => (⟨⟨⟨tag⟩, name⟩, text⟩ : IppStringAttribute)))
    exact hread.map (f := fun a => some (Attr.string a))

theorem doubleString_readsBack {s1 s2 : List UInt8} (h : Short name) (h1 : Short s1)
    (h2 : Short s2) (htag : IppContent.inputAttr tag =
      do return some (.doubleString (← IppDoubleStringAttribute.input { tag }))) :
    ∃ rest, ReadsBack (.doubleString ⟨⟨⟨tag⟩, name⟩, s1, s2⟩) tag rest := by
  refine ⟨(writeLength name.length ++ name) ++
    ((writeLength s1.length ++ s1) ++ (writeLength s2.length ++ s2)), rfl, ?_, ?_⟩
  · simp only [Attr.length, Attr.output, IppDoubleStringAttribute.length,
      IppDoubleStringAttribute.output, length_append, named_length, writeLength,
      length_toBytes]
    omega
  · rw [htag]
    have hread : Reads (IppDoubleStringAttribute.input { tag }) _ _ :=
      (reads_name h).bind ((reads_string h1).bind
        ((reads_string h2).map
          (f := fun text2 => (⟨⟨⟨tag⟩, name⟩, s1, text2⟩ : IppDoubleStringAttribute))))
    exact hread.map (f := fun a => some (Attr.doubleString a))

theorem resolution_readsBack (h : Short name) (x y : BitVec 32) (u : UInt8) :
    ∃ rest, ReadsBack (.resolution ⟨⟨⟨IPP_RESOLUTION⟩, name⟩, x, y, u⟩) IPP_RESOLUTION rest := by
  refine ⟨(writeLength name.length ++ name) ++ ((writeLength 4 ++ writeLong x) ++
    ((writeLength 4 ++ writeLong y) ++ (writeLength 1 ++ [u]))), rfl, ?_, ?_⟩
  · simp only [Attr.length, Attr.output, IppResolutionAttribute.length,
      IppResolutionAttribute.output, length_append, named_length, writeLength, writeLong,
      length_toBytes, length_singleton]
  · have hread : Reads (IppResolutionAttribute.input { tag := IPP_RESOLUTION })
        ((writeLength name.length ++ name) ++ ((writeLength 4 ++ writeLong x) ++
          ((writeLength 4 ++ writeLong y) ++ (writeLength 1 ++ [u]))))
        ⟨⟨⟨IPP_RESOLUTION⟩, name⟩, x, y, u⟩ := by
      refine (reads_name h).bind ((reads_numberAttr x).bind ((reads_numberAttr y).bind
        ((reads_length (n := 1) (by omega)).bind ?_)))
      rw [if_pos (by decide)]
      exact (reads_char u).map
        (f := fun c => (⟨⟨⟨IPP_RESOLUTION⟩, name⟩, x, y, c⟩ : IppResolutionAttribute))
    exact hread.map (f := fun a => some (Attr.resolution a))

theorem rangeOfInteger_readsBack (h : Short name) (lower upper : BitVec 32) :
    ∃ rest, ReadsBack (.rangeOfInteger ⟨⟨⟨IPP_RANGE_OF_INTEGER⟩, name⟩, lower, upper⟩)
      IPP_RANGE_OF_INTEGER rest := by
  refine ⟨(writeLength name.length ++ name) ++
    ((writeLength 4 ++ writeLong lower) ++ (writeLength 4 ++ writeLong upper)), rfl, ?_, ?_⟩
  · simp only [Attr.length, Attr.output, IppRangeOfIntegerAttribute.length,
      IppRangeOfIntegerAttribute.output, length_append, named_length, writeLength, writeLong,
      length_toBytes]
  · have hread : Reads (IppRangeOfIntegerAttribute.input { tag := IPP_RANGE_OF_INTEGER }) _ _ :=
      (reads_name h).bind ((reads_numberAttr lower).bind
        ((reads_numberAttr upper).map (f := fun upper =>
          (⟨⟨⟨IPP_RANGE_OF_INTEGER⟩, name⟩, lower, upper⟩ : IppRangeOfIntegerAttribute))))
    exact hread.map (f := fun a => some (Attr.rangeOfInteger a))

/-! ## The loop -/

/-- The attributes are read up to the end tag. -/
theorem reads_loop {attrs : List Attr} (hattrs : ∀ a ∈ attrs, ∃ tag rest, ReadsBack a tag rest ∧
    tag ≠ IPP_END_OF_ATTRIBUTES_TAG) (c : IppContent) {fuel : Nat} (hfuel : attrs.length < fuel) :
    Reads (IppContent.inputLoop fuel c) (attrs.flatMap Attr.output ++ [IPP_END_OF_ATTRIBUTES_TAG])
      { c with attrs := c.attrs ++ (attrs ++ [.delimiter ⟨IPP_END_OF_ATTRIBUTES_TAG⟩]) } := by
  induction attrs generalizing c fuel with
  | nil =>
    obtain ⟨fuel, rfl⟩ := Nat.exists_eq_succ_of_ne_zero (Nat.ne_of_gt hfuel)
    have hend := @delimiter_readsBack IPP_END_OF_ATTRIBUTES_TAG (by decide)
    exact (reads_char IPP_END_OF_ATTRIBUTES_TAG).bind (hend.reads.bind (reads_pure _))
  | cons a attrs ih =>
    rw [length_cons] at hfuel
    obtain ⟨fuel, rfl⟩ := Nat.exists_eq_succ_of_ne_zero (show fuel ≠ 0 by omega)
    obtain ⟨tag, rest, hback, htag⟩ := hattrs a mem_cons_self
    have hrest := ih (fun b hb => hattrs b (mem_cons_of_mem a hb)) (c.push_back a)
      (show attrs.length < fuel by omega)
    have hbytes : (a :: attrs).flatMap Attr.output ++ [IPP_END_OF_ATTRIBUTES_TAG] =
        [tag] ++ (rest ++ (attrs.flatMap Attr.output ++ [IPP_END_OF_ATTRIBUTES_TAG])) := by
      rw [flatMap_cons, hback.output, cons_append, cons_append, append_assoc]
      rfl
    have hattrs' : c.attrs ++ (a :: attrs ++ [.delimiter ⟨IPP_END_OF_ATTRIBUTES_TAG⟩]) =
        (c.push_back a).attrs ++ (attrs ++ [.delimiter ⟨IPP_END_OF_ATTRIBUTES_TAG⟩]) := by
      rw [IppContent.push_back, append_assoc, cons_append, singleton_append]
    rw [hbytes, hattrs', IppContent.inputLoop]
    refine (reads_char tag).bind (hback.reads.bind ?_)
    rw [if_neg htag]
    exact hrest

theorem reads_input {attrs : List Attr} (hattrs : ∀ a ∈ attrs, ∃ tag rest, ReadsBack a tag rest ∧
    tag ≠ IPP_END_OF_ATTRIBUTES_TAG) {c : IppContent}
    (hc : c.attrs = attrs ++ [.delimiter ⟨IPP_END_OF_ATTRIBUTES_TAG⟩]) {fuel : Nat}
    (hfuel : attrs.length < fuel) :
    Reads (IppContent.input fuel .new) c.output c := by
  have hloop := reads_loop hattrs { c with attrs := [] } hfuel
  have hbytes : c.attrs.flatMap Attr.output =
      attrs.flatMap Attr.output ++ [IPP_END_OF_ATTRIBUTES_TAG] := by
    rw [hc, flatMap_append]
    rfl
  rw [nil_append, ← hc, ← hbytes] at hloop
  refine (reads_short c.version).bind ((reads_short c.operation_id).bind ?_)
  exact (reads_long c.request_id).bind hloop

/-! ## The messages that are built -/

/-- The names and values of a call. -/
def SetCall.strings : SetCall → List (List UInt8)
  | .setVersion _ | .setOperationId _ | .setRequestId _ | .setDelimiter _ => []
  | .setInteger name _ | .setBoolean name _ | .setDateTime name _ | .setResolution name _ _ _
  | .setRangeOfInteger name _ _ => [name]
  | .setTextWithLanguage name s1 s2 | .setNameWithLanguage name s1 s2 => [name, s1, s2]
  | .setString name value | .setTextWithoutLanguage name value
  | .setNameWithoutLanguage name value | .setKeyword name value | .setURI name value
  | .setURIScheme name value | .setCharset name value | .setNaturalLanguage name value
  | .setMimeMediaType name value => [name, value]

/-- The strings are short, every delimiter has the tag of one, and the end tag is the last
attribute. -/
structure Message (calls : List SetCall) : Prop where
  strings : ∀ call ∈ calls, ∀ s ∈ call.strings, Short s
  delimiters : ∀ tag, .setDelimiter tag ∈ calls → charValue tag ≤ 0x0F
  ends : ∃ before after, calls = before ++ .setDelimiter IPP_END_OF_ATTRIBUTES_TAG :: after ∧
    .setDelimiter IPP_END_OF_ATTRIBUTES_TAG ∉ before ∧ ∀ call ∈ after, call.attr = none

/-- How many bytes the attribute of a call is meant to have. -/
def SetCall.size : SetCall → Nat
  | .setVersion _ | .setOperationId _ | .setRequestId _ => 0
  | .setDelimiter _ => 1
  | .setInteger name _ => 1 + (2 + name.length) + (2 + 4)
  | .setBoolean name _ => 1 + (2 + name.length) + (2 + 1)
  | .setDateTime name _ => 1 + (2 + name.length) + (2 + 11)
  | .setResolution name _ _ _ => 1 + (2 + name.length) + (2 + 4) + (2 + 4) + (2 + 1)
  | .setRangeOfInteger name _ _ => 1 + (2 + name.length) + (2 + 4) + (2 + 4)
  | .setTextWithLanguage name s1 s2 | .setNameWithLanguage name s1 s2 =>
    1 + (2 + name.length) + (2 + s1.length) + (2 + s2.length)
  | .setString name value | .setTextWithoutLanguage name value
  | .setNameWithoutLanguage name value | .setKeyword name value | .setURI name value
  | .setURIScheme name value | .setCharset name value | .setNaturalLanguage name value
  | .setMimeMediaType name value => 1 + (2 + name.length) + (2 + value.length)

/-- The bytes that a message is meant to have. -/
def messageSize (calls : List SetCall) : Nat := 8 + (calls.map SetCall.size).sum

/-- The call adds a date. -/
def SetCall.isDate : SetCall → Bool
  | .setDateTime _ _ => true
  | _ => false

theorem set_attrs (c : IppContent) (call : SetCall) :
    (c.set call).attrs = c.attrs ++ call.attr.toList := by
  cases call <;> simp [IppContent.set, SetCall.attr, IppContent.push_back]

theorem foldl_set_attrs (calls : List SetCall) (c : IppContent) :
    (calls.foldl IppContent.set c).attrs = c.attrs ++ calls.filterMap SetCall.attr := by
  induction calls generalizing c with
  | nil => exact (append_nil _).symm
  | cons call calls ih =>
    rw [foldl_cons, ih, set_attrs, append_assoc]
    cases hattr : call.attr with
    | none => rw [filterMap_cons_none hattr]; rfl
    | some a => rw [filterMap_cons_some hattr]; rfl

theorem content_attrs (calls : List SetCall) :
    (content calls).attrs = calls.filterMap SetCall.attr :=
  foldl_set_attrs calls .new

variable {call : SetCall} {a : Attr}

theorem readsBack_inside (h : ∃ rest, ReadsBack a tag rest)
    (htag : tag ≠ IPP_END_OF_ATTRIBUTES_TAG) : ∃ tag rest, ReadsBack a tag rest ∧
      (tag = IPP_END_OF_ATTRIBUTES_TAG → call = .setDelimiter IPP_END_OF_ATTRIBUTES_TAG) := by
  obtain ⟨rest, hback⟩ := h
  exact ⟨tag, rest, hback, fun heq => absurd heq htag⟩

/-- What a call adds, unless it is a date, comes back. -/
theorem call_readsBack (hstrings : ∀ s ∈ call.strings, Short s)
    (hdelimiter : ∀ tag, call = .setDelimiter tag → charValue tag ≤ 0x0F)
    (hdate : call.isDate = false) (hattr : call.attr = some a) :
    ∃ tag rest, ReadsBack a tag rest ∧
      (tag = IPP_END_OF_ATTRIBUTES_TAG → call = .setDelimiter IPP_END_OF_ATTRIBUTES_TAG) := by
  cases call <;> simp only [SetCall.attr, Option.some.injEq, reduceCtorEq] at hattr <;> subst hattr
  case setDelimiter tag =>
    exact ⟨tag, [], delimiter_readsBack (hdelimiter tag rfl), fun h => h ▸ rfl⟩
  case setDateTime => cases hdate
  all_goals simp only [SetCall.strings, forall_mem_cons] at hstrings
  case setInteger name value =>
    exact readsBack_inside (integer_readsBack hstrings.1 value) (by decide)
  case setBoolean name value =>
    exact readsBack_inside (boolean_readsBack hstrings.1 value) (by decide)
  case setResolution name x y u =>
    exact readsBack_inside (resolution_readsBack hstrings.1 x y u) (by decide)
  case setRangeOfInteger name lower upper =>
    exact readsBack_inside (rangeOfInteger_readsBack hstrings.1 lower upper) (by decide)
  case setTextWithLanguage name s1 s2 =>
    exact readsBack_inside
      (doubleString_readsBack hstrings.1 hstrings.2.1 hstrings.2.2.1 rfl) (by decide)
  case setNameWithLanguage name s1 s2 =>
    exact readsBack_inside
      (doubleString_readsBack hstrings.1 hstrings.2.1 hstrings.2.2.1 rfl) (by decide)
  -- the other kinds are strings
  all_goals exact readsBack_inside (string_readsBack hstrings.1 hstrings.2.1 rfl) (by decide)

/-! ## How long the messages are -/

theorem call_length (hattr : call.attr = some a) : a.length = call.size := by
  cases call <;> simp only [SetCall.attr, Option.some.injEq, reduceCtorEq] at hattr <;> subst hattr
  case setDelimiter => rfl
  all_goals
    simp only [Attr.length, SetCall.size, IppIntegerAttribute.length, IppBooleanAttribute.length,
      IppStringAttribute.length, IppDatetimeAttribute.length, IppResolutionAttribute.length,
      IppRangeOfIntegerAttribute.length, IppDoubleStringAttribute.length, IppNamedAttribute.length,
      IppAttribute.length]
    try omega

theorem call_output (hattr : call.attr = some a) :
    a.output.length + (if call.isDate then 11 else 0) = call.size := by
  rw [← call_length hattr]
  cases call <;> simp only [SetCall.attr, Option.some.injEq, reduceCtorEq] at hattr <;> subst hattr
  case setDelimiter => rfl
  all_goals
    simp only [Attr.length, Attr.output, SetCall.isDate, IppIntegerAttribute.length,
      IppIntegerAttribute.output, IppBooleanAttribute.length, IppBooleanAttribute.output,
      IppStringAttribute.length, IppStringAttribute.output, IppDatetimeAttribute.length,
      IppDatetimeAttribute.output, DATETIME.output, IppResolutionAttribute.length,
      IppResolutionAttribute.output, IppRangeOfIntegerAttribute.length,
      IppRangeOfIntegerAttribute.output, IppDoubleStringAttribute.length,
      IppDoubleStringAttribute.output, length_append, named_length, writeLength, writeLong,
      length_toBytes, length_singleton, length_nil, Bool.false_eq_true, if_false,
      if_true]
    try omega

theorem call_size_of_none (hattr : call.attr = none) : call.size = 0 ∧ call.isDate = false := by
  cases call <;> simp only [SetCall.attr, reduceCtorEq] at hattr <;> exact ⟨rfl, rfl⟩

theorem date_size (h : call.isDate = true) : 16 ≤ call.size := by
  cases call <;> simp only [SetCall.isDate, Bool.false_eq_true] at h
  simp only [SetCall.size]
  omega

/-- The number of dates. -/
def dates (calls : List SetCall) : Nat := calls.countP SetCall.isDate

theorem flatMap_output_length (calls : List SetCall) :
    ((calls.filterMap SetCall.attr).flatMap Attr.output).length + 11 * dates calls =
      (calls.map SetCall.size).sum := by
  induction calls with
  | nil => rfl
  | cons call calls ih =>
    rw [dates, countP_cons, map_cons, sum_cons, ← ih]
    cases hattr : call.attr with
    | none =>
      obtain ⟨hsize, hdate⟩ := call_size_of_none hattr
      rw [filterMap_cons_none hattr, hsize, hdate]
      simp only [Bool.false_eq_true, if_false, dates]
      omega
    | some a =>
      have hout := call_output hattr
      rw [filterMap_cons_some hattr, flatMap_cons, length_append, dates]
      cases hdate : call.isDate <;> rw [hdate] at hout <;>
        simp only [Bool.false_eq_true, if_false, if_true] at hout ⊢ <;> omega

theorem content_output_length (calls : List SetCall) :
    (content calls).output.length + 11 * dates calls = messageSize calls := by
  have h := flatMap_output_length calls
  simp only [IppContent.output, length_append, writeShort, writeLong, length_toBytes,
    content_attrs, messageSize]
  omega

theorem foldl_length (attrs : List Attr) (length : BitVec 32) :
    attrs.foldl (fun length a => length + BitVec.ofNat 32 a.length) length =
      length + BitVec.ofNat 32 (attrs.map Attr.length).sum := by
  induction attrs generalizing length with
  | nil => exact (BitVec.add_zero length).symm
  | cons a attrs ih =>
    rw [foldl_cons, ih, map_cons, sum_cons, BitVec.ofNat_add, BitVec.add_assoc]

theorem sum_length (calls : List SetCall) :
    ((calls.filterMap SetCall.attr).map Attr.length).sum = (calls.map SetCall.size).sum := by
  induction calls with
  | nil => rfl
  | cons call calls ih =>
    rw [map_cons, sum_cons, ← ih]
    cases hattr : call.attr with
    | none => rw [filterMap_cons_none hattr, (call_size_of_none hattr).1, Nat.zero_add]
    | some a =>
      rw [filterMap_cons_some hattr, map_cons, sum_cons, call_length hattr]

theorem content_length (calls : List SetCall) :
    (content calls).length = (BitVec.ofNat 32 (messageSize calls)).toInt := by
  rw [IppContent.length, foldl_length, content_attrs, sum_length, messageSize, BitVec.ofNat_add]
  rfl

theorem dates_le (calls : List SetCall) : 16 * dates calls ≤ (calls.map SetCall.size).sum := by
  induction calls with
  | nil => exact Nat.le_refl 0
  | cons call calls ih =>
    rw [dates, countP_cons, map_cons, sum_cons]
    rw [dates] at ih
    split
    · rename_i hdate
      have hsize := date_size hdate
      omega
    · omega

/-! ## The round trip -/

variable {calls : List SetCall}

theorem none_missing {written missing size : Nat} (hout : written + 11 * missing = size)
    (hsize : 16 * missing + 8 ≤ size) (hlt : written < 2 ^ 31)
    (hmod : size % 2 ^ 32 = written % 2 ^ 32) : missing = 0 := by
  have hfew : missing < 2 ^ 32 := by
    clear hmod
    omega
  have hdvd : 2 ^ 32 ∣ 11 * missing := by
    have hsub := Nat.dvd_of_mod_eq_zero (Nat.sub_mod_eq_zero_of_mod_eq hmod)
    rwa [← hout, Nat.add_sub_cancel_left] at hsub
  have hmissing : 2 ^ 32 ∣ missing :=
    Nat.Coprime.dvd_of_dvd_mul_left (Nat.Coprime.pow_left 32 (by decide)) hdvd
  exact Nat.eq_zero_of_dvd_of_lt hmissing hfew

/-- What is written has the length that is announced just if there is no date and the length is
an `int`. -/
theorem length_right_iff : ((content calls).output.length : Int) = (content calls).length ↔
    dates calls = 0 ∧ messageSize calls < 2 ^ 31 := by
  have hout := content_output_length calls
  have hsize : 16 * dates calls + 8 ≤ messageSize calls := by
    rw [messageSize, Nat.add_comm]
    exact Nat.add_le_add_left (dates_le calls) 8
  rw [content_length, BitVec.toInt_ofNat']
  generalize (content calls).output.length = written at *
  generalize messageSize calls = size at *
  generalize dates calls = missing at *
  constructor
  · intro heq
    have hlt : (written : Int) < 2 ^ 31 := by
      rw [heq]
      exact Int.bmod_lt (by decide)
    have hmod : (size : Int) % (2 ^ 32 : Nat) = (written : Int) % (2 ^ 32 : Nat) := by
      rw [heq, Int.bmod_emod]
    have hlt' : written < 2 ^ 31 := by exact_mod_cast hlt
    have hnone := none_missing hout hsize hlt' (by exact_mod_cast hmod)
    rw [hnone, Nat.mul_zero, Nat.add_zero] at hout
    exact ⟨hnone, hout ▸ hlt'⟩
  · rintro ⟨rfl, hlt⟩
    obtain rfl : written = size := hout
    exact (Int.bmod_eq_of_le (by omega) (by omega)).symm

theorem dates_eq_zero : dates calls = 0 ↔ ∀ call ∈ calls, call.isDate = false := by
  rw [dates, countP_eq_zero]
  exact forall₂_congr fun call _ => Bool.not_eq_true call.isDate ▸ Iff.rfl

theorem Message.comes_back (h : Message calls) (hdates : ∀ call ∈ calls, call.isDate = false) :
    ∃ enough, ∀ fuel, enough ≤ fuel →
      Reads (IppContent.input fuel .new) (content calls).output (content calls) := by
  obtain ⟨before, after, hcalls, hbefore, hafter⟩ := h.ends
  have hattrs : (content calls).attrs = before.filterMap SetCall.attr ++
      [.delimiter ⟨IPP_END_OF_ATTRIBUTES_TAG⟩] := by
    have hnone : after.filterMap SetCall.attr = [] := filterMap_eq_nil_iff.2 hafter
    have hend : (SetCall.setDelimiter IPP_END_OF_ATTRIBUTES_TAG).attr =
        some (.delimiter ⟨IPP_END_OF_ATTRIBUTES_TAG⟩) := rfl
    rw [content_attrs, hcalls, filterMap_append, filterMap_cons_some hend, hnone]
  refine ⟨(before.filterMap SetCall.attr).length + 1, fun fuel hfuel => ?_⟩
  refine reads_input (fun a ha => ?_) hattrs hfuel
  obtain ⟨call, hcall, hattr⟩ := mem_filterMap.1 ha
  have hmem : call ∈ calls := hcalls ▸ mem_append_left _ hcall
  obtain ⟨tag, rest, hback, htag⟩ := call_readsBack (h.strings call hmem)
    (fun tag heq => h.delimiters tag (heq ▸ hmem)) (hdates call hmem) hattr
  exact ⟨tag, rest, hback, fun heq => hbefore (htag heq ▸ hcall)⟩

/-- **A message has the announced length and comes back, with the stream behind its end tag, just if
it has no date and its length is an `int`.** -/
theorem ipp_round_trip (h : Message calls) :
    (((content calls).output.length : Int) = (content calls).length ∧
      ∀ document, ∃ enough, ∀ fuel, enough ≤ fuel →
        IppContent.input fuel .new ⟨(content calls).output ++ document, 0⟩ = some (content calls,
            ⟨(content calls).output ++ document, (content calls).output.length⟩)) ↔
      (∀ call ∈ calls, call.isDate = false) ∧ messageSize calls < 2 ^ 31 := by
  rw [length_right_iff, dates_eq_zero]
  constructor
  · rintro ⟨hright, -⟩
    exact hright
  · intro hright
    refine ⟨hright, fun document => ?_⟩
    obtain ⟨enough, hreads⟩ := h.comes_back hright.1
    refine ⟨enough, fun fuel hfuel => ?_⟩
    have hread := hreads fuel hfuel [] document
    rw [nil_append, length_nil, Nat.zero_add] at hread
    exact hread

/-! ## Two messages -/

/-- An attribute group with a number and a string. -/
def numberAndString : List SetCall :=
  [.setDelimiter 1, .setInteger [106] 5, .setKeyword [107] [97, 98], .setDelimiter 3]

theorem numberAndString_message : Message numberAndString := by
  refine ⟨?_, ?_, ?_⟩
  · have hshort : ∀ s ∈ ([[106], [107], [97, 98]] : List (List UInt8)), Short s := by
      intro s hs
      simp only [mem_cons, not_mem_nil, or_false] at hs
      rcases hs with rfl | rfl | rfl <;> exact ⟨by decide, by decide⟩
    intro call hcall s hs
    simp only [numberAndString, mem_cons, not_mem_nil, or_false] at hcall
    rcases hcall with rfl | rfl | rfl | rfl <;>
      simp only [SetCall.strings, mem_cons, not_mem_nil, or_false] at hs
    · exact hshort s (by simp [hs])
    · exact hshort s (by simp only [mem_cons]; tauto)
  · intro tag htag
    simp only [numberAndString, mem_cons, not_mem_nil, or_false,
      SetCall.setDelimiter.injEq, reduceCtorEq, false_or] at htag
    rcases htag with rfl | rfl <;> decide
  · exact ⟨[.setDelimiter 1, .setInteger [106] 5, .setKeyword [107] [97, 98]], [], rfl,
      by simp [IPP_END_OF_ATTRIBUTES_TAG], nofun⟩

theorem numberAndString_comes_back :
    ((content numberAndString).output.length : Int) = (content numberAndString).length ∧
      ∀ document, ∃ enough, ∀ fuel, enough ≤ fuel →
        IppContent.input fuel .new ⟨(content numberAndString).output ++ document, 0⟩ =
          some (content numberAndString, ⟨(content numberAndString).output ++ document,
            (content numberAndString).output.length⟩) :=
  (ipp_round_trip numberAndString_message).2 ⟨by decide, by decide⟩

/-- A message with a date. -/
def dated : List SetCall := [.setDelimiter 1, .setDateTime [100] {}, .setDelimiter 3]

/-- A date makes the announced length eleven bytes too large. -/
theorem dated_length_wrong : Message dated ∧
    (content dated).length = (content dated).output.length + 11 ∧
    ((content dated).output.length : Int) ≠ (content dated).length := by
  refine ⟨⟨?_, ?_, ?_⟩, by decide, by decide⟩
  · intro call hcall s hs
    simp only [dated, mem_cons, not_mem_nil, or_false] at hcall
    rcases hcall with rfl | rfl | rfl <;>
      simp only [SetCall.strings, mem_cons, not_mem_nil, or_false] at hs
    subst hs
    exact ⟨by decide, by decide⟩
  · intro tag htag
    simp only [dated, mem_cons, not_mem_nil, or_false, SetCall.setDelimiter.injEq,
      reduceCtorEq, false_or] at htag
    rcases htag with rfl | rfl <;> decide
  · exact ⟨[.setDelimiter 1, .setDateTime [100] {}], [], rfl,
      by simp [IPP_END_OF_ATTRIBUTES_TAG], nofun⟩

end Ipp
