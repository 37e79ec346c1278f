import OpenBeOS.Lib.Codec

/-! # IPP messages (`IppContent.cpp`)

The attributes of a message, each with what `length()` says of it, what `output()` writes and what
`input()` reads, and the message itself, without raw data. `short` has two bytes, `int` and `long`
have four. A stream that fails stays failed; what has been stored until then is not looked at.
-/

namespace Ipp

open Codec

/-! ## Lengths -/

/-- `ntohs()` of what is read into a `short`. -/
def readLength : Reader Int := do
  return (BitVec.ofNat 16 (ofBytes (← read 2))).toInt

/-- The length becomes a `short`. -/
def writeLength (len : Nat) : List UInt8 := toBytes 2 len

/-- `ntohs()` of what is read. -/
def readShort : Reader (BitVec 16) := do
  return BitVec.ofNat 16 (ofBytes (← read 2))

def writeShort (value : BitVec 16) : List UInt8 := toBytes 2 value.toNat

/-- `htonl()` of a `long` or an `int`. -/
def writeLong (value : BitVec 32) : List UInt8 := toBytes 4 value.toNat

def readLong : Reader (BitVec 32) := do
  return BitVec.ofNat 32 (ofBytes (← read 4))

/-- The value of a `char`, which has a sign. -/
def charValue (c : UInt8) : Int := (BitVec.ofNat 8 c.toNat).toInt

def readChar : Reader UInt8 := do
  return UInt8.ofNat (ofBytes (← read 1))

/-- The string that ends before the first NUL. -/
def cstring (buffer : List UInt8) : List UInt8 := buffer.takeWhile (· ≠ 0)

/-- A string with its length in front, which stays as it is if the length is not positive. -/
def readString (s : List UInt8) : Reader (List UInt8) := do
  let len ← readLength
  if 0 < len then return cstring (← read len.toNat) else return s

/-- A number with its length in front; any other length is skipped. -/
def readNumber (value : BitVec 32) : Reader (BitVec 32) := do
  let len ← readLength
  if 0 < len ∧ len ≤ 4 then readLong else do
    seekg len
    return value

/-! ## Tags -/

def IPP_END_OF_ATTRIBUTES_TAG : UInt8 := 0x03
def IPP_INTEGER : UInt8 := 0x21
def IPP_BOOLEAN : UInt8 := 0x22
def IPP_ENUM : UInt8 := 0x23
def IPP_STRING : UInt8 := 0x30
def IPP_DATETIME : UInt8 := 0x31
def IPP_RESOLUTION : UInt8 := 0x32
def IPP_RANGE_OF_INTEGER : UInt8 := 0x33
def IPP_TEXT_WITH_LANGUAGE : UInt8 := 0x35
def IPP_NAME_WITH_LANGUAGE : UInt8 := 0x36
def IPP_TEXT_WITHOUT_LANGUAGE : UInt8 := 0x41
def IPP_NAME_WITHOUT_LANGUAGE : UInt8 := 0x42
def IPP_KEYWORD : UInt8 := 0x44
def IPP_URI : UInt8 := 0x45
def IPP_URISCHEME : UInt8 := 0x46
def IPP_CHARSET : UInt8 := 0x47
def IPP_NATURAL_LANGUAGE : UInt8 := 0x48
def IPP_MIME_MEDIA_TYPE : UInt8 := 0x49

/-! ## Attributes -/

structure IppAttribute where
  tag : UInt8

namespace IppAttribute

def length (_ : IppAttribute) : Nat := 1

def output (a : IppAttribute) : List UInt8 := [a.tag]

end IppAttribute

structure IppNamedAttribute extends IppAttribute where
  name : List UInt8 := []

namespace IppNamedAttribute

def length (a : IppNamedAttribute) : Nat := a.toIppAttribute.length + 2 + a.name.length

def input (a : IppNamedAttribute) : Reader IppNamedAttribute := do
  return { a with name := ← readString a.name }

def output (a : IppNamedAttribute) : List UInt8 :=
  a.toIppAttribute.output ++ (writeLength a.name.length ++ a.name)

end IppNamedAttribute

structure IppNoValueAttribute extends IppNamedAttribute

namespace IppNoValueAttribute

/-- Without the name. -/
def length (a : IppNoValueAttribute) : Nat := a.toIppAttribute.length + 2

def input (a : IppNoValueAttribute) : Reader IppNoValueAttribute := do
  let named ← a.toIppNamedAttribute.input
  let len ← readLength
  if 0 < len then seekg len
  return ⟨named⟩

def output (a : IppNoValueAttribute) : List UInt8 := a.toIppAttribute.output ++ writeLength 0

end IppNoValueAttribute

structure IppIntegerAttribute extends IppNamedAttribute where
  value : BitVec 32 := 0

namespace IppIntegerAttribute

def length (a : IppIntegerAttribute) : Nat := a.toIppNamedAttribute.length + 2 + 4

def input (a : IppIntegerAttribute) : Reader IppIntegerAttribute := do
  let named ← a.toIppNamedAttribute.input
  let value ← readNumber a.value
  return ⟨named, value⟩

def output (a : IppIntegerAttribute) : List UInt8 :=
  a.toIppNamedAttribute.output ++ (writeLength 4 ++ writeLong a.value)

end IppIntegerAttribute

structure IppBooleanAttribute extends IppNamedAttribute where
  value : Bool := false

namespace IppBooleanAttribute

def length (a : IppBooleanAttribute) : Nat := a.toIppNamedAttribute.length + 2 + 1

def input (a : IppBooleanAttribute) : Reader IppBooleanAttribute := do
  let named ← a.toIppNamedAttribute.input
  let len ← readLength
  if 0 < len ∧ len ≤ 1 then
    let c ← readChar
    return ⟨named, c ≠ 0⟩
  else
    seekg len
    return ⟨named, a.value⟩

def output (a : IppBooleanAttribute) : List UInt8 :=
  a.toIppNamedAttribute.output ++ (writeLength 1 ++ [if a.value then 1 else 0])

end IppBooleanAttribute

/-- `DATETIME`; what it holds is neither written nor read. -/
structure DATETIME where
  datetime : Fin 11 → UInt8 := fun _ => 0

namespace DATETIME

def input (dt : DATETIME) : Reader DATETIME := return dt

def output (_ : DATETIME) : List UInt8 := []

end DATETIME

structure IppDatetimeAttribute extends IppNamedAttribute where
  datetime : DATETIME := {}

namespace IppDatetimeAttribute

def length (a : IppDatetimeAttribute) : Nat := a.toIppNamedAttribute.length + 2 + 11

def input (a : IppDatetimeAttribute) : Reader IppDatetimeAttribute := do
  let named ← a.toIppNamedAttribute.input
  let len ← readLength
  if 0 < len then
    if len = 11 then
      let datetime ← a.datetime.input
      return ⟨named, datetime⟩
    else
      seekg len
  return ⟨named, a.datetime⟩

def output (a : IppDatetimeAttribute) : List UInt8 :=
  a.toIppNamedAttribute.output ++ (writeLength 11 ++ a.datetime.output)

end IppDatetimeAttribute

structure IppStringAttribute extends IppNamedAttribute where
  text : List UInt8 := []

namespace IppStringAttribute

def length (a : IppStringAttribute) : Nat := a.toIppNamedAttribute.length + 2 + a.text.length

def input (a : IppStringAttribute) : Reader IppStringAttribute := do
  let named ← a.toIppNamedAttribute.input
  let text ← readString a.text
  return ⟨named, text⟩

def output (a : IppStringAttribute) : List UInt8 :=
  a.toIppNamedAttribute.output ++ (writeLength a.text.length ++ a.text)

end IppStringAttribute

structure IppDoubleStringAttribute extends IppNamedAttribute where
  text1 : List UInt8 := []
  text2 : List UInt8 := []

namespace IppDoubleStringAttribute

def length (a : IppDoubleStringAttribute) : Nat :=
  a.toIppNamedAttribute.length + 2 + a.text1.length + 2 + a.text2.length

def input (a : IppDoubleStringAttribute) : Reader IppDoubleStringAttribute := do
  let named ← a.toIppNamedAttribute.input
  let text1 ← readString a.text1
  let text2 ← readString a.text2
  return ⟨named, text1, text2⟩

def output (a : IppDoubleStringAttribute) : List UInt8 :=
  a.toIppNamedAttribute.output ++
    ((writeLength a.text1.length ++ a.text1) ++ (writeLength a.text2.length ++ a.text2))

end IppDoubleStringAttribute

/-- The resolution units are those of an enumeration, whose values fit into a byte. -/
structure IppResolutionAttribute extends IppNamedAttribute where
  xres : BitVec 32 := 0
  yres : BitVec 32 := 0
  resolution_units : UInt8 := 0

namespace IppResolutionAttribute

def length (a : IppResolutionAttribute) : Nat :=
  a.toIppNamedAttribute.length + 2 + 4 + 2 + 4 + 2 + 1

def input (a : IppResolutionAttribute) : Reader IppResolutionAttribute := do
  let named ← a.toIppNamedAttribute.input
  let xres ← readNumber a.xres
  let yres ← readNumber a.yres
  let len ← readLength
  if len = 1 then
    let c ← readChar
    return ⟨named, xres, yres, c⟩
  else
    seekg len
    return ⟨named, xres, yres, a.resolution_units⟩

def output (a : IppResolutionAttribute) : List UInt8 :=
  a.toIppNamedAttribute.output ++ ((writeLength 4 ++ writeLong a.xres) ++
    ((writeLength 4 ++ writeLong a.yres) ++ (writeLength 1 ++ [a.resolution_units])))

end IppResolutionAttribute

structure IppRangeOfIntegerAttribute extends IppNamedAttribute where
  lower : BitVec 32 := 0
  upper : BitVec 32 := 0

namespace IppRangeOfIntegerAttribute

def length (a : IppRangeOfIntegerAttribute) : Nat := a.toIppNamedAttribute.length + 2 + 4 + 2 + 4

def input (a : IppRangeOfIntegerAttribute) : Reader IppRangeOfIntegerAttribute := do
  let named ← a.toIppNamedAttribute.input
  let lower ← readNumber a.lower
  let upper ← readNumber a.upper
  return ⟨named, lower, upper⟩

def output (a : IppRangeOfIntegerAttribute) : List UInt8 :=
  a.toIppNamedAttribute.output ++
    ((writeLength 4 ++ writeLong a.lower) ++ (writeLength 4 ++ writeLong a.upper))

end IppRangeOfIntegerAttribute

/-- An attribute of any of the classes. -/
inductive Attr where
  | delimiter (a : IppAttribute)
  | noValue (a : IppNoValueAttribute)
  | integer (a : IppIntegerAttribute)
  | boolean (a : IppBooleanAttribute)
  | datetime (a : IppDatetimeAttribute)
  | string (a : IppStringAttribute)
  | doubleString (a : IppDoubleStringAttribute)
  | resolution (a : IppResolutionAttribute)
  | rangeOfInteger (a : IppRangeOfIntegerAttribute)

def Attr.length : Attr → Nat
  | .delimiter a => a.length
  | .noValue a => a.length
  | .integer a => a.length
  | .boolean a => a.length
  | .datetime a => a.length
  | .string a => a.length
  | .doubleString a => a.length
  | .resolution a => a.length
  | .rangeOfInteger a => a.length

def Attr.output : Attr → List UInt8
  | .delimiter a => a.output
  | .noValue a => a.output
  | .integer a => a.output
  | .boolean a => a.output
  | .datetime a => a.output
  | .string a => a.output
  | .doubleString a => a.output
  | .resolution a => a.output
  | .rangeOfInteger a => a.output

/-! ## Messages -/

structure IppContent where
  attrs : List Attr
  version : BitVec 16
  operation_id : BitVec 16
  request_id : BitVec 32

namespace IppContent

/-- `IppContent::IppContent()`, with `IPP_GET_PRINTER_ATTRIBUTES`. -/
def new : IppContent := ⟨[], 0x0100, 0x000B, 0x00000001⟩

def push_back (c : IppContent) (a : Attr) : IppContent := { c with attrs := c.attrs ++ [a] }

/-- The sum is an `int`. -/
def length (c : IppContent) : Int :=
  (c.attrs.foldl (fun length a => length + BitVec.ofNat 32 a.length) 8).toInt

def output (c : IppContent) : List UInt8 :=
  writeShort c.version ++ (writeShort c.operation_id ++
    (writeLong c.request_id ++ c.attrs.flatMap Attr.output))

/-- A name and a value of an unknown kind. -/
def skipUnknown : Reader Unit := do
  seekg (← readLength)
  seekg (← readLength)

/-- The attribute behind its tag; `none` stands for one that is not kept. -/
def inputAttr (tag : UInt8) : Reader (Option Attr) :=
  if charValue tag ≤ 0x0F then
    return some (.delimiter ⟨tag⟩)
  else if charValue tag ≤ 0x1F then do
    return some (.noValue (← IppNoValueAttribute.input { tag }))
  else if charValue tag ≤ 0x2F then
    if tag = IPP_INTEGER ∨ tag = IPP_ENUM then do
      return some (.integer (← IppIntegerAttribute.input { tag }))
    else if tag = IPP_BOOLEAN then do
      return some (.boolean (← IppBooleanAttribute.input { tag }))
    else do
      skipUnknown
      return none
  else if charValue tag ≤ 0x3F then
    if tag = IPP_STRING then do
      return some (.string (← IppStringAttribute.input { tag }))
    else if tag = IPP_DATETIME then do
      return some (.datetime (← IppDatetimeAttribute.input { tag }))
    else if tag = IPP_RESOLUTION then do
      return some (.resolution (← IppResolutionAttribute.input { tag }))
    else if tag = IPP_RANGE_OF_INTEGER then do
      return some (.rangeOfInteger (← IppRangeOfIntegerAttribute.input { tag }))
    else if tag = IPP_TEXT_WITH_LANGUAGE ∨ tag = IPP_NAME_WITH_LANGUAGE then do
      return some (.doubleString (← IppDoubleStringAttribute.input { tag }))
    else do
      skipUnknown
      return none
  else if charValue tag ≤ 0x5F then do
    return some (.string (← IppStringAttribute.input { tag }))
  else
    return none

/-- The loop of `input()`, which ends behind the end tag. A length may lead back in the stream, so
that the loop does not end on every stream. -/
def inputLoop : Nat → IppContent → Reader IppContent
  | 0, _ => fun _ => none
  | fuel + 1, c => do
    let tag ← readChar
    let attr ← inputAttr tag
    let c := (attr.map c.push_back).getD c
    if tag = IPP_END_OF_ATTRIBUTES_TAG then return c else inputLoop fuel c

def input (fuel : Nat) (c : IppContent) : Reader IppContent := do
  let version ← readShort
  let operation_id ← readShort
  let request_id ← readLong
  inputLoop fuel { c with version, operation_id, request_id }

end IppContent

/-! ## How a message is built -/

inductive SetCall where
  | setVersion (version : BitVec 16)
  | setOperationId (operation_id : BitVec 16)
  | setRequestId (request_id : BitVec 32)
  | setDelimiter (tag : UInt8)
  | setInteger (name : List UInt8) (value : BitVec 32)
  | setBoolean (name : List UInt8) (value : Bool)
  | setString (name value : List UInt8)
  | setDateTime (name : List UInt8) (dt : DATETIME)
  | setResolution (name : List UInt8) (x y : BitVec 32) (u : UInt8)
  | setRangeOfInteger (name : List UInt8) (lower upper : BitVec 32)
  | setTextWithLanguage (name s1 s2 : List UInt8)
  | setNameWithLanguage (name s1 s2 : List UInt8)
  | setTextWithoutLanguage (name value : List UInt8)
  | setNameWithoutLanguage (name value : List UInt8)
  | setKeyword (name value : List UInt8)
  | setURI (name value : List UInt8)
  | setURIScheme (name value : List UInt8)
  | setCharset (name value : List UInt8)
  | setNaturalLanguage (name value : List UInt8)
  | setMimeMediaType (name value : List UInt8)

/-- The attribute that a call adds. -/
def SetCall.attr : SetCall → Option Attr
  | .setVersion _ | .setOperationId _ | .setRequestId _ => none
  | .setDelimiter tag => some (.delimiter ⟨tag⟩)
  | .setInteger name value => some (.integer ⟨⟨⟨IPP_INTEGER⟩, name⟩, value⟩)
  | .setBoolean name value => some (.boolean ⟨⟨⟨IPP_BOOLEAN⟩, name⟩, value⟩)
  | .setString name value => some (.string ⟨⟨⟨IPP_STRING⟩, name⟩, value⟩)
  | .setDateTime name dt => some (.datetime ⟨⟨⟨IPP_DATETIME⟩, name⟩, dt⟩)
  | .setResolution name x y u => some (.resolution ⟨⟨⟨IPP_RESOLUTION⟩, name⟩, x, y, u⟩)
  | .setRangeOfInteger name lower upper =>
    some (.rangeOfInteger ⟨⟨⟨IPP_RANGE_OF_INTEGER⟩, name⟩, lower, upper⟩)
  | .setTextWithLanguage name s1 s2 =>
    some (.doubleString ⟨⟨⟨IPP_TEXT_WITH_LANGUAGE⟩, name⟩, s1, s2⟩)
  | .setNameWithLanguage name s1 s2 =>
    some (.doubleString ⟨⟨⟨IPP_NAME_WITH_LANGUAGE⟩, name⟩, s1, s2⟩)
  | .setTextWithoutLanguage name value =>
    some (.string ⟨⟨⟨IPP_TEXT_WITHOUT_LANGUAGE⟩, name⟩, value⟩)
  | .setNameWithoutLanguage name value =>
    some (.string ⟨⟨⟨IPP_NAME_WITHOUT_LANGUAGE⟩, name⟩, value⟩)
  | .setKeyword name value => some (.string ⟨⟨⟨IPP_KEYWORD⟩, name⟩, value⟩)
  | .setURI name value => some (.string ⟨⟨⟨IPP_URI⟩, name⟩, value⟩)
  | .setURIScheme name value => some (.string ⟨⟨⟨IPP_URISCHEME⟩, name⟩, value⟩)
  | .setCharset name value => some (.string ⟨⟨⟨IPP_CHARSET⟩, name⟩, value⟩)
  | .setNaturalLanguage name value => some (.string ⟨⟨⟨IPP_NATURAL_LANGUAGE⟩, name⟩, value⟩)
  | .setMimeMediaType name value => some (.string ⟨⟨⟨IPP_MIME_MEDIA_TYPE⟩, name⟩, value⟩)

def IppContent.set (c : IppContent) (call : SetCall) : IppContent :=
  match call with
  | .setVersion version => { c with version }
  | .setOperationId operation_id => { c with operation_id }
  | .setRequestId request_id => { c with request_id }
  | call => (call.attr.map c.push_back).getD c

/-- The message after some calls. -/
def content (calls : List SetCall) : IppContent := calls.foldl IppContent.set .new

end Ipp
