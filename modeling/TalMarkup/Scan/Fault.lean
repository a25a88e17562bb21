import TalMarkup.Text.Position

/-!
# What can be wrong with markup

A `Fault` is either an unknown token or an invalid construct, and an invalid construct has a
`Cause`. Faults are generic in what a place is: a scanner knows a place as the text unread there,
a reader of messages wants a `Position`. `Fault.map` goes from one to the other.

The wording is fixed here once, by `Cause.message` and `Fault.message`.
-/

namespace TalMarkup

/-! ## 1. Constructs, causes, faults -/

/-- The constructs that markup is read by. -/
inductive Construct
  | declaration
  | comment
  | instruction
  | doctype
  | entity
  | element
  | attr
  | cdata
  | text
deriving DecidableEq

/-- What was wanted where another character stood. -/
inductive Wanted
  /-- One of these characters. -/
  | oneOf (chars : List Char)
  | quoteMark
  | space
deriving DecidableEq

/-- Why a construct is invalid; `π` is the type of places. -/
inductive Cause (π : Type)
  | endOfInput
  | badName
  | badExternalId
  /-- A character that no document may hold. -/
  | forbiddenChar (c : Char) (place : π)
  /-- A character other than the wanted one. -/
  | unexpected (wanted : Wanted) (found : Char) (place : π)
  /-- None of these texts stands at the place. -/
  | missing (texts : List String) (place : π)
  | doubleHyphen
  | trailingHyphen
  /-- Character data holds the end mark of a CDATA section. -/
  | sectionEndInText
deriving DecidableEq

/-- Where reading markup stopped, and why; `π` is the type of places. -/
inductive Fault (π : Type)
  | unknown (place : π)
  | invalid (construct : Construct) (place : π) (cause : Cause π)
deriving DecidableEq

variable {π ρ : Type}

/-- The cause with every place read by `f`. -/
def Cause.map (f : π → ρ) : Cause π → Cause ρ
  | .endOfInput => .endOfInput
  | .badName => .badName
  | .badExternalId => .badExternalId
  | .forbiddenChar c place => .forbiddenChar c (f place)
  | .unexpected wanted found place => .unexpected wanted found (f place)
  | .missing texts place => .missing texts (f place)
  | .doubleHyphen => .doubleHyphen
  | .trailingHyphen => .trailingHyphen
  | .sectionEndInText => .sectionEndInText

/-- The fault with every place read by `f`. -/
def Fault.map (f : π → ρ) : Fault π → Fault ρ
  | .unknown place => .unknown (f place)
  | .invalid construct place cause => .invalid construct (f place) (cause.map f)

/-- Where the unknown token or the invalid construct starts. -/
def Fault.place : Fault π → π
  | .unknown place => place
  | .invalid _ place _ => place

@[simp] theorem Fault.place_map (f : π → ρ) (fault : Fault π) : (fault.map f).place = f fault.place := by
  cases fault <;> rfl

/-! ## 2. The wording -/

/-- The name of a construct in messages. -/
def Construct.name : Construct → String
  | .declaration => "XML declaration"
  | .comment => "comment"
  | .instruction => "processing instruction"
  | .doctype => "DTD"
  | .entity => "DTD entity"
  | .element => "element"
  | .attr => "attribute"
  | .cdata => "CDATA"
  | .text => "character data"

/-- The first byte of a character's UTF-8 form. -/
def leadByte (c : Char) : Nat :=
  let code := c.toNat
  if code < 0x80 then code
  else if code < 0x800 then 0xC0 + code / 0x40
  else if code < 0x10000 then 0xE0 + code / 0x1000
  else 0xF0 + code / 0x40000

/-- Texts in single quotes, with commas between them. -/
def quotedList (texts : List String) : String :=
  "'" ++ String.intercalate "', '" texts ++ "'"

/-- What was wanted, in the words of a message. -/
def Wanted.shown : Wanted → String
  | .oneOf chars => quotedList (chars.map Char.toString)
  | .quoteMark => "quote mark"
  | .space => "space"

/-- A forbidden character, written by its code: `'\0'` for the first one, the hexadecimal number in
    braces for all others. -/
def forbiddenCharShown (c : Char) : String :=
  if c.toNat = 0 then "'\\0'"
  else "'\\u\x7b" ++ String.ofList (Nat.toDigits 16 c.toNat) ++ "\x7d'"

/-- A cause in the words of a message. A found character is shown by the first byte of its UTF-8
    form, read as a code point. -/
def Cause.message : Cause Position → String
  | .endOfInput => "unexpected end of stream"
  | .badName => "invalid name token"
  | .badExternalId => "invalid ExternalID"
  | .forbiddenChar c place =>
    "a non-XML character " ++ forbiddenCharShown c ++ " found at " ++ place.shown
  | .unexpected wanted found place =>
    "expected " ++ wanted.shown ++ " not '" ++ (Char.ofNat (leadByte found)).toString ++ "' at "
      ++ place.shown
  | .missing texts place => "expected " ++ quotedList texts ++ " at " ++ place.shown
  | .doubleHyphen => "'--' is not allowed in comments"
  | .trailingHyphen => "comment cannot end with '-'"
  | .sectionEndInText => "']]>' is not allowed inside a character data"

/-- A fault in the words of a message. -/
def Fault.message : Fault Position → String
  | .unknown place => "unknown token at " ++ place.shown
  | .invalid construct place cause =>
    "invalid " ++ construct.name ++ " at " ++ place.shown ++ " cause " ++ cause.message

end TalMarkup
