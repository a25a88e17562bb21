/-!
# Characters

The characters that matter in a template:

* the spaces of markup, the characters that may stand in a document at all, and the two classes of
  XML 1.0 that names are made of;
* the characters with the Unicode property White_Space, which blank texts are made of; there are
  twenty-five of them, and four of these are the spaces of markup;
* the colon. A name such as `tal:content` has a qualifier and a local part, and the first colon ends
  the qualifier; `splitColon?_eq_some_iff` says that and no more.
-/

namespace TalMarkup

/-! ## 1. Letters of markup -/

/-- The spaces of markup: space, tab, carriage return and line feed. -/
def isSpace (c : Char) : Bool := c == ' ' || c == '\t' || c == '\r' || c == '\n'

/-- The characters a document may hold: no control character but the spaces, and neither of the
    two noncharacters U+FFFE and U+FFFF. -/
def isXmlChar (c : Char) : Bool :=
  if c.toNat < 0x20 then isSpace c else c.toNat != 0xFFFE && c.toNat != 0xFFFF

/-- A code point lies in one of the ranges, ends included. -/
def inRanges (ranges : List (Nat × Nat)) (code : Nat) : Bool :=
  ranges.any fun (low, high) => low ≤ code && code ≤ high

/-- The code points a name may start with. -/
def nameStartRanges : List (Nat × Nat) :=
  [(0x61, 0x7A), (0x41, 0x5A), (0x3A, 0x3A), (0x5F, 0x5F), (0xC0, 0xD6), (0xD8, 0xF6),
   (0xF8, 0x2FF), (0x370, 0x37D), (0x37F, 0x1FFF), (0x200C, 0x200D), (0x2070, 0x218F),
   (0x2C00, 0x2FEF), (0x3001, 0xD7FF), (0xF900, 0xFDCF), (0xFDF0, 0xFFFD), (0x10000, 0xEFFFF)]

/-- The code points that may stand in a name after its start only. -/
def nameInnerRanges : List (Nat × Nat) :=
  [(0x30, 0x39), (0x2D, 0x2D), (0x2E, 0x2E), (0xB7, 0xB7), (0x300, 0x36F), (0x203F, 0x2040)]

/-- A character that may start a name; the colon is one. -/
def isNameStart (c : Char) : Bool := inRanges nameStartRanges c.toNat

/-- A character that may continue a name. -/
def isNameChar (c : Char) : Bool := isNameStart c || inRanges nameInnerRanges c.toNat

theorem isNameChar_of_isNameStart {c : Char} (h : isNameStart c = true) : isNameChar c = true := by
  simp [isNameChar, h]

/-! ## 2. Blank text -/

/-- The characters with the property White_Space. -/
def blankChars : List Char :=
  ['\t', '\n', '\x0b', '\x0c', '\r', ' ', '\u0085', '\u00a0', '\u1680',
   '\u2000', '\u2001', '\u2002', '\u2003', '\u2004', '\u2005', '\u2006', '\u2007', '\u2008',
   '\u2009', '\u200a', '\u2028', '\u2029', '\u202f', '\u205f', '\u3000']

/-- The character has the property White_Space. -/
def isBlank (c : Char) : Bool := blankChars.contains c

/-- The text holds nothing, or White_Space only. -/
def isBlankText (text : String) : Bool := text.toList.all isBlank

example : blankChars.length = 25 := rfl

/-! ## 3. The first colon -/

/-- The text in front of the first colon, and the text after it. -/
def splitColon? : List Char → Option (List Char × List Char)
  | [] => none
  | c :: cs =>
    if c = ':' then some ([], cs)
    else (splitColon? cs).map fun (qualifier, localPart) => (c :: qualifier, localPart)

/-- **The cut is at the first colon.** -/
theorem splitColon?_eq_some_iff {cs qualifier localPart : List Char} :
    splitColon? cs = some (qualifier, localPart) ↔
      cs = qualifier ++ ':' :: localPart ∧ ':' ∉ qualifier := by
  induction cs generalizing qualifier with
  | nil => simp [splitColon?]
  | cons c cs ih =>
    by_cases hc : c = ':'
    · cases qualifier with
      | nil => simp [splitColon?, hc]
      | cons q qs => simp [splitColon?, hc]; grind
    · cases qualifier with
      | nil => simp [splitColon?, hc]
      | cons q qs => simp [splitColon?, hc, ih]; grind

theorem splitColon?_eq_none_iff {cs : List Char} : splitColon? cs = none ↔ ':' ∉ cs := by
  induction cs with
  | nil => simp [splitColon?]
  | cons c cs ih => by_cases hc : c = ':' <;> simp [splitColon?, hc, ih]; grind

end TalMarkup
