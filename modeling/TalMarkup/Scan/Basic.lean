import TalMarkup.Text.Character
import TalMarkup.Scan.Fault

/-!
# Scanners

A scanner reads from the front of the unread text. It gives a result and the text still unread, or
the cause why it cannot; a place inside a cause is the text unread there. Scanners are put together
with `do`.

`text` gives the part that a scanner reads instead of its result, and `within` makes the scanner the
reader of a construct, so that a cause becomes a `Fault`.
-/

namespace TalMarkup

/-- A reader of the front of the unread text. -/
abbrev Scan (α : Type) := StateT (List Char) (Except (Cause (List Char))) α

/-- The unread text starts with `mark`. -/
def startsWith (mark : String) (cs : List Char) : Bool := mark.toList.isPrefixOf cs

/-- The text cut at the first place where `stop` holds of what follows, or at its end; `passed` holds
    the characters in front of it that were passed already, the last one first. -/
def cutFrom (stop : List Char → Bool) (passed : List Char) : List Char → List Char × List Char
  | [] => (passed.reverse, [])
  | c :: cs =>
    if stop (c :: cs) then (passed.reverse, c :: cs) else cutFrom stop (c :: passed) cs

/-- The text cut at the first place where `stop` holds of what follows, or at its end. -/
def cut (stop : List Char → Bool) (cs : List Char) : List Char × List Char := cutFrom stop [] cs

/-- The next character, if there is one, satisfies `p`. -/
def nextIs (p : Char → Bool) : List Char → Bool
  | [] => false
  | c :: _ => p c

/-- `mark` stands somewhere in the text. -/
def holds (mark : String) (cs : List Char) : Bool := !(cut (startsWith mark) cs).2.isEmpty

namespace Scan

variable {α β : Type}

/-! ## 1. Single marks -/

/-- Reads the character `x`. -/
def char (x : Char) : Scan Unit
  | [] => .error .endOfInput
  | c :: cs => if c = x then .ok ((), cs) else .error (.unexpected (.oneOf [x]) c (c :: cs))

/-- Reads the text `mark`. -/
def literal (mark : String) : Scan Unit := fun cs =>
  if startsWith mark cs then .ok ((), cs.drop mark.length) else .error (.missing [mark] cs)

/-- Reads a single or a double quote mark. -/
def quote : Scan Char
  | [] => .error .endOfInput
  | c :: cs => if c = '"' || c = '\x27' then .ok (c, cs) else .error (.unexpected .quoteMark c (c :: cs))

/-! ## 2. Runs of characters -/

/-- Reads characters as long as `p` holds of them. -/
def span (p : Char → Bool) : Scan (List Char) := fun cs => .ok (cs.takeWhile p, cs.dropWhile p)

/-- Reads spaces, if there are any. -/
def spaces : Scan (List Char) := span isSpace

/-- Reads one space at least. -/
def someSpaces : Scan (List Char)
  | [] => .error .endOfInput
  | c :: cs => if isSpace c then spaces (c :: cs) else .error (.unexpected .space c (c :: cs))

/-- Reads the characters of a document, up to where `stop` holds of the unread text or to the end.
    The first character that no document may hold is the cause of a failure. -/
def upTo (stop : List Char → Bool) : Scan (List Char) := fun cs =>
  let (part, rest) := cut stop cs
  match part.dropWhile isXmlChar with
  | [] => .ok (part, rest)
  | c :: more => .error (.forbiddenChar c (c :: more ++ rest))

/-- Reads an equals sign and the spaces around it, and gives these. -/
def equals : Scan (List Char × List Char) := do
  let before ← spaces
  char '='
  let after ← spaces
  return (before, after)

/-- Reads a quoted text whose characters are not looked at. -/
def quoted : Scan Unit := do
  let mark ← quote
  let _ ← span (· != mark)
  char mark

/-! ## 3. Names -/

/-- Reads a name; at the end of the text a missing name is none. -/
def optionalName : Scan (List Char)
  | [] => .ok ([], [])
  | c :: cs => if isNameStart c then span isNameChar (c :: cs) else .error .badName

/-- Reads a name. -/
def name : Scan (List Char)
  | [] => .error .badName
  | c :: cs => optionalName (c :: cs)

/-! ## 4. Putting scanners together -/

/-- Where the unread text starts with `mark`, reads that and what `s` reads after it. -/
def whenNext (mark : String) (s : Scan Unit) : Scan Unit := fun cs =>
  if startsWith mark cs then (do literal mark; s : Scan Unit) cs else .ok ((), cs)

/-- The part that `s` reads. -/
def text (s : Scan α) : Scan (List Char) := fun cs =>
  match s cs with
  | .ok (_, rest) => .ok (readPart cs rest, rest)
  | .error cause => .error cause

/-- Runs `s` as the reader of a construct: what stops it is a fault of that construct, placed where
    the construct starts. -/
def within (construct : Construct) (s : Scan α) (cs : List Char) :
    Except (Fault (List Char)) (α × List Char) :=
  match s cs with
  | .ok result => .ok result
  | .error cause => .error (.invalid construct cs cause)

end Scan

end TalMarkup
