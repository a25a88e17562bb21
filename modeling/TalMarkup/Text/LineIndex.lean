/-!
# Lines

`lines` cuts a text into its lines. A line ends with a line feed or with the text; a carriage return
right in front of that line feed belongs to the ending. A final line feed starts no further line, so
the empty text has no lines.

A `LineIndex` holds the offset at which each line of a source starts. Offsets count the bytes of the
source's UTF-8 form. The line of an offset is found by binary search; an offset past the end belongs
to the last line.
-/

namespace TalMarkup

/-! ## 1. The lines of a text -/

/-- The text without a carriage return at its end. -/
def dropCarriageReturn (cs : List Char) : List Char :=
  if cs.getLast? = some '\r' then cs.dropLast else cs

/-- The lines of a text; `line` holds the characters of the present line, the last one first. -/
def linesFrom (line : List Char) : List Char → List (List Char)
  | [] => if line = [] then [] else [line.reverse]
  | c :: cs =>
    if c = '\n' then dropCarriageReturn line.reverse :: linesFrom [] cs
    else linesFrom (c :: line) cs

/-- The lines of a text. -/
def lines (text : String) : List String := (linesFrom [] text.toList).map String.ofList

example : lines "" = [] := rfl
example : lines "a\r\n\nb\r" = ["a", "", "b\r"] := by decide

/-! ## 2. An index of lines -/

/-- The offsets right after the line feeds of a text that starts at `offset`. -/
def offsetsAfterNewlines (offset : Nat) : List Char → List Nat
  | [] => []
  | c :: cs =>
    let next := offset + c.utf8Size
    if c = '\n' then next :: offsetsAfterNewlines next cs else offsetsAfterNewlines next cs

/-- The offset of every line start of a source, in order. -/
structure LineIndex where
  starts : Array Nat

namespace LineIndex

/-- The index of a source. The first line starts at offset 0. -/
def ofSource (source : String) : LineIndex :=
  ⟨(0 :: offsetsAfterNewlines 0 source.toList).toArray⟩

/-- The number of lines. -/
def lineCount (index : LineIndex) : Nat := index.starts.size

/-- Between `low` and `high`, the first place from which on all starts lie beyond `offset`. -/
def search (starts : Array Nat) (offset low high : Nat) (inside : high ≤ starts.size) : Nat :=
  if order : low < high then
    let middle := low + (high - low) / 2
    have below : middle < high := by omega
    if starts[middle] ≤ offset then search starts offset (middle + 1) high inside
    else search starts offset low middle (by omega)
  else low
termination_by high - low

/-- The line, counted from 1, that the byte at `offset` belongs to: as many as there are starts up
    to it. -/
def lineOf (index : LineIndex) (offset : Nat) : Nat :=
  search index.starts offset 0 index.starts.size (Nat.le_refl _)

end LineIndex

end TalMarkup
