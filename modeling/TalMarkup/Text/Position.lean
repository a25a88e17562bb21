/-!
# Places in a text

What it means to stand somewhere in a text, without offsets:

* `newlines`: how many line feeds a text holds, so its last line is `newlines text + 1`;
* `readPart source unread`: the part of `source` in front of what is still unread;
* `Position`: a row and a column, both counted from 1, and `Position.before` for the place where
  the unread part of a source begins.

A reader keeps only the text it has not read yet. Everything else is computed from that when it is
wanted.
-/

namespace TalMarkup

/-! ## 1. Line feeds -/

/-- The number of line feeds in a text. -/
def newlines (text : List Char) : Nat := text.count '\n'

@[simp] theorem newlines_nil : newlines [] = 0 := rfl

@[simp] theorem newlines_append (a b : List Char) : newlines (a ++ b) = newlines a + newlines b :=
  List.count_append

/-! ## 2. The part already read -/

/-- The part of `source` in front of `unread`, for an `unread` that ends `source`. -/
def readPart (source unread : List Char) : List Char :=
  source.take (source.length - unread.length)

@[simp] theorem readPart_append (a b : List Char) : readPart (a ++ b) b = a := by
  simp [readPart]

/-- **Nothing is lost between the part read and the part unread.** -/
theorem readPart_append_of_suffix {source unread : List Char} (h : unread <:+ source) :
    readPart source unread ++ unread = source := by
  obtain ⟨a, rfl⟩ := h
  simp

/-! ## 3. Rows and columns -/

/-- A place in a text. Rows and columns are counted from 1, columns in characters. -/
structure Position where
  row : Nat
  column : Nat
deriving DecidableEq

namespace Position

/-- Where every text starts. -/
def start : Position := ⟨1, 1⟩

/-- The place after one more character: a line feed starts the next row. -/
def next (p : Position) (c : Char) : Position :=
  if c = '\n' then ⟨p.row + 1, 1⟩ else ⟨p.row, p.column + 1⟩

/-- The place right after a text that was read from the start. -/
def after (text : List Char) : Position := text.foldl next start

/-- The place in `source` where its unread part begins. -/
def before (source unread : List Char) : Position := after (readPart source unread)

/-- A place as messages show it. -/
def shown (p : Position) : String := s!"{p.row}:{p.column}"

theorem foldl_next_row (text : List Char) (p : Position) :
    (text.foldl next p).row = p.row + newlines text := by
  induction text generalizing p with
  | nil => rfl
  | cons c cs ih =>
    rw [List.foldl_cons, ih]
    by_cases h : c = '\n'
    · simp only [next, newlines, h, ↓reduceIte, List.count_cons_self]; omega
    · simp [next, newlines, h]

/-- **A place's row is one more than the line feeds in front of it.** -/
theorem after_row (text : List Char) : (after text).row = newlines text + 1 := by
  rw [after, foldl_next_row, Nat.add_comm]; rfl

end Position

end TalMarkup
