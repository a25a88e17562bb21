import TalMarkup.Markup.Doctype
import TalMarkup.Markup.Token

/-!
# The prolog of a template

In front of its body a template may have an XML declaration, a doctype, and comments and processing
instructions around that. `Prolog.read` cuts the source into these items and the body:

* where a start tag follows, the body starts with it, and the spaces in front of it belong to
  neither; so does a byte order mark in front of everything;
* where anything else follows that no prolog holds, or the input ends, the body starts right after
  the last item. Without an item the body is the whole source.

An internal subset that the input ends in counts as something that no prolog holds.
-/

namespace TalMarkup

namespace Prolog

/-! ## 1. Items -/

/-- The kinds of prolog items. -/
inductive Kind
  | declaration
  /-- A comment or a processing instruction. -/
  | comment
  | doctype
deriving DecidableEq

/-- An item of a prolog as it is written. -/
structure Item where
  /-- What was skipped in front of it: spaces, in front of the first item also a byte order mark. -/
  gap : List Char
  kind : Kind
  text : List Char
deriving DecidableEq

/-- What stands where a prolog goes on or ends. -/
inductive Next
  /-- An item, with the text after it. -/
  | item (kind : Kind) (text rest : List Char)
  /-- A start tag. -/
  | startTag
  /-- The end of the input, or what no prolog holds here. -/
  | other

end Prolog

/-- A source cut into the items of its prolog and its body. -/
structure Prolog where
  items : List Prolog.Item
  /-- What was skipped in front of the body. -/
  gap : List Char
  body : List Char

namespace Prolog

open Scan in
/-- Reads what stands at the front. A doctype may stand there only if there was none before. -/
def next (doctypeSeen : Bool) (cs : List Char) : Except (Fault (List Char)) Next :=
  if startsWith "<!DOCTYPE" cs && !doctypeSeen then
    match Doctype.read cs with
    | .error fault => .error fault
    | .ok none => .ok .other
    | .ok (some rest) => .ok (.item .doctype (readPart cs rest) rest)
  else if startsWith "<!--" cs then
    match within .comment comment cs with
    | .error fault => .error fault
    | .ok (part, rest) => .ok (.item .comment part rest)
  else if startsWith "<?xml " cs || startsWith "<!" cs then .ok .other
  else if startsWith "<?" cs then
    match within .instruction instruction cs with
    | .error fault => .error fault
    | .ok (part, rest) => .ok (.item .comment part rest)
  else if startsWith "<" cs then
    match within .element tagOpening cs with
    | .error fault => .error fault
    | .ok _ => .ok .startTag
  else .ok .other

/-- **An item is read off the front, whole.** -/
theorem shorter_of_next {doctypeSeen : Bool} {cs text rest : List Char} {kind : Kind}
    (h : next doctypeSeen cs = .ok (.item kind text rest)) :
    text ++ rest = cs ∧ rest.length < cs.length := by
  unfold next at h
  split at h
  · split at h <;> cases h
    rename_i hread
    have h := Doctype.shorter_of_read hread
    exact ⟨readPart_append_of_suffix h.1, h.2⟩
  · split at h
    · split at h <;> cases h
      rename_i hread
      have hread := Scan.within_eq_ok.1 hread
      exact ⟨Scan.reads_comment hread, (Scan.advances_comment hread).2⟩
    · split at h
      · cases h
      · split at h
        · split at h <;> cases h
          rename_i hread
          have hread := Scan.within_eq_ok.1 hread
          exact ⟨Scan.reads_instruction hread, (Scan.advances_instruction hread).2⟩
        · split at h
          · split at h <;> cases h
          · cases h

/-! ## 2. The whole prolog -/

/-- The prolog with one more item in front. -/
def cons (item : Item) (prolog : Prolog) : Prolog :=
  { prolog with items := item :: prolog.items }

/-- Reads the items at the front of `cs`; `skipped` is what was skipped right in front of it. -/
def readItems (doctypeSeen : Bool) (skipped cs : List Char) : Except (Fault (List Char)) Prolog :=
  let gap := skipped ++ cs.takeWhile isSpace
  let unread := cs.dropWhile isSpace
  match _ : next doctypeSeen unread with
  | .error fault => .error fault
  | .ok .startTag => .ok ⟨[], gap, unread⟩
  | .ok .other => .ok ⟨[], [], skipped ++ cs⟩
  | .ok (.item kind text rest) =>
    match readItems (doctypeSeen || kind == .doctype) [] rest with
    | .error fault => .error fault
    | .ok prolog => .ok (prolog.cons ⟨gap, kind, text⟩)
termination_by cs.length
decreasing_by
  exact Nat.lt_of_lt_of_le (shorter_of_next ‹_›).2 (List.dropWhile_suffix _).length_le

/-- The byte order mark that a source may start with. -/
def byteOrderMark : Char := '\ufeff'

/-- Reads a prolog from its first character on. Only there may a declaration stand. -/
def readFrom (skipped cs : List Char) : Except (Fault (List Char)) Prolog :=
  if startsWith "<?xml " cs then
    match Scan.within .declaration (Scan.text Scan.declaration) cs with
    | .error fault => .error fault
    | .ok (text, rest) =>
      match readItems false [] rest with
      | .error fault => .error fault
      | .ok prolog => .ok (prolog.cons ⟨skipped, .declaration, text⟩)
  else readItems false skipped cs

/-- Cuts a source into the items of its prolog and its body. -/
def read : List Char → Except (Fault (List Char)) Prolog
  | [] => readFrom [] []
  | c :: cs => if c = byteOrderMark then readFrom [c] cs else readFrom [] (c :: cs)

/-- The spelling of an item, with what was skipped in front of it. -/
def Item.spelling (item : Item) : List Char := item.gap ++ item.text

/-- The part of the source in front of the body. -/
def spelling (prolog : Prolog) : List Char := prolog.items.flatMap Item.spelling ++ prolog.gap

theorem spelling_cons (item : Item) (prolog : Prolog) :
    (prolog.cons item).spelling = item.spelling ++ prolog.spelling := by
  simp [spelling, cons]

theorem spelling_of_readItems {doctypeSeen : Bool} {skipped cs : List Char} {prolog : Prolog}
    (h : readItems doctypeSeen skipped cs = .ok prolog) :
    prolog.spelling ++ prolog.body = skipped ++ cs := by
  fun_induction readItems doctypeSeen skipped cs generalizing prolog with
  | case1 => cases h
  | case2 doctypeSeen skipped cs gap unread =>
    cases h
    simp [spelling, gap, unread, List.takeWhile_append_dropWhile]
  | case3 => cases h; simp [spelling]
  | case4 => cases h
  | case5 =>
    rename_i skipped cs gap unread kind text rest hnext prolog' hread ih
    cases h
    have hrest : prolog'.spelling ++ prolog'.body = rest := ih hread
    have hunread : text ++ rest = cs.dropWhile isSpace := (shorter_of_next hnext).1
    show (prolog'.cons _).spelling ++ prolog'.body = _
    rw [spelling_cons, List.append_assoc, hrest]
    simp only [Item.spelling, gap, List.append_assoc, hunread, List.takeWhile_append_dropWhile]

theorem spelling_of_readFrom {skipped cs : List Char} {prolog : Prolog}
    (h : readFrom skipped cs = .ok prolog) : prolog.spelling ++ prolog.body = skipped ++ cs := by
  unfold readFrom at h
  split at h
  · split at h
    · cases h
    · rename_i text rest htext
      split at h
      · cases h
      · rename_i prolog' hread
        cases h
        have hrest : prolog'.spelling ++ prolog'.body = rest := spelling_of_readItems hread
        have hunread : text ++ rest = cs :=
          Scan.append_of_text Scan.advances_declaration.keeps (Scan.within_eq_ok.1 htext)
        show (prolog'.cons _).spelling ++ prolog'.body = _
        rw [spelling_cons, List.append_assoc, hrest, Item.spelling, List.append_assoc, hunread]
  · exact spelling_of_readItems h

/-- **The items of a prolog and the body make up the source.** -/
theorem spelling_of_read {source : List Char} {prolog : Prolog} (h : read source = .ok prolog) :
    prolog.spelling ++ prolog.body = source := by
  unfold read at h
  split at h
  · exact spelling_of_readFrom h
  · split at h <;> exact spelling_of_readFrom h

end Prolog

end TalMarkup
