import TalMarkup.Text.Character
import TalMarkup.Scan.Keeps

/-!
# Qualified names

The names of tags and attributes: a local part, and in front of it, if the name has a colon, a
qualifier. A name has at most one colon. Its qualifier may be empty, its local part may not.

* `text` is the spelling, and `ofText?` reads it back: `text_of_ofText?`;
* `recorded` is the name as a tree keeps it, without the colon of an empty qualifier.
-/

namespace TalMarkup

/-- A name as it is spelled in a tag. -/
structure QName where
  /-- What stands in front of the colon, if there is one. -/
  qualifier? : Option (List Char)
  localPart : List Char
deriving DecidableEq

namespace QName

/-- The spelling of the name. -/
def text (name : QName) : List Char :=
  match name.qualifier? with
  | none => name.localPart
  | some qualifier => qualifier ++ ':' :: name.localPart

/-- The name as a tree keeps it: the spelling, less the colon of an empty qualifier. -/
def recorded (name : QName) : String :=
  match name.qualifier? with
  | some [] => String.ofList name.localPart
  | _ => String.ofList name.text

/-- The name spelled so. Both parts start as names do, the qualifier unless it is empty; the local
    part has no colon. -/
def ofText? (spelling : List Char) : Option QName :=
  match splitColon? spelling with
  | none => if nextIs isNameStart spelling then some ⟨none, spelling⟩ else none
  | some (qualifier, localPart) =>
    if (qualifier.isEmpty || nextIs isNameStart qualifier) && nextIs isNameStart localPart
        && !localPart.contains ':' then
      some ⟨some qualifier, localPart⟩
    else none

/-- **A name that is read has the spelling it is read from.** -/
theorem text_of_ofText? {spelling : List Char} {name : QName} (h : ofText? spelling = some name) :
    name.text = spelling := by
  unfold ofText? at h
  split at h
  · split at h
    · cases h; rfl
    · cases h
  · rename_i hsplit
    split at h
    · cases h; exact (splitColon?_eq_some_iff.1 hsplit).1.symm
    · cases h

end QName

/-- Reads a qualified name: all name characters there are. -/
def Scan.qname : Scan QName := do
  let spelling ← span isNameChar
  match QName.ofText? spelling with
  | some name => return name
  | none => throw .badName

theorem Scan.keeps_qname : Keeps qname := by
  refine keeps_bind (keeps_span _) fun spelling => ?_
  split
  · exact keeps_pure _
  · exact keeps_throw _

/-- **The name that is read is spelled by what it is read from.** -/
theorem Scan.text_of_qname {cs rest : List Char} {name : QName} (h : qname cs = .ok (name, rest)) :
    name.text ++ rest = cs := by
  obtain ⟨spelling, mid, h₁, h₂⟩ := bind_eq_ok.1 h
  rcases hname : QName.ofText? spelling with _ | name'
  · simp only [hname] at h₂
    cases h₂
  · simp only [hname] at h₂
    cases h₂
    rw [QName.text_of_ofText? hname]
    exact reads_span _ h₁

end TalMarkup
