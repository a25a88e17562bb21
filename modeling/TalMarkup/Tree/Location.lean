import TalMarkup.Namespace.Scope

/-!
# Where nodes come from

A `Location` is a file and a line of it, counted from 1. A `Place` is where a reader of templates
stands: a file, a line and the alias scope there. Nodes made at a place record its location, which
is there unless the line is 0.
-/

namespace TalMarkup

/-- A file and the line of it where some markup starts. -/
structure Location where
  file : String
  line : Nat
  line_pos : 0 < line
deriving DecidableEq

/-- Why there is no location. -/
inductive LocationError
  | lineZero
deriving DecidableEq

/-- The wording of the error. -/
def LocationError.message : LocationError → String
  | .lineZero => "source lines are 1-based"

namespace Location

/-- The location at a line of a file. -/
def ofLine (file : String) (line : Nat) : Except LocationError Location :=
  if h : 0 < line then .ok ⟨file, line, h⟩ else .error .lineZero

/-- The line after `newlines` line feeds. -/
def after (file : String) (newlines : Nat) : Location := ⟨file, newlines + 1, Nat.succ_pos _⟩

/-- A location as messages show it. -/
def shown (location : Location) : String := s!"{location.file}:{location.line}"

end Location

/-- Where a reader of templates stands. -/
structure Place where
  file : String
  line : Nat
  scope : Scope := .empty

/-- The location of a place. -/
def Place.location (place : Place) : Except LocationError Location :=
  Location.ofLine place.file place.line

end TalMarkup
