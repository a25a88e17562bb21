import TalMarkup.Scan.Fault
import TalMarkup.Text.LineIndex

/-!
# Errors of templates

Why a template is refused, with the wording of each cause. An error may know the line it was raised
at and the path of the file it was raised in. `Error.message` puts this context in front, and writes
each line of the wording on a line of its own.
-/

namespace TalMarkup

/-! ## 1. Causes -/

/-- Why a file cannot be read as text. -/
inductive ReadError
  | notFound
  | isDirectory
  | notUtf8
  /-- A reason that has no name here, in its own words. -/
  | other (text : String)
deriving DecidableEq

/-- Why a template is refused. -/
inductive ErrorKind
  /-- A cause that has no name here, in its own words. -/
  | other (text : String)
  /-- A closing tag where no element is open. -/
  | unexpectedClosing (name : String)
  /-- The input ends in an element or in its start tag. -/
  | unclosedTag (name : String)
  /-- A closing tag that does not belong to the innermost open element. -/
  | mismatchedTag (expected found : String)
  /-- There is nothing but blank text. -/
  | emptyTemplate
  | malformed (fault : Fault Position)
  | unreadable (reason : ReadError)
deriving DecidableEq

/-- An error with what is known about where it arose. -/
structure Error where
  kind : ErrorKind
  /-- The file that was read. -/
  path? : Option String := none
  /-- The line, counted from 1. -/
  line? : Option Nat := none
deriving DecidableEq

/-! ## 2. Wording -/

/-- The reason in words. -/
def ReadError.message : ReadError → String
  | .notFound => "No such file or directory (os error 2)"
  | .isDirectory => "Is a directory (os error 21)"
  | .notUtf8 => "stream did not contain valid UTF-8"
  | .other text => text

/-- The cause in words. -/
def ErrorKind.message : ErrorKind → String
  | .other text => text
  | .unexpectedClosing name => "Unexpected closing tag </" ++ name ++ ">"
  | .unclosedTag name => "Unclosed tag: " ++ name
  | .mismatchedTag expected found =>
    "Mismatched closing tag: expected </" ++ expected ++ ">, found </" ++ found ++ ">"
  | .emptyTemplate => "Empty template"
  | .malformed fault => "XML parser error: " ++ fault.message
  | .unreadable reason => "IO error: " ++ reason.message

/-- The underlying cause in words, for an error that passes another one on. -/
def ErrorKind.source? : ErrorKind → Option String
  | .malformed fault => some fault.message
  | .unreadable reason => some reason.message
  | _ => none

/-- One line of a message. -/
def messageLine (text : String) : String := "= " ++ text ++ "\n"

namespace Error

/-- The line of a message that says where the error arose, if that is known. -/
def context (error : Error) : String :=
  match error.path?, error.line? with
  | some path, some line => messageLine ("At " ++ path ++ ":" ++ toString line)
  | none, some line => messageLine ("At line " ++ toString line)
  | some path, none => messageLine ("In " ++ path)
  | none, none => ""

/-- The error in words: its context, and then the lines of its cause. -/
def message (error : Error) : String :=
  error.context ++ String.join ((lines error.kind.message).map messageLine)

/-- The error with the path of the file it arose in. -/
def inFile (error : Error) (path : String) : Error := { error with path? := some path }

/-- The error of a fault in a source. -/
def ofFault (source : List Char) (fault : Fault (List Char)) : Error :=
  let fault := fault.map (Position.before source)
  { kind := .malformed fault, line? := some fault.place.row }

end Error

end TalMarkup
