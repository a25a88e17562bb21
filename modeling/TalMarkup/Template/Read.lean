import TalMarkup.Template.Assembly

/-!
# Reading templates

`Template.parse` reads a template from its source, `Template.parseFile` from a file. Reading is
strict: it stops at the first thing in the source that is wrong, be it a fault of the markup or a
closing tag. Only at the end of the source it is said that an element was left open, or that there is
nothing but blank text.

`read` and `readFile` do the same in a world where other templates were read before: they take the
first stamp that is still free, so that no level of a scope is taken for one of another template.
-/

namespace TalMarkup

namespace Template

/-! ## 1. From a source -/

/-- Reads a template. The levels of its scopes take their stamps from `nextStamp` on; gives the
    first stamp that is still free then. -/
def read (options : Options) (nextStamp : Nat) (source : String) : Except Error (Template × Nat) :=
  let text := source.toList
  match Prolog.read text with
  | .error fault => .error (.ofFault text fault)
  | .ok prolog =>
    let body := Body.read prolog.body
    match (Assembly.start nextStamp).prolog options prolog |>.tokens options body.tokens with
    | .error error => .error error
    | .ok assembly =>
      match body.fault? with
      | some fault => .error (.ofFault text fault)
      | none => (assembly.finish options).map fun template => (template, assembly.nextStamp)

/-- Reads a template. -/
def parse (options : Options) (source : String) : Except Error Template :=
  (read options 0 source).map Prod.fst

end Template

/-! ## 2. From a file -/

/-- What a path leads to. -/
inductive FileState
  | missing
  | directory
  | bytes (content : ByteArray)

/-- The text of the file at a path. The empty path leads nowhere. -/
def FileState.text (file : FileState) (path : String) : Except ReadError String :=
  if path = "" then .error .notFound
  else
    match file with
    | .missing => .error .notFound
    | .directory => .error .isDirectory
    | .bytes content =>
      match String.fromUTF8? content with
      | none => .error .notUtf8
      | some text => .ok text

/-- Reads a template from the file at a path. Nodes record the path as their file, and so do
    errors. -/
def Template.readFile (options : Options) (nextStamp : Nat) (path : String) (file : FileState) :
    Except Error (Template × Nat) :=
  match file.text path with
  | .error reason => .error { kind := .unreadable reason, path? := some path }
  | .ok source =>
    match read { options with sourceFile := path } nextStamp source with
    | .error error => .error (error.inFile path)
    | .ok result => .ok result

/-- Reads a template from the file at a path. -/
def Template.parseFile (options : Options) (path : String) (file : FileState) :
    Except Error Template :=
  (readFile options 0 path file).map Prod.fst

end TalMarkup
