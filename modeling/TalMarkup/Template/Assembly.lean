import TalMarkup.Markup.Prolog
import TalMarkup.Namespace.Registry
import TalMarkup.Template.Error
import TalMarkup.Tree.Node

/-!
# Assembling a template

An `Assembly` is what is known of a template after some of its source was read: how many line feeds
were passed, which elements are open, and the nodes in front of the present place. Every prolog item
and every token takes it one step further; `finish` gives the template.

An element starts from the scope of the element around it, and records the line its tag starts on:
one more than the line feeds in front of the tag.

`Options` name the file that nodes record and the namespaces that are known. They decide what nodes
record of their origin and their aliases, never whether a template is well formed.
-/

namespace TalMarkup

/-! ## 1. Options -/

/-- How templates are read. -/
structure Options where
  /-- The file name that nodes record. -/
  sourceFile : String := "<string>"
  /-- The namespaces whose declarations create aliases. -/
  registry : Registry := .standard

/-- The options with one more namespace known. -/
def Options.insertNamespace (options : Options) (uri canonical : String) : Options :=
  { options with registry := options.registry.insert uri canonical }

/-- Two options are the same if they name the same file and know the same namespaces. -/
instance : BEq Options := ⟨fun a b => a.sourceFile == b.sourceFile && a.registry == b.registry⟩

/-! ## 2. Assemblies -/

/-- An element whose closing tag was not read yet. -/
structure OpenTag where
  tag : Tag
  /-- The nodes in front of the element, among its siblings, the last one first. -/
  before : List Node

/-- What is known of a template after a part of its source. -/
structure Assembly where
  /-- The line feeds passed. -/
  newlines : Nat
  /-- The first stamp that is still free. -/
  nextStamp : Nat
  /-- The open elements, the innermost first. -/
  openTags : List OpenTag
  /-- The nodes read in the innermost open element, or at the top, the last one first. -/
  level : List Node

namespace Assembly

/-! ## 3. Single steps -/

/-- Nothing was read. -/
def start (nextStamp : Nat) : Assembly := ⟨0, nextStamp, [], []⟩

/-- The present line. -/
def line (assembly : Assembly) : Nat := assembly.newlines + 1

/-- The scope that the next element starts from. -/
def scope (assembly : Assembly) : Scope :=
  match assembly.openTags with
  | [] => .empty
  | innermost :: _ => innermost.tag.scope

/-- Goes past a part of the source. -/
def pass (assembly : Assembly) (text : List Char) : Assembly :=
  { assembly with newlines := assembly.newlines + TalMarkup.newlines text }

/-- Adds a node. -/
def attach (assembly : Assembly) (node : Node) : Assembly :=
  { assembly with level := node :: assembly.level }

/-- Adds a leaf that stands on the present line. -/
def leaf (assembly : Assembly) (options : Options) (kind : LeafKind) (value : List Char) : Assembly :=
  assembly.attach (.leaf kind (.after options.sourceFile assembly.newlines) (String.ofList value))

/-- Takes in a start tag: opens its element, or adds it if it closes itself. -/
def startTag (assembly : Assembly) (options : Options) (tag : StartTag) : Except Error Assembly :=
  let name := tag.name.recorded
  let attributes := Bindings.ofList (tag.inside.attributes.map WrittenAttribute.pair)
  let (scope, nextStamp) :=
    assembly.scope.declare options.registry attributes.entries assembly.nextStamp
  let kept : Tag := ⟨name, attributes, .after options.sourceFile assembly.newlines, scope⟩
  match tag.inside.ending with
  | .opening =>
    .ok { assembly with
      nextStamp, openTags := ⟨kept, assembly.level⟩ :: assembly.openTags, level := [] }
  | .selfClosing => .ok ({ assembly with nextStamp }.attach (.element kept []))
  | .cut => .error { kind := .unclosedTag name, line? := some assembly.line }

/-- Takes in a closing tag: it must belong to the innermost open element. -/
def endTag (assembly : Assembly) (tag : EndTag) : Except Error Assembly :=
  let found := tag.name.recorded
  match assembly.openTags with
  | [] => .error { kind := .unexpectedClosing found, line? := some assembly.line }
  | innermost :: outer =>
    if innermost.tag.name = found then
      .ok { assembly with
        openTags := outer,
        level := .element innermost.tag assembly.level.reverse :: innermost.before }
    else
      .error {
        kind := .mismatchedTag innermost.tag.name found, line? := some assembly.line }

/-! ## 4. Items and tokens -/

/-- The kind of leaf that a prolog item becomes. -/
def leafKind : Prolog.Kind → LeafKind
  | .declaration => .declaration
  | .comment => .comment
  | .doctype => .doctype

/-- Takes in an item of the prolog. -/
def item (options : Options) (assembly : Assembly) (item : Prolog.Item) : Assembly :=
  ((assembly.pass item.gap).leaf options (leafKind item.kind) item.text).pass item.text

/-- Takes in a whole prolog, up to where the body starts. -/
def prolog (assembly : Assembly) (options : Options) (prolog : Prolog) : Assembly :=
  (prolog.items.foldl (item options) assembly).pass prolog.gap

/-- Takes in what a token stands for, without going past it. -/
def enter (assembly : Assembly) (options : Options) : Token → Except Error Assembly
  | .charData value => .ok (assembly.leaf options .text value)
  | .verbatim value => .ok (assembly.leaf options .comment value)
  | .startTag tag => assembly.startTag options tag
  | .endTag tag => assembly.endTag tag

/-- Takes in a token. -/
def token (options : Options) (assembly : Assembly) (token : Token) : Except Error Assembly :=
  (assembly.enter options token).map (pass · token.text)

/-- Takes in tokens up to the first one that is refused. -/
def tokens (options : Options) : Assembly → List Token → Except Error Assembly
  | assembly, [] => .ok assembly
  | assembly, first :: rest =>
    match token options assembly first with
    | .error error => .error error
    | .ok assembly => tokens options assembly rest

/-! ## 5. The end of the source -/

/-- The template, if no element is open and there is anything but blank text. -/
def finish (assembly : Assembly) (options : Options) : Except Error Template :=
  match assembly.openTags with
  | innermost :: _ =>
    .error {
      kind := .unclosedTag innermost.tag.name, line? := some innermost.tag.location.line }
  | [] =>
    let children := assembly.level.reverse
    if children.all Node.isBlankText then .error { kind := .emptyTemplate }
    else .ok ⟨.after options.sourceFile 0, children⟩

end Assembly

end TalMarkup
