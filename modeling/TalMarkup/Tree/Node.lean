import TalMarkup.Text.Character
import TalMarkup.Tree.Location

/-!
# Nodes and templates

A template is a list of nodes. A node is an element, which has a tag and children, or a leaf: text, a
comment, a doctype or an XML declaration, kept as it is written. Every node records its location, and
an element the alias scope at its tag.

Nodes are the same (`==`) if they agree in locations, names, attributes with their order, children,
and the content of their scopes.
-/

namespace TalMarkup

/-- The attributes of an element by their raw names, in source order. -/
abbrev Attributes := Bindings

/-- What an element keeps of its start tag. -/
structure Tag where
  name : String
  attributes : Attributes
  location : Location
  /-- The aliases in scope, those declared by the tag itself included. -/
  scope : Scope

instance : BEq Tag :=
  ⟨fun a b => a.name == b.name && a.attributes == b.attributes && a.location == b.location
    && a.scope == b.scope⟩

/-- The kinds of leaves. -/
inductive LeafKind
  | text
  /-- A comment, a processing instruction or a CDATA section. -/
  | comment
  | doctype
  | declaration
deriving DecidableEq

/-- A node of a template. -/
inductive Node
  | element (tag : Tag) (children : List Node)
  | leaf (kind : LeafKind) (location : Location) (value : String)

/-- A template: a location and its top-level nodes. -/
structure Template where
  location : Location
  children : List Node

/-! ## 1. Parts of a node -/

/-- The name of a leaf's kind. -/
def LeafKind.name : LeafKind → String
  | .text => "text"
  | .comment => "comment"
  | .doctype => "doctype"
  | .declaration => "xml declaration"

namespace Node

/-- The name of a node's kind. -/
def kindName : Node → String
  | .element _ _ => "element"
  | .leaf kind _ _ => kind.name

/-- Where the node starts. -/
def location : Node → Location
  | .element tag _ => tag.location
  | .leaf _ location _ => location

/-- The children; a leaf has none. -/
def children : Node → List Node
  | .element _ children => children
  | .leaf _ _ _ => []

/-- The node is an element. -/
def isElement : Node → Bool
  | .element _ _ => true
  | .leaf _ _ _ => false

/-- The tag, if the node is an element. -/
def tag? : Node → Option Tag
  | .element tag _ => some tag
  | .leaf _ _ _ => none

/-- The value, if the node is text. -/
def text? : Node → Option String
  | .leaf .text _ value => some value
  | _ => none

/-- The node is text with nothing but White_Space in it. -/
def isBlankText (node : Node) : Bool := node.text?.any TalMarkup.isBlankText

end Node

/-- Between the tags of an element with these children there is something to print. A single empty
    text is nothing. -/
def hasContent : List Node → Bool
  | [] => false
  | [.leaf .text _ value] => value != ""
  | _ => true

/-! ## 2. Sameness -/

mutual

/-- The two nodes agree in everything but the identity of scopes. -/
def Node.same : Node → Node → Bool
  | .element tag children, .element tag' children' => tag == tag' && Node.sameAll children children'
  | .leaf kind location value, .leaf kind' location' value' =>
    kind == kind' && location == location' && value == value'
  | _, _ => false

/-- As many nodes in both lists, each the same as the other. -/
def Node.sameAll : List Node → List Node → Bool
  | [], [] => true
  | node :: nodes, node' :: nodes' => Node.same node node' && Node.sameAll nodes nodes'
  | _, _ => false

end

instance : BEq Node := ⟨Node.same⟩

instance : BEq Template := ⟨fun a b => a.location == b.location && Node.sameAll a.children b.children⟩

/-! ## 3. Building by hand -/

/-- An element without children at a place, which captures the scope there. -/
def Place.element (place : Place) (name : String) (attributes : Attributes) :
    Except LocationError Node :=
  place.location.map fun location => .element ⟨name, attributes, location, place.scope⟩ []

/-- A leaf at a place. -/
def Place.leaf (place : Place) (kind : LeafKind) (value : String) : Except LocationError Node :=
  place.location.map fun location => .leaf kind location value

/-- A template without nodes at a place. -/
def Place.template (place : Place) : Except LocationError Template :=
  place.location.map fun location => ⟨location, []⟩

/-- The template with one more node at the end. -/
def Template.append (template : Template) (node : Node) : Template :=
  { template with children := template.children ++ [node] }

/-- The element with one more child at the end; a leaf takes none. -/
def Node.append? (parent child : Node) : Option Node :=
  match parent with
  | .element tag children => some (.element tag (children ++ [child]))
  | .leaf _ _ _ => none

end TalMarkup
