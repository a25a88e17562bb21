import TalMarkup.Tree.Node

/-!
# Attribute queries

A query asks an element for an attribute by its canonical name, such as `tal:content`. A raw
attribute name answers the query if the element's scope makes it that name. In an element named
`P:block` a raw name also counts with `P:` in front of it, so that `<tal:block content="x">` answers
`tal:content`. The first attribute in source order that answers is the one found.
-/

namespace TalMarkup

/-- The end of the name of a block element. -/
def blockEnding : String := ":block"

namespace Tag

/-- The qualifier of a block element: what stands in front of `:block`, if that is not empty. -/
def blockQualifier? (tag : Tag) : Option String :=
  let name := tag.name.toList
  let ending := blockEnding.toList
  if ending.isSuffixOf name && ending.length < name.length then
    some (String.ofList (name.take (name.length - ending.length)))
  else none

/-- An attribute of this raw name answers the query. -/
def answers (tag : Tag) (query rawName : String) : Bool :=
  tag.scope.unalias rawName == query ||
    tag.blockQualifier?.any fun qualifier => tag.scope.unalias (qualifier ++ ":" ++ rawName) == query

/-- The value of the first attribute that answers the query. -/
def get? (tag : Tag) (query : String) : Option String :=
  (tag.attributes.entries.find? fun entry => tag.answers query entry.1).map Prod.snd

/-- Some attribute answers the query. -/
def has (tag : Tag) (query : String) : Bool := (tag.get? query).isSome

/-- Sets an attribute by its raw name, and gives the value it had. The scope stays, also where the
    attribute reads like a declaration. -/
def setAttribute (tag : Tag) (rawName value : String) : Option String × Tag :=
  let (old, attributes) := tag.attributes.exchange rawName value
  (old, { tag with attributes })

end Tag

/-- Sets an attribute of an element, and gives the value it had; a leaf has no attributes. -/
def Node.setAttribute? (node : Node) (rawName value : String) : Option (Option String × Node) :=
  match node with
  | .element tag children =>
    let (old, tag) := tag.setAttribute rawName value
    some (old, .element tag children)
  | .leaf _ _ _ => none

end TalMarkup
