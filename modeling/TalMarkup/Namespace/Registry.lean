import TalMarkup.Bindings

/-!
# The namespaces of templates

A `Registry` gives the canonical qualifier of a template namespace by its URI. Attribute queries are
written with canonical qualifiers, whatever alias a template binds to the URI.
-/

namespace TalMarkup

/-- The template namespaces that are known: canonical qualifiers by URI. -/
structure Registry where
  namespaces : Bindings

namespace Registry

/-- No namespace is known. -/
def empty : Registry := ⟨.empty⟩

/-- Makes one more namespace known; what was known for its URI is replaced. -/
def insert (registry : Registry) (uri canonical : String) : Registry :=
  ⟨registry.namespaces.insert uri canonical⟩

/-- The canonical qualifier of a namespace. -/
def canonical? (registry : Registry) (uri : String) : Option String :=
  registry.namespaces.get? uri

/-- The number of namespaces known. -/
def size (registry : Registry) : Nat := registry.namespaces.size

/-- No namespace is known. -/
def isEmpty (registry : Registry) : Bool := registry.namespaces.isEmpty

/-- Two registries are the same if they know the same, in whatever order they came to know it. -/
instance : BEq Registry := ⟨fun a b => a.namespaces.sameContent b.namespaces⟩

/-- The namespace of TAL statements. -/
def tal : String := "http://xml.zope.org/namespaces/tal"

/-- The namespace of METAL macros. -/
def metal : String := "http://xml.zope.org/namespaces/metal"

/-- The namespace of internationalisation attributes. -/
def i18n : String := "http://xml.zope.org/namespaces/i18n"

/-- The namespace of PHPTAL extension attributes. -/
def phptal : String := "http://phptal.motion-twin.com/phptal"

/-- The registry that knows the four usual namespaces. -/
def standard : Registry :=
  (((empty.insert tal "tal").insert metal "metal").insert i18n "i18n").insert phptal "phptal"

end Registry

end TalMarkup
