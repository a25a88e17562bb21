import TalMarkup.Text.Character
import TalMarkup.Namespace.Registry

/-!
# Alias scopes

A `Scope` says which aliases stand for which canonical qualifiers at one point of a template. It is
a chain of levels, the innermost first; an alias has the meaning that the innermost level gives it.

Extending a scope gives a new scope and leaves the old one as it is. Every level carries a stamp
that no other level has, taken from a supply of numbers in which all from `next` on are free. So two
things can be told apart:

* scopes with the same content (`==`): as many levels, with the same aliases level by level;
* scopes that are shared (`shares`): both go back to one and the same extension.
-/

namespace TalMarkup

/-- One extension of a scope. -/
structure Scope.Level where
  /-- What tells this level from all others. -/
  stamp : Nat
  /-- Canonical qualifiers by alias. -/
  aliases : Bindings

/-- The aliases at one point of a template. -/
structure Scope where
  /-- The extensions, the innermost first. -/
  levels : List Scope.Level

namespace Scope

/-! ## 1. Looking up -/

/-- No alias is bound. -/
def empty : Scope := ⟨[]⟩

/-- No alias is bound. -/
def isEmpty (scope : Scope) : Bool := scope.levels.isEmpty

/-- The canonical qualifier that an alias stands for: what the innermost level that binds it says. -/
def canonical? (scope : Scope) (aliasName : String) : Option String :=
  scope.levels.findSome? (·.aliases.get? aliasName)

/-- A name with the alias in front of its first colon replaced by the canonical qualifier. A name
    without a colon, or in front of whose colon no alias stands, stays as it is. -/
def unalias (scope : Scope) (name : String) : String :=
  match splitColon? name.toList with
  | none => name
  | some (qualifier, localPart) =>
    match scope.canonical? (String.ofList qualifier) with
    | none => name
    | some canonical => canonical ++ ":" ++ String.ofList localPart

/-! ## 2. Extending -/

/-- The scope with one more level. Gives the first stamp that is still free then. -/
def extend (scope : Scope) (aliases : Bindings) (next : Nat) : Scope × Nat :=
  (⟨⟨next, aliases⟩ :: scope.levels⟩, next + 1)

/-- The scope in which `aliasName` stands for `canonical` as well. -/
def bindAlias (scope : Scope) (aliasName canonical : String) (next : Nat) : Scope × Nat :=
  scope.extend (.ofList [(aliasName, canonical)]) next

/-- The alias that an attribute of this name declares: what follows `xmlns:`. -/
def declaredAlias? (name : String) : Option String :=
  let mark := "xmlns:".toList
  if mark.isPrefixOf name.toList then some (String.ofList (name.toList.drop mark.length)) else none

/-- The alias an attribute declares with the canonical qualifier it stands for, if the attribute
    declares one and its value is a known namespace. -/
def declaration? (registry : Registry) (name value : String) : Option (String × String) := do
  let aliasName ← declaredAlias? name
  let canonical ← registry.canonical? value
  return (aliasName, canonical)

/-- The aliases that attributes declare; of two declarations of an alias the later counts. -/
def declared (registry : Registry) (attributes : List (String × String)) : Bindings :=
  .ofList (attributes.filterMap fun (name, value) => declaration? registry name value)

/-- The scope of an element with these attributes. Without declarations it is the scope itself. -/
def declare (scope : Scope) (registry : Registry) (attributes : List (String × String))
    (next : Nat) : Scope × Nat :=
  let aliases := declared registry attributes
  if aliases.isEmpty then (scope, next) else scope.extend aliases next

/-! ## 3. Content and identity -/

/-- Two scopes are the same if they have as many levels and the same aliases level by level. -/
instance : BEq Scope :=
  ⟨fun a b => a.levels.length == b.levels.length &&
    (a.levels.zip b.levels).all fun (x, y) => x.aliases.sameContent y.aliases⟩

/-- Both scopes go back to the same extension; two empty scopes always do. -/
def shares (a b : Scope) : Bool :=
  a.levels.head?.map Level.stamp == b.levels.head?.map Level.stamp

end Scope

end TalMarkup
