import Mathlib.Data.List.Find
import TalMarkup.Proofs.Qualifiers

/-!
# Another alias for a namespace

An author may call a namespace by any alias. Here one template uses the alias `old` where another uses
`new`: names with the qualifier `old` have the qualifier `new` there, and the attribute `xmlns:old` is
`xmlns:new` (`Node.renames`).

* The scopes of both say the same of an alias as it is called in each (`Scope.Renames`). Every tag keeps
  this up, whatever it declares (`Scope.Renames.declare`).
* Between such scopes a raw name and the renamed one answer the same queries (`Tag.answers_renamed`), as
  long as the query itself speaks of neither alias (`Neutral`).

**`Template.query_of_renamed`**: so no query can tell the two templates apart.
-/

namespace TalMarkup

/-! ## 1. Renaming an alias -/

/-- The qualifier of a name, if it has a colon. -/
def qualifier? (name : String) : Option String :=
  (splitColon? name.toList).map fun cut => String.ofList cut.1

/-- What a qualifier is called after the alias `old` is called `new`. -/
def renameQualifier (old new qualifier : String) : String := if qualifier = old then new else qualifier

/-- A name after its qualifier is renamed, if it has one. -/
def renameName (old new name : String) : String :=
  match splitColon? name.toList with
  | none => name
  | some (qualifier, localPart) =>
    qualified (renameQualifier old new (String.ofList qualifier)) (String.ofList localPart)

/-- The name of an attribute after the alias is renamed, which the attribute may declare or use. -/
def renameAttribute (old new name : String) : String :=
  if name = aliasAttribute old then aliasAttribute new else renameName old new name

/-- The second tag is the first with the alias renamed. -/
def Tag.renames (old new : String) (tag tag' : Tag) : Bool :=
  tag'.name == renameName old new tag.name &&
    tag'.attributes.entries ==
      tag.attributes.entries.map fun entry => (renameAttribute old new entry.1, entry.2)

mutual

/-- The second node is the first with the alias renamed in it. -/
def Node.renames (old new : String) : Node → Node → Bool
  | .element tag children, .element tag' children' =>
    tag.renames old new tag' && Node.renamesAll old new children children'
  | .leaf kind _ value, .leaf kind' _ value' => kind == kind' && value == value'
  | _, _ => false

/-- As many nodes in both lists, each the other with the alias renamed in it. -/
def Node.renamesAll (old new : String) : List Node → List Node → Bool
  | [], [] => true
  | node :: nodes, node' :: nodes' =>
    Node.renames old new node node' && Node.renamesAll old new nodes nodes'
  | _, _ => false

end

/-- The tag neither uses nor declares the alias. -/
def Tag.Avoids (aliasName : String) (tag : Tag) : Prop :=
  qualifier? tag.name ≠ some aliasName ∧
    ∀ entry ∈ tag.attributes.entries,
      qualifier? entry.1 ≠ some aliasName ∧ entry.1 ≠ aliasAttribute aliasName

instance (aliasName : String) (tag : Tag) : Decidable (tag.Avoids aliasName) :=
  inferInstanceAs (Decidable (_ ∧ _))

/-- A query that speaks of neither alias: it has no colon, or one that parts other words. -/
def Neutral (old new query : String) : Prop :=
  ColonFree query ∨ ∃ qualifier localPart, query = qualified qualifier localPart ∧
    ColonFree qualifier ∧ ColonFree localPart ∧
    qualifier ≠ old ∧ qualifier ≠ new ∧ localPart ≠ old ∧ localPart ≠ new

/-! ## 2. Renamed names -/

section Names

variable {old new name qualifier localPart : String}

theorem aliasAttribute_eq (aliasName : String) : aliasAttribute aliasName = qualified "xmlns" aliasName := by
  rw [← String.toList_inj, toList_qualified, aliasAttribute, String.toList_append]
  rfl

theorem colonFree_xmlns : ColonFree "xmlns" := by decide

/-- A name has no colon, or it is qualified, and the qualifier has none. -/
theorem colonFree_or_qualified (name : String) :
    ColonFree name ∨ ∃ qualifier localPart, name = qualified qualifier localPart ∧ ColonFree qualifier := by
  by_cases hname : ColonFree name
  · exact Or.inl hname
  · rcases hcut : splitColon? name.toList with _ | ⟨front, back⟩
    · exact absurd (splitColon?_eq_none_iff.1 hcut) hname
    · obtain ⟨hchars, hfront⟩ := splitColon?_eq_some_iff.1 hcut
      refine Or.inr ⟨String.ofList front, String.ofList back, ?_, ?_⟩
      · rw [← String.toList_inj, toList_qualified, hchars]
        simp only [String.toList_ofList]
      · rwa [ColonFree, String.toList_ofList]

theorem qualifier?_qualified (hqualifier : ColonFree qualifier) :
    qualifier? (qualified qualifier localPart) = some qualifier := by
  rw [qualifier?, splitColon?_qualified hqualifier, Option.map_some, String.ofList_toList]

theorem renameQualifier_colonFree (hnew : ColonFree new) (hqualifier : ColonFree qualifier) :
    ColonFree (renameQualifier old new qualifier) := by
  rw [renameQualifier]
  split
  · exact hnew
  · exact hqualifier

theorem renameName_of_colonFree (h : ColonFree name) : renameName old new name = name := by
  rw [renameName, splitColon?_of_colonFree h]

theorem renameName_qualified (hqualifier : ColonFree qualifier) :
    renameName old new (qualified qualifier localPart) =
      qualified (renameQualifier old new qualifier) localPart := by
  rw [renameName, splitColon?_qualified hqualifier]
  simp only [String.ofList_toList]

theorem renameAttribute_alias : renameAttribute old new (aliasAttribute old) = aliasAttribute new :=
  if_pos rfl

theorem renameAttribute_of_ne (h : name ≠ aliasAttribute old) :
    renameAttribute old new name = renameName old new name :=
  if_neg h

theorem renameAttribute_of_colonFree (h : ColonFree name) : renameAttribute old new name = name := by
  have hne : name ≠ aliasAttribute old := by
    rintro rfl
    rw [aliasAttribute_eq] at h
    exact not_colonFree_qualified h
  rw [renameAttribute_of_ne hne, renameName_of_colonFree h]

/-- A name keeps its colons, if it has some. -/
theorem renameAttribute_not_colonFree (h : ¬ ColonFree name) : ¬ ColonFree (renameAttribute old new name) := by
  by_cases hname : name = aliasAttribute old
  · rw [hname, renameAttribute_alias, aliasAttribute_eq]
    exact not_colonFree_qualified
  · obtain ⟨qualifier, localPart, rfl, hqualifier⟩ := (colonFree_or_qualified name).resolve_left h
    rw [renameAttribute_of_ne hname, renameName_qualified hqualifier]
    exact not_colonFree_qualified

theorem aliasAttribute_inj {aliasName other : String} (halias : ColonFree aliasName) :
    aliasAttribute other = aliasAttribute aliasName ↔ other = aliasName := by
  rw [aliasAttribute_eq, aliasAttribute_eq, qualified_inj colonFree_xmlns halias]
  exact and_iff_right rfl

/-- **After the renaming the attribute of an alias is that of the renamed alias**, and no other is. -/
theorem renameAttribute_eq_iff (hold : old ≠ "xmlns") (hnew : new ≠ "xmlns") (hfree : ColonFree new)
    {aliasName : String} (halias : ColonFree aliasName) (hother : aliasName ≠ new)
    (hname : name ≠ aliasAttribute new) :
    renameAttribute old new name = aliasAttribute (renameQualifier old new aliasName) ↔
      name = aliasAttribute aliasName := by
  have hrenamed : ColonFree (renameQualifier old new aliasName) := renameQualifier_colonFree hfree halias
  by_cases hdeclares : name = aliasAttribute old
  · rw [hdeclares, renameAttribute_alias, aliasAttribute_inj hrenamed, aliasAttribute_inj halias,
      renameQualifier]
    split
    · rename_i heq
      exact ⟨fun _ => heq.symm, fun _ => rfl⟩
    · rename_i hne
      exact ⟨fun h => absurd h.symm hother, fun h => absurd h.symm hne⟩
  · rw [renameAttribute_of_ne hdeclares]
    rcases colonFree_or_qualified name with hplain | ⟨qualifier, localPart, rfl, hqualifier⟩
    · have hne : ∀ other, name ≠ aliasAttribute other := by
        rintro other rfl
        rw [aliasAttribute_eq] at hplain
        exact not_colonFree_qualified hplain
      rw [renameName_of_colonFree hplain]
      exact ⟨fun h => absurd h (hne _), fun h => absurd h (hne _)⟩
    · rw [renameName_qualified hqualifier]
      simp only [aliasAttribute_eq] at hdeclares hname ⊢
      rw [qualified_inj colonFree_xmlns hrenamed, qualified_inj colonFree_xmlns halias]
      simp only [renameQualifier]
      -- `localPart` is neither alias if the name declares one, so that it is not touched
      grind

end Names

/-! ## 3. Neutral queries -/

namespace Neutral

variable {old new query qualifier localPart : String}

theorem ne_old (h : Neutral old new query) (localPart : String) : qualified old localPart ≠ query := by
  rintro rfl
  obtain hplain | ⟨other, part, heq, hother, hpart, hne, -⟩ := h
  · exact not_colonFree_qualified hplain
  · exact hne ((qualified_inj hother hpart).1 heq).1.symm

theorem ne_new (h : Neutral old new query) (localPart : String) : qualified new localPart ≠ query := by
  rintro rfl
  obtain hplain | ⟨other, part, heq, hother, hpart, -, hne, -⟩ := h
  · exact not_colonFree_qualified hplain
  · exact hne ((qualified_inj hother hpart).1 heq).1.symm

/-- A neutral query ends in neither alias. -/
theorem ne_alias (h : Neutral old new query) (qualifier : String) :
    qualified qualifier old ≠ query ∧ qualified qualifier new ≠ query := by
  obtain hplain | ⟨other, part, rfl, hother, hpart, -, -, hold, hnew⟩ := h
  · exact ⟨fun heq => not_colonFree_qualified (heq ▸ hplain),
      fun heq => not_colonFree_qualified (heq ▸ hplain)⟩
  · exact ⟨fun heq => hold ((qualified_inj hother hpart).1 heq).2.symm,
      fun heq => hnew ((qualified_inj hother hpart).1 heq).2.symm⟩

/-- A neutral query has one colon at most. -/
theorem ne_of_not_colonFree (h : Neutral old new query) (hlocal : ¬ ColonFree localPart)
    (qualifier : String) : qualified qualifier localPart ≠ query := by
  rintro rfl
  obtain hplain | ⟨other, part, heq, hother, hpart, -⟩ := h
  · exact not_colonFree_qualified hplain
  · exact hlocal (((qualified_inj hother hpart).1 heq).2 ▸ hpart)

end Neutral

/-! ## 4. Scopes -/

/-- The second scope says of a renamed alias what the first says of the alias. -/
def Scope.Renames (old new : String) (scope scope' : Scope) : Prop :=
  ∀ aliasName, ColonFree aliasName → aliasName ≠ new →
    scope'.canonical? (renameQualifier old new aliasName) = scope.canonical? aliasName

theorem lookup_map_of_iff {entries : List (String × String)} {f : String → String} {key key' : String}
    (h : ∀ entry ∈ entries, f entry.1 = key' ↔ entry.1 = key) :
    (entries.map fun entry => (f entry.1, entry.2)).lookup key' = entries.lookup key := by
  induction entries with
  | nil => rfl
  | cons entry entries ih =>
    obtain ⟨hentry, hrest⟩ := List.forall_mem_cons.1 h
    have hkey : (key' == f entry.1) = (key == entry.1) := by
      rw [Bool.eq_iff_iff, beq_iff_eq, beq_iff_eq, eq_comm, hentry, eq_comm]
    rw [List.map_cons, List.lookup_cons, List.lookup_cons, hkey, ih hrest]

section Scopes

variable {old new : String} {registry : Registry} {scope scope' : Scope} {tag tag' : Tag}

theorem Tag.entries_of_renames (h : tag.renames old new tag' = true) :
    tag'.name = renameName old new tag.name ∧
      tag'.attributes.entries =
        tag.attributes.entries.map fun entry => (renameAttribute old new entry.1, entry.2) := by
  rwa [renames, Bool.and_eq_true, beq_iff_eq, beq_iff_eq] at h

/-- **What a tag says of an alias, the renamed tag says of the renamed alias.** -/
theorem Tag.meaning?_of_renames (hold : old ≠ "xmlns") (hnew : new ≠ "xmlns") (hfree : ColonFree new)
    (h : tag.renames old new tag' = true) (havoid : tag.Avoids new) {aliasName : String}
    (halias : ColonFree aliasName) (hother : aliasName ≠ new) :
    tag'.attributes.meaning? registry (renameQualifier old new aliasName) =
      tag.attributes.meaning? registry aliasName := by
  rw [Bindings.meaning?, Bindings.meaning?, Bindings.get?, Bindings.get?, (entries_of_renames h).2,
    lookup_map_of_iff fun entry hentry =>
      renameAttribute_eq_iff hold hnew hfree halias hother (havoid.2 entry hentry).2]

/-- **Tags keep scopes alike.** -/
theorem Scope.Renames.declare (hold : old ≠ "xmlns") (hnew : new ≠ "xmlns") (hfree : ColonFree new)
    (hscope : Scope.Renames old new scope scope') (h : tag.renames old new tag' = true)
    (havoid : tag.Avoids new) {stamp stamp' next next' : Nat}
    (hdeclare : scope.declare registry tag.attributes.entries stamp = (tag.scope, next))
    (hdeclare' : scope'.declare registry tag'.attributes.entries stamp' = (tag'.scope, next')) :
    Scope.Renames old new tag.scope tag'.scope := by
  intro aliasName halias hother
  rw [Scope.canonical?_declare hdeclare, Scope.canonical?_declare hdeclare',
    Tag.meaning?_of_renames hold hnew hfree h havoid halias hother, hscope aliasName halias hother]

/-! ## 5. Answers -/

variable {query : String}

/-- **A qualified name and the renamed one answer the same neutral queries.** -/
theorem Scope.Renames.unalias_qualified (hscope : Scope.Renames old new scope scope') (hfree : ColonFree new)
    (hquery : Neutral old new query) {qualifier : String} (hqualifier : ColonFree qualifier)
    (hother : qualifier ≠ new) (localPart : String) :
    scope'.unalias (qualified (renameQualifier old new qualifier) localPart) = query ↔
      scope.unalias (qualified qualifier localPart) = query := by
  rw [Scope.unalias_qualified _ hqualifier, Scope.unalias_qualified _ (renameQualifier_colonFree hfree hqualifier),
    hscope qualifier hqualifier hother]
  rcases scope.canonical? qualifier with _ | canonical
  · simp only [Option.getD_none, renameQualifier]
    split
    · rename_i heq
      subst heq
      exact iff_of_false (hquery.ne_new localPart) (hquery.ne_old localPart)
    · exact Iff.rfl
  · exact Iff.rfl

/-- **A raw name and the renamed one answer the same neutral queries.** -/
theorem Scope.Renames.unalias_attribute (hscope : Scope.Renames old new scope scope') (hfree : ColonFree new)
    (hquery : Neutral old new query) {name : String} (hname : qualifier? name ≠ some new) :
    scope'.unalias (renameAttribute old new name) = query ↔ scope.unalias name = query := by
  by_cases hdeclares : name = aliasAttribute old
  · rw [hdeclares, renameAttribute_alias, aliasAttribute_eq, aliasAttribute_eq,
      Scope.unalias_qualified _ colonFree_xmlns, Scope.unalias_qualified _ colonFree_xmlns]
    exact iff_of_false (hquery.ne_alias _).2 (hquery.ne_alias _).1
  · rcases colonFree_or_qualified name with hplain | ⟨qualifier, localPart, rfl, hqualifier⟩
    · rw [renameAttribute_of_colonFree hplain, Scope.unalias_of_colonFree _ hplain,
        Scope.unalias_of_colonFree _ hplain]
    · rw [qualifier?_qualified hqualifier, ne_eq, Option.some.injEq] at hname
      rw [renameAttribute_of_ne hdeclares, renameName_qualified hqualifier]
      exact hscope.unalias_qualified hfree hquery hqualifier hname localPart

/-- The same for a raw name in a block element. -/
theorem Scope.Renames.unalias_block (hscope : Scope.Renames old new scope scope') (hfree : ColonFree new)
    (hquery : Neutral old new query) {qualifier : String} (hqualifier : ColonFree qualifier)
    (hother : qualifier ≠ new) (name : String) :
    scope'.unalias (qualified (renameQualifier old new qualifier) (renameAttribute old new name)) = query ↔
      scope.unalias (qualified qualifier name) = query := by
  by_cases hname : ColonFree name
  · rw [renameAttribute_of_colonFree hname]
    exact hscope.unalias_qualified hfree hquery hqualifier hother name
  · -- with two colons in it, a name answers no neutral query
    rw [Scope.unalias_qualified _ hqualifier,
      Scope.unalias_qualified _ (renameQualifier_colonFree hfree hqualifier)]
    exact iff_of_false (hquery.ne_of_not_colonFree (renameAttribute_not_colonFree hname) _)
      (hquery.ne_of_not_colonFree hname _)

/-- The renamed tag is of a block element exactly if the tag is, and its qualifier is renamed. -/
theorem Tag.blockQualifier?_of_renames (h : tag.renames old new tag' = true) (hplain : tag.Plain)
    (hplain' : tag'.Plain) :
    tag'.blockQualifier? = tag.blockQualifier?.map (renameQualifier old new) := by
  obtain ⟨hname, -⟩ := Tag.entries_of_renames h
  rcases hplain.1 with hfree | ⟨qualifier, localPart, hqualified, hne, hqualifier, hlocal⟩
  · have hfree' : ColonFree tag'.name := by rwa [hname, renameName_of_colonFree hfree]
    rw [Tag.blockQualifier?_of_colonFree hfree, Tag.blockQualifier?_of_colonFree hfree', Option.map_none]
  · rw [hqualified, renameName_qualified hqualifier] at hname
    obtain ⟨other, part, hsame, hne', hother, hpart⟩ :=
      hplain'.1.resolve_left (hname ▸ not_colonFree_qualified)
    obtain ⟨heq, rfl⟩ := (qualified_inj hother hpart).1 (hname.symm.trans hsame)
    rw [Tag.blockQualifier?_qualified hqualified hne hqualifier hlocal,
      Tag.blockQualifier?_qualified hsame hne' hother hpart, ← heq]
    split <;> rfl

/-- The qualifier of a block element is that of its name. -/
theorem Tag.qualifier?_of_block (hplain : tag.Plain) {qualifier : String}
    (h : tag.blockQualifier? = some qualifier) :
    ColonFree qualifier ∧ qualifier? tag.name = some qualifier := by
  rcases hplain.1 with hfree | ⟨other, localPart, hname, hne, hother, hlocal⟩
  · rw [blockQualifier?_of_colonFree hfree] at h
    cases h
  · rw [blockQualifier?_qualified hname hne hother hlocal] at h
    split at h
    · cases h
      exact ⟨hother, by rw [hname, qualifier?_qualified hother]⟩
    · cases h

/-- **A raw name of an element and the renamed one answer the same neutral queries.** -/
theorem Tag.answers_renamed (h : tag.renames old new tag' = true)
    (hscope : Scope.Renames old new tag.scope tag'.scope) (hplain : tag.Plain) (hplain' : tag'.Plain)
    (havoid : tag.Avoids new) (hfree : ColonFree new) (hquery : Neutral old new query) {name : String}
    (hname : qualifier? name ≠ some new) :
    tag'.answers query (renameAttribute old new name) = tag.answers query name := by
  rw [Bool.eq_iff_iff, answers, answers, Tag.blockQualifier?_of_renames h hplain hplain', Bool.or_eq_true,
    Bool.or_eq_true, beq_iff_eq, beq_iff_eq, hscope.unalias_attribute hfree hquery hname]
  refine or_congr_right ?_
  rcases hblock : tag.blockQualifier? with _ | qualifier
  · exact Iff.rfl
  · obtain ⟨hqualifier, hown⟩ := qualifier?_of_block hplain hblock
    have hother : qualifier ≠ new := fun heq => havoid.1 (heq ▸ hown)
    rw [Option.map_some, Option.any_some, Option.any_some, beq_iff_eq, beq_iff_eq]
    exact hscope.unalias_block hfree hquery hqualifier hother name

/-- **The renamed element gives the same value for a neutral query.** -/
theorem Tag.get?_renamed (h : tag.renames old new tag' = true)
    (hscope : Scope.Renames old new tag.scope tag'.scope) (hplain : tag.Plain) (hplain' : tag'.Plain)
    (havoid : tag.Avoids new) (hfree : ColonFree new) (hquery : Neutral old new query) :
    tag'.get? query = tag.get? query := by
  have hanswers : ∀ entry ∈ tag.attributes.entries,
      tag'.answers query (renameAttribute old new entry.1) = tag.answers query entry.1 := fun entry hentry =>
    answers_renamed h hscope hplain hplain' havoid hfree hquery (havoid.2 entry hentry).1
  rw [get?, get?, (entries_of_renames h).2, List.find?_map, Option.map_map, ← List.find?_congr hanswers]
  rfl

end Scopes

/-! ## 6. Templates -/

namespace Node

variable {old new : String} {nodes nodes' : List Node}

/-- Under an element stands the renamed element, over renamed children. -/
theorem element_of_renamesAll (h : renamesAll old new nodes nodes' = true) {i : Nat} {tag : Tag}
    {children : List Node} (hnode : nodes[i]? = some (.element tag children)) :
    ∃ tag' children', nodes'[i]? = some (.element tag' children') ∧ tag.renames old new tag' = true ∧
      renamesAll old new children children' = true := by
  induction nodes generalizing nodes' i with
  | nil => cases hnode
  | cons node nodes ih =>
    cases nodes' with
    | nil =>
      rw [renamesAll] at h
      · cases h
      · nofun
      · nofun
    | cons node' nodes' =>
      rw [renamesAll, Bool.and_eq_true] at h
      cases i with
      | succ i => exact ih h.2 hnode
      | zero =>
        cases hnode
        cases node' with
        | leaf => cases h.1
        | element tag' children' =>
          rw [renames, Bool.and_eq_true] at h
          exact ⟨tag', children', rfl, h.1⟩

end Node

/-- **At the end of a path the renamed template has the renamed element**, in a scope that is like it. -/
theorem Scoped.renamed {old new : String} (hold : old ≠ "xmlns") (hnew : new ≠ "xmlns")
    (hfree : ColonFree new) {registry : Registry} {scope scope' : Scope} {stamp stamp' next next' : Nat}
    {nodes nodes' : List Node} {path : List Nat} {tag : Tag} (h : Scoped registry scope stamp nodes next)
    (h' : Scoped registry scope' stamp' nodes' next') (hscope : Scope.Renames old new scope scope')
    (hnodes : Node.renamesAll old new nodes nodes' = true)
    (havoid : ∀ node ∈ Node.preorderAll nodes, ∀ tag ∈ node.tag?, tag.Avoids new)
    (htag : Node.tagAt? nodes path = some tag) :
    ∃ tag', Node.tagAt? nodes' path = some tag' ∧ tag.renames old new tag' = true ∧
      Scope.Renames old new tag.scope tag'.scope := by
  induction path generalizing nodes nodes' scope scope' stamp stamp' next next' with
  | nil => cases htag
  | cons i path ih =>
    obtain ⟨outer, children, hnode, hbelow⟩ := Node.element_of_tagAt? htag
    obtain ⟨outer', children', hnode', houter, hchildren⟩ := Node.element_of_renamesAll hnodes hnode
    obtain ⟨_, _, _, -, hdeclare, inside, -⟩ := h.element_at hnode
    obtain ⟨_, _, _, -, hdeclare', inside', -⟩ := h'.element_at hnode'
    have hpreorder : ∀ node ∈ Node.preorder (.element outer children), ∀ tag ∈ node.tag?, tag.Avoids new :=
      fun node hmem => havoid node (Node.mem_preorderAll (List.mem_of_getElem? hnode) hmem)
    rw [Node.preorder, List.forall_mem_cons] at hpreorder
    have hinner : Scope.Renames old new outer.scope outer'.scope :=
      hscope.declare hold hnew hfree houter (hpreorder.1 outer rfl) hdeclare hdeclare'
    rcases hbelow with ⟨rfl, rfl⟩ | ⟨hne, hbelow⟩
    · exact ⟨outer', Node.tagAt?_singleton hnode', houter, hinner⟩
    · obtain ⟨tag', htag', hfound⟩ := ih inside inside' hinner hchildren hpreorder.2 hbelow
      exact ⟨tag', (Node.tagAt?_cons hnode' hne).trans htag', hfound⟩

namespace Template

theorem scoped_of_parse {options : Options} {source : String} {template : Template}
    (h : parse options source = .ok template) :
    ∃ next, Scoped options.registry .empty 0 template.children next := by
  obtain ⟨next, hread⟩ := parse_eq_ok_iff.1 h
  exact ⟨next, scoped_of_read hread⟩

/-- **Queries do not depend on the alias the author chose.** -/
theorem query_of_renamed {old new source source' : String} {options options' : Options}
    {template template' : Template} (h : parse options source = .ok template)
    (h' : parse options' source' = .ok template') (hregistry : options.registry = options'.registry)
    (hold : old ≠ "xmlns") (hnew : new ≠ "xmlns") (hfree : ColonFree new)
    (hrenamed : Node.renamesAll old new template.children template'.children = true)
    (havoid : ∀ node ∈ template.descendants, ∀ tag ∈ node.tag?, tag.Avoids new)
    (path : List Nat) (tag : Tag) (htag : Node.tagAt? template.children path = some tag) :
    ∃ tag', Node.tagAt? template'.children path = some tag' ∧
      ∀ query, Neutral old new query →
        tag'.get? query = tag.get? query ∧ tag'.has query = tag.has query := by
  rw [descendants, Node.walk_eq_preorderAll] at havoid
  obtain ⟨next, hscoped⟩ := scoped_of_parse h
  obtain ⟨next', hscoped'⟩ := scoped_of_parse h'
  rw [← hregistry] at hscoped'
  obtain ⟨tag', htag', hrenames, hscope⟩ :=
    hscoped.renamed hold hnew hfree hscoped' (fun _ _ _ => rfl) hrenamed havoid htag
  obtain ⟨children, hmem⟩ := Node.mem_of_tagAt? htag
  refine ⟨tag', htag', fun query hquery => ?_⟩
  have hget := Tag.get?_renamed hrenames hscope (plain_of_parse h htag) (plain_of_parse h' htag')
    (havoid _ hmem tag rfl) hfree hquery
  exact ⟨hget, by rw [Tag.has, Tag.has, hget]⟩

theorem query_of_renamed_block :
    ∃ template template',
      parse { } "<t:a xmlns:t='http://xml.zope.org/namespaces/tal'><t:block if='x' t:content='y'/></t:a>" =
          .ok template ∧
        parse { } "<p:a xmlns:p='http://xml.zope.org/namespaces/tal'><p:block if='x' p:content='y'/></p:a>" =
          .ok template' ∧
        ∃ tag tag', Node.tagAt? template.children [0, 0] = some tag ∧
          Node.tagAt? template'.children [0, 0] = some tag' ∧
          tag.get? "tal:if" = some "x" ∧ tag'.get? "tal:if" = some "x" ∧
          ∀ query, Neutral "t" "p" query →
            tag'.get? query = tag.get? query ∧ tag'.has query = tag.has query := by
  have hok : (match parse { }
        "<t:a xmlns:t='http://xml.zope.org/namespaces/tal'><t:block if='x' t:content='y'/></t:a>", parse { }
        "<p:a xmlns:p='http://xml.zope.org/namespaces/tal'><p:block if='x' p:content='y'/></p:a>" with
      | .ok template, .ok template' =>
        Node.renamesAll "t" "p" template.children template'.children &&
          decide (∀ node ∈ Node.preorderAll template.children, ∀ tag ∈ node.tag?, tag.Avoids "p") &&
          (Node.tagAt? template.children [0, 0]).any fun tag => tag.get? "tal:if" == some "x"
      | _, _ => false) = true := by decide +kernel
  split at hok
  · rename_i template template' hparse hparse'
    rw [Bool.and_eq_true, Bool.and_eq_true, decide_eq_true_eq, Option.any_eq_true] at hok
    obtain ⟨⟨hrenamed, havoid⟩, tag, htag, hif⟩ := hok
    rw [← Node.walk_eq_preorderAll] at havoid
    obtain ⟨tag', htag', hquery⟩ := query_of_renamed hparse hparse' rfl (by decide) (by decide) (by decide)
      hrenamed havoid [0, 0] tag htag
    rw [beq_iff_eq] at hif
    have hneutral : Neutral "t" "p" "tal:if" :=
      Or.inr ⟨"tal", "if", by decide, by decide, by decide, by decide, by decide, by decide, by decide⟩
    exact ⟨template, template', hparse, hparse', tag, tag', htag, htag', hif,
      (hquery "tal:if" hneutral).1.trans hif, hquery⟩
  · cases hok

end Template

end TalMarkup
