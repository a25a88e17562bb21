import TalMarkup.Proofs.Accepted
import TalMarkup.Proofs.Aliases

/-!
# Scopes are lexical

An element of a template is named by its path: which child to go to, level by level. What an alias means
in it is said by the elements around it, and by which of them is the nearest to say it.

* `Scoped` is what reading a body guarantees: the scope of every element is the scope around it, extended
  by its own tag, and no two extensions have the same stamp, because the stamps of an element and all in
  it are an interval.
* **`Template.scopes_of_parse`**: an alias has the meaning that the nearest element around gives it, and
  two elements share their scope exactly if the nearest element that declares anything is the same.
-/

namespace TalMarkup

/-! ## 1. Paths -/

/-- The tag of the element that the path leads to. -/
def Node.tagAt? : List Node → List Nat → Option Tag
  | _, [] => none
  | nodes, [i] => nodes[i]?.bind Node.tag?
  | nodes, i :: j :: path => nodes[i]?.bind fun node => tagAt? node.children (j :: path)

/-- The elements on a path with their own paths, from the inside out. -/
def Node.around : List Node → List Nat → List (List Nat × Tag)
  | _, [] => []
  | nodes, i :: path =>
    match nodes[i]? with
    | some (.element tag children) =>
      (around children path).map (fun entry => (i :: entry.1, entry.2)) ++ [([i], tag)]
    | _ => []

/-- The path of the nearest element that declares an alias, from the element at the path outwards. -/
def Node.binder? (registry : Registry) (nodes : List Node) (path : List Nat) : Option (List Nat) :=
  ((around nodes path).find? fun entry => entry.2.attributes.declares registry).map Prod.fst

namespace Node

variable {nodes children : List Node} {path : List Nat} {tag outer : Tag} {i : Nat}

theorem tagAt?_singleton (h : nodes[i]? = some (.element tag children)) :
    tagAt? nodes [i] = some tag := by
  rw [tagAt?, h]
  rfl

theorem tagAt?_cons (h : nodes[i]? = some (.element tag children)) (hpath : path ≠ []) :
    tagAt? nodes (i :: path) = tagAt? children path := by
  cases path with
  | nil => exact absurd rfl hpath
  | cons j path => rw [tagAt?, h]; rfl

theorem tagAt?_nil_left (path : List Nat) : tagAt? [] path = none := by
  rcases path with _ | ⟨i, _ | ⟨j, path⟩⟩ <;> rfl

/-- A path to an element goes through an element, and ends there or goes on below it. -/
theorem element_of_tagAt? (h : tagAt? nodes (i :: path) = some tag) :
    ∃ outer children, nodes[i]? = some (.element outer children) ∧
      (path = [] ∧ tag = outer ∨ path ≠ [] ∧ tagAt? children path = some tag) := by
  rcases hnode : nodes[i]? with _ | _ | ⟨kind, location, value⟩
  · cases path with
    | nil => rw [tagAt?, hnode] at h; cases h
    | cons j path => rw [tagAt?, hnode] at h; cases h
  · rename_i outer children
    refine ⟨outer, children, rfl, ?_⟩
    cases path with
    | nil =>
      rw [tagAt?_singleton hnode] at h
      cases h
      exact Or.inl ⟨rfl, rfl⟩
    | cons j path =>
      rw [tagAt?_cons hnode (List.cons_ne_nil _ _)] at h
      exact Or.inr ⟨List.cons_ne_nil _ _, h⟩
  · cases path with
    | nil => rw [tagAt?, hnode] at h; cases h
    | cons j path =>
      rw [tagAt?, hnode, Option.bind_some, children, tagAt?_nil_left] at h
      cases h

theorem tagAt?_drop (k j : Nat) (path : List Nat) :
    tagAt? (nodes.drop k) (j :: path) = tagAt? nodes ((k + j) :: path) := by
  cases path <;> simp only [tagAt?, List.getElem?_drop]

theorem around_cons (h : nodes[i]? = some (.element tag children)) (path : List Nat) :
    around nodes (i :: path) =
      (around children path).map (fun entry => (i :: entry.1, entry.2)) ++ [([i], tag)] := by
  rw [around, h]

theorem binder?_cons (h : nodes[i]? = some (.element tag children)) (registry : Registry)
    (path : List Nat) :
    binder? registry nodes (i :: path) =
      ((binder? registry children path).map (i :: ·)).or
        (if tag.attributes.declares registry then some [i] else none) := by
  simp only [binder?, around_cons h, List.find?_append, List.find?_map, List.find?_singleton,
    Function.comp_def, Option.map_or, Option.map_map]
  congr 1
  split <;> rfl

end Node

/-! ## 2. Nodes whose scopes are lexical -/

/-- The nodes stand in this scope: the scope of every element is the scope around it, extended by its
    tag. Its stamps come from the first number on, and the second is free then. -/
inductive Scoped (registry : Registry) : Scope → Nat → List Node → Nat → Prop
  | nil {scope stamp} : Scoped registry scope stamp [] stamp
  | leaf {scope stamp kind location value nodes next} (rest : Scoped registry scope stamp nodes next) :
      Scoped registry scope stamp (.leaf kind location value :: nodes) next
  | element {scope stamp tag first children last nodes next}
      (hscope : scope.declare registry tag.attributes.entries stamp = (tag.scope, first))
      (inside : Scoped registry tag.scope first children last)
      (rest : Scoped registry scope last nodes next) :
      Scoped registry scope stamp (.element tag children :: nodes) next

theorem StartTag.declare_of_kept {tag : StartTag} {options : Options} {scope : Scope}
    {lines stamp mid : Nat} {kept : Tag} (h : tag.kept options scope lines stamp = (kept, mid)) :
    scope.declare options.registry kept.attributes.entries stamp = (kept.scope, mid) := by
  obtain ⟨rfl, rfl⟩ := Prod.mk.inj h
  rfl

/-- **The nodes of content stand in its scope.** -/
theorem Content.scoped {options : Options} {scope : Scope} {lines stamp next : Nat}
    {tokens : List Token} {nodes : List Node}
    (h : Content options scope lines stamp tokens nodes next) :
    Scoped options.registry scope stamp nodes next := by
  induction h with
  | nil => exact .nil
  | leaf _ _ ih => exact .leaf ih
  | single _ hkept _ ih => exact .element (StartTag.declare_of_kept hkept) .nil ih
  | pair _ hkept _ _ _ ihInside ihRest =>
    exact .element (StartTag.declare_of_kept hkept) ihInside ihRest

theorem Prolog.scoped_leaves {options : Options} {registry : Registry} {scope : Scope}
    {stamp next : Nat} {nodes : List Node} (h : Scoped registry scope stamp nodes next)
    (items : List Item) (lines : Nat) :
    Scoped registry scope stamp (leaves options lines items ++ nodes) next := by
  induction items generalizing lines with
  | nil => exact h
  | cons item items ih => exact .leaf (ih _)

namespace Scoped

variable {registry : Registry} {scope : Scope} {stamp next : Nat} {nodes children : List Node}
  {path : List Nat} {tag : Tag} {i : Nat}

theorem le (h : Scoped registry scope stamp nodes next) : stamp ≤ next := by
  induction h with
  | nil => exact Nat.le_refl _
  | leaf _ ih => exact ih
  | element hscope _ _ ihInside ihRest =>
    have hfirst := Scope.stamp_le_of_declare hscope
    omega

/-- **An element among the nodes**: its stamps come after those of the nodes in front of it, and before
    those of the nodes after it. -/
theorem element_at (h : Scoped registry scope stamp nodes next)
    (hnode : nodes[i]? = some (.element tag children)) :
    ∃ start first last, stamp ≤ start ∧
      scope.declare registry tag.attributes.entries start = (tag.scope, first) ∧
      Scoped registry tag.scope first children last ∧
      Scoped registry scope last (nodes.drop (i + 1)) next := by
  induction h generalizing i with
  | nil => cases hnode
  | leaf _ ih =>
    cases i with
    | zero => cases hnode
    | succ i => exact ih hnode
  | @element scope stamp other first inner last nodes next hscope inside rest _ ih =>
    cases i with
    | zero =>
      cases hnode
      exact ⟨stamp, first, last, Nat.le_refl _, hscope, inside, rest⟩
    | succ i =>
      obtain ⟨start, first', last', hstart, hfound⟩ := ih hnode
      have hbefore := inside.le
      have hfirst := Scope.stamp_le_of_declare hscope
      exact ⟨start, first', last', by omega, hfound⟩

/-! ## 3. What an alias means -/

/-- **The nearest element that says what an alias means is right.** -/
theorem canonical?_eq (h : Scoped registry scope stamp nodes next)
    (htag : Node.tagAt? nodes path = some tag) (aliasName : String) :
    tag.scope.canonical? aliasName =
      ((Node.around nodes path).findSome? fun entry => entry.2.attributes.meaning? registry aliasName).or
        (scope.canonical? aliasName) := by
  induction path generalizing nodes scope stamp next with
  | nil => cases htag
  | cons i path ih =>
    obtain ⟨outer, children, hnode, hbelow⟩ := Node.element_of_tagAt? htag
    obtain ⟨start, first, last, -, hscope, inside, -⟩ := h.element_at hnode
    have houter := Scope.canonical?_declare hscope aliasName
    rw [Node.around_cons hnode, List.findSome?_append, List.findSome?_map, List.findSome?_singleton,
      Option.or_assoc, ← houter]
    rcases hbelow with ⟨rfl, rfl⟩ | ⟨-, hbelow⟩
    · rfl
    · exact ih inside hbelow

/-! ## 4. Which elements share a scope -/

/-- **The scope of an element is that of the nearest element that declares an alias**, or the one around
    the nodes. -/
theorem scope_eq (h : Scoped registry scope stamp nodes next)
    (htag : Node.tagAt? nodes path = some tag) :
    (Node.binder? registry nodes path = none ∧ tag.scope = scope) ∨
      ∃ found binder, Node.binder? registry nodes path = some found ∧
        Node.tagAt? nodes found = some binder ∧ binder.attributes.declares registry = true ∧
        tag.scope = binder.scope := by
  induction path generalizing nodes scope stamp next with
  | nil => cases htag
  | cons i path ih =>
    obtain ⟨outer, children, hnode, hbelow⟩ := Node.element_of_tagAt? htag
    obtain ⟨start, first, last, -, hscope, inside, -⟩ := h.element_at hnode
    have hinner : (Node.binder? registry children path = none ∧ tag.scope = outer.scope) ∨
        ∃ found binder, Node.binder? registry children path = some found ∧
          Node.tagAt? children found = some binder ∧ binder.attributes.declares registry = true ∧
          tag.scope = binder.scope := by
      rcases hbelow with ⟨rfl, rfl⟩ | ⟨-, hbelow⟩
      · exact Or.inl ⟨rfl, rfl⟩
      · exact ih inside hbelow
    rw [Node.binder?_cons hnode]
    rcases hinner with ⟨hnone, hsame⟩ | ⟨found, binder, hfound, hbinder, hdeclares, hsame⟩
    · rw [hnone]
      cases hdeclares : outer.attributes.declares registry with
      | true => exact Or.inr ⟨[i], outer, rfl, Node.tagAt?_singleton hnode, hdeclares, hsame⟩
      | false =>
        rw [Scope.declare_of_not_declares hdeclares] at hscope
        exact Or.inl ⟨rfl, hsame.trans (Prod.mk.inj hscope).1.symm⟩
    · have hne : found ≠ [] := by
        rintro rfl
        cases hbinder
      rw [hfound]
      exact Or.inr ⟨i :: found, binder, rfl, (Node.tagAt?_cons hnode hne).trans hbinder, hdeclares, hsame⟩

/-- The stamp of an element that declares an alias is one of those of the nodes. -/
theorem stamp_mem (h : Scoped registry scope stamp nodes next)
    (htag : Node.tagAt? nodes path = some tag) (hdeclares : tag.attributes.declares registry = true) :
    ∃ n, tag.scope.stamp? = some n ∧ stamp ≤ n ∧ n < next := by
  induction path generalizing nodes scope stamp next with
  | nil => cases htag
  | cons i path ih =>
    obtain ⟨outer, children, hnode, hbelow⟩ := Node.element_of_tagAt? htag
    obtain ⟨start, first, last, hstart, hscope, inside, hafter⟩ := h.element_at hnode
    have hlast := hafter.le
    have hfirst := inside.le
    rcases hbelow with ⟨rfl, rfl⟩ | ⟨-, hbelow⟩
    · rw [Scope.declare_of_declares hdeclares] at hscope
      obtain ⟨hown, rfl⟩ := Prod.mk.inj hscope
      exact ⟨start, by rw [← hown]; rfl, hstart, by omega⟩
    · obtain ⟨n, hn, hle, hlt⟩ := ih inside hbelow
      have hmid := Scope.stamp_le_of_declare hscope
      exact ⟨n, hn, by omega, by omega⟩

/-- An element further on has another stamp. -/
theorem stamp_ne (h : Scoped registry scope stamp nodes next) {j : Nat} {path' : List Nat} {tag' : Tag}
    (hij : i < j) (htag : Node.tagAt? nodes (i :: path) = some tag)
    (htag' : Node.tagAt? nodes (j :: path') = some tag')
    (hdeclares : tag.attributes.declares registry = true)
    (hdeclares' : tag'.attributes.declares registry = true) :
    tag.scope.stamp? ≠ tag'.scope.stamp? := by
  obtain ⟨outer, children, hnode, hbelow⟩ := Node.element_of_tagAt? htag
  obtain ⟨start, first, last, -, hscope, inside, hafter⟩ := h.element_at hnode
  -- the element with all in it, as if there were no other nodes
  have hself : Node.tagAt? [.element outer children] (0 :: path) = some tag := by
    rcases hbelow with ⟨rfl, rfl⟩ | ⟨hne, hbelow⟩
    · rfl
    · rw [Node.tagAt?_cons rfl hne, hbelow]
  obtain ⟨n, hn, -, hlt⟩ := (Scoped.element hscope inside .nil).stamp_mem hself hdeclares
  have hother : Node.tagAt? (nodes.drop (i + 1)) ((j - (i + 1)) :: path') = some tag' := by
    rw [Node.tagAt?_drop, Nat.add_sub_cancel' hij, htag']
  obtain ⟨m, hm, hle, -⟩ := hafter.stamp_mem hother hdeclares'
  rw [hn, hm]
  intro heq
  have hsame := Option.some.inj heq
  omega

/-- **No two elements that declare an alias have the same stamp.** -/
theorem stamp_injective (h : Scoped registry scope stamp nodes next) {path' : List Nat} {tag' : Tag}
    (htag : Node.tagAt? nodes path = some tag) (htag' : Node.tagAt? nodes path' = some tag')
    (hdeclares : tag.attributes.declares registry = true)
    (hdeclares' : tag'.attributes.declares registry = true)
    (heq : tag.scope.stamp? = tag'.scope.stamp?) : path = path' := by
  induction path generalizing path' nodes scope stamp next with
  | nil => cases htag
  | cons i path ih =>
    cases path' with
    | nil => cases htag'
    | cons j path' =>
      rcases Nat.lt_trichotomy i j with hij | rfl | hij
      · exact absurd heq (h.stamp_ne hij htag htag' hdeclares hdeclares')
      · obtain ⟨outer, children, hnode, hbelow⟩ := Node.element_of_tagAt? htag
        obtain ⟨outer', children', hnode', hbelow'⟩ := Node.element_of_tagAt? htag'
        rw [hnode] at hnode'
        cases hnode'
        obtain ⟨start, first, last, -, hscope, inside, -⟩ := h.element_at hnode
        -- an element has a stamp of its own in front of those inside it
        have hown : outer.attributes.declares registry = true → ∀ {below : List Nat} {inner : Tag},
            Node.tagAt? children below = some inner → inner.attributes.declares registry = true →
              outer.scope.stamp? ≠ inner.scope.stamp? := by
          intro houter below inner hinner hdeclared
          obtain ⟨n, hn, hle, -⟩ := inside.stamp_mem hinner hdeclared
          rw [Scope.declare_of_declares houter] at hscope
          obtain ⟨hown, rfl⟩ := Prod.mk.inj hscope
          rw [hn, ← hown]
          intro hsame
          have hstamp : start = n := Option.some.inj hsame
          omega
        rcases hbelow with ⟨rfl, rfl⟩ | ⟨-, hbelow⟩
        · rcases hbelow' with ⟨rfl, -⟩ | ⟨-, hbelow'⟩
          · rfl
          · exact absurd heq (hown hdeclares hbelow' hdeclares')
        · rcases hbelow' with ⟨rfl, rfl⟩ | ⟨-, hbelow'⟩
          · exact absurd heq.symm (hown hdeclares' hbelow hdeclares)
          · rw [ih inside hbelow hbelow']
      · exact absurd heq.symm (h.stamp_ne hij htag' htag hdeclares' hdeclares)

/-- Where nothing is declared around the nodes, an element has a stamp exactly if it has a binder. -/
theorem stamp?_eq_none_iff (h : Scoped registry scope stamp nodes next) (hscope : scope.stamp? = none)
    (htag : Node.tagAt? nodes path = some tag) :
    tag.scope.stamp? = none ↔ Node.binder? registry nodes path = none := by
  rcases h.scope_eq htag with ⟨hnone, hsame⟩ | ⟨found, binder, hfound, hbinder, hdeclares, hsame⟩
  · rw [hnone, hsame, hscope]
    exact ⟨fun _ => rfl, fun _ => rfl⟩
  · obtain ⟨n, hn, -⟩ := h.stamp_mem hbinder hdeclares
    rw [hfound, hsame, hn]
    exact ⟨nofun, nofun⟩

/-- **Elements have the same stamp exactly if they have the same binder.** -/
theorem stamp?_eq_iff (h : Scoped registry scope stamp nodes next) (hscope : scope.stamp? = none)
    (htag : Node.tagAt? nodes path = some tag) {path' : List Nat} {tag' : Tag}
    (htag' : Node.tagAt? nodes path' = some tag') :
    tag.scope.stamp? = tag'.scope.stamp? ↔
      Node.binder? registry nodes path = Node.binder? registry nodes path' := by
  have hnone := h.stamp?_eq_none_iff hscope htag
  have hnone' := h.stamp?_eq_none_iff hscope htag'
  rcases h.scope_eq htag with ⟨hfound, -⟩ | ⟨found, binder, hfound, hbinder, hdeclares, hsame⟩
  · rw [hfound, hnone.2 hfound, eq_comm, hnone', eq_comm]
  · rcases h.scope_eq htag' with ⟨hfound', -⟩ | ⟨found', binder', hfound', hbinder', hdeclares', hsame'⟩
    · rw [hfound', hnone'.2 hfound', hnone]
    · rw [hfound, hfound', hsame, hsame', Option.some.injEq]
      refine ⟨?_, ?_⟩
      · exact h.stamp_injective hbinder hbinder' hdeclares hdeclares'
      · rintro rfl
        rw [hbinder] at hbinder'
        rw [Option.some.inj hbinder']

end Scoped

/-! ## 5. Templates -/

namespace Template

theorem scoped_of_read {options : Options} {stamp next : Nat} {source : String} {template : Template}
    (h : read options stamp source = .ok (template, next)) :
    Scoped options.registry .empty stamp template.children next := by
  obtain ⟨prolog, nodes, -, -, content, rfl, -⟩ := read_eq_ok_iff.1 h
  exact Prolog.scoped_leaves content.scoped prolog.items 0

/-- **Scopes are lexical.** What an alias means in an element is said by the nearest element around it
    that has an attribute for the alias whose value is a known namespace. Two elements share their scope
    exactly if the nearest element that declares any alias is the same for both, or there is none. -/
theorem scopes_of_parse {options : Options} {source : String} {template : Template}
    (h : parse options source = .ok template) (path : List Nat) (tag : Tag)
    (htag : Node.tagAt? template.children path = some tag) :
    (∀ aliasName, tag.scope.canonical? aliasName =
      (Node.around template.children path).findSome? fun entry =>
        (entry.2.attributes.get? ("xmlns:" ++ aliasName)).bind options.registry.canonical?) ∧
    (tag.scope.isEmpty = true ↔ Node.binder? options.registry template.children path = none) ∧
    ∀ path' tag', Node.tagAt? template.children path' = some tag' →
      (tag.scope.shares tag'.scope = true ↔
        Node.binder? options.registry template.children path =
          Node.binder? options.registry template.children path') := by
  obtain ⟨next, hread⟩ := parse_eq_ok_iff.1 h
  obtain ⟨prolog, nodes, -, -, content, rfl, -⟩ := read_eq_ok_iff.1 hread
  have hscoped : Scoped options.registry .empty 0 (Prolog.leaves options 0 prolog.items ++ nodes) next :=
    Prolog.scoped_leaves content.scoped prolog.items 0
  refine ⟨fun aliasName => ?_, ?_, fun path' tag' htag' => ?_⟩
  · have hmeaning := hscoped.canonical?_eq htag aliasName
    rwa [show Scope.empty.canonical? aliasName = none from rfl, Option.or_none] at hmeaning
  · rw [Scope.isEmpty_iff]
    exact hscoped.stamp?_eq_none_iff rfl htag
  · rw [Scope.shares_iff]
    exact hscoped.stamp?_eq_iff rfl htag htag'

theorem scopes_of_parse_nested :
    ∃ template,
      parse { } "<a xmlns:t='http://xml.zope.org/namespaces/tal'><b xmlns:t='x'/><t:c/></a>" = .ok template ∧
        ∃ tag, Node.tagAt? template.children [0, 0] = some tag ∧
        tag.scope.canonical? "t" = some "tal" ∧
        (∀ aliasName, tag.scope.canonical? aliasName =
          (Node.around template.children [0, 0]).findSome? fun entry =>
            (entry.2.attributes.get? ("xmlns:" ++ aliasName)).bind Registry.standard.canonical?) ∧
        (tag.scope.isEmpty = true ↔ Node.binder? .standard template.children [0, 0] = none) ∧
        ∀ path' tag', Node.tagAt? template.children path' = some tag' →
          (tag.scope.shares tag'.scope = true ↔
            Node.binder? .standard template.children [0, 0] =
              Node.binder? .standard template.children path') := by
  obtain ⟨template, hparse, hcanonical⟩ := exists_of_map_parse (show (parse { }
    "<a xmlns:t='http://xml.zope.org/namespaces/tal'><b xmlns:t='x'/><t:c/></a>").map (fun template =>
      (Node.tagAt? template.children [0, 0]).map fun tag => tag.scope.canonical? "t") =
        .ok (some (some "tal")) by decide +kernel)
  obtain ⟨tag, htag, hcanonical⟩ := Option.map_eq_some_iff.1 hcanonical
  exact ⟨template, hparse, tag, htag, hcanonical, scopes_of_parse hparse [0, 0] tag htag⟩

end Template

end TalMarkup
