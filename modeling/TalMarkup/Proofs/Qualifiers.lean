import Mathlib.Data.List.Basic
import TalMarkup.Proofs.Pieces
import TalMarkup.Proofs.Scoping
import TalMarkup.Tree.Query
import TalMarkup.Tree.Walk

/-!
# Names with qualifiers

A query looks at names by the colon in them. What a scope makes of a name, and which name is that of a
block element, is said here for the names that are made of a qualifier and a local part (`qualified`):

* `Scope.unalias_qualified`: the qualifier is replaced by what it stands for, if it stands for anything;
* `Tag.blockQualifier?_eq_some_iff`: a block element has a qualifier and the local part `block`.

**`Template.plain_of_parse`**: in a template that is read there are no other names than these and names
without a colon.
-/

namespace TalMarkup

/-! ## 1. Qualified names -/

/-- No colon stands in the text. -/
def ColonFree (text : String) : Prop := ':' ∉ text.toList

instance (text : String) : Decidable (ColonFree text) := inferInstanceAs (Decidable (¬ _))

/-- The name made of a qualifier and a local part. -/
def qualified (qualifier localPart : String) : String := qualifier ++ ":" ++ localPart

variable {qualifier localPart : String}

theorem toList_qualified (qualifier localPart : String) :
    (qualified qualifier localPart).toList = qualifier.toList ++ ':' :: localPart.toList := by
  simp [qualified]

theorem not_colonFree_qualified : ¬ ColonFree (qualified qualifier localPart) := by
  rw [ColonFree, toList_qualified]
  exact fun h => h (List.mem_append_right _ List.mem_cons_self)

/-- **A name with one colon is made in one way.** -/
theorem qualified_inj {other otherPart : String} (hqualifier : ColonFree qualifier)
    (hlocal : ColonFree localPart) :
    qualified other otherPart = qualified qualifier localPart ↔ other = qualifier ∧ otherPart = localPart := by
  refine ⟨fun h => ?_, ?_⟩
  · have hlists := congrArg String.toList h
    rw [toList_qualified, toList_qualified, eq_comm,
      List.append_cons_inj_of_notMem (by exact hqualifier) (by exact hlocal)] at hlists
    exact ⟨String.toList_inj.1 hlists.1.symm, String.toList_inj.1 hlists.2.2.symm⟩
  · rintro ⟨rfl, rfl⟩
    rfl

theorem splitColon?_qualified (hqualifier : ColonFree qualifier) :
    splitColon? (qualified qualifier localPart).toList = some (qualifier.toList, localPart.toList) :=
  splitColon?_eq_some_iff.2 ⟨toList_qualified _ _, hqualifier⟩

theorem splitColon?_of_colonFree {name : String} (h : ColonFree name) : splitColon? name.toList = none :=
  splitColon?_eq_none_iff.2 h

/-! ## 2. What a query makes of names -/

theorem Scope.unalias_of_colonFree (scope : Scope) {name : String} (h : ColonFree name) :
    scope.unalias name = name := by
  rw [unalias, splitColon?_of_colonFree h]

/-- **A scope replaces the qualifier of a name by what it stands for.** -/
theorem Scope.unalias_qualified (scope : Scope) (hqualifier : ColonFree qualifier) (localPart : String) :
    scope.unalias (qualified qualifier localPart) =
      qualified ((scope.canonical? qualifier).getD qualifier) localPart := by
  rw [unalias, splitColon?_qualified hqualifier]
  simp only [String.ofList_toList]
  rcases scope.canonical? qualifier with _ | canonical <;> rfl

namespace Tag

/-- **A block element is named by a qualifier that is not empty and the local part `block`.** -/
theorem blockQualifier?_eq_some_iff {tag : Tag} :
    tag.blockQualifier? = some qualifier ↔ qualifier ≠ "" ∧ tag.name = qualified qualifier "block" := by
  have hending : blockEnding.toList = ':' :: "block".toList := by decide
  refine ⟨?_, ?_⟩
  · intro h
    simp only [blockQualifier?] at h
    split at h
    · rename_i htest
      rw [Bool.and_eq_true, List.isSuffixOf_iff_suffix, decide_eq_true_eq] at htest
      obtain ⟨⟨front, hfront⟩, hlength⟩ := htest
      rw [← hfront, List.length_append] at hlength
      rw [← hfront, List.length_append, Nat.add_sub_cancel, List.take_left] at h
      cases h
      refine ⟨fun hempty => ?_, ?_⟩
      · have hnil : front = [] := String.ofList_injective hempty
        rw [hnil, List.length_nil] at hlength
        omega
      · rw [← String.toList_inj, toList_qualified, String.toList_ofList, ← hfront, hending]
    · cases h
  · intro h
    obtain ⟨hne, hname⟩ := h
    have hchars : tag.name.toList = qualifier.toList ++ blockEnding.toList := by
      rw [hname, toList_qualified, hending]
    have hpos : 0 < qualifier.toList.length :=
      List.length_pos_iff.2 fun hnil => hne (String.toList_inj.1 hnil)
    simp only [blockQualifier?, hchars, List.isSuffixOf_iff_suffix.2 (List.suffix_append _ _),
      Bool.true_and, List.length_append, Nat.add_sub_cancel, List.take_left, String.ofList_toList,
      decide_eq_true_eq]
    exact if_pos (Nat.lt_add_of_pos_left hpos)

theorem blockQualifier?_of_colonFree {tag : Tag} (h : ColonFree tag.name) : tag.blockQualifier? = none := by
  refine Option.eq_none_iff_forall_ne_some.2 fun other hother => ?_
  rw [(blockQualifier?_eq_some_iff.1 hother).2] at h
  exact not_colonFree_qualified h

/-- Of the elements whose names have one colon, those with the local part `block` are block elements. -/
theorem blockQualifier?_qualified {tag : Tag} (hname : tag.name = qualified qualifier localPart)
    (hne : qualifier ≠ "") (hqualifier : ColonFree qualifier) (hlocal : ColonFree localPart) :
    tag.blockQualifier? = if localPart = "block" then some qualifier else none := by
  by_cases hblock : localPart = "block"
  · subst hblock
    rw [if_pos rfl]
    exact blockQualifier?_eq_some_iff.2 ⟨hne, hname⟩
  · rw [if_neg hblock]
    refine Option.eq_none_iff_forall_ne_some.2 fun other hother => hblock ?_
    have hother' := (blockQualifier?_eq_some_iff.1 hother).2
    rw [hname, eq_comm, qualified_inj hqualifier hlocal] at hother'
    exact hother'.2.symm

end Tag

/-! ## 3. Names that are read -/

/-- The name has no colon, or one that stands behind a qualifier. -/
def IsPlain (name : String) : Prop :=
  ColonFree name ∨ ∃ qualifier localPart, name = qualified qualifier localPart ∧ qualifier ≠ "" ∧
    ColonFree qualifier ∧ ColonFree localPart

theorem QName.Formed.isPlain {name : QName} (h : name.Formed) : IsPlain name.recorded := by
  obtain ⟨⟨-, -, hlocal⟩, hqualifier⟩ := h
  have hpart : ColonFree (String.ofList name.localPart) := by rwa [ColonFree, String.toList_ofList]
  rcases name with ⟨_ | _ | ⟨c, qualifier⟩, localPart⟩
  · exact Or.inl hpart
  · exact Or.inl hpart
  · obtain hnil | ⟨-, -, hcolon⟩ := hqualifier (c :: qualifier) rfl
    · cases hnil
    · refine Or.inr ⟨String.ofList (c :: qualifier), String.ofList localPart, ?_, ?_, ?_, hpart⟩
      · rw [← String.toList_inj, toList_qualified, recorded, String.toList_ofList, text]
        simp only [String.toList_ofList]
      · exact fun hempty => List.cons_ne_nil c qualifier (String.ofList_injective hempty)
      · rwa [ColonFree, String.toList_ofList]

/-- The names of the element and of its attributes are plain. -/
def Tag.Plain (tag : Tag) : Prop :=
  IsPlain tag.name ∧ ∀ entry ∈ tag.attributes.entries, IsPlain entry.1

theorem Bindings.names_ofList_subset (pairs : List (String × String)) :
    (ofList pairs).entries.map Prod.fst ⊆ pairs.map Prod.fst := by
  suffices hfold : ∀ bindings : Bindings,
      (pairs.foldl (fun bindings pair => bindings.insert pair.1 pair.2) bindings).entries.map Prod.fst ⊆
        bindings.entries.map Prod.fst ++ pairs.map Prod.fst from hfold empty
  induction pairs with
  | nil => exact fun bindings => List.subset_append_left _ _
  | cons pair pairs ih =>
    intro bindings name hname
    have hrest := ih (bindings.insert pair.1 pair.2) hname
    have hbound := names_bind pair.1 pair.2 bindings.entries
    simp only [insert, hbound, List.mem_append, List.map_cons, List.mem_cons] at hrest ⊢
    split at hrest
    · tauto
    · simp only [List.mem_append, List.mem_singleton] at hrest
      tauto

theorem StartTag.Of.plain {start : StartTag} {tag : Tag} (h : start.Of tag) : tag.Plain := by
  obtain ⟨⟨hname, hinside⟩, hrecorded, hattributes⟩ := h
  refine ⟨hrecorded ▸ hname.isPlain, fun entry hentry => ?_⟩
  rw [← hattributes] at hentry
  have hmem := Bindings.names_ofList_subset _ (List.mem_map_of_mem hentry)
  rw [List.map_map] at hmem
  obtain ⟨written, hwritten, hpair⟩ := List.mem_map.1 hmem
  obtain ⟨-, -, -, hformed, -⟩ := hinside.1 written hwritten
  exact hpair ▸ hformed.isPlain

namespace Node

theorem mem_preorderAll {node below : Node} {nodes : List Node} (hnode : node ∈ nodes)
    (hbelow : below ∈ node.preorder) : below ∈ preorderAll nodes := by
  obtain ⟨front, back, rfl⟩ := List.append_of_mem hnode
  rw [preorderAll_append, preorderAll]
  exact List.mem_append_right _ (List.mem_append_left _ hbelow)

/-- An element that a path leads to is met in document order. -/
theorem mem_of_tagAt? {nodes : List Node} {path : List Nat} {tag : Tag}
    (h : tagAt? nodes path = some tag) : ∃ children, .element tag children ∈ preorderAll nodes := by
  induction path generalizing nodes with
  | nil => cases h
  | cons i path ih =>
    obtain ⟨outer, children, hnode, hbelow⟩ := element_of_tagAt? h
    have houter : .element outer children ∈ nodes := List.mem_of_getElem? hnode
    rcases hbelow with ⟨-, rfl⟩ | ⟨-, hbelow⟩
    · exact ⟨children, mem_preorderAll houter (by rw [preorder]; exact List.mem_cons_self)⟩
    · obtain ⟨inner, hinner⟩ := ih hbelow
      exact ⟨inner, mem_preorderAll houter (by rw [preorder]; exact List.mem_cons_of_mem _ hinner)⟩

end Node

/-- Every element that is placed in a text has a start tag there. -/
theorem Placed.of_mem {file : String} {before text : List Char} {nodes children : List Node} {tag : Tag}
    (h : Placed file before nodes text) (hmem : .element tag children ∈ Node.preorderAll nodes) :
    ∃ start : StartTag, start.Of tag := by
  induction h with
  | nil => cases hmem
  | leaf _ _ _ ih =>
    rw [Node.preorderAll, Node.preorder, List.singleton_append, List.mem_cons] at hmem
    exact ih (hmem.resolve_left Node.noConfusion)
  | @single _ start _ _ _ hstart _ _ _ ih =>
    rw [Node.preorderAll, Node.preorder, Node.preorderAll, List.singleton_append, List.mem_cons] at hmem
    rcases hmem with heq | hmem
    · cases heq
      exact ⟨start, hstart⟩
    · exact ih hmem
  | @pair _ start _ _ _ _ _ _ hstart _ _ _ _ _ ihInside ihMore =>
    rw [Node.preorderAll, Node.preorder, List.cons_append, List.mem_cons, List.mem_append] at hmem
    rcases hmem with heq | hmem | hmem
    · cases heq
      exact ⟨start, hstart⟩
    · exact ihInside hmem
    · exact ihMore hmem

theorem Prolog.Placed.not_mem {file : String} {before text : List Char} {nodes children : List Node}
    {tag : Tag} (h : Prolog.Placed file before nodes text) :
    .element tag children ∉ Node.preorderAll nodes := by
  induction h with
  | nil => exact List.not_mem_nil
  | leaf _ _ _ _ _ ih =>
    rw [Node.preorderAll, Node.preorder, List.singleton_append, List.mem_cons, not_or]
    exact ⟨Node.noConfusion, ih⟩

/-- **The names in a template that is read are plain.** -/
theorem Template.plain_of_parse {options : Options} {source : String} {template : Template}
    (h : parse options source = .ok template) {path : List Nat} {tag : Tag}
    (htag : Node.tagAt? template.children path = some tag) : tag.Plain := by
  obtain ⟨mark, head, body, first, rest, -, -, hchildren, hfirst, hrest⟩ := placed_of_parse h
  obtain ⟨children, hmem⟩ := Node.mem_of_tagAt? htag
  rw [hchildren, Node.preorderAll_append, List.mem_append] at hmem
  obtain ⟨start, hstart⟩ := hrest.of_mem (hmem.resolve_left hfirst.not_mem)
  exact hstart.plain

end TalMarkup
