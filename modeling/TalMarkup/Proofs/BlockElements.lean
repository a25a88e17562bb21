import TalMarkup.Proofs.Qualifiers

/-!
# Bare attributes of block elements

An element named `P:block` lends its qualifier to its bare attributes, those whose names have no colon. It
answers a query as if `P:` were written in front of each of them (`withQualifier`), and as if it were no
block element.

This is so for queries with one colon, because a scope never takes a colon off a name
(`Scope.colons_le_unalias`): a name that has a colon and is given one more answers no such query, and neither
does a bare name as it stands. **`Tag.get?_of_block`** says it of whole elements.
-/

namespace TalMarkup

/-! ## 1. Colons -/

/-- The number of colons in a text. -/
def colons (text : String) : Nat := text.toList.count ':'

variable {qualifier localPart name : String}

theorem colonFree_iff : ColonFree name ↔ colons name = 0 := List.count_eq_zero.symm

theorem colons_qualified (qualifier localPart : String) :
    colons (qualified qualifier localPart) = colons qualifier + colons localPart + 1 := by
  rw [colons, toList_qualified, List.count_append, List.count_cons_self]
  rfl

/-- **A scope never takes a colon off a name.** -/
theorem Scope.colons_le_unalias (scope : Scope) (name : String) : colons name ≤ colons (scope.unalias name) := by
  rw [unalias]
  rcases hsplit : splitColon? name.toList with _ | ⟨front, back⟩
  · exact Nat.le_refl _
  · simp only
    rcases scope.canonical? (String.ofList front) with _ | canonical
    · exact Nat.le_refl _
    · -- the alias in front of the first colon has no colon itself
      obtain ⟨hname, hfront⟩ := splitColon?_eq_some_iff.1 hsplit
      have hcolons : colons name = colons (String.ofList back) + 1 := by
        rw [colons, hname, List.count_append, List.count_eq_zero.2 hfront, List.count_cons_self, Nat.zero_add,
          colons, String.toList_ofList]
      rw [hcolons]
      show _ ≤ colons (qualified canonical (String.ofList back))
      rw [colons_qualified]
      omega

/-! ## 2. Attributes with the qualifier of their element -/

/-- A bare name with the qualifier in front of it; a name with a colon stays as it is. -/
def withQualifier (qualifier rawName : String) : String :=
  if ColonFree rawName then qualified qualifier rawName else rawName

/-- The names of the attributes with the qualifier in front of the bare ones. -/
def Bindings.qualifiedNames (attributes : Bindings) (qualifier : String) : List String :=
  attributes.entries.map fun entry => withQualifier qualifier entry.1

/-- The attributes with the qualifier in front of the bare ones, in the same order and with the same values.
    The names must differ then, too. -/
def Bindings.qualify (attributes : Bindings) (qualifier : String)
    (nodup : (attributes.qualifiedNames qualifier).Nodup) : Bindings :=
  ⟨attributes.entries.map fun entry => (withQualifier qualifier entry.1, entry.2), by rwa [List.map_map]⟩

namespace Tag

variable {block plain : Tag} {query : String}

theorem answers_of_plain (hplain : plain.blockQualifier? = none) (rawName : String) :
    plain.answers query rawName = (plain.scope.unalias rawName == query) := by
  rw [answers, hplain, Option.any_none, Bool.or_false]

/-- **A name answers a query with one colon on a block element exactly if it does so with the qualifier of
    the element, where it is bare.** -/
theorem answers_of_block (hblock : block.blockQualifier? = some qualifier) (hquery : colons query = 1)
    (rawName : String) :
    block.answers query rawName = (block.scope.unalias (withQualifier qualifier rawName) == query) := by
  have hother : ∀ {name : String}, colons (block.scope.unalias name) ≠ 1 →
      (block.scope.unalias name == query) = false := by
    intro name hname
    rw [beq_eq_false_iff_ne]
    rintro rfl
    exact hname hquery
  rw [answers, hblock, Option.any_some, withQualifier]
  by_cases hbare : ColonFree rawName
  · have hnone : colons (block.scope.unalias rawName) ≠ 1 := by
      rw [Scope.unalias_of_colonFree _ hbare, colonFree_iff.1 hbare]
      decide
    rw [hother hnone, Bool.false_or, if_pos hbare]
    rfl
  · have hpos : colons rawName ≠ 0 := fun h => hbare (colonFree_iff.2 h)
    have htwo : colons (block.scope.unalias (qualified qualifier rawName)) ≠ 1 := by
      have hle := block.scope.colons_le_unalias (qualified qualifier rawName)
      rw [colons_qualified] at hle
      omega
    have hqualified : (block.scope.unalias (qualifier ++ ":" ++ rawName) == query) = false := hother htwo
    rw [hqualified, Bool.or_false, if_neg hbare]

/-- **A block element finds the attribute that is found with its qualifier in front of the bare names.** -/
theorem get?_eq_of_block (hblock : block.blockQualifier? = some qualifier)
    (hplain : plain.blockQualifier? = none) (hscope : plain.scope = block.scope)
    (hentries : plain.attributes.entries =
      block.attributes.entries.map fun entry => (withQualifier qualifier entry.1, entry.2))
    (hquery : colons query = 1) : block.get? query = plain.get? query := by
  have hanswers : (fun entry : String × String => block.answers query entry.1) =
      fun entry => plain.answers query (withQualifier qualifier entry.1) := by
    funext entry
    rw [answers_of_block hblock hquery, answers_of_plain hplain, hscope]
  rw [get?, get?, hentries, List.find?_map, Option.map_map, hanswers]
  simp only [Function.comp_def]

/-- **Bare attributes of a block element belong to its qualifier**: it answers every query with one colon as
    an element with another name does that has the qualifier written in front of them. -/
theorem get?_of_block (scope : Scope) (attributes : Attributes) (location location' : Location)
    {qualifier name query : String} (hne : qualifier ≠ "")
    (hname : ∀ other, other ≠ "" → name ≠ qualified other "block")
    (hnodup : (attributes.qualifiedNames qualifier).Nodup)
    (hquery : colons query = 1) :
    get? ⟨qualified qualifier "block", attributes, location, scope⟩ query =
        get? ⟨name, attributes.qualify qualifier hnodup, location', scope⟩ query ∧
      has ⟨qualified qualifier "block", attributes, location, scope⟩ query =
        has ⟨name, attributes.qualify qualifier hnodup, location', scope⟩ query := by
  have hblock : blockQualifier? ⟨qualified qualifier "block", attributes, location, scope⟩ = some qualifier :=
    blockQualifier?_eq_some_iff.2 ⟨hne, rfl⟩
  have hplain : blockQualifier? ⟨name, attributes.qualify qualifier hnodup, location', scope⟩ = none := by
    refine Option.eq_none_iff_forall_ne_some.2 fun other hother => ?_
    obtain ⟨hother, hblock⟩ := blockQualifier?_eq_some_iff.1 hother
    exact hname other hother hblock
  have hget : get? ⟨qualified qualifier "block", attributes, location, scope⟩ query =
      get? ⟨name, attributes.qualify qualifier hnodup, location', scope⟩ query :=
    get?_eq_of_block hblock hplain rfl rfl hquery
  refine ⟨hget, ?_⟩
  rw [has, has, hget]

theorem get?_of_block_aliased :
    ∃ (scope : Scope) (attributes : Attributes) (hnodup : (attributes.qualifiedNames "t").Nodup),
      scope.canonical? "t" = some "tal" ∧
        attributes.entries = [("if", "a"), ("tal:if", "b"), ("t:u:if", "c"), ("u", "d")] ∧
        "t" ≠ "" ∧ (∀ other, other ≠ "" → "p" ≠ qualified other "block") ∧ colons "tal:if" = 1 ∧
        get? ⟨qualified "t" "block", attributes, .after "" 0, scope⟩ "tal:if" = some "a" ∧
        get? ⟨qualified "t" "block", attributes, .after "" 0, scope⟩ "tal:if" =
          get? ⟨"p", attributes.qualify "t" hnodup, .after "" 0, scope⟩ "tal:if" ∧
        has ⟨qualified "t" "block", attributes, .after "" 0, scope⟩ "tal:if" =
          has ⟨"p", attributes.qualify "t" hnodup, .after "" 0, scope⟩ "tal:if" := by
  have hname : ∀ other, other ≠ "" → "p" ≠ qualified other "block" := fun other _ h =>
    not_colonFree_qualified (h ▸ (by decide : ColonFree "p"))
  let scope : Scope := ⟨[⟨0, .ofList [("t", "tal")]⟩]⟩
  let attributes : Attributes := .ofList [("if", "a"), ("tal:if", "b"), ("t:u:if", "c"), ("u", "d")]
  have hnodup : (attributes.qualifiedNames "t").Nodup := by decide
  exact ⟨scope, attributes, hnodup, by decide, by decide, by decide, hname, by decide, by decide,
    get?_of_block scope attributes _ _ (by decide) hname hnodup (by decide)⟩

end Tag

end TalMarkup
