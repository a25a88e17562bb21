import TalMarkup.Proofs.BindingOrder
import TalMarkup.Proofs.Qualifiers

/-!
# Setting an attribute

Setting an attribute goes by its raw name, and looking one up by what the scope and the element make of raw names.
So several names may answer one query, and one name may answer two. What setting does to a query is read off the
place that the name has among the attributes: the entries in front of it and those behind it stay
(`Bindings.entries_insert`), so a test of names finds another entry than before only if the name passes it and none
in front of it does (`Bindings.find?_insert_of_fails` and its neighbours).

**`Node.setAttribute?_element`** says of every element what becomes of it.
-/

namespace TalMarkup

/-! ## 1. The place of a name -/

namespace Bindings

variable (bindings : Bindings) (name value : String)

/-- The entries in front of the place of a name: of the one it has, or of the end if it has none. -/
def before : List (String × String) := bindings.entries.takeWhile fun entry => entry.1 ≠ name

/-- The entries behind the place of a name. -/
def behind : List (String × String) := (bindings.entries.dropWhile fun entry => entry.1 ≠ name).tail

/-- **A name that is bound stands between the entries in front of its place and those behind it.** -/
theorem entries_eq :
    bindings.entries =
      bindings.before name ++ (((bindings.get? name).map (name, ·)).toList ++ bindings.behind name) := by
  rw [before, behind, get?]
  induction bindings.entries with
  | nil => rfl
  | cons entry rest ih =>
    by_cases hname : entry.1 = name
    · subst hname
      rw [lookup_cons, if_pos rfl]
      simp
    · rw [List.takeWhile_cons_of_pos (by simpa using hname), List.dropWhile_cons_of_pos (by simpa using hname),
        lookup_cons, if_neg (Ne.symm hname), List.cons_append, ← ih]

/-- **Binding a name puts it in its place.** -/
theorem entries_insert :
    (bindings.insert name value).entries = bindings.before name ++ (name, value) :: bindings.behind name := by
  rw [before, behind]
  show bind name value bindings.entries = _
  induction bindings.entries with
  | nil => rfl
  | cons entry rest ih =>
    by_cases hname : entry.1 = name
    · simp [bind, hname]
    · rw [List.takeWhile_cons_of_pos (by simpa using hname), List.dropWhile_cons_of_pos (by simpa using hname),
        bind, if_neg hname, ih, List.cons_append]

/-! ## 2. What is found by a test of names -/

variable {bindings name} {test : String → Bool}

/-- **Binding a name that fails a test leaves the first entry that passes it.** -/
theorem find?_insert_of_fails (h : test name = false) :
    ((bindings.insert name value).entries.find? fun entry => test entry.1) =
      bindings.entries.find? fun entry => test entry.1 := by
  have hown : (((bindings.get? name).map (name, ·)).toList.find? fun entry => test entry.1) = none := by
    rw [List.find?_eq_none]
    intro entry hentry
    obtain ⟨former, -, rfl⟩ := Option.map_eq_some_iff.1 (Option.mem_toList.1 hentry)
    rw [Bool.not_eq_true, h]
  rw [entries_insert, List.find?_append, List.find?_cons_of_neg (by rw [Bool.not_eq_true, h])]
  conv_rhs => rw [entries_eq bindings name, List.find?_append, List.find?_append, hown, Option.none_or]

/-- It leaves it, too, where one in front of its place passes. -/
theorem find?_insert_of_before (h : ∃ entry ∈ bindings.before name, test entry.1 = true) :
    ((bindings.insert name value).entries.find? fun entry => test entry.1) =
      bindings.entries.find? fun entry => test entry.1 := by
  obtain ⟨found, hfound⟩ := Option.isSome_iff_exists.1 (List.find?_isSome.2 h)
  rw [entries_insert, List.find?_append, hfound, Option.some_or]
  conv_rhs => rw [entries_eq bindings name, List.find?_append, hfound, Option.some_or]

/-- **A name that passes is found with its new value, unless one in front of its place passes.** -/
theorem find?_insert_of_passes (h : test name = true)
    (hbefore : ∀ entry ∈ bindings.before name, test entry.1 = false) :
    ((bindings.insert name value).entries.find? fun entry => test entry.1) = some (name, value) := by
  have hnone : ((bindings.before name).find? fun entry => test entry.1) = none :=
    List.find?_eq_none.2 fun entry hentry => by rw [Bool.not_eq_true, hbefore entry hentry]
  rw [entries_insert, List.find?_append, hnone, Option.none_or]
  exact List.find?_cons_of_pos h

end Bindings

/-! ## 3. Queries -/

namespace Tag

/-- An attribute of this raw name answers the query: the scope makes the name, or in an element named `P:block` the
    name with `P:` in front of it, the name that is asked for. -/
def Answers (tag : Tag) (query rawName : String) : Prop :=
  tag.scope.unalias rawName = query ∨
    ∃ qualifier, qualifier ≠ "" ∧ tag.name = qualified qualifier "block" ∧
      tag.scope.unalias (qualified qualifier rawName) = query

variable {tag : Tag} {query rawName value : String}

theorem answers_iff : tag.answers query rawName = true ↔ tag.Answers query rawName := by
  rw [answers, Bool.or_eq_true, beq_iff_eq, Option.any_eq_true, Answers]
  simp only [blockQualifier?_eq_some_iff, beq_iff_eq, and_assoc]
  rfl

theorem answers_eq_false_iff : tag.answers query rawName = false ↔ ¬ tag.Answers query rawName := by
  rw [← answers_iff, Bool.not_eq_true]

end Tag

/-! ## 4. Elements -/

/-- What setting an attribute makes of an element: the former value of the name, and the tag afterwards. -/
structure SetsAttribute (tag : Tag) (rawName value : String) (former? : Option String) (after : Tag) : Prop where
  /-- The value that the name had, if it had one. -/
  former_iff : ∀ former, former? = some former ↔ (rawName, former) ∈ tag.attributes.entries
  /-- A query that the name does not answer finds what it found. -/
  unanswered : ∀ query, ¬ tag.Answers query rawName → after.get? query = tag.get? query
  /-- One that it answers finds the new value, if no attribute in front of the name's place answers. -/
  answered : ∀ query, tag.Answers query rawName →
    (∀ entry ∈ tag.attributes.before rawName, ¬ tag.Answers query entry.1) → after.get? query = some value
  /-- If one there answers, it finds what it found. -/
  hidden : ∀ query, (∃ entry ∈ tag.attributes.before rawName, tag.Answers query entry.1) →
    after.get? query = tag.get? query
  name_eq : after.name = tag.name
  location_eq : after.location = tag.location
  scope_eq : after.scope = tag.scope

theorem Tag.setsAttribute (tag : Tag) (rawName value : String) :
    SetsAttribute tag rawName value (tag.setAttribute rawName value).1 (tag.setAttribute rawName value).2 := by
  constructor
  case former_iff =>
    exact fun former => ⟨Bindings.mem_of_get?, Bindings.get?_of_mem⟩
  case unanswered =>
    intro query h
    exact congrArg (Option.map Prod.snd) (Bindings.find?_insert_of_fails value (answers_eq_false_iff.2 h))
  case answered =>
    intro query h hbefore
    exact congrArg (Option.map Prod.snd) (Bindings.find?_insert_of_passes value (answers_iff.2 h)
      fun entry hentry => answers_eq_false_iff.2 (hbefore entry hentry))
  case hidden =>
    rintro query ⟨entry, hentry, h⟩
    exact congrArg (Option.map Prod.snd) (Bindings.find?_insert_of_before value ⟨entry, hentry, answers_iff.2 h⟩)
  case name_eq => rfl
  case location_eq => rfl
  case scope_eq => rfl

/-- **Setting an attribute of an element changes only the queries that its raw name answers**, and not those that an
    attribute in front of it answers. The children stay, and so do the name, the location and the scope, whatever
    the attribute is. -/
theorem Node.setAttribute?_element (tag : Tag) (children : List Node) (rawName value : String) :
    ∃ former? after,
      (Node.element tag children).setAttribute? rawName value = some (former?, .element after children) ∧
        SetsAttribute tag rawName value former? after :=
  ⟨_, _, rfl, tag.setsAttribute rawName value⟩

end TalMarkup
