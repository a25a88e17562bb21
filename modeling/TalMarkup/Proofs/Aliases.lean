import TalMarkup.Namespace.Scope

/-!
# What a tag adds to a scope

The aliases that attributes declare are found again by the attributes themselves: an alias stands for
the canonical qualifier of the value of its `xmlns:` attribute (**`Scope.get?_declared`**). So a scope
extended by a tag asks the tag first, and then the scope around it (`Scope.canonical?_declare`).

Scopes are told apart by the stamp of their last extension (`Scope.stamp?`).
-/

namespace TalMarkup

/-- The name of the attribute that declares an alias. -/
def aliasAttribute (aliasName : String) : String := "xmlns:" ++ aliasName

/-- What the attributes themselves say that an alias stands for. -/
def Bindings.meaning? (attributes : Bindings) (registry : Registry) (aliasName : String) : Option String :=
  (attributes.get? (aliasAttribute aliasName)).bind registry.canonical?

/-- One of the attributes declares an alias of a known namespace. -/
def Bindings.declares (attributes : Bindings) (registry : Registry) : Bool :=
  attributes.entries.any fun (name, uri) =>
    "xmlns:".toList.isPrefixOf name.toList && (registry.canonical? uri).isSome

/-- **No entry is hidden by another.** -/
theorem Bindings.get?_of_mem {bindings : Bindings} {name value : String}
    (h : (name, value) ∈ bindings.entries) : bindings.get? name = some value := by
  obtain ⟨front, back, hsplit⟩ := List.append_of_mem h
  have hnodup := bindings.nodup
  rw [hsplit, List.map_append, List.map_cons, List.nodup_append] at hnodup
  rw [get?, List.lookup_eq_some_iff]
  refine ⟨front, back, hsplit, fun other hother => ?_⟩
  rw [bne_iff_ne]
  exact (hnodup.2.2 other.1 (List.mem_map_of_mem hother) name List.mem_cons_self).symm

theorem Bindings.mem_of_get? {bindings : Bindings} {name value : String}
    (h : bindings.get? name = some value) : (name, value) ∈ bindings.entries := by
  obtain ⟨front, back, hsplit, -⟩ := List.lookup_eq_some_iff.1 h
  rw [hsplit]
  exact List.mem_append_right _ List.mem_cons_self

/-- Bindings have the same content as themselves. -/
theorem Bindings.sameContent_self (bindings : Bindings) : bindings.sameContent bindings = true := by
  rw [sameContent, Bool.and_eq_true, beq_iff_eq, List.all_eq_true]
  exact ⟨rfl, fun entry hentry => beq_iff_eq.2 (get?_of_mem hentry)⟩

namespace Scope

/-! ## 1. Declarations -/

variable {registry : Registry}

theorem declaredAlias?_eq_some_iff {name aliasName : String} :
    declaredAlias? name = some aliasName ↔ name = aliasAttribute aliasName := by
  rw [declaredAlias?, ← String.toList_inj, aliasAttribute, String.toList_append]
  refine ⟨?_, ?_⟩
  · intro h
    split at h
    · rename_i hmark
      obtain ⟨rest, hrest⟩ := List.isPrefixOf_iff_prefix.1 hmark
      have hdrop : name.toList.drop "xmlns:".toList.length = rest := by
        rw [← hrest, List.drop_left]
      rw [Option.some.injEq, hdrop] at h
      have halias : aliasName.toList = rest := by rw [← h, String.toList_ofList]
      rw [halias]
      exact hrest.symm
    · cases h
  · intro h
    have hmark : "xmlns:".toList.isPrefixOf name.toList = true :=
      List.isPrefixOf_iff_prefix.2 ⟨aliasName.toList, h.symm⟩
    simp only [hmark, if_true]
    rw [h, List.drop_left, String.ofList_toList]

theorem alias_of_declaration {name value aliasName canonical : String}
    (h : declaration? registry name value = some (aliasName, canonical)) :
    name = aliasAttribute aliasName ∧ registry.canonical? value = some canonical := by
  simp only [declaration?, Option.bind_eq_bind, Option.bind_eq_some_iff] at h
  obtain ⟨_, halias, _, hvalue, heq⟩ := h
  cases heq
  exact ⟨declaredAlias?_eq_some_iff.1 halias, hvalue⟩

/-- **The declarations among some attributes answer for an alias as its own attribute does.** -/
theorem lookup_declarations {entries : List (String × String)} (h : (entries.map Prod.fst).Nodup)
    (aliasName : String) :
    (entries.filterMap fun (name, value) => declaration? registry name value).lookup aliasName =
      (entries.lookup (aliasAttribute aliasName)).bind registry.canonical? := by
  induction entries with
  | nil => rfl
  | cons entry entries ih =>
    obtain ⟨name, value⟩ := entry
    rw [List.map_cons, List.nodup_cons] at h
    have hrest := ih h.2
    by_cases hname : name = aliasAttribute aliasName
    · subst hname
      have halias : declaredAlias? (aliasAttribute aliasName) = some aliasName :=
        declaredAlias?_eq_some_iff.2 rfl
      have hlookup : entries.lookup (aliasAttribute aliasName) = none :=
        List.lookup_eq_none_iff.2 fun entry hentry => by
          rw [bne_iff_ne]
          intro heq
          exact h.1 (List.mem_map.2 ⟨entry, hentry, heq.symm⟩)
      rw [List.lookup_cons_self, Option.bind_some]
      rcases hvalue : registry.canonical? value with _ | canonical
      · rw [List.filterMap_cons_none (by simp [declaration?, halias, hvalue]), hrest, hlookup]
        rfl
      · rw [List.filterMap_cons_some (b := (aliasName, canonical))
          (by simp [declaration?, halias, hvalue]), List.lookup_cons_self]
    · have hother : (aliasAttribute aliasName == name) = false := beq_eq_false_iff_ne.2 (Ne.symm hname)
      have hlookup : ((name, value) :: entries).lookup (aliasAttribute aliasName) =
          entries.lookup (aliasAttribute aliasName) := by
        rw [List.lookup_cons, hother]
      rw [hlookup, ← hrest]
      rcases hdeclared : declaration? registry name value with _ | ⟨declared, canonical⟩
      · rw [List.filterMap_cons_none (by exact hdeclared)]
      · rw [List.filterMap_cons_some (by exact hdeclared)]
        have hne : (aliasName == declared) = false := by
          rw [beq_eq_false_iff_ne]
          rintro rfl
          exact hname (alias_of_declaration hdeclared).1
        rw [List.lookup_cons, hne]

/-- An alias is declared once at most: its attribute stands once in a tag. -/
theorem nodup_declarations {entries : List (String × String)} (h : (entries.map Prod.fst).Nodup) :
    ((entries.filterMap fun (name, value) => declaration? registry name value).map Prod.fst).Nodup := by
  rw [List.Nodup, List.pairwise_map] at h ⊢
  refine h.filterMap _ fun entry entry' hne declared hdeclared declared' hdeclared' heq => hne ?_
  rw [(alias_of_declaration hdeclared).1, (alias_of_declaration hdeclared').1, heq]

theorem entries_declared (attributes : Bindings) :
    (declared registry attributes.entries).entries =
      attributes.entries.filterMap fun (name, value) => declaration? registry name value :=
  Bindings.entries_ofList (nodup_declarations attributes.nodup)

/-- **A tag says of an alias what the attribute of the alias says.** -/
theorem get?_declared (attributes : Bindings) (aliasName : String) :
    (declared registry attributes.entries).get? aliasName = attributes.meaning? registry aliasName := by
  rw [Bindings.get?, entries_declared, lookup_declarations attributes.nodup]
  rfl

theorem isSome_declaration? (name value : String) :
    (declaration? registry name value).isSome =
      ("xmlns:".toList.isPrefixOf name.toList && (registry.canonical? value).isSome) := by
  rw [declaration?, declaredAlias?]
  split
  · rename_i hmark
    rw [hmark]
    rcases registry.canonical? value with _ | canonical <;> rfl
  · rename_i hmark
    rw [Bool.not_eq_true] at hmark
    rw [hmark]
    rfl

/-- A tag adds nothing to its scope exactly if it declares no alias of a known namespace. -/
theorem isEmpty_declared (attributes : Bindings) :
    (declared registry attributes.entries).isEmpty = !attributes.declares registry := by
  rw [Bindings.isEmpty, entries_declared, Bool.eq_iff_iff, List.isEmpty_iff, List.filterMap_eq_nil_iff,
    Bool.not_eq_true', Bindings.declares, List.any_eq_false]
  refine forall₂_congr fun entry _ => ?_
  rw [← Option.not_isSome_iff_eq_none, isSome_declaration?]

/-! ## 2. The scope of a tag -/

variable {scope inner : Scope} {stamp next : Nat} {attributes : Bindings}

theorem declare_of_declares (h : attributes.declares registry = true) :
    scope.declare registry attributes.entries stamp =
      (⟨⟨stamp, declared registry attributes.entries⟩ :: scope.levels⟩, stamp + 1) := by
  rw [declare, isEmpty_declared, h]
  rfl

theorem declare_of_not_declares (h : attributes.declares registry = false) :
    scope.declare registry attributes.entries stamp = (scope, stamp) := by
  rw [declare, isEmpty_declared, h]
  rfl

/-- **In the scope of a tag an alias means what the tag says, or else what it means around it.** -/
theorem canonical?_declare (h : scope.declare registry attributes.entries stamp = (inner, next))
    (aliasName : String) :
    inner.canonical? aliasName =
      (attributes.meaning? registry aliasName).or (scope.canonical? aliasName) := by
  rw [← get?_declared]
  cases hdeclares : attributes.declares registry with
  | true =>
    rw [declare_of_declares hdeclares] at h
    obtain ⟨rfl, -⟩ := Prod.mk.inj h
    simp only [canonical?, List.findSome?_cons]
    rcases (declared registry attributes.entries).get? aliasName with _ | canonical <;> rfl
  | false =>
    rw [declare_of_not_declares hdeclares] at h
    obtain ⟨rfl, -⟩ := Prod.mk.inj h
    have hnil : (declared registry attributes.entries).entries = [] := by
      rw [← List.isEmpty_iff, ← Bindings.isEmpty, isEmpty_declared, hdeclares]
      rfl
    rw [Bindings.get?, hnil]
    rfl

theorem stamp_le_of_declare (h : scope.declare registry attributes.entries stamp = (inner, next)) :
    stamp ≤ next := by
  cases hdeclares : attributes.declares registry with
  | true =>
    rw [declare_of_declares hdeclares] at h
    have hnext := (Prod.mk.inj h).2
    omega
  | false =>
    rw [declare_of_not_declares hdeclares] at h
    exact Nat.le_of_eq (Prod.mk.inj h).2

/-! ## 3. Content and identity -/

/-- The scopes have the same aliases level by level, whatever the stamps of their levels are. -/
def Alike (scope scope' : Scope) : Prop := scope.levels.map (·.aliases) = scope'.levels.map (·.aliases)

variable {scope' : Scope}

/-- **Alike scopes have the same content.** -/
theorem Alike.beq (h : scope.Alike scope') : (scope == scope') = true := by
  have hlength : scope.levels.length = scope'.levels.length := by
    rw [← List.length_map (·.aliases), h, List.length_map]
  have hlevels : ∀ pair ∈ scope.levels.zip scope'.levels,
      pair.1.aliases.sameContent pair.2.aliases = true := by
    intro pair hpair
    obtain ⟨i, hi, rfl⟩ := List.getElem_of_mem hpair
    rw [List.length_zip] at hi
    have haliases := List.getElem_of_eq h (by rw [List.length_map]; omega : i < _)
    rw [List.getElem_map, List.getElem_map] at haliases
    rw [List.getElem_zip, haliases]
    exact Bindings.sameContent_self _
  show (scope.levels.length == scope'.levels.length && _) = true
  rw [Bool.and_eq_true, beq_iff_eq, List.all_eq_true]
  exact ⟨hlength, hlevels⟩

/-- **Alike scopes stay alike in what a tag makes of them.** -/
theorem Alike.declare (h : scope.Alike scope') (registry : Registry) (attributes : Bindings)
    (stamp stamp' : Nat) :
    (scope.declare registry attributes.entries stamp).1.Alike
      (scope'.declare registry attributes.entries stamp').1 := by
  cases hdeclares : attributes.declares registry with
  | true =>
    rw [declare_of_declares hdeclares, declare_of_declares hdeclares]
    exact congrArg (declared registry attributes.entries :: ·) h
  | false =>
    rw [declare_of_not_declares hdeclares, declare_of_not_declares hdeclares]
    exact h

/-- The stamp of the last extension of a scope. -/
def stamp? (scope : Scope) : Option Nat := scope.levels.head?.map Level.stamp

theorem isEmpty_iff : scope.isEmpty = true ↔ scope.stamp? = none := by
  rcases scope with ⟨_ | ⟨level, levels⟩⟩
  · exact ⟨fun _ => rfl, fun _ => rfl⟩
  · exact ⟨nofun, nofun⟩

theorem shares_iff : scope.shares inner = true ↔ scope.stamp? = inner.stamp? := beq_iff_eq

end Scope

end TalMarkup
