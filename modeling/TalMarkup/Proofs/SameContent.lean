import Mathlib.Data.List.Forall2
import Mathlib.Data.List.Perm.Subperm
import TalMarkup.Proofs.Aliases

/-!
# What sameness of scopes means

`Bindings.sameContent` counts the entries of both sides and looks one way only. As no name is bound twice,
this is enough: bindings have the same content exactly if every name has the same value in both
(**`Bindings.sameContent_iff`**). So scopes are the same exactly if they have as many levels, with the same
aliases level by level (**`Scope.beq_iff`**), whatever the stamps of the levels are.

A tag makes a new level exactly if it binds an alias (`Scope.Binds`); here its attributes may be any pairs.
-/

namespace TalMarkup

/-! ## 1. Bindings -/

namespace Bindings

variable {a b : Bindings}

theorem mem_names_iff {bindings : Bindings} {name : String} :
    name ∈ bindings.entries.map Prod.fst ↔ ∃ value, bindings.get? name = some value := by
  rw [List.mem_map]
  constructor
  · rintro ⟨⟨_, value⟩, hentry, rfl⟩
    exact ⟨value, get?_of_mem hentry⟩
  · rintro ⟨value, hget⟩
    exact ⟨(name, value), mem_of_get? hget, rfl⟩

/-- Bindings with the same content bind what is bound in the first of them to the same value. -/
theorem get?_of_sameContent (h : a.sameContent b = true) {name value : String}
    (hget : a.get? name = some value) : b.get? name = some value := by
  rw [sameContent, Bool.and_eq_true, List.all_eq_true] at h
  exact beq_iff_eq.1 (h.2 (name, value) (mem_of_get? hget))

/-- They bind the same names: all names of the first are names of the second, and there are as many. -/
theorem names_perm_of_sameContent (h : a.sameContent b = true) :
    (a.entries.map Prod.fst).Perm (b.entries.map Prod.fst) := by
  have hsub : a.entries.map Prod.fst ⊆ b.entries.map Prod.fst := by
    intro name hname
    obtain ⟨value, hget⟩ := mem_names_iff.1 hname
    exact mem_names_iff.2 ⟨value, get?_of_sameContent h hget⟩
  rw [sameContent, Bool.and_eq_true, beq_iff_eq] at h
  refine (List.subperm_of_subset a.nodup hsub).perm_of_length_le ?_
  rw [List.length_map, List.length_map]
  exact Nat.le_of_eq h.1.symm

/-- **Bindings have the same content exactly if every name has the same value in both.** -/
theorem sameContent_iff : a.sameContent b = true ↔ ∀ name, a.get? name = b.get? name := by
  constructor
  · intro h name
    rcases hget : a.get? name with _ | value
    · rcases hget' : b.get? name with _ | value'
      · rfl
      · have hname := (names_perm_of_sameContent h).mem_iff.2 (mem_names_iff.2 ⟨value', hget'⟩)
        obtain ⟨value, hvalue⟩ := mem_names_iff.1 hname
        rw [hget] at hvalue
        cases hvalue
    · exact (get?_of_sameContent h hget).symm
  · intro h
    have hperm : (a.entries.map Prod.fst).Perm (b.entries.map Prod.fst) := by
      refine (List.perm_ext_iff_of_nodup a.nodup b.nodup).2 fun name => ?_
      rw [mem_names_iff, mem_names_iff, h name]
    rw [sameContent, Bool.and_eq_true, beq_iff_eq, List.all_eq_true]
    refine ⟨?_, ?_⟩
    · have hlength := hperm.length_eq
      rwa [List.length_map, List.length_map] at hlength
    · rintro ⟨name, value⟩ hentry
      exact beq_iff_eq.2 ((h name).symm.trans (get?_of_mem hentry))

theorem bind_ne_nil (name value : String) (entries : List (String × String)) : bind name value entries ≠ [] := by
  cases entries with
  | nil => exact List.cons_ne_nil _ _
  | cons entry rest =>
    rw [bind]
    split <;> exact List.cons_ne_nil _ _

/-- Whatever is bound leaves something bound. -/
theorem isEmpty_ofList (pairs : List (String × String)) : (ofList pairs).isEmpty = pairs.isEmpty := by
  rcases List.eq_nil_or_concat pairs with rfl | ⟨front, last, rfl⟩
  · rfl
  · rw [List.concat_eq_append, ofList, List.foldl_append,
      List.isEmpty_eq_false_iff.2 (List.append_ne_nil_of_right_ne_nil front (List.cons_ne_nil last []))]
    exact List.isEmpty_eq_false_iff.2 (bind_ne_nil _ _ _)

end Bindings

/-! ## 2. Scopes -/

namespace Scope

/-- **Scopes are the same exactly if they have as many levels, with the same aliases level by level.** -/
theorem beq_iff {a b : Scope} :
    (a == b) = true ↔
      List.Forall₂ (fun x y => ∀ aliasName, x.aliases.get? aliasName = y.aliases.get? aliasName)
        a.levels b.levels := by
  show (a.levels.length == b.levels.length && _) = true ↔ _
  rw [Bool.and_eq_true, beq_iff_eq, List.all_eq_true, List.forall₂_iff_zip]
  refine and_congr_right fun _ => ?_
  constructor
  · exact fun h x y hmem => Bindings.sameContent_iff.1 (h (x, y) hmem)
  · rintro h ⟨x, y⟩ hmem
    exact Bindings.sameContent_iff.2 (h hmem)

theorem beq_self (scope : Scope) : (scope == scope) = true := Alike.beq rfl

theorem eq_empty_of_stamp? {scope : Scope} (h : scope.stamp? = none) : scope = .empty := by
  rcases scope with ⟨_ | ⟨level, levels⟩⟩
  · rfl
  · cases h

/-- Some of the pairs binds an alias: it is an attribute for the alias, and its value is a known
    namespace. -/
def Binds (registry : Registry) (attributes : List (String × String)) : Prop :=
  ∃ aliasName uri, (aliasAttribute aliasName, uri) ∈ attributes ∧ registry.canonical? uri ≠ none

variable {registry : Registry} {attributes : List (String × String)}

theorem isEmpty_declared_iff : (declared registry attributes).isEmpty = true ↔ ¬ Binds registry attributes := by
  rw [declared, Bindings.isEmpty_ofList, List.isEmpty_iff, List.filterMap_eq_nil_iff]
  constructor
  · rintro h ⟨aliasName, uri, hmem, huri⟩
    obtain ⟨canonical, hcanonical⟩ := Option.ne_none_iff_exists'.1 huri
    have hnone := h (aliasAttribute aliasName, uri) hmem
    simp [declaration?, declaredAlias?_eq_some_iff.2 rfl, hcanonical] at hnone
  · rintro h ⟨name, uri⟩ hmem
    show declaration? registry name uri = none
    rcases hdeclared : declaration? registry name uri with _ | ⟨aliasName, canonical⟩
    · rfl
    · obtain ⟨rfl, hcanonical⟩ := alias_of_declaration hdeclared
      exact absurd ⟨aliasName, uri, hmem, hcanonical ▸ Option.some_ne_none canonical⟩ h

/-- **A tag that binds an alias makes a level** with the first free stamp. -/
theorem declare_of_binds (h : Binds registry attributes) (scope : Scope) (next : Nat) :
    scope.declare registry attributes next = scope.extend (declared registry attributes) next := by
  rw [declare, if_neg fun hempty => isEmpty_declared_iff.1 hempty h]

theorem declare_of_not_binds (h : ¬ Binds registry attributes) (scope : Scope) (next : Nat) :
    scope.declare registry attributes next = (scope, next) := by
  rw [declare, if_pos (isEmpty_declared_iff.2 h)]

end Scope

end TalMarkup
