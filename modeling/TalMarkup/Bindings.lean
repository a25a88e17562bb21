/-!
# Bindings in the order they were made

A `Bindings` maps names to values and keeps the names in the order in which they were first bound.
Binding a name again replaces its value and leaves its place.

Two bindings are equal (`=`) if they agree on everything, order included; they have the same content
(`sameContent`) if every name is bound to the same value in both.
-/

namespace TalMarkup

/-- Names bound to values, in the order in which the names were first bound. -/
structure Bindings where
  entries : List (String × String)
  /-- A name is bound once. -/
  nodup : (entries.map Prod.fst).Nodup
deriving DecidableEq

namespace Bindings

/-- The entries with `name` bound to `value`: in its place if it is there, at the end otherwise. -/
def bind (name value : String) : List (String × String) → List (String × String)
  | [] => [(name, value)]
  | entry :: rest =>
    if entry.1 = name then (name, value) :: rest else entry :: bind name value rest

/-- The names after binding one more: a new name comes last. -/
theorem names_bind (name value : String) (entries : List (String × String)) :
    (bind name value entries).map Prod.fst =
      if name ∈ entries.map Prod.fst then entries.map Prod.fst
      else entries.map Prod.fst ++ [name] := by
  induction entries with
  | nil => rfl
  | cons entry rest ih =>
    by_cases h : entry.1 = name
    · simp [bind, h]
    · simp only [bind, h, ↓reduceIte, List.map_cons, ih, List.mem_cons, Ne.symm h, false_or]
      split <;> rfl

theorem nodup_bind {name value : String} {entries : List (String × String)}
    (h : (entries.map Prod.fst).Nodup) : ((bind name value entries).map Prod.fst).Nodup := by
  rw [names_bind]
  split
  · exact h
  · rename_i hname
    exact List.nodup_append.2 ⟨h, by simp, fun a ha b hb hab => hname (by simp_all)⟩

/-- Nothing is bound. -/
def empty : Bindings := ⟨[], List.nodup_nil⟩

/-- Binds `name` to `value`. -/
def insert (bindings : Bindings) (name value : String) : Bindings :=
  ⟨bind name value bindings.entries, nodup_bind bindings.nodup⟩

/-- The value that `name` is bound to. -/
def get? (bindings : Bindings) (name : String) : Option String := bindings.entries.lookup name

/-- The name is bound. -/
def contains (bindings : Bindings) (name : String) : Bool := (bindings.get? name).isSome

/-- Binds `name` to `value`, and gives the value that it was bound to before. -/
def exchange (bindings : Bindings) (name value : String) : Option String × Bindings :=
  (bindings.get? name, bindings.insert name value)

/-- Binds the pairs one after the other. -/
def ofList (pairs : List (String × String)) : Bindings :=
  pairs.foldl (fun bindings (name, value) => bindings.insert name value) empty

theorem bind_of_not_mem {name : String} {entries : List (String × String)}
    (h : name ∉ entries.map Prod.fst) (value : String) :
    bind name value entries = entries ++ [(name, value)] := by
  induction entries with
  | nil => rfl
  | cons entry rest ih =>
    rw [List.map_cons, List.mem_cons, not_or] at h
    rw [bind, if_neg (Ne.symm h.1), ih h.2, List.cons_append]

/-- **Pairs with different names are bound as they stand.** -/
theorem entries_ofList {pairs : List (String × String)} (h : (pairs.map Prod.fst).Nodup) :
    (ofList pairs).entries = pairs := by
  suffices hfold : ∀ bindings : Bindings, ((bindings.entries ++ pairs).map Prod.fst).Nodup →
      (pairs.foldl (fun bindings (name, value) => bindings.insert name value) bindings).entries =
        bindings.entries ++ pairs from hfold empty h
  clear h
  induction pairs with
  | nil => exact fun bindings _ => (List.append_nil _).symm
  | cons pair pairs ih =>
    intro bindings hnodup
    have hnew : pair.1 ∉ bindings.entries.map Prod.fst := by
      rw [List.map_append, List.map_cons] at hnodup
      exact fun hmem => (List.nodup_append.1 hnodup).2.2 _ hmem _ List.mem_cons_self rfl
    have hinsert : (bindings.insert pair.1 pair.2).entries = bindings.entries ++ [pair] :=
      bind_of_not_mem hnew pair.2
    rw [List.foldl_cons, ih _ (by rwa [hinsert, List.append_assoc]), hinsert, List.append_assoc,
      List.singleton_append]

/-- The number of names bound. -/
def size (bindings : Bindings) : Nat := bindings.entries.length

/-- Nothing is bound. -/
def isEmpty (bindings : Bindings) : Bool := bindings.entries.isEmpty

/-- The place of an entry, counted from 0. -/
def indexOf? (bindings : Bindings) (name value : String) : Option Nat :=
  bindings.entries.findIdx? (· = (name, value))

/-- Every name is bound to the same value in both, whatever the order. -/
def sameContent (a b : Bindings) : Bool :=
  a.size == b.size && a.entries.all fun (name, value) => b.get? name == some value

end Bindings

end TalMarkup
