import Mathlib.Data.Finset.Card
import Mathlib.Data.List.Induction
import TalMarkup.Bindings

/-!
# What pairs are bound to

Pairs that are bound one after the other leave each name once, where it was bound first
(**`Bindings.names_ofList`**), with the value that it was bound to last (**`Bindings.get?_ofList`**). Both go
by induction from the end of the pairs: the last of them is bound to what the others leave
(`Bindings.ofList_concat`).
-/

namespace TalMarkup.Bindings

theorem lookup_cons (name : String) (entry : String × String) (rest : List (String × String)) :
    (entry :: rest).lookup name = if name = entry.1 then some entry.2 else rest.lookup name := by
  by_cases h : name = entry.1
  · rw [List.lookup_cons, if_pos h, beq_iff_eq.2 h]
  · rw [List.lookup_cons, if_neg h, beq_eq_false_iff_ne.2 h]

/-- **Binding a name changes what this name is bound to, and nothing else.** -/
theorem lookup_bind (name value other : String) (entries : List (String × String)) :
    (bind name value entries).lookup other = if other = name then some value else entries.lookup other := by
  induction entries with
  | nil => exact lookup_cons other (name, value) []
  | cons entry rest ih =>
    by_cases hentry : entry.1 = name
    · rw [bind, if_pos hentry, lookup_cons, lookup_cons, hentry]
      split <;> rfl
    · rw [bind, if_neg hentry, lookup_cons, lookup_cons, ih]
      by_cases h : other = name
      · rw [if_neg (h ▸ Ne.symm hentry), if_pos h, if_pos h]
      · rw [if_neg h, if_neg h]

theorem get?_insert (bindings : Bindings) (name value other : String) :
    (bindings.insert name value).get? other = if other = name then some value else bindings.get? other :=
  lookup_bind name value other bindings.entries

theorem ofList_concat (pairs : List (String × String)) (pair : String × String) :
    ofList (pairs ++ [pair]) = (ofList pairs).insert pair.1 pair.2 := by
  rw [ofList, List.foldl_append]
  rfl

theorem eraseDups_concat (names : List String) (name : String) :
    (names ++ [name]).eraseDups = if name ∈ names then names.eraseDups else names.eraseDups ++ [name] := by
  rw [List.eraseDups_append]
  by_cases h : name ∈ names <;> simp [List.removeAll, h, List.eraseDups_cons]

/-- **The names are bound in the order in which they come first.** -/
theorem names_ofList (pairs : List (String × String)) :
    (ofList pairs).entries.map Prod.fst = (pairs.map Prod.fst).eraseDups := by
  induction pairs using List.reverseRecOn with
  | nil => rfl
  | append_singleton pairs pair ih =>
    rw [ofList_concat, insert, names_bind, List.map_append, List.map_singleton, eraseDups_concat]
    simp only [ih, List.mem_eraseDups]

/-- **A name is bound to the value of the last pair that has it.** -/
theorem get?_ofList (pairs : List (String × String)) (name : String) :
    (ofList pairs).get? name = pairs.reverse.lookup name := by
  induction pairs using List.reverseRecOn with
  | nil => rfl
  | append_singleton pairs pair ih =>
    rw [ofList_concat, get?_insert, ih, List.reverse_append, List.reverse_singleton, List.singleton_append,
      lookup_cons]

/-- **As many names are bound as the pairs have different ones.** -/
theorem size_ofList (pairs : List (String × String)) :
    (ofList pairs).size = (pairs.map Prod.fst).toFinset.card := by
  have hnames : ((ofList pairs).entries.map Prod.fst).toFinset = (pairs.map Prod.fst).toFinset := by
    ext name
    rw [List.mem_toFinset, List.mem_toFinset, names_ofList, List.mem_eraseDups]
  rw [← hnames, List.toFinset_card_of_nodup (ofList pairs).nodup, List.length_map, size]

/-- Each pair has a binding of its own exactly if no name comes twice. -/
theorem size_ofList_eq_length_iff (pairs : List (String × String)) :
    (ofList pairs).size = pairs.length ↔ (pairs.map Prod.fst).Nodup := by
  rw [size_ofList, ← List.length_map Prod.fst]
  exact Multiset.toFinset_card_eq_card_iff_nodup

end TalMarkup.Bindings
