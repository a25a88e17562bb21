import TalMarkup.Proofs.BindingOrder
import TalMarkup.Proofs.SameContent

/-!
# The algebra of declarations

The pairs that a tag hands to a scope may repeat names, and may name unknown namespaces. What they say of an alias
is what the last of them says that is an attribute for the alias and has a known namespace as its value
(`Scope.lastBinding?`). This is all that counts: a scope extended by the pairs asks them first
(`Scope.canonical?_declare_pairs`), and it is the same for two lists of pairs exactly if they say the same of every
alias (`Scope.declare_beq_iff`).

Scopes that are derived in many `Scope.Step`s answer with the most recent binding, by induction on the steps
(`Scope.canonical?_derive`). Every step that binds something adds a level, so what was derived by it is not the
same as what it was derived from (`Scope.derive_beq_of_binds`).

**`Scope.declarationLaws`** puts these together.
-/

namespace TalMarkup

/-- Nothing is bound exactly if every name has no value. -/
theorem Bindings.isEmpty_iff_get? {bindings : Bindings} :
    bindings.isEmpty = true ↔ ∀ name, bindings.get? name = none := by
  rw [isEmpty, List.isEmpty_iff]
  constructor
  · intro h name
    rw [get?, h]
    rfl
  · intro h
    refine List.eq_nil_iff_forall_not_mem.2 fun entry hentry => ?_
    have hnone := h entry.1
    rw [get?_of_mem hentry] at hnone
    cases hnone

namespace Scope

variable {registry : Registry} {scope : Scope} {pairs pairs' : List (String × String)} {next next' : Nat}

/-! ## 1. What pairs say of an alias -/

/-- What a pair says that an alias stands for. -/
def pairBinding? (registry : Registry) (aliasName : String) (pair : String × String) : Option String :=
  if pair.1 = aliasAttribute aliasName then registry.canonical? pair.2 else none

/-- What the last of the pairs says that says anything of an alias. -/
def lastBinding? (registry : Registry) (pairs : List (String × String)) (aliasName : String) : Option String :=
  pairs.reverse.findSome? (pairBinding? registry aliasName)

theorem declaration?_eq_some_iff {name uri aliasName canonical : String} :
    declaration? registry name uri = some (aliasName, canonical) ↔
      name = aliasAttribute aliasName ∧ registry.canonical? uri = some canonical := by
  refine ⟨alias_of_declaration, ?_⟩
  rintro ⟨rfl, hcanonical⟩
  rw [declaration?, declaredAlias?_eq_some_iff.2 rfl, hcanonical]
  rfl

theorem pairBinding?_eq_some_iff {pair : String × String} {aliasName canonical : String} :
    pairBinding? registry aliasName pair = some canonical ↔
      declaration? registry pair.1 pair.2 = some (aliasName, canonical) := by
  rw [declaration?_eq_some_iff, pairBinding?, Option.ite_none_right_eq_some]

/-- Among declarations the first one of an alias is found. -/
theorem lookup_filterMap_declaration (pairs : List (String × String)) (aliasName : String) :
    (pairs.filterMap fun (name, uri) => declaration? registry name uri).lookup aliasName =
      pairs.findSome? (pairBinding? registry aliasName) := by
  have hpair : ∀ pair : String × String,
      (declaration? registry pair.1 pair.2).bind
          (fun declared => if aliasName == declared.1 then some declared.2 else none) =
        pairBinding? registry aliasName pair := by
    intro pair
    refine Option.ext fun canonical => ?_
    rw [pairBinding?_eq_some_iff, Option.bind_eq_some_iff]
    constructor
    · rintro ⟨⟨declared, other⟩, hdeclared, hfound⟩
      rw [Option.ite_none_right_eq_some, beq_iff_eq] at hfound
      obtain ⟨rfl, hother⟩ := hfound
      cases hother
      exact hdeclared
    · intro hdeclared
      exact ⟨_, hdeclared, if_pos (beq_self_eq_true aliasName)⟩
  rw [List.lookup_eq_findSome?, ← List.head?_filterMap, List.filterMap_filterMap, List.head?_filterMap]
  exact congrArg (pairs.findSome? ·) (funext hpair)

/-- **The pairs bind an alias as the last of them says.** -/
theorem get?_declared_pairs (pairs : List (String × String)) (aliasName : String) :
    (declared registry pairs).get? aliasName = lastBinding? registry pairs aliasName := by
  rw [declared, Bindings.get?_ofList, ← List.filterMap_reverse, lookup_filterMap_declaration, lastBinding?]

/-- **Pairs bind something exactly if they say something of some alias.** -/
theorem binds_iff : Binds registry pairs ↔ ∃ aliasName, lastBinding? registry pairs aliasName ≠ none := by
  rw [← not_iff_not, ← isEmpty_declared_iff, Bindings.isEmpty_iff_get?, not_exists]
  simp only [get?_declared_pairs, ne_eq, not_not]

/-! ## 2. A scope extended by pairs -/

theorem canonical?_extend (scope : Scope) (aliases : Bindings) (next : Nat) (aliasName : String) :
    (scope.extend aliases next).1.canonical? aliasName =
      (aliases.get? aliasName).or (scope.canonical? aliasName) := by
  simp only [extend, canonical?, List.findSome?_cons]
  rcases aliases.get? aliasName with _ | canonical <;> rfl

/-- **In a scope extended by pairs an alias means what the pairs say, or else what it meant before.** -/
theorem canonical?_declare_pairs (scope : Scope) (registry : Registry) (pairs : List (String × String))
    (next : Nat) (aliasName : String) :
    (scope.declare registry pairs next).1.canonical? aliasName =
      (lastBinding? registry pairs aliasName).or (scope.canonical? aliasName) := by
  by_cases hbinds : Binds registry pairs
  · rw [declare_of_binds hbinds, canonical?_extend, get?_declared_pairs]
  · rw [declare_of_not_binds hbinds]
    rw [binds_iff, not_exists] at hbinds
    rw [not_not.1 (hbinds aliasName), Option.none_or]

/-- Scopes with different numbers of levels are not the same. -/
theorem beq_eq_false_of_length {a b : Scope} (h : a.levels.length ≠ b.levels.length) : (a == b) = false := by
  rw [Bool.eq_false_iff]
  intro hsame
  exact h (beq_iff.1 hsame).length_eq

/-- **Two lists of pairs extend a scope to the same exactly if they say the same of every alias.** -/
theorem declare_beq_iff (scope : Scope) (registry : Registry) (pairs pairs' : List (String × String))
    (next next' : Nat) :
    ((scope.declare registry pairs next).1 == (scope.declare registry pairs' next').1) = true ↔
      ∀ aliasName, lastBinding? registry pairs aliasName = lastBinding? registry pairs' aliasName := by
  have hcongr : (∀ aliasName, lastBinding? registry pairs aliasName = lastBinding? registry pairs' aliasName) →
      (Binds registry pairs ↔ Binds registry pairs') := by
    intro h
    rw [binds_iff, binds_iff]
    simp only [h]
  by_cases hbinds : Binds registry pairs <;> by_cases hbinds' : Binds registry pairs'
  · -- one level more on both sides
    rw [declare_of_binds hbinds, declare_of_binds hbinds', beq_iff]
    simp only [extend, List.forall₂_cons, get?_declared_pairs]
    exact and_iff_left (beq_iff.1 scope.beq_self)
  · refine iff_of_false ?_ fun h => hbinds' ((hcongr h).1 hbinds)
    rw [declare_of_binds hbinds, declare_of_not_binds hbinds', Bool.not_eq_true]
    exact beq_eq_false_of_length (Nat.succ_ne_self _)
  · refine iff_of_false ?_ fun h => hbinds ((hcongr h).2 hbinds')
    rw [declare_of_not_binds hbinds, declare_of_binds hbinds', Bool.not_eq_true]
    exact beq_eq_false_of_length (Nat.succ_ne_self _).symm
  · rw [declare_of_not_binds hbinds, declare_of_not_binds hbinds']
    rw [binds_iff, not_exists] at hbinds hbinds'
    refine iff_of_true scope.beq_self fun aliasName => ?_
    rw [not_not.1 (hbinds aliasName), not_not.1 (hbinds' aliasName)]

/-! ## 3. The order of pairs -/

/-- What pairs say of an alias is said by those that are its attribute. -/
theorem lastBinding?_filter (pairs : List (String × String)) (aliasName : String) :
    lastBinding? registry (pairs.filter fun pair => pair.1 = aliasAttribute aliasName) aliasName =
      lastBinding? registry pairs aliasName := by
  rw [lastBinding?, lastBinding?, ← List.filter_reverse]
  induction pairs.reverse with
  | nil => rfl
  | cons pair pairs ih =>
    by_cases hname : pair.1 = aliasAttribute aliasName
    · rw [List.filter_cons_of_pos (by simpa using hname), List.findSome?_cons, List.findSome?_cons, ih]
    · rw [List.filter_cons_of_neg (by simpa using hname), ih, List.findSome?_cons, pairBinding?, if_neg hname]

/-- Pairs with different names can be put in any order, and those of one name stand as before. -/
theorem filter_eq_of_perm (hperm : pairs.Perm pairs') (hnodup : (pairs.map Prod.fst).Nodup) (name : String) :
    (pairs.filter fun pair => pair.1 = name) = pairs'.filter fun pair => pair.1 = name := by
  have hfilter := hperm.filter fun pair => pair.1 = name
  have hnames := hnodup.sublist ((List.filter_sublist (p := fun pair : String × String => pair.1 = name)
    (l := pairs)).map Prod.fst)
  have hmem : ∀ pair ∈ pairs.filter (fun pair => pair.1 = name), pair.1 = name := by simp
  rcases hfront : pairs.filter (fun pair => pair.1 = name) with _ | ⟨pair, _ | ⟨other, rest⟩⟩
  · rw [hfront] at hfilter
    exact hfront.trans (List.nil_perm.1 hfilter).symm
  · rw [hfront] at hfilter
    exact hfront.trans (List.singleton_perm.1 hfilter)
  · -- the name cannot stand twice
    rw [hfront] at hnames hmem
    have hpair := hmem pair List.mem_cons_self
    have hother := hmem other (List.mem_cons_of_mem _ List.mem_cons_self)
    rw [List.map_cons, List.map_cons, List.nodup_cons, hpair, hother] at hnames
    exact absurd List.mem_cons_self hnames.1

/-! ## 4. Derived scopes -/

/-- One way to derive a scope from another. -/
inductive Step
  | bindAlias (aliasName canonical : String)
  | declare (registry : Registry) (pairs : List (String × String))

namespace Step

/-- The scope after a step, and the first stamp that is free then. -/
def apply : Step → Scope × Nat → Scope × Nat
  | .bindAlias aliasName canonical, (scope, next) => scope.bindAlias aliasName canonical next
  | .declare registry pairs, (scope, next) => scope.declare registry pairs next

/-- What a step says that an alias stands for. -/
def binding? : Step → String → Option String
  | .bindAlias aliasName canonical, other => if other = aliasName then some canonical else none
  | .declare registry pairs, other => lastBinding? registry pairs other

/-- **After a step an alias means what the step says, or else what it meant before.** -/
theorem canonical?_apply (step : Step) (scope : Scope) (next : Nat) (aliasName : String) :
    (step.apply (scope, next)).1.canonical? aliasName =
      (step.binding? aliasName).or (scope.canonical? aliasName) := by
  cases step with
  | declare registry pairs => exact canonical?_declare_pairs scope registry pairs next aliasName
  | bindAlias bound canonical =>
    have hget : (Bindings.ofList [(bound, canonical)]).get? aliasName =
        if aliasName = bound then some canonical else none := by
      rw [Bindings.get?_ofList, List.reverse_singleton, Bindings.lookup_cons]
      rfl
    rw [apply, Scope.bindAlias, canonical?_extend, hget, binding?]

/-- A step keeps the levels that were there. -/
theorem length_le_apply (step : Step) (scope : Scope) (next : Nat) :
    scope.levels.length ≤ (step.apply (scope, next)).1.levels.length := by
  cases step with
  | bindAlias => exact Nat.le_succ _
  | declare registry pairs =>
    by_cases hbinds : Binds registry pairs
    · rw [apply, declare_of_binds hbinds]
      exact Nat.le_succ _
    · exact Nat.le_of_eq (by rw [apply, declare_of_not_binds hbinds])

/-- **A step that binds something adds a level.** -/
theorem length_lt_apply {step : Step} (h : ∃ aliasName, step.binding? aliasName ≠ none) (scope : Scope)
    (next : Nat) : scope.levels.length < (step.apply (scope, next)).1.levels.length := by
  cases step with
  | bindAlias => exact Nat.lt_succ_self _
  | declare registry pairs =>
    rw [apply, declare_of_binds (binds_iff.2 h)]
    exact Nat.lt_succ_self _

end Step

/-- The scope after some steps, and the first stamp that is free then. -/
def derive (state : Scope × Nat) (steps : List Step) : Scope × Nat :=
  steps.foldl (fun state step => step.apply state) state

/-- **In a derived scope an alias means what the latest step says that says anything of it**, or else what it
    meant before. -/
theorem canonical?_derive (state : Scope × Nat) (steps : List Step) (aliasName : String) :
    (derive state steps).1.canonical? aliasName =
      (steps.reverse.findSome? (·.binding? aliasName)).or (state.1.canonical? aliasName) := by
  induction steps generalizing state with
  | nil => rfl
  | cons step steps ih =>
    rw [derive, List.foldl_cons, ← derive, ih, Step.canonical?_apply, List.reverse_cons, List.findSome?_append,
      List.findSome?_singleton, Option.or_assoc]

theorem length_le_derive (state : Scope × Nat) (steps : List Step) :
    state.1.levels.length ≤ (derive state steps).1.levels.length := by
  induction steps generalizing state with
  | nil => exact Nat.le_refl _
  | cons step steps ih => exact Nat.le_trans (step.length_le_apply state.1 state.2) (ih _)

/-- **A scope that something was bound in is not the same as the one it was derived from.** -/
theorem derive_beq_of_binds {steps : List Step} {step : Step} (hstep : step ∈ steps)
    (hbinds : ∃ aliasName, step.binding? aliasName ≠ none) (state : Scope × Nat) :
    ((derive state steps).1 == state.1) = false := by
  obtain ⟨before, after, rfl⟩ := List.append_of_mem hstep
  rw [derive, List.foldl_append, List.foldl_cons]
  have hbefore := length_le_derive state before
  have hlt := Step.length_lt_apply hbinds (derive state before).1 (derive state before).2
  have hafter := length_le_derive (step.apply (derive state before)) after
  exact beq_eq_false_of_length (Nat.ne_of_gt (Nat.lt_of_le_of_lt hbefore (Nat.lt_of_lt_of_le hlt hafter)))

/-! ## 5. The laws -/

/-- What declarations make of a scope. -/
structure DeclarationLaws (scope : Scope) : Prop where
  /-- An alias means what the pairs say, or else what it meant before. -/
  canonical? : ∀ registry pairs next aliasName,
    (scope.declare registry pairs next).1.canonical? aliasName =
      (lastBinding? registry pairs aliasName).or (scope.canonical? aliasName)
  /-- Only what the pairs say of aliases tells the scopes apart. -/
  same_iff : ∀ registry pairs pairs' next next',
    ((scope.declare registry pairs next).1 == (scope.declare registry pairs' next').1) = true ↔
      ∀ aliasName, lastBinding? registry pairs aliasName = lastBinding? registry pairs' aliasName
  /-- Pairs with different names may come in any order. -/
  same_of_perm : ∀ registry pairs pairs' next next', List.Perm pairs pairs' → (pairs.map Prod.fst).Nodup →
    ((scope.declare registry pairs next).1 == (scope.declare registry pairs' next').1) = true
  /-- More generally, only the order of pairs with the same name counts. -/
  same_of_filter : ∀ registry pairs pairs' next next',
    (∀ name, (pairs.filter fun pair => pair.1 = name) = pairs'.filter fun pair => pair.1 = name) →
      ((scope.declare registry pairs next).1 == (scope.declare registry pairs' next').1) = true
  /-- A scope in which something was bound, in one step or in one of many, is not the one it comes from. -/
  not_same : ∀ steps next, (∃ step ∈ steps, ∃ aliasName, Step.binding? step aliasName ≠ none) →
    ((derive (scope, next) steps).1 == scope) = false

/-- **The algebra of declarations**: its laws hold of every scope, and in what is derived from the empty scope an
    alias means what the latest step says that says anything of it. -/
theorem declarationLaws :
    (∀ scope, DeclarationLaws scope) ∧
      ∀ steps next aliasName,
        (derive (.empty, next) steps).1.canonical? aliasName = steps.reverse.findSome? (·.binding? aliasName) := by
  refine ⟨fun scope => ?_, fun steps next aliasName => ?_⟩
  · have hfilter : ∀ registry (pairs pairs' : List (String × String)) next next',
        (∀ name, (pairs.filter fun pair => pair.1 = name) = pairs'.filter fun pair => pair.1 = name) →
          ((scope.declare registry pairs next).1 == (scope.declare registry pairs' next').1) = true := by
      intro registry pairs pairs' next next' h
      rw [declare_beq_iff]
      intro aliasName
      rw [← lastBinding?_filter pairs, h, lastBinding?_filter]
    constructor
    case canonical? => exact canonical?_declare_pairs scope
    case same_iff => exact declare_beq_iff scope
    case same_of_filter => exact hfilter
    case same_of_perm =>
      intro registry pairs pairs' next next' hperm hnodup
      exact hfilter registry pairs pairs' next next' (filter_eq_of_perm hperm hnodup)
    case not_same =>
      rintro steps next ⟨step, hstep, hbinds⟩
      exact derive_beq_of_binds hstep hbinds (scope, next)
  · rw [canonical?_derive]
    exact Option.or_none

end Scope

end TalMarkup
