import TalMarkup.Proofs.SameContent
import TalMarkup.Proofs.Scoping
import TalMarkup.Tree.Walk

/-!
# The identity of scopes

Sharing is told by stamps, so it means something only where no two extensions took the same stamp. This is
so in every `Session`: scopes are obtained from others, from elements built by hand and from whole templates
in any order, and all take their stamps from one supply.

* `Coherent` is the invariant: stamps in use are not free, and scopes with the same stamp are the same
  scope. Every action keeps it (**`Coherent.perform`**), because what it adds either was there before, or
  takes its stamps from the free ones (`Joins`).
* **`Session.identity`**: in every session sharing is an equivalence finer than sameness, and what is
  extended anew is shared with nothing that was there before.
-/

namespace TalMarkup

/-! ## 1. The scopes of elements -/

/-- The scopes of the elements among the nodes and below them, in document order. -/
def Node.scopes (nodes : List Node) : List Scope :=
  (Node.preorderAll nodes).filterMap fun node => node.tag?.map Tag.scope

namespace Node

variable {nodes : List Node}

theorem tagAt?_succ (node : Node) (nodes : List Node) (i : Nat) (path : List Nat) :
    tagAt? (node :: nodes) ((i + 1) :: path) = tagAt? nodes (i :: path) := by
  cases path <;> rfl

/-- A path to an element among some nodes gives one for the nodes behind another. -/
theorem exists_tagAt?_cons {tag : Tag} (h : ∃ path, tagAt? nodes path = some tag) (node : Node) :
    ∃ path, tagAt? (node :: nodes) path = some tag := by
  obtain ⟨_ | ⟨i, path⟩, hpath⟩ := h
  · cases hpath
  · exact ⟨(i + 1) :: path, (tagAt?_succ node nodes i path).trans hpath⟩

/-- **To every element leads a path.** -/
theorem exists_tagAt? {tag : Tag} {children : List Node} :
    ∀ {nodes : List Node}, .element tag children ∈ preorderAll nodes → ∃ path, tagAt? nodes path = some tag
  | [], h => absurd h List.not_mem_nil
  | .leaf kind location value :: nodes, h => by
    rw [preorderAll, preorder, List.singleton_append, List.mem_cons] at h
    exact exists_tagAt?_cons (exists_tagAt? (h.resolve_left Node.noConfusion)) _
  | .element outer inner :: nodes, h => by
    rw [preorderAll, preorder, List.cons_append, List.mem_cons, List.mem_append] at h
    rcases h with heq | hinner | hrest
    · cases heq
      exact ⟨[0], rfl⟩
    · obtain ⟨path, hpath⟩ := exists_tagAt? hinner
      have hne : path ≠ [] := by
        rintro rfl
        cases hpath
      exact ⟨0 :: path, (tagAt?_cons rfl hne).trans hpath⟩
    · exact exists_tagAt?_cons (exists_tagAt? hrest) _

theorem exists_tagAt?_of_mem_scopes {scope : Scope} (h : scope ∈ scopes nodes) :
    ∃ path tag, tagAt? nodes path = some tag ∧ tag.scope = scope := by
  obtain ⟨node, hnode, hscope⟩ := List.mem_filterMap.1 h
  cases node with
  | leaf => cases hscope
  | element tag children =>
    cases hscope
    obtain ⟨path, hpath⟩ := exists_tagAt? hnode
    exact ⟨path, tag, hpath, rfl⟩

end Node

namespace Scoped

variable {registry : Registry} {stamp next : Nat} {nodes : List Node} {scope scope' : Scope}

/-- A scope of an element is empty, or its stamp is one of those of the nodes. -/
theorem stamp_of_mem (h : Scoped registry .empty stamp nodes next) (hscope : scope ∈ Node.scopes nodes) :
    scope.stamp? = none ∨ ∃ n, scope.stamp? = some n ∧ stamp ≤ n ∧ n < next := by
  obtain ⟨path, tag, htag, rfl⟩ := Node.exists_tagAt?_of_mem_scopes hscope
  rcases h.scope_eq htag with ⟨-, hempty⟩ | ⟨found, binder, -, hbinder, hdeclares, hsame⟩
  · exact Or.inl (by rw [hempty]; rfl)
  · rw [hsame]
    exact Or.inr (h.stamp_mem hbinder hdeclares)

/-- **Scopes of elements with the same stamp are the same scope**: that of the nearest element that
    declares an alias. -/
theorem eq_of_stamp (h : Scoped registry .empty stamp nodes next) (hscope : scope ∈ Node.scopes nodes)
    (hscope' : scope' ∈ Node.scopes nodes) (heq : scope.stamp? = scope'.stamp?) : scope = scope' := by
  obtain ⟨path, tag, htag, rfl⟩ := Node.exists_tagAt?_of_mem_scopes hscope
  obtain ⟨path', tag', htag', rfl⟩ := Node.exists_tagAt?_of_mem_scopes hscope'
  have hpath := (h.stamp?_eq_iff rfl htag htag').1 heq
  rcases h.scope_eq htag with ⟨hnone, hempty⟩ | ⟨found, binder, hfound, hbinder, -, hsame⟩
  · rcases h.scope_eq htag' with ⟨-, hempty'⟩ | ⟨found', binder', hfound', -⟩
    · rw [hempty, hempty']
    · rw [hpath, hfound'] at hnone
      cases hnone
  · rcases h.scope_eq htag' with ⟨hnone', -⟩ | ⟨found', binder', hfound', hbinder', -, hsame'⟩
    · rw [hpath, hnone'] at hfound
      cases hfound
    · rw [hpath, hfound', Option.some.injEq] at hfound
      rw [hfound, hbinder, Option.some.injEq] at hbinder'
      rw [hsame, hsame', hbinder']

end Scoped

/-! ## 2. Sessions -/

/-- The scopes that were obtained so far, and the first stamp that is free. -/
structure Session where
  scopes : List Scope
  nextStamp : Nat

/-- What can be done in a session. Scopes obtained before are named by their place. -/
inductive Action
  | new
  | copy (i : Nat)
  | bindAlias (i : Nat) (aliasName canonical : String)
  | declare (i : Nat) (registry : Registry) (attributes : List (String × String))
  /-- Builds an element at a place where the scope stands. -/
  | element (i : Nat) (file : String) (line : Nat) (name : String) (attributes : Attributes)
  /-- Reads a whole source, and keeps the scopes of all elements of the template. -/
  | read (options : Options) (source : String)

/-- The scope made from the one at a place, if there is one. -/
def Session.derive (session : Session) (i : Nat) (f : Scope → Scope × Nat) : List Scope × Nat :=
  match session.scopes[i]? with
  | none => ([], session.nextStamp)
  | some scope => ([(f scope).1], (f scope).2)

/-- The scopes that an action gives, and the first stamp that is free then. -/
def Session.obtain (session : Session) : Action → List Scope × Nat
  | .new => ([.empty], session.nextStamp)
  | .copy i => session.derive i fun scope => (scope, session.nextStamp)
  | .bindAlias i aliasName canonical =>
    session.derive i (·.bindAlias aliasName canonical session.nextStamp)
  | .declare i registry attributes => session.derive i (·.declare registry attributes session.nextStamp)
  | .element i file line name attributes =>
    (session.scopes[i]?.toList.flatMap fun scope =>
      match Place.element ⟨file, line, scope⟩ name attributes with
      | .error _ => []
      | .ok node => Node.scopes [node], session.nextStamp)
  | .read options source =>
    match Template.read options session.nextStamp source with
    | .error _ => ([], session.nextStamp)
    | .ok (template, next) => (Node.scopes template.children, next)

/-- The session after an action. -/
def Session.perform (session : Session) (action : Action) : Session :=
  ⟨session.scopes ++ (session.obtain action).1, (session.obtain action).2⟩

/-- The session after some actions. -/
def Session.run (actions : List Action) : Session := actions.foldl perform ⟨[], 0⟩

/-! ## 3. The invariant -/

/-- Stamps in use are not free, and scopes with the same stamp are the same scope. -/
structure Coherent (session : Session) : Prop where
  stamp_lt : ∀ scope ∈ session.scopes, ∀ n, scope.stamp? = some n → n < session.nextStamp
  eq_of_stamp : ∀ scope ∈ session.scopes, ∀ other ∈ session.scopes,
    scope.stamp? = other.stamp? → scope = other

/-- The scopes may join the session: each was there before, is empty, or has a stamp that was free, and
    those with the same stamp are the same scope. -/
structure Joins (session : Session) (added : List Scope) (next : Nat) : Prop where
  le : session.nextStamp ≤ next
  old_or_new : ∀ scope ∈ added, scope ∈ session.scopes ∨ scope.stamp? = none ∨
    ∃ n, scope.stamp? = some n ∧ session.nextStamp ≤ n ∧ n < next
  eq_of_stamp : ∀ scope ∈ added, ∀ other ∈ added, scope.stamp? = other.stamp? → scope = other

namespace Joins

variable {session : Session} {scope : Scope} {next : Nat}

theorem nil : Joins session [] session.nextStamp :=
  ⟨Nat.le_refl _, fun _ h => (nomatch h), fun _ h => (nomatch h)⟩

theorem single (hle : session.nextStamp ≤ next)
    (hscope : scope ∈ session.scopes ∨ scope.stamp? = none ∨
      ∃ n, scope.stamp? = some n ∧ session.nextStamp ≤ n ∧ n < next) : Joins session [scope] next := by
  refine ⟨hle, fun other hother => ?_, fun other hother other' hother' _ => ?_⟩
  · rwa [List.mem_singleton.1 hother]
  · rw [List.mem_singleton.1 hother, List.mem_singleton.1 hother']

theorem old (h : scope ∈ session.scopes) : Joins session [scope] session.nextStamp :=
  single (Nat.le_refl _) (Or.inl h)

/-- A scope that was extended may join, with the stamp that it took. -/
theorem extend (scope : Scope) (aliases : Bindings) :
    Joins session [(scope.extend aliases session.nextStamp).1] (scope.extend aliases session.nextStamp).2 :=
  single (Nat.le_succ _) (Or.inr (Or.inr ⟨session.nextStamp, rfl, Nat.le_refl _, Nat.lt_succ_self _⟩))

theorem derive {i : Nat} {f : Scope → Scope × Nat}
    (hf : ∀ scope ∈ session.scopes, Joins session [(f scope).1] (f scope).2) :
    Joins session (session.derive i f).1 (session.derive i f).2 := by
  rw [Session.derive]
  rcases hscope : session.scopes[i]? with _ | scope
  · exact nil
  · exact hf scope (List.mem_of_getElem? hscope)

/-- **What an action gives may join the session.** -/
theorem obtain (session : Session) (action : Action) :
    Joins session (session.obtain action).1 (session.obtain action).2 := by
  cases action with
  | new => exact single (Nat.le_refl _) (Or.inr (Or.inl rfl))
  | copy i => exact derive fun scope hscope => old hscope
  | bindAlias i aliasName canonical => exact derive fun scope _ => extend scope _
  | declare i registry attributes =>
    refine derive fun scope hscope => ?_
    by_cases hbinds : Scope.Binds registry attributes
    · rw [Scope.declare_of_binds hbinds]
      exact extend scope _
    · rw [Scope.declare_of_not_binds hbinds]
      exact old hscope
  | element i file line name attributes =>
    rw [Session.obtain]
    rcases hscope : session.scopes[i]? with _ | scope
    · exact nil
    · rw [Option.toList_some, List.flatMap_singleton, Place.element]
      rcases Place.location ⟨file, line, scope⟩ with error | location
      · exact nil
      · exact old (List.mem_of_getElem? hscope)
  | read options source =>
    rw [Session.obtain]
    rcases hread : Template.read options session.nextStamp source with error | ⟨template, next⟩
    · exact nil
    · have hscoped := Template.scoped_of_read hread
      exact ⟨hscoped.le, fun scope hscope => Or.inr (hscoped.stamp_of_mem hscope),
        fun scope hscope other hother => hscoped.eq_of_stamp hscope hother⟩

end Joins

namespace Coherent

variable {session : Session}

/-- The invariant is kept when scopes join that may. -/
theorem join (h : Coherent session) {added : List Scope} {next : Nat} (hjoins : Joins session added next) :
    Coherent ⟨session.scopes ++ added, next⟩ := by
  -- a scope that was added, and one with its stamp that was there before
  have hborder : ∀ scope ∈ session.scopes, ∀ other ∈ added,
      scope.stamp? = other.stamp? → scope = other := by
    intro scope hscope other hother heq
    rcases hjoins.old_or_new other hother with hold | hnone | ⟨n, hn, hle, -⟩
    · exact h.eq_of_stamp scope hscope other hold heq
    · rw [Scope.eq_empty_of_stamp? hnone, Scope.eq_empty_of_stamp? (heq.trans hnone)]
    · have hlt := h.stamp_lt scope hscope n (heq.trans hn)
      omega
  constructor
  case stamp_lt =>
    intro scope hscope n hn
    have hle := hjoins.le
    rcases List.mem_append.1 hscope with hold | hadded
    · exact Nat.lt_of_lt_of_le (h.stamp_lt scope hold n hn) hle
    · rcases hjoins.old_or_new scope hadded with hold | hnone | ⟨m, hm, -, hlt⟩
      · exact Nat.lt_of_lt_of_le (h.stamp_lt scope hold n hn) hle
      · rw [hnone] at hn
        cases hn
      · rw [hm] at hn
        cases hn
        exact hlt
  case eq_of_stamp =>
    intro scope hscope other hother heq
    rcases List.mem_append.1 hscope with hold | hadded
    · rcases List.mem_append.1 hother with hold' | hadded'
      · exact h.eq_of_stamp scope hold other hold' heq
      · exact hborder scope hold other hadded' heq
    · rcases List.mem_append.1 hother with hold' | hadded'
      · exact (hborder other hold' scope hadded heq.symm).symm
      · exact hjoins.eq_of_stamp scope hadded other hadded' heq

/-- **Every action keeps the invariant.** -/
theorem perform (h : Coherent session) (action : Action) : Coherent (session.perform action) :=
  h.join (Joins.obtain session action)

/-- **Every session keeps the invariant.** -/
theorem run (actions : List Action) : Coherent (Session.run actions) := by
  have hstart : Coherent ⟨[], 0⟩ := ⟨fun _ h => (nomatch h), fun _ h => (nomatch h)⟩
  suffices hfold : ∀ session, Coherent session → Coherent (actions.foldl Session.perform session) from
    hfold _ hstart
  induction actions with
  | nil => exact fun _ h => h
  | cons action actions ih => exact fun session h => ih _ (h.perform action)

/-- What has a stamp that was free shares with nothing that was there before. -/
theorem shares_of_free (h : Coherent session) {scope : Scope} {n : Nat} (hn : scope.stamp? = some n)
    (hle : session.nextStamp ≤ n) {other : Scope} (hother : other ∈ session.scopes) :
    scope.shares other = false := by
  rw [Bool.eq_false_iff, Ne, Scope.shares_iff, hn]
  intro heq
  have hlt := h.stamp_lt other hother n heq.symm
  omega

end Coherent

/-! ## 4. What sharing means in a session -/

/-- What sharing means in a session. -/
structure Identity (session : Session) : Prop where
  refl : ∀ scope ∈ session.scopes, scope.shares scope = true
  symm : ∀ scope ∈ session.scopes, ∀ other ∈ session.scopes,
    scope.shares other = true → other.shares scope = true
  trans : ∀ scope ∈ session.scopes, ∀ mid ∈ session.scopes, ∀ other ∈ session.scopes,
    scope.shares mid = true → mid.shares other = true → scope.shares other = true
  /-- Scopes that share are the same and answer in the same way. -/
  same : ∀ scope ∈ session.scopes, ∀ other ∈ session.scopes, scope.shares other = true →
    (scope == other) = true ∧ (∀ aliasName, scope.canonical? aliasName = other.canonical? aliasName) ∧
      ∀ name, scope.unalias name = other.unalias name
  /-- Empty scopes share. -/
  empty : ∀ scope ∈ session.scopes, ∀ other ∈ session.scopes,
    scope.isEmpty = true → other.isEmpty = true → scope.shares other = true
  /-- A scope in which an alias was bound shares with nothing that was there before. -/
  bindAlias : ∀ scope ∈ session.scopes, ∀ aliasName canonical, ∀ other ∈ session.scopes,
    (scope.bindAlias aliasName canonical session.nextStamp).1.shares other = false
  /-- Nor does the scope of a tag that binds an alias. -/
  declare_binds : ∀ scope ∈ session.scopes, ∀ registry attributes, Scope.Binds registry attributes →
    ∀ other ∈ session.scopes, (scope.declare registry attributes session.nextStamp).1.shares other = false
  /-- A tag that binds none stands in the scope around it. -/
  declare_plain : ∀ scope ∈ session.scopes, ∀ registry attributes, ¬ Scope.Binds registry attributes →
    (scope.declare registry attributes session.nextStamp).1.shares scope = true
  /-- In a template that is read, two elements share their scope exactly if the nearest element that binds
      an alias is the same for both, or there is none; and no scope of it but the empty one shares with
      anything that was there before, templates read from the same source included. -/
  read : ∀ options source template next,
    Template.read options session.nextStamp source = .ok (template, next) →
      (∀ path tag path' tag', Node.tagAt? template.children path = some tag →
        Node.tagAt? template.children path' = some tag' →
          (tag.scope.shares tag'.scope = true ↔
            Node.binder? options.registry template.children path =
              Node.binder? options.registry template.children path')) ∧
      ∀ scope ∈ Node.scopes template.children, scope.isEmpty = true ∨
        ∀ other ∈ session.scopes, scope.shares other = false
  /-- Scopes are the same by their content alone, also as those of another session. -/
  content : ∀ scope ∈ session.scopes, ∀ others, ∀ other ∈ (Session.run others).scopes,
    ((scope == other) = true ↔
      List.Forall₂ (fun x y => ∀ aliasName, x.aliases.get? aliasName = y.aliases.get? aliasName)
        scope.levels other.levels)

/-- **The identity of scopes in every session.** -/
theorem Session.identity (actions : List Action) : Identity (run actions) := by
  have hcoherent := Coherent.run actions
  constructor
  case refl =>
    intro scope _
    exact Scope.shares_iff.2 rfl
  case symm =>
    intro scope _ other _ h
    exact Scope.shares_iff.2 (Scope.shares_iff.1 h).symm
  case trans =>
    intro scope _ mid _ other _ h h'
    exact Scope.shares_iff.2 ((Scope.shares_iff.1 h).trans (Scope.shares_iff.1 h'))
  case same =>
    intro scope hscope other hother h
    obtain rfl := hcoherent.eq_of_stamp scope hscope other hother (Scope.shares_iff.1 h)
    exact ⟨scope.beq_self, fun _ => rfl, fun _ => rfl⟩
  case empty =>
    intro scope _ other _ h h'
    exact Scope.shares_iff.2 ((Scope.isEmpty_iff.1 h).trans (Scope.isEmpty_iff.1 h').symm)
  case bindAlias =>
    intro scope _ aliasName canonical other hother
    exact hcoherent.shares_of_free rfl (Nat.le_refl _) hother
  case declare_binds =>
    intro scope _ registry attributes hbinds other hother
    rw [Scope.declare_of_binds hbinds]
    exact hcoherent.shares_of_free rfl (Nat.le_refl _) hother
  case declare_plain =>
    intro scope _ registry attributes hbinds
    rw [Scope.declare_of_not_binds hbinds]
    exact Scope.shares_iff.2 rfl
  case read =>
    intro options source template next hread
    have hscoped := Template.scoped_of_read hread
    refine ⟨fun path tag path' tag' htag htag' => ?_, fun scope hscope => ?_⟩
    · rw [Scope.shares_iff]
      exact hscoped.stamp?_eq_iff rfl htag htag'
    · rcases hscoped.stamp_of_mem hscope with hnone | ⟨n, hn, hle, -⟩
      · exact Or.inl (Scope.isEmpty_iff.2 hnone)
      · exact Or.inr fun other hother => hcoherent.shares_of_free hn hle hother
  case content =>
    intro scope _ others other _
    exact Scope.beq_iff

/-- Extended twice by the same alias a scope gives the same twice, but nothing that is shared. -/
example :
    (match (Session.run [.new, .bindAlias 0 "t" "tal", .bindAlias 0 "t" "tal"]).scopes with
      | [_, first, second] => first == second && !first.shares second
      | _ => false) = true := by decide

end TalMarkup
