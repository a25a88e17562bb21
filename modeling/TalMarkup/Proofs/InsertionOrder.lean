import TalMarkup.Proofs.BindingOrder
import TalMarkup.Proofs.SameContent
import TalMarkup.Proofs.Shape
import TalMarkup.Tree.Query

/-!
# Bindings as maps in insertion order

Names may be bound one at a time, with an answer each time, or all at once; by hand, in an element, or by reading a
start tag. Whichever way it goes, the pairs alone decide what comes of it: which names are bound and in which order,
the value of each of them (`BoundInOrder`), and what was answered on the way (`FormerValues`).

* `changeInTurn` makes one change after the other. What it leads to over an append follows from what it leads to
  over the two parts (`changeInTurn_append`), so the answers need no induction of their own.
* An element without attributes that is given some answers as the bindings alone do (`Tag.setAttribute_inTurn`).

**`Bindings.insertionOrder`** puts these together.
-/

namespace TalMarkup

/-! ## 1. One change after the other -/

section

variable {σ τ α β : Type}

/-- Makes changes one after the other. Gives what each of them answers, and what they lead to. -/
def changeInTurn (change : σ → α → β × σ) (state : σ) : List α → List β × σ
  | [] => ([], state)
  | item :: items =>
    let (answer, next) := change state item
    let (answers, final) := changeInTurn change next items
    (answer :: answers, final)

variable (change : σ → α → β × σ) (state : σ)

theorem changeInTurn_snd (items : List α) :
    (changeInTurn change state items).2 = items.foldl (fun state item => (change state item).2) state := by
  induction items generalizing state with
  | nil => rfl
  | cons item items ih => exact ih (change state item).2

theorem length_changeInTurn (items : List α) : (changeInTurn change state items).1.length = items.length := by
  induction items generalizing state with
  | nil => rfl
  | cons item items ih => exact congrArg (· + 1) (ih (change state item).2)

theorem changeInTurn_append (items more : List α) :
    (changeInTurn change state (items ++ more)).1 =
      (changeInTurn change state items).1 ++ (changeInTurn change (changeInTurn change state items).2 more).1 := by
  induction items generalizing state with
  | nil => rfl
  | cons item items ih => exact congrArg ((change state item).1 :: ·) (ih (change state item).2)

/-- Changes to a part of a state answer as they do for the part alone. -/
theorem changeInTurn_part {change : σ → α → β × σ} {whole : τ → α → β × τ} (put : σ → τ)
    (hput : ∀ state item, whole (put state) item = ((change state item).1, put (change state item).2))
    (state : σ) (items : List α) :
    changeInTurn whole (put state) items =
      ((changeInTurn change state items).1, put (changeInTurn change state items).2) := by
  induction items generalizing state with
  | nil => rfl
  | cons item items ih =>
    simp only [changeInTurn, hput, ih]

end

/-! ## 2. The last value of a name -/

/-- The value of the last pair with this name. -/
def lastValue? (pairs : List (String × String)) (name : String) : Option String := pairs.reverse.lookup name

theorem lastValue?_eq_some_iff {pairs : List (String × String)} {name value : String} :
    lastValue? pairs name = some value ↔
      ∃ before after, pairs = before ++ (name, value) :: after ∧ name ∉ after.map Prod.fst := by
  rw [lastValue?, List.lookup_eq_some_iff]
  constructor
  · rintro ⟨after, before, hpairs, hother⟩
    refine ⟨before.reverse, after.reverse, ?_, fun hmem => ?_⟩
    · rw [← List.reverse_reverse pairs, hpairs]
      simp
    · obtain ⟨pair, hpair, rfl⟩ := List.mem_map.1 hmem
      exact bne_iff_ne.1 (hother pair (List.mem_reverse.1 hpair)) rfl
  · rintro ⟨before, after, rfl, hother⟩
    refine ⟨after.reverse, before.reverse, by simp, fun pair hpair => ?_⟩
    rw [bne_iff_ne]
    rintro rfl
    exact hother (List.mem_map_of_mem (List.mem_reverse.1 hpair))

/-! ## 3. What pairs lead to -/

/-- The bindings are what the pairs lead to, bound one after the other where nothing was bound before. -/
structure BoundInOrder (pairs : List (String × String)) (bindings : Bindings) : Prop where
  /-- Names are bound once each, in the order in which they come first. -/
  names_nodup : (bindings.entries.map Prod.fst).Nodup
  names_eq : bindings.entries.map Prod.fst = (pairs.map Prod.fst).eraseDups
  /-- An entry is the last pair with its name. -/
  mem_iff : ∀ name value, (name, value) ∈ bindings.entries ↔
    ∃ before after, pairs = before ++ (name, value) :: after ∧ name ∉ after.map Prod.fst
  get?_eq : ∀ name, bindings.get? name = lastValue? pairs name
  contains_iff : ∀ name, bindings.contains name = true ↔ name ∈ pairs.map Prod.fst
  size_eq : bindings.size = (pairs.map Prod.fst).toFinset.card
  /-- The entries, collected again, are the same bindings. -/
  collect_eq : .ofList bindings.entries = bindings

/-- The answers are the values that the names of the pairs were last bound to by the pairs in front of them. -/
structure FormerValues (pairs : List (String × String)) (answers : List (Option String)) : Prop where
  length_eq : answers.length = pairs.length
  former_eq : ∀ before name value after, pairs = before ++ (name, value) :: after →
    answers[before.length]? = some (lastValue? before name)

namespace Bindings

variable (pairs : List (String × String))

theorem eq_of_entries {a b : Bindings} (h : a.entries = b.entries) : a = b := by
  cases a
  cases h
  rfl

theorem contains_ofList_iff (name : String) :
    (ofList pairs).contains name = true ↔ name ∈ pairs.map Prod.fst := by
  have hnames : name ∈ (ofList pairs).entries.map Prod.fst ↔ name ∈ pairs.map Prod.fst := by
    rw [names_ofList, List.mem_eraseDups]
  rw [← hnames, mem_names_iff, contains, Option.isSome_iff_exists]

theorem boundInOrder_ofList : BoundInOrder pairs (ofList pairs) := by
  constructor
  case names_nodup => exact (ofList pairs).nodup
  case names_eq => exact names_ofList pairs
  case mem_iff =>
    intro name value
    rw [← lastValue?_eq_some_iff, lastValue?, ← get?_ofList]
    exact ⟨get?_of_mem, mem_of_get?⟩
  case get?_eq => exact get?_ofList pairs
  case contains_iff => exact contains_ofList_iff pairs
  case size_eq => exact size_ofList pairs
  case collect_eq => exact eq_of_entries (entries_ofList (ofList pairs).nodup)

/-- Binds a pair, and gives the value that its name was bound to before. -/
def exchangePair (bindings : Bindings) (pair : String × String) : Option String × Bindings :=
  bindings.exchange pair.1 pair.2

/-- **Pairs that are bound one at a time lead to the same as bound at once.** -/
theorem exchange_inTurn : (changeInTurn exchangePair empty pairs).2 = ofList pairs := changeInTurn_snd _ _ _

/-- **Each time the value is answered that the name was last bound to.** -/
theorem formerValues_exchange : FormerValues pairs (changeInTurn exchangePair empty pairs).1 := by
  constructor
  case length_eq => exact length_changeInTurn _ _ _
  case former_eq =>
    rintro before name value after rfl
    have hlength : before.length = (changeInTurn exchangePair empty before).1.length :=
      (length_changeInTurn _ _ _).symm
    rw [changeInTurn_append, hlength, List.getElem?_append_right (Nat.le_refl _), Nat.sub_self, exchange_inTurn,
      lastValue?, ← get?_ofList]
    rfl

end Bindings

/-! ## 4. Elements -/

/-- Sets an attribute to the value that goes with it in a pair. -/
def Tag.setPair (tag : Tag) (pair : String × String) : Option String × Tag := tag.setAttribute pair.1 pair.2

/-- **An element without attributes that is given some** keeps them as they are bound by themselves, and answers
    what is answered then. -/
theorem Tag.setAttribute_inTurn (tag : Tag) (pairs : List (String × String)) :
    changeInTurn Tag.setPair { tag with attributes := .empty } pairs =
      ((changeInTurn Bindings.exchangePair .empty pairs).1, { tag with attributes := .ofList pairs }) := by
  have hpart : changeInTurn Tag.setPair { tag with attributes := .empty } pairs =
      ((changeInTurn Bindings.exchangePair .empty pairs).1,
        { tag with attributes := (changeInTurn Bindings.exchangePair .empty pairs).2 }) :=
    changeInTurn_part (fun attributes => { tag with attributes }) (fun _ _ => rfl) _ pairs
  rw [hpart, Bindings.exchange_inTurn]

/-- The attributes of the element are those of the start tag that opens it in the source, bound as they are written
    there. -/
def Tag.BoundAsWritten (file source : String) (tag : Tag) : Prop :=
  ∃ start : StartTag, start.Opens file source tag ∧
    BoundInOrder (start.inside.attributes.map WrittenAttribute.pair) tag.attributes

theorem StartTag.Of.boundInOrder {start : StartTag} {tag : Tag} (h : start.Of tag) :
    BoundInOrder (start.inside.attributes.map WrittenAttribute.pair) tag.attributes := by
  obtain ⟨-, -, hattributes⟩ := h
  exact hattributes ▸ Bindings.boundInOrder_ofList _

/-- **An element that is read has its attributes from its start tag.** -/
theorem Template.boundAsWritten_of_parse {options : Options} {source : String} {template : Template}
    (h : parse options source = .ok template) {tag : Tag} {children : List Node}
    (hmem : .element tag children ∈ template.descendants) :
    tag.BoundAsWritten options.sourceFile source := by
  obtain ⟨start, hstart⟩ := exists_opens_of_parse h hmem
  exact ⟨start, hstart, hstart.1.boundInOrder⟩

/-- **Attributes are maps in insertion order**: collected from pairs, bound one at a time, set in an element, or read
    from a start tag. -/
theorem Bindings.insertionOrder :
    (∀ pairs : List (String × String), BoundInOrder pairs (ofList pairs) ∧
      ∃ answers, FormerValues pairs answers ∧
        changeInTurn exchangePair empty pairs = (answers, ofList pairs) ∧
        ∀ tag : Tag, changeInTurn Tag.setPair { tag with attributes := empty } pairs =
          (answers, { tag with attributes := ofList pairs })) ∧
      ∀ (options : Options) (source : String) (template : Template) (tag : Tag) (children : List Node),
        Template.parse options source = .ok template → .element tag children ∈ template.descendants →
          tag.BoundAsWritten options.sourceFile source := by
  refine ⟨fun pairs => ?_, fun _ _ _ _ _ hparse hmem => Template.boundAsWritten_of_parse hparse hmem⟩
  refine ⟨boundInOrder_ofList pairs, _, formerValues_exchange pairs, ?_, fun tag => tag.setAttribute_inTurn pairs⟩
  exact Prod.ext rfl (exchange_inTurn pairs)

theorem Bindings.insertionOrder_repeated :
    ∃ template tag children, Template.parse { } "<a b='1' c='2' b='3'/>" = .ok template ∧
      .element tag children ∈ template.descendants ∧
      tag.attributes.entries = [("b", "3"), ("c", "2")] ∧
      tag.BoundAsWritten "<string>" "<a b='1' c='2' b='3'/>" := by
  obtain ⟨template, hparse, hentries⟩ := Template.exists_of_map_parse (show (Template.parse { }
    "<a b='1' c='2' b='3'/>").map (fun template =>
      template.children.map fun node => node.tag?.map fun tag => tag.attributes.entries) =
        .ok [some [("b", "3"), ("c", "2")]] by decide +kernel)
  obtain ⟨node, hnode, htag⟩ := List.map_eq_singleton_iff.1 hentries
  obtain ⟨tag, htag, hattributes⟩ := Option.map_eq_some_iff.1 htag
  rcases node with ⟨_, children⟩ | _ <;> cases htag
  have hmem : .element tag children ∈ template.descendants := by
    rw [Template.descendants, hnode, Node.walk]
    exact List.mem_cons_self
  exact ⟨template, tag, children, hparse, hmem, hattributes, insertionOrder.2 _ _ _ _ _ hparse hmem⟩

end TalMarkup
