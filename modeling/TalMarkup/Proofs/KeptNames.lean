import TalMarkup.Proofs.BindingOrder
import TalMarkup.Proofs.Shape

/-!
# Which names a template keeps

A name may start with a colon, for its qualifier may be empty. A template keeps such a name without this colon
(`keptName`) and every other name as it is spelled. So two names are taken for one exactly if they differ by a
colon at the start at most (`QName.Formed.keptName_eq_iff`), and an element has fewer attributes than its start tag
exactly if two names there do (`StartTag.Of.size_eq_iff`).

`Named kept nodes text` says what becomes of the names in all tags of a text if each of them is kept by `kept`:
of the name of an element, of its closing tag, and of its attributes, which stand in the order in which their
names come first and have the values that come last.

**`Template.namedBy_of_parse`**: every template that is read is named by `keptName`, and only a colon at the start of
a name makes two attributes one. It is not always named by the spelling itself (`Template.not_namedBy_spelling`).
-/

namespace TalMarkup

/-! ## 1. Single names -/

/-- A spelled name as a template keeps it: without a colon at its start. -/
def keptName : List Char → String
  | ':' :: spelling => String.ofList spelling
  | spelling => String.ofList spelling

/-- **A name that does not start with a colon is kept as it is spelled.** -/
theorem keptName_of_not_colon {spelling : List Char} (h : nextIs (· == ':') spelling = false) :
    keptName spelling = String.ofList spelling := by
  unfold keptName
  split
  · cases h
  · rfl

theorem IsNamePart.not_colon {part : List Char} (h : IsNamePart part) (rest : List Char) :
    nextIs (· == ':') (part ++ rest) = false := by
  obtain ⟨hstart, -, hcolon⟩ := h
  cases part with
  | nil => cases hstart
  | cons c part => exact beq_eq_false_iff_ne.2 fun hc => hcolon (hc ▸ List.mem_cons_self)

namespace QName

variable {name other : QName}

/-- A tree records a spelling that does not start with a colon. The name is this spelling, or has one colon in front
    of it, if its qualifier is empty. -/
theorem Formed.exists_spelling (h : name.Formed) :
    ∃ spelling, nextIs (· == ':') spelling = false ∧ name.recorded = String.ofList spelling ∧
      (name.text = spelling ∨ name.text = ':' :: spelling) := by
  obtain ⟨hlocal, hqualifier⟩ := h
  have hplain := hlocal.not_colon []
  rw [List.append_nil] at hplain
  rcases name with ⟨_ | _ | ⟨c, qualifier⟩, localPart⟩
  · exact ⟨localPart, hplain, rfl, Or.inl rfl⟩
  · exact ⟨localPart, hplain, rfl, Or.inr rfl⟩
  · have hpart : IsNamePart (c :: qualifier) := (hqualifier _ rfl).resolve_left (List.cons_ne_nil _ _)
    exact ⟨c :: qualifier ++ ':' :: localPart, hpart.not_colon (':' :: localPart), rfl, Or.inl rfl⟩

/-- **A tree records a name without a colon at its start.** -/
theorem Formed.recorded_eq (h : name.Formed) : name.recorded = keptName name.text := by
  obtain ⟨spelling, hplain, hrecorded, htext⟩ := h.exists_spelling
  rw [hrecorded]
  rcases htext with htext | htext
  · rw [htext, keptName_of_not_colon hplain]
  · rw [htext]
    rfl

/-- The names differ by a colon at the start at most. -/
def SameButColon (name other : QName) : Prop :=
  name.text = other.text ∨ name.text = ':' :: other.text ∨ other.text = ':' :: name.text

/-- **Two names are kept as one exactly if they differ by a colon at the start at most.** -/
theorem Formed.keptName_eq_iff (h : name.Formed) (h' : other.Formed) :
    keptName name.text = keptName other.text ↔ name.SameButColon other := by
  obtain ⟨spelling, hplain, hrecorded, htext⟩ := h.exists_spelling
  obtain ⟨spelling', hplain', hrecorded', htext'⟩ := h'.exists_spelling
  have hne : ∀ rest, spelling ≠ ':' :: rest := by
    rintro rest rfl
    cases hplain
  have hne' : ∀ rest, spelling' ≠ ':' :: rest := by
    rintro rest rfl
    cases hplain'
  rw [← h.recorded_eq, ← h'.recorded_eq, hrecorded, hrecorded', String.ofList_inj, SameButColon]
  -- of the three ways to be the same, only those are left that do not put a second colon in front
  rcases htext with htext | htext <;> rcases htext' with htext' | htext' <;> rw [htext, htext']
  · simp only [hne, hne', or_false]
  · simp only [hne, List.cons.injEq, true_and, false_or, eq_comm]
  · simp only [hne', (hne' _).symm, List.cons.injEq, true_and, false_or, or_false]
  · simp only [hne, hne', List.cons.injEq, true_and, or_false]

end QName

/-! ## 2. The names of a text -/

/-- The element has the names that its start tag spells, each as `kept` keeps it: its own, and those of its
    attributes in the order in which they come first. An attribute has the value that its name has last. -/
structure StartTag.Names (kept : List Char → String) (start : StartTag) (tag : Tag) : Prop where
  name_eq : tag.name = kept start.name.text
  names_eq : tag.attributes.entries.map Prod.fst =
    (start.inside.attributes.map fun written => kept written.name.text).eraseDups
  get?_eq : ∀ name, tag.attributes.get? name =
    (start.inside.attributes.map fun written =>
      (kept written.name.text, String.ofList written.value)).reverse.lookup name

/-- The text is the pieces of the nodes, one after the other, and the names in their tags are those of the
    nodes, each as `kept` keeps it. -/
inductive Named (kept : List Char → String) : List Node → List Char → Prop
  | nil : Named kept [] []
  | leaf {token : Token} {kind location value nodes rest}
      (hformed : token.Formed) (hleaf : token.leaf? = some (kind, value)) (more : Named kept nodes rest) :
      Named kept (.leaf kind location (String.ofList value) :: nodes) (value ++ rest)
  | single {start : StartTag} {tag nodes rest}
      (hformed : start.Formed) (hending : start.inside.ending = .selfClosing) (hnames : start.Names kept tag)
      (more : Named kept nodes rest) :
      Named kept (.element tag [] :: nodes) (start.text ++ rest)
  | pair {start : StartTag} {tag children inner nodes rest} {close : EndTag}
      (hformed : start.Formed) (hending : start.inside.ending = .opening) (hnames : start.Names kept tag)
      (inside : Named kept children inner)
      (hclosed : close.Formed) (hclose : tag.name = kept close.name.text)
      (more : Named kept nodes rest) :
      Named kept (.element tag children :: nodes) (start.text ++ inner ++ close.text ++ rest)

/-- **A start tag gives its element the names that it spells**, without a colon at their start. -/
theorem StartTag.Of.names {start : StartTag} {tag : Tag} (h : start.Of tag) : start.Names keptName tag := by
  obtain ⟨⟨hname, hwritten, -⟩, hrecorded, hattributes⟩ := h
  have hpairs : start.inside.attributes.map WrittenAttribute.pair =
      start.inside.attributes.map fun written =>
        (keptName written.name.text, String.ofList written.value) := by
    refine List.map_congr_left fun written hmem => ?_
    obtain ⟨-, -, -, hformed, -⟩ := hwritten written hmem
    rw [WrittenAttribute.pair, hformed.recorded_eq]
  rw [hpairs] at hattributes
  constructor
  case name_eq => rw [← hrecorded, hname.recorded_eq]
  case names_eq =>
    rw [← hattributes, Bindings.names_ofList, List.map_map]
    rfl
  case get?_eq =>
    intro name
    rw [← hattributes, Bindings.get?_ofList]

/-- **An element has as many attributes as its start tag exactly if no two names there differ by a colon at the start
    at most.** -/
theorem StartTag.Of.size_eq_iff {start : StartTag} {tag : Tag} (h : start.Of tag) :
    tag.attributes.size = start.inside.attributes.length ↔
      start.inside.attributes.Pairwise fun written other => ¬ written.name.SameButColon other.name := by
  obtain ⟨⟨-, hwritten, -⟩, -, hattributes⟩ := h
  have hformed : ∀ written ∈ start.inside.attributes, written.name.Formed := by
    intro written hmem
    obtain ⟨-, -, -, hformed, -⟩ := hwritten written hmem
    exact hformed
  rw [← hattributes, ← List.length_map WrittenAttribute.pair, Bindings.size_ofList_eq_length_iff, List.Nodup,
    List.map_map, List.pairwise_map]
  refine List.Pairwise.iff_of_mem fun {written other} hmem hother => not_congr ?_
  rw [← (hformed written hmem).keptName_eq_iff (hformed other hother), ← (hformed written hmem).recorded_eq,
    ← (hformed other hother).recorded_eq]
  rfl

/-- A closing tag spells the name of its element, up to a colon at the start. -/
theorem EndTag.Of.name_eq {close : EndTag} {tag : Tag} (h : close.Of tag) :
    tag.name = keptName close.name.text := by
  obtain ⟨hclosed, hrecorded⟩ := h
  rw [← hrecorded, hclosed.1.recorded_eq]

/-- **What is placed in a text is named by it.** -/
theorem Placed.named {file : String} {before text : List Char} {nodes : List Node}
    (h : Placed file before nodes text) : Named keptName nodes text := by
  induction h with
  | nil => exact .nil
  | leaf hformed hleaf _ ih => exact .leaf hformed hleaf ih
  | single hstart hending _ _ ih => exact .single hstart.1 hending hstart.names ih
  | pair hstart hending _ _ hclose _ ihInside ihMore =>
    exact .pair hstart.1 hending hstart.names ihInside hclose.1 hclose.name_eq ihMore

/-- A text that starts with an element starts with the name that it has. -/
theorem Named.exists_name {kept : List Char → String} {tag : Tag} {children nodes : List Node}
    {text : List Char} (h : Named kept (.element tag children :: nodes) text) :
    ∃ spelling rest, text = '<' :: (spelling ++ rest) ∧ tag.name = kept spelling := by
  cases h with
  | @single start _ _ rest _ _ hnames _ =>
    exact ⟨start.name.text, start.inside.text ++ rest, by simp [StartTag.text], hnames.name_eq⟩
  | @pair start _ _ inner _ rest close _ _ hnames _ _ _ _ =>
    exact ⟨start.name.text, start.inside.text ++ (inner ++ (close.text ++ rest)), by simp [StartTag.text],
      hnames.name_eq⟩

/-! ## 3. Templates -/

/-- The element has as many attributes as the start tag that opens it in the source, exactly if no two of the names
    there differ by a colon at the start at most. -/
def Tag.DistinctButColon (file source : String) (tag : Tag) : Prop :=
  ∃ start : StartTag, start.Opens file source tag ∧
    (tag.attributes.size = start.inside.attributes.length ↔
      start.inside.attributes.Pairwise fun written other => ¬ written.name.SameButColon other.name)

namespace Template

/-- The source is a byte order mark, if there is one, a prolog, and a text in which the names are those of the
    template, each as `kept` keeps it. -/
def NamedBy (kept : List Char → String) (source : String) (template : Template) : Prop :=
  ∃ mark head body first rest,
    source.toList = mark ++ head ++ body ∧ (mark = [] ∨ mark = [Prolog.byteOrderMark]) ∧
      template.children = first ++ rest ∧ Prolog.Spells first head ∧ Named kept rest body

/-- **All names of a template are kept as they are spelled, but without a colon at their start.** Nothing else makes
    one of two attributes of a tag. -/
theorem namedBy_of_parse {options : Options} {source : String} {template : Template}
    (h : parse options source = .ok template) :
    NamedBy keptName source template ∧
      ∀ tag children, .element tag children ∈ template.descendants →
        tag.DistinctButColon options.sourceFile source := by
  constructor
  · obtain ⟨mark, head, body, first, rest, hsource, hmark, hchildren, hfirst, hrest⟩ := placed_of_parse h
    exact ⟨mark, head, body, first, rest, hsource, hmark, hchildren, hfirst.spells, hrest.named⟩
  · intro tag children hmem
    obtain ⟨start, hstart⟩ := exists_opens_of_parse h hmem
    exact ⟨start, hstart, hstart.1.size_eq_iff⟩

theorem namedBy_of_parse_colon :
    ∃ template, parse { } "<!-- c -->\n<:a b='1' t:c='2' b='3' :b='4'><:d/>x</a\t>" = .ok template ∧
      (template.descendants.filterMap fun node => node.tag?.map fun tag => (tag.name, tag.attributes.entries)) =
        [("a", [("b", "4"), ("t:c", "2")]), ("d", [])] ∧
      NamedBy keptName "<!-- c -->\n<:a b='1' t:c='2' b='3' :b='4'><:d/>x</a\t>" template ∧
      ∀ tag children, .element tag children ∈ template.descendants →
        tag.DistinctButColon "<string>" "<!-- c -->\n<:a b='1' t:c='2' b='3' :b='4'><:d/>x</a\t>" := by
  obtain ⟨template, h, hnames⟩ := exists_of_map_parse (show (parse { }
    "<!-- c -->\n<:a b='1' t:c='2' b='3' :b='4'><:d/>x</a\t>").map (fun template =>
      (Node.preorderAll template.children).filterMap fun node =>
        node.tag?.map fun tag => (tag.name, tag.attributes.entries)) =
      .ok [("a", [("b", "4"), ("t:c", "2")]), ("d", [])] by decide +kernel)
  refine ⟨template, h, ?_, namedBy_of_parse h⟩
  rw [descendants, Node.walk_eq_preorderAll, hnames]

/-- Names are not always kept as they are spelled: a colon at their start is lost. -/
theorem not_namedBy_spelling :
    ¬ ∀ (options : Options) (source : String) (template : Template), parse options source = .ok template →
      NamedBy String.ofList source template := by
  intro hall
  obtain ⟨template, hparse, hnames⟩ := exists_of_map_parse (show (parse { } "<:a/>").map (fun template =>
    template.children.map fun node => node.tag?.map Tag.name) = .ok [some "a"] by decide +kernel)
  obtain ⟨node, hnode, htag⟩ := List.map_eq_singleton_iff.1 hnames
  obtain ⟨tag, htag, hname⟩ := Option.map_eq_some_iff.1 htag
  obtain ⟨mark, head, body, first, rest, hsource, hmark, hchildren, hfirst, hrest⟩ := hall _ _ _ hparse
  rcases node with ⟨_, children⟩ | _ <;> cases htag
  rw [hnode] at hchildren
  cases first with
  | cons node first =>
    obtain ⟨rfl, -⟩ := List.cons.inj hchildren
    cases hfirst
  | nil =>
    obtain rfl : [.element tag children] = rest := hchildren
    obtain ⟨spelling, more, rfl, hspelling⟩ := hrest.exists_name
    have hspelled : spelling = ['a'] := by
      rw [hname] at hspelling
      exact String.ofList_injective hspelling.symm
    subst hspelled
    cases hfirst with
    | nil hgap =>
      -- neither a mark nor a space stands in front of the tag
      rcases hmark with rfl | rfl
      · cases head with
        | nil => exact absurd hsource (by simp)
        | cons c head =>
          obtain ⟨rfl, -⟩ := List.cons.inj hsource
          exact absurd (hgap '<' List.mem_cons_self) (by decide)
      · exact absurd (List.cons.inj hsource).1 (by decide)

end Template

end TalMarkup
