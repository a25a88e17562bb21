import TalMarkup.Proofs.Pieces

/-!
# The spelling of a template

`Spells nodes text` says that the text is the pieces of the nodes one after the other: of a leaf its
value, of an element its tags with the pieces of its children between them. `Prolog.Spells` says the
same of a prolog, where spaces may stand in front of the leaves.

**`Template.source_eq_of_parse`**: the source of a template is a byte order mark, if there is one, then
the spelling of a prolog with the first nodes of the template, then the spelling of the other nodes.
Nothing is lost, added, or read twice.
-/

namespace TalMarkup

/-! ## 1. Pieces of a body -/

/-- The text is the pieces of the nodes, one after the other. -/
inductive Spells : List Node → List Char → Prop
  | nil : Spells [] []
  | leaf {token : Token} {kind location value nodes rest}
      (hformed : token.Formed) (hleaf : token.leaf? = some (kind, value)) (more : Spells nodes rest) :
      Spells (.leaf kind location (String.ofList value) :: nodes) (value ++ rest)
  | single {start : StartTag} {tag nodes rest}
      (hstart : start.Of tag) (hending : start.inside.ending = .selfClosing) (more : Spells nodes rest) :
      Spells (.element tag [] :: nodes) (start.text ++ rest)
  | pair {start : StartTag} {tag children inner nodes rest} {close : EndTag}
      (hstart : start.Of tag) (hending : start.inside.ending = .opening)
      (inside : Spells children inner) (hclose : close.Of tag) (more : Spells nodes rest) :
      Spells (.element tag children :: nodes) (start.text ++ inner ++ close.text ++ rest)

/-- Pieces that are placed are spelled. -/
theorem Placed.spells {file : String} {before text : List Char} {nodes : List Node}
    (h : Placed file before nodes text) : Spells nodes text := by
  induction h with
  | nil => exact .nil
  | leaf hformed hleaf _ ih => exact .leaf hformed hleaf ih
  | single hstart hending _ _ ih => exact .single hstart hending ih
  | pair hstart hending _ _ hclose _ ihInside ihMore => exact .pair hstart hending ihInside hclose ihMore

/-- **Content is spelled by its tokens.** -/
theorem Content.spells {options : Options} {scope : Scope} {lines stamp next : Nat}
    {tokens : List Token} {nodes : List Node}
    (h : Content options scope lines stamp tokens nodes next)
    (hformed : ∀ token ∈ tokens, token.Formed) : Spells nodes (tokens.flatMap Token.text) := by
  have hlines : newlines (List.replicate lines '\n') = lines := List.count_replicate_self
  exact (h.placed hformed hlines).spells

/-! ## 2. Pieces of a prolog -/

namespace Prolog

/-- The text is the values of the leaves, with spaces in front of each of them and at the end. Comments
    and instructions are well-formed. -/
inductive Spells : List Node → List Char → Prop
  | nil {gap} (hgap : IsGap gap) : Spells [] gap
  | leaf {gap kind location value nodes rest} (hgap : IsGap gap)
      (hkind : kind ∈ [LeafKind.declaration, .doctype, .comment])
      (hcomment : kind = .comment → (Token.verbatim value).Formed) (more : Spells nodes rest) :
      Spells (.leaf kind location (String.ofList value) :: nodes) (gap ++ (value ++ rest))

theorem Placed.spells {file : String} {before text : List Char} {nodes : List Node}
    (h : Placed file before nodes text) : Spells nodes text := by
  induction h with
  | nil hgap => exact .nil hgap
  | leaf hgap hkind _ hcomment _ ih => exact .leaf hgap hkind hcomment ih

/-- **A prolog is spelled by what stands in front of the body**, after a byte order mark. -/
theorem spells_of_read {source : List Char} {prolog : Prolog} (h : read source = .ok prolog)
    (options : Options) :
    ∃ mark head, prolog.spelling = mark ++ head ∧ (mark = [] ∨ mark = [byteOrderMark]) ∧
      ∀ lines, Spells (leaves options lines prolog.items) head := by
  obtain ⟨mark, head, hspelling, hmark, hplaced⟩ := placed_of_read h options
  refine ⟨mark, head, hspelling, hmark, fun lines => ?_⟩
  have hlines : newlines (List.replicate lines '\n') = lines := List.count_replicate_self
  exact hlines ▸ (hplaced (List.replicate lines '\n')).spells

end Prolog

/-! ## 3. The whole source -/

/-- **A source that is accepted is spelled by its template**, with spaces between the first nodes, which
    are the prolog. -/
theorem Template.source_eq_of_parse {options : Options} {source : String} {template : Template}
    (h : parse options source = .ok template) :
    ∃ mark head body first rest,
      source.toList = mark ++ head ++ body ∧ (mark = [] ∨ mark = [Prolog.byteOrderMark]) ∧
        template.children = first ++ rest ∧ Prolog.Spells first head ∧ Spells rest body := by
  obtain ⟨next, hread⟩ := parse_eq_ok_iff.1 h
  obtain ⟨prolog, nodes, hprolog, hfault, content, rfl, -⟩ := read_eq_ok_iff.1 hread
  obtain ⟨mark, head, hspelling, hmark, hspells⟩ := Prolog.spells_of_read hprolog options
  have hbody : Spells nodes prolog.body := by
    rw [← Body.text_of_read hfault]
    exact content.spells fun _ => Body.formed_of_mem
  refine ⟨mark, head, prolog.body, Prolog.leaves options 0 prolog.items, nodes, ?_, hmark, rfl,
    hspells 0, hbody⟩
  rw [← hspelling, Prolog.spelling_of_read hprolog]

theorem Template.source_eq_of_parse_marked :
    ∃ template,
      parse { } "\ufeff<?xml version='1.0'?>\n<!-- c --><a x='1'>t<b/></a >\n" = .ok template ∧
        ∃ mark head body first rest,
          "\ufeff<?xml version='1.0'?>\n<!-- c --><a x='1'>t<b/></a >\n".toList = mark ++ head ++ body ∧
            (mark = [] ∨ mark = [Prolog.byteOrderMark]) ∧ template.children = first ++ rest ∧
            Prolog.Spells first head ∧ Spells rest body := by
  obtain ⟨template, h⟩ := exists_of_isOk (show (parse { }
    "\ufeff<?xml version='1.0'?>\n<!-- c --><a x='1'>t<b/></a >\n").isOk = true by decide +kernel)
  exact ⟨template, h, source_eq_of_parse h⟩

end TalMarkup
