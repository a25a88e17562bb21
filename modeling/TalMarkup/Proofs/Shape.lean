import Mathlib.Data.List.Chain
import TalMarkup.Proofs.PrologItems
import TalMarkup.Proofs.Qualifiers

/-!
# The shape of a template

Where a node may stand in a template follows from where its markup may stand in a source: declarations and
doctypes come from the prolog, texts and elements from the body, and text is read as far as it goes.

* **`Content.siblings`**: nodes that stand for tokens read from a body are well-formed leaves and elements,
  and no two texts stand side by side, because no two tokens of character data do
  (`Token.FormedAll.isChain`). As the children of every element are content of a part of the tokens
  (`Content.of_mem`), this holds at every depth.
* **`Placed.exists_spans`**: every element has a piece of the source of its own, and what stands between its
  tags are the pieces of its children.

**`Template.shaped_of_parse`** puts this together with the order of the prolog's items.
-/

namespace TalMarkup

/-! ## 1. Nodes side by side -/

/-- The kind of a node that is a leaf. -/
def Node.leafKind? : Node → Option LeafKind
  | .element _ _ => none
  | .leaf kind _ _ => some kind

/-- The node may stand in a body: it is an element, a text or a comment. -/
def Node.IsInner (node : Node) : Prop :=
  node.leafKind? ≠ some .declaration ∧ node.leafKind? ≠ some .doctype

/-- A leaf of this kind may have the value. -/
def LeafKind.Admits (value : List Char) : LeafKind → Prop
  | .text => value ≠ []
  | .comment => IsComment value ∨ IsSection value ∨ IsInstruction value
  | .doctype => "<!DOCTYPE".toList <+: value ∧ ">".toList <:+ value
  | .declaration => "<?xml ".toList <+: value ∧ "?>".toList <:+ value

/-- The nodes may stand side by side: leaves are well-formed, and no text stands next to another. -/
structure Siblings (nodes : List Node) : Prop where
  admits : ∀ kind location value, .leaf kind location value ∈ nodes → kind.Admits value.toList
  apart : nodes.IsChain fun a b => a.text? = none ∨ b.text? = none

namespace Siblings

variable {node : Node} {nodes : List Node}

theorem nil : Siblings [] := ⟨fun _ _ _ h => (nomatch h), .nil⟩

theorem cons (h : Siblings nodes)
    (hnode : ∀ kind location value, node = .leaf kind location value → kind.Admits value.toList)
    (hnext : node.text? ≠ none → ∀ next ∈ nodes.head?, next.text? = none) : Siblings (node :: nodes) := by
  refine ⟨fun kind location value hmem => ?_, List.isChain_cons.2 ⟨fun next hmem => ?_, h.apart⟩⟩
  · rcases List.mem_cons.1 hmem with heq | hmem
    · exact hnode kind location value heq.symm
    · exact h.admits kind location value hmem
  · by_cases htext : node.text? = none
    · exact Or.inl htext
    · exact Or.inr (hnext htext next hmem)

/-- An element may stand in front of everything. -/
theorem element (h : Siblings nodes) (tag : Tag) (children : List Node) :
    Siblings (.element tag children :: nodes) :=
  h.cons nofun fun htext => absurd rfl htext

theorem leaf (h : Siblings nodes) {kind : LeafKind} {value : List Char} (location : Location)
    (hvalue : kind.Admits value) (hnext : kind = .text → ∀ next ∈ nodes.head?, next.text? = none) :
    Siblings (.leaf kind location (String.ofList value) :: nodes) := by
  refine h.cons ?_ fun htext => hnext ?_
  · rintro _ _ _ ⟨⟩
    rwa [String.toList_ofList]
  · cases kind with
    | text => rfl
    | comment => exact absurd rfl htext
    | doctype => exact absurd rfl htext
    | declaration => exact absurd rfl htext

/-- **There is something to print between the tags of an element exactly if it has children.** -/
theorem hasContent_iff (h : Siblings nodes) : hasContent nodes = true ↔ nodes ≠ [] := by
  match nodes, h with
  | [], _ => exact ⟨nofun, fun h => absurd rfl h⟩
  | [.leaf .text location value], h =>
    have hvalue : value.toList ≠ [] := h.admits .text location value List.mem_cons_self
    have hne : value ≠ "" := by
      rintro rfl
      exact hvalue rfl
    exact ⟨fun _ => List.cons_ne_nil _ _, fun _ => bne_iff_ne.2 hne⟩
  | [.leaf .comment _ _], _ => exact ⟨fun _ => List.cons_ne_nil _ _, fun _ => rfl⟩
  | [.leaf .doctype _ _], _ => exact ⟨fun _ => List.cons_ne_nil _ _, fun _ => rfl⟩
  | [.leaf .declaration _ _], _ => exact ⟨fun _ => List.cons_ne_nil _ _, fun _ => rfl⟩
  | [.element _ _], _ => exact ⟨fun _ => List.cons_ne_nil _ _, fun _ => rfl⟩
  | first :: second :: _, _ => exact ⟨fun _ => List.cons_ne_nil _ _, fun _ => by simp [hasContent]⟩

end Siblings

/-! ## 2. Nodes of a body -/

/-- **No two tokens of character data stand side by side**: the first would go on over the second. -/
theorem Token.FormedAll.isChain {tokens : List Token} (h : FormedAll tokens) :
    tokens.IsChain fun a b => a.IsMarkup ∨ b.IsMarkup := by
  induction tokens with
  | nil => exact .nil
  | cons token tokens ih =>
    obtain ⟨-, hends, hrest⟩ := h
    refine List.isChain_cons.2 ⟨fun second hsecond => ?_, ih hrest⟩
    cases token with
    | charData value =>
      refine Or.inr fun value' heq => ?_
      subst heq
      obtain ⟨more, rfl⟩ : ∃ more, tokens = .charData value' :: more := by
        cases tokens with
        | nil => cases hsecond
        | cons first more => exact ⟨more, congrArg (· :: more) (Option.some.inj hsecond)⟩
      obtain ⟨⟨hne, -, hlt, -⟩, -, -⟩ := hrest
      obtain ⟨c, value', rfl⟩ := List.exists_cons_of_ne_nil hne
      rcases hends with hnil | hnext
      · cases hnil
      · exact hlt (beq_iff_eq.1 hnext ▸ List.mem_cons_self)
    | verbatim => exact Or.inl nofun
    | startTag => exact Or.inl nofun
    | endTag => exact Or.inl nofun

namespace Content

variable {options : Options} {scope : Scope} {lines stamp next : Nat} {tokens : List Token}
  {nodes : List Node}

/-- **The children of every element are content** of a part of the tokens. -/
theorem of_mem (h : Content options scope lines stamp tokens nodes next) {tag : Tag} {children : List Node}
    (hmem : .element tag children ∈ Node.preorderAll nodes) :
    ∃ inside lines' first inner last,
      Content options inside lines' first inner children last ∧ inner <:+: tokens := by
  induction h with
  | nil => cases hmem
  | leaf _ _ ih =>
    rw [Node.preorderAll, Node.preorder, List.singleton_append, List.mem_cons] at hmem
    obtain ⟨_, _, _, inner, _, content, hinside⟩ := ih (hmem.resolve_left Node.noConfusion)
    exact ⟨_, _, _, inner, _, content, hinside.trans (List.suffix_cons _ _).isInfix⟩
  | single _ _ _ ih =>
    rw [Node.preorderAll, Node.preorder, Node.preorderAll, List.singleton_append, List.mem_cons] at hmem
    rcases hmem with heq | hmem
    · cases heq
      exact ⟨scope, lines, stamp, [], stamp, .nil, List.nil_infix⟩
    · obtain ⟨_, _, _, inner, _, content, hinside⟩ := ih hmem
      exact ⟨_, _, _, inner, _, content, hinside.trans (List.suffix_cons _ _).isInfix⟩
  | @pair _ _ _ start _ _ between _ _ close after _ _ _ _ inside _ _ ihInside ihRest =>
    rw [Node.preorderAll, Node.preorder, List.cons_append, List.mem_cons, List.mem_append] at hmem
    have hbetween : between <:+: .startTag start :: (between ++ .endTag close :: after) :=
      ⟨[.startTag start], .endTag close :: after, by simp⟩
    have hafter : after <:+: .startTag start :: (between ++ .endTag close :: after) :=
      ⟨.startTag start :: (between ++ [.endTag close]), [], by simp⟩
    rcases hmem with heq | hmem | hmem
    · cases heq
      exact ⟨_, _, _, between, _, inside, hbetween⟩
    · obtain ⟨_, _, _, inner, _, content, hinside⟩ := ihInside hmem
      exact ⟨_, _, _, inner, _, content, hinside.trans hbetween⟩
    · obtain ⟨_, _, _, inner, _, content, hinside⟩ := ihRest hmem
      exact ⟨_, _, _, inner, _, content, hinside.trans hafter⟩

theorem isInner (h : Content options scope lines stamp tokens nodes next) : ∀ node ∈ nodes, node.IsInner := by
  induction h with
  | nil => exact fun _ hmem => absurd hmem List.not_mem_nil
  | @leaf _ _ _ token _ _ _ _ _ hleaf _ ih =>
    refine List.forall_mem_cons.2 ⟨?_, ih⟩
    cases token with
    | charData => cases hleaf; exact ⟨nofun, nofun⟩
    | verbatim => cases hleaf; exact ⟨nofun, nofun⟩
    | startTag => cases hleaf
    | endTag => cases hleaf
  | single _ _ _ ih => exact List.forall_mem_cons.2 ⟨⟨nofun, nofun⟩, ih⟩
  | pair _ _ _ _ _ _ ih => exact List.forall_mem_cons.2 ⟨⟨nofun, nofun⟩, ih⟩

/-- Content of tokens that begin with markup does not begin with a text. -/
theorem text?_head (h : Content options scope lines stamp tokens nodes next)
    (hhead : ∀ token ∈ tokens.head?, token.IsMarkup) : ∀ node ∈ nodes.head?, node.text? = none := by
  intro node hnode
  cases h with
  | nil => cases hnode
  | @leaf _ _ _ token _ _ _ _ _ hleaf _ =>
    cases hnode
    cases token with
    | charData value => exact absurd rfl (hhead _ rfl value)
    | verbatim => cases hleaf; rfl
    | startTag => cases hleaf
    | endTag => cases hleaf
  | single => cases hnode; rfl
  | pair => cases hnode; rfl

/-- **Nodes that stand for tokens of a body may stand side by side.** -/
theorem siblings (h : Content options scope lines stamp tokens nodes next)
    (hformed : ∀ token ∈ tokens, token.Formed)
    (hchain : tokens.IsChain fun a b => a.IsMarkup ∨ b.IsMarkup) : Siblings nodes := by
  induction h with
  | nil => exact .nil
  | @leaf _ _ _ token kind value _ _ _ hleaf rest ih =>
    obtain ⟨htoken, hformed⟩ := List.forall_mem_cons.1 hformed
    obtain ⟨hnext, hchain⟩ := List.isChain_cons.1 hchain
    have hrest := ih hformed hchain
    cases token with
    | charData =>
      cases hleaf
      refine hrest.leaf _ htoken.1 fun _ => rest.text?_head fun second hsecond => ?_
      exact (hnext second hsecond).resolve_left fun hmarkup => hmarkup _ rfl
    | verbatim =>
      cases hleaf
      exact hrest.leaf _ (htoken.imp_right (Or.imp_right And.left)) nofun
    | startTag => cases hleaf
    | endTag => cases hleaf
  | single _ _ _ ih =>
    exact (ih (List.forall_mem_cons.1 hformed).2 (List.isChain_cons.1 hchain).2).element _ _
  | @pair _ _ _ start _ _ between _ _ close after _ _ _ _ _ _ _ _ ih =>
    have hafter : after <:+: .startTag start :: (between ++ .endTag close :: after) :=
      ⟨.startTag start :: (between ++ [.endTag close]), [], by simp⟩
    have hchain' := List.IsChain.infix hchain hafter
    exact (ih (fun token hmem => hformed token (hafter.subset hmem)) hchain').element _ _

/-- **What stands side by side in content stands so in every element of it.** -/
theorem siblings_below (h : Content options scope lines stamp tokens nodes next)
    (hformed : ∀ token ∈ tokens, token.Formed)
    (hchain : tokens.IsChain fun a b => a.IsMarkup ∨ b.IsMarkup) {tag : Tag} {children : List Node}
    (hmem : .element tag children ∈ Node.preorderAll nodes) :
    Siblings children ∧ ∀ node ∈ children, node.IsInner := by
  obtain ⟨_, _, _, inner, _, inside, hpart⟩ := h.of_mem hmem
  have hchain' := List.IsChain.infix hchain hpart
  exact ⟨inside.siblings (fun token hmem => hformed token (hpart.subset hmem)) hchain', inside.isInner⟩

end Content

/-! ## 3. Nodes of a prolog -/

namespace Prolog

variable {options : Options} {items : List Item} {mark head body : List Char}

theorem leaves_append (options : Options) (front back : List Item) (lines : Nat) :
    leaves options lines (front ++ back) =
      leaves options lines front ++ leaves options (lines + newlines (front.flatMap Item.spelling)) back := by
  induction front generalizing lines with
  | nil => rfl
  | cons item front ih =>
    rw [List.cons_append, leaves, leaves, ih, List.flatMap_cons, newlines_append, Nat.add_assoc]
    rfl

theorem length_leaves (options : Options) (items : List Item) (lines : Nat) :
    (leaves options lines items).length = items.length := by
  induction items generalizing lines with
  | nil => rfl
  | cons item items ih => rw [leaves, List.length_cons, List.length_cons, ih]

/-- Items of one kind become leaves of one kind. -/
theorem leafKind?_of_mem_leaves {kind : Kind} (hkind : ∀ item ∈ items, item.kind = kind) {lines : Nat}
    {node : Node} (hnode : node ∈ leaves options lines items) :
    node.leafKind? = some (Assembly.leafKind kind) := by
  induction items generalizing lines with
  | nil => cases hnode
  | cons item items ih =>
    obtain ⟨hfirst, hrest⟩ := List.forall_mem_cons.1 hkind
    rw [leaves, List.mem_cons] at hnode
    rcases hnode with rfl | hnode
    · rw [Node.leafKind?, hfirst]
    · exact ih hrest hnode

theorem preorderAll_leaves (options : Options) (items : List Item) (lines : Nat) :
    Node.preorderAll (leaves options lines items) = leaves options lines items := by
  induction items generalizing lines with
  | nil => rfl
  | cons item items ih => rw [leaves, Node.preorderAll, ih]; rfl

theorem not_element_of_mem_leaves {lines : Nat} {tag : Tag} {children : List Node} :
    .element tag children ∉ leaves options lines items := by
  induction items generalizing lines with
  | nil => exact List.not_mem_nil
  | cons item items ih => exact fun hmem => ih ((List.mem_cons.1 hmem).resolve_left nofun)

/-- An item that stands in a prolog becomes a leaf that may have its value. -/
theorem Kind.Stands.admits {kind : Kind} {text rest : List Char} (h : kind.Stands text rest) :
    (Assembly.leafKind kind).Admits text := by
  cases kind with
  | declaration => exact h
  | comment => exact h.imp_right (Or.imp_right And.left)
  | doctype => exact ⟨h.1, h.2.1⟩

theorem Standing.siblings (h : Standing mark items head body) {nodes : List Node} (hnodes : Siblings nodes)
    (lines : Nat) : Siblings (leaves options lines items ++ nodes) := by
  induction h generalizing lines with
  | nil => exact hnodes
  | @item _ _ kind _ _ _ _ _ hitem _ ih =>
    exact (ih _).leaf _ hitem.admits fun htext => by cases kind <;> cases htext

theorem Standing.spells (h : Standing mark items head body) (lines : Nat) :
    Spells (leaves options lines items) head := by
  induction h generalizing lines with
  | nil hgap => exact .nil hgap
  | @item _ _ kind _ _ _ _ hgap hitem _ ih =>
    refine .leaf hgap (leafKind_mem kind) (fun hkind => ?_) (ih _)
    cases kind with
    | declaration => cases hkind
    | comment => exact hitem
    | doctype => cases hkind

/-- **A doctype takes all that belongs to it**: what stands in front of it are the leaves in front of it, and
    what stands behind it those behind it. -/
theorem Standing.doctype (h : Standing mark items head body) {lines : Nat} {location : Location}
    {value : String} (hmem : .leaf .doctype location value ∈ leaves options lines items) :
    ∃ front back before after,
      leaves options lines items = front ++ .leaf .doctype location value :: back ∧
        head = before ++ (value.toList ++ after) ∧
        Doctype.read (value.toList ++ (after ++ body)) = .ok (some (after ++ body)) ∧
        Spells front before ∧ Spells back after := by
  induction h generalizing lines with
  | nil => cases hmem
  | @item mark gap kind text items head body hgap hitem more ih =>
    rw [leaves, List.mem_cons] at hmem
    rcases hmem with heq | hmem
    · obtain ⟨hkind, -, rfl⟩ := Node.leaf.inj heq
      have hdoctype : kind = .doctype := by cases kind <;> first | rfl | cases hkind
      subst hdoctype
      rw [String.toList_ofList, leaves, ← heq]
      exact ⟨[], _, gap, head, rfl, rfl, hitem.2.2, .nil hgap, more.spells _⟩
    · obtain ⟨front, back, before, after, hleaves, rfl, hread, hfront, hback⟩ := ih hmem
      rw [leaves, hleaves]
      refine ⟨_ :: front, back, gap ++ (text ++ before), after, rfl, ?_, hread, ?_, hback⟩
      · simp only [List.append_assoc]
      · refine .leaf hgap (leafKind_mem kind) (fun hkind => ?_) hfront
        cases kind with
        | declaration => cases hkind
        | comment => exact hitem
        | doctype => cases hkind

/-- **The order of the items is that of their leaves**, and what follows them comes last. -/
theorem exists_order {source : List Char} {prolog : Prolog} {nodes : List Node}
    (h : read source = .ok prolog) (hnodes : ∀ node ∈ nodes, node.IsInner) :
    ∃ declaration comments doctype others,
      leaves options 0 prolog.items ++ nodes = declaration ++ (comments ++ (doctype ++ others)) ∧
        declaration.length ≤ 1 ∧ doctype.length ≤ 1 ∧
        (∀ node ∈ declaration, node.leafKind? = some .declaration) ∧
        (∀ node ∈ comments, node.leafKind? = some .comment) ∧
        (∀ node ∈ doctype, node.leafKind? = some .doctype) ∧ ∀ node ∈ others, node.IsInner := by
  obtain ⟨declaration, comments, doctype, others, hitems, hordered⟩ := ordered_of_read h
  simp only [hitems, leaves_append, List.append_assoc]
  refine ⟨_, _, _, _, rfl, ?_, ?_, ?_, ?_, ?_, ?_⟩
  · rw [length_leaves]
    exact hordered.declaration_le
  · rw [length_leaves]
    exact hordered.doctype_le
  · exact fun node => leafKind?_of_mem_leaves hordered.declaration_kind
  · exact fun node => leafKind?_of_mem_leaves hordered.comments_kind
  · exact fun node => leafKind?_of_mem_leaves hordered.doctype_kind
  · refine List.forall_mem_append.2 ⟨fun node hnode => ?_, hnodes⟩
    have hkind := leafKind?_of_mem_leaves hordered.others_kind hnode
    rw [Node.IsInner, hkind]
    exact ⟨nofun, nofun⟩

end Prolog

/-! ## 4. The pieces of elements -/

/-- The piece is one of an element with this tag: an empty tag, or a start tag and a closing tag with
    something between them. -/
def Tag.Spans (tag : Tag) : Option (List Char) → List Char → Prop
  | none, piece => ∃ start : StartTag, start.Of tag ∧ start.inside.ending = .selfClosing ∧ piece = start.text
  | some inner, piece => ∃ (start : StartTag) (close : EndTag), start.Of tag ∧
      start.inside.ending = .opening ∧ close.Of tag ∧ piece = start.text ++ inner ++ close.text

/-- The start tag is that of an element with this tag. It stands in the source, in the line of the element. -/
def StartTag.Opens (file source : String) (start : StartTag) (tag : Tag) : Prop :=
  start.Of tag ∧ ∃ front back, source.toList = front ++ (start.text ++ back) ∧
    tag.location = .after file (newlines front)

/-- **Every element has a piece of its own**, with the pieces of its children between its tags. -/
theorem Placed.exists_spans {file : String} {before text : List Char} {nodes children : List Node} {tag : Tag}
    (h : Placed file before nodes text) (hmem : .element tag children ∈ Node.preorderAll nodes) :
    ∃ front inner? piece back, text = front ++ (piece ++ back) ∧
      tag.location = .after file (newlines (before ++ front)) ∧ tag.Spans inner? piece ∧
      Spells children (inner?.getD []) := by
  induction h with
  | nil => cases hmem
  | @leaf before _ _ value _ _ _ _ _ ih =>
    rw [Node.preorderAll, Node.preorder, List.singleton_append, List.mem_cons] at hmem
    obtain ⟨front, inner?, piece, back, rfl, hlocation, hspans⟩ := ih (hmem.resolve_left Node.noConfusion)
    refine ⟨value ++ front, inner?, piece, back, by simp, ?_, hspans⟩
    rw [hlocation, List.append_assoc]
  | @single before start _ _ rest hstart hending hlocation _ ih =>
    rw [Node.preorderAll, Node.preorder, Node.preorderAll, List.singleton_append, List.mem_cons] at hmem
    rcases hmem with heq | hmem
    · cases heq
      refine ⟨[], none, start.text, rest, rfl, ?_, ⟨start, hstart, hending, rfl⟩, .nil⟩
      rw [hlocation, List.append_nil]
    · obtain ⟨front, inner?, piece, back, rfl, hlocation, hspans⟩ := ih hmem
      refine ⟨start.text ++ front, inner?, piece, back, by simp, ?_, hspans⟩
      rw [hlocation, List.append_assoc]
  | @pair before start _ _ inner _ rest close hstart hending hlocation inside hclose _ ihInside ihMore =>
    rw [Node.preorderAll, Node.preorder, List.cons_append, List.mem_cons, List.mem_append] at hmem
    rcases hmem with heq | hmem | hmem
    · cases heq
      refine ⟨[], some inner, start.text ++ inner ++ close.text, rest, rfl, ?_,
        ⟨start, close, hstart, hending, hclose, rfl⟩, inside.spells⟩
      rw [hlocation, List.append_nil]
    · obtain ⟨front, inner?, piece, back, rfl, hlocation, hspans⟩ := ihInside hmem
      refine ⟨start.text ++ front, inner?, piece, back ++ (close.text ++ rest), by simp, ?_, hspans⟩
      rw [hlocation, List.append_assoc]
    · obtain ⟨front, inner?, piece, back, rfl, hlocation, hspans⟩ := ihMore hmem
      refine ⟨start.text ++ inner ++ close.text ++ front, inner?, piece, back, by simp, ?_, hspans⟩
      rw [hlocation]
      simp

/-- Nodes have a spelling that is not empty, unless there are none. -/
theorem Spells.eq_nil_iff {nodes : List Node} {text : List Char} (h : Spells nodes text) :
    text = [] ↔ nodes = [] := by
  cases h with
  | nil => exact ⟨fun _ => rfl, fun _ => rfl⟩
  | leaf hformed hleaf _ =>
    rw [← Token.text_of_leaf? hleaf]
    exact ⟨fun h => absurd (List.append_eq_nil_iff.1 h).1 hformed.text_ne_nil, nofun⟩
  | single => exact ⟨nofun, nofun⟩
  | pair => exact ⟨nofun, nofun⟩

/-! ## 5. Templates -/

/-- The shape of a template read from a source. -/
structure Shaped (file source : String) (template : Template) : Prop where
  /-- At the top a declaration and a doctype may stand, each once and the declaration in front of everything,
      with comments only between them. -/
  order : ∃ declaration comments doctype others,
    template.children = declaration ++ (comments ++ (doctype ++ others)) ∧
      declaration.length ≤ 1 ∧ doctype.length ≤ 1 ∧
      (∀ node ∈ declaration, node.leafKind? = some .declaration) ∧
      (∀ node ∈ comments, node.leafKind? = some .comment) ∧
      (∀ node ∈ doctype, node.leafKind? = some .doctype) ∧ ∀ node ∈ others, node.IsInner
  not_blank : ∃ node ∈ template.children, node.isBlankText = false
  siblings : Siblings template.children
  /-- Below elements there are elements, texts and comments only, at every depth. -/
  below : ∀ tag children, .element tag children ∈ template.descendants →
    Siblings children ∧ ∀ node ∈ children, node.IsInner
  /-- A doctype is read whole, its subset included. The other nodes are what stands in front of it and
      behind it. -/
  doctype : ∀ location value, .leaf .doctype location value ∈ template.children →
    ∃ mark before after body front first rest,
      source.toList = mark ++ (before ++ (value.toList ++ (after ++ body))) ∧
        (mark = [] ∨ mark = [Prolog.byteOrderMark]) ∧
        template.children = front ++ .leaf .doctype location value :: (first ++ rest) ∧
        Doctype.read (value.toList ++ (after ++ body)) = .ok (some (after ++ body)) ∧
        Prolog.Spells front before ∧ Prolog.Spells first after ∧ Spells rest body
  /-- There is something to print in an element exactly if it has children, and so exactly if there is
      anything between its tags in the source. -/
  content : ∀ tag children, .element tag children ∈ template.descendants →
    (hasContent children = true ↔ children ≠ []) ∧
      ∃ front inner? piece back, source.toList = front ++ (piece ++ back) ∧
        tag.location = .after file (newlines front) ∧ tag.Spans inner? piece ∧
        Spells children (inner?.getD []) ∧ (hasContent children = true ↔ inner?.getD [] ≠ [])

namespace Template

/-- Every element of a template has a piece of its source. -/
theorem exists_spans_of_parse {options : Options} {source : String} {template : Template}
    (h : parse options source = .ok template) {tag : Tag} {children : List Node}
    (hmem : .element tag children ∈ template.descendants) :
    ∃ front inner? piece back, source.toList = front ++ (piece ++ back) ∧
      tag.location = .after options.sourceFile (newlines front) ∧ tag.Spans inner? piece ∧
      Spells children (inner?.getD []) := by
  obtain ⟨mark, head, body, first, rest, hsource, -, hchildren, hfirst, hrest⟩ := placed_of_parse h
  rw [descendants, Node.walk_eq_preorderAll, hchildren, Node.preorderAll_append, List.mem_append] at hmem
  obtain ⟨front, inner?, piece, back, rfl, hlocation, hspans⟩ :=
    hrest.exists_spans (hmem.resolve_left hfirst.not_mem)
  exact ⟨mark ++ head ++ front, inner?, piece, back, by rw [hsource]; simp, hlocation, hspans⟩

/-- Every element of a template is opened by its start tag. -/
theorem exists_opens_of_parse {options : Options} {source : String} {template : Template}
    (h : parse options source = .ok template) {tag : Tag} {children : List Node}
    (hmem : .element tag children ∈ template.descendants) :
    ∃ start : StartTag, start.Opens options.sourceFile source tag := by
  obtain ⟨front, inner?, piece, back, hsource, hlocation, hspans, -⟩ := exists_spans_of_parse h hmem
  rcases inner? with _ | inner
  · obtain ⟨start, hstart, -, rfl⟩ := hspans
    exact ⟨start, hstart, front, back, hsource, hlocation⟩
  · obtain ⟨start, close, hstart, -, -, rfl⟩ := hspans
    refine ⟨start, hstart, front, inner ++ (close.text ++ back), ?_, hlocation⟩
    rw [hsource]
    simp only [List.append_assoc]

/-- **The shape of every template that is read.** -/
theorem shaped_of_parse {options : Options} {source : String} {template : Template}
    (h : parse options source = .ok template) : Shaped options.sourceFile source template := by
  have hspans := @exists_spans_of_parse _ _ _ h
  obtain ⟨next, hread⟩ := parse_eq_ok_iff.1 h
  obtain ⟨prolog, nodes, hprolog, hfault, content, rfl, hblank⟩ := read_eq_ok_iff.1 hread
  obtain ⟨mark, head, hmark, hsource, hstanding⟩ := Prolog.standing_of_read hprolog
  rcases hbody : Body.read prolog.body with ⟨tokens, fault?⟩
  rw [hbody] at hfault content
  subst hfault
  obtain ⟨hformedAll, htext⟩ := Body.read_eq_iff.1 hbody
  have hformed : ∀ token ∈ tokens, token.Formed := fun token hmem =>
    Body.formed_of_mem (by rw [hbody]; exact hmem)
  have hchain := hformedAll.isChain
  have hbelow : ∀ {tag children},
      .element tag children ∈ Node.walk (Prolog.leaves options 0 prolog.items ++ nodes) →
        Siblings children ∧ ∀ node ∈ children, node.IsInner := by
    intro tag children hmem
    rw [Node.walk_eq_preorderAll, Node.preorderAll_append, Prolog.preorderAll_leaves, List.mem_append] at hmem
    exact content.siblings_below hformed hchain (hmem.resolve_left Prolog.not_element_of_mem_leaves)
  constructor
  case order =>
    exact Prolog.exists_order hprolog content.isInner
  case not_blank =>
    obtain ⟨node, hnode, hfalse⟩ := List.all_eq_false.1 hblank
    exact ⟨node, hnode, Bool.eq_false_iff.2 hfalse⟩
  case siblings => exact hstanding.siblings (content.siblings hformed hchain) 0
  case below => exact fun tag children hmem => hbelow hmem
  case doctype =>
    intro location value hmem
    have hleaf : .leaf .doctype location value ∈ Prolog.leaves options 0 prolog.items :=
      (List.mem_append.1 hmem).resolve_right fun hmem => (content.isInner _ hmem).2 rfl
    obtain ⟨front, back, before, after, hleaves, rfl, hdoctype, hfront, hback⟩ := hstanding.doctype hleaf
    have hspells : Spells nodes prolog.body := htext ▸ content.spells hformed
    refine ⟨mark, before, after, prolog.body, front, back, nodes, ?_, hmark, ?_, hdoctype, hfront, hback,
      hspells⟩
    · rw [hsource]
      simp only [List.append_assoc]
    · rw [hleaves, List.append_assoc, List.cons_append]
  case content =>
    intro tag children hmem
    have hcontent := (hbelow hmem).1.hasContent_iff
    obtain ⟨front, inner?, piece, back, hpiece, hlocation, hspan, hspells⟩ := hspans hmem
    exact ⟨hcontent, front, inner?, piece, back, hpiece, hlocation, hspan, hspells,
      hcontent.trans (not_congr hspells.eq_nil_iff.symm)⟩

theorem shaped_of_parse_subset :
    ∃ template,
      parse { } "<?xml version='1.0'?><!DOCTYPE a [<!-- d --><?p q?>]>\n<?g h?><a>t<b/></a>" = .ok template ∧
        template.children.map Node.kindName = ["xml declaration", "doctype", "comment", "element"] ∧
        Shaped "<string>" "<?xml version='1.0'?><!DOCTYPE a [<!-- d --><?p q?>]>\n<?g h?><a>t<b/></a>"
          template := by
  obtain ⟨template, h, hkinds⟩ := exists_of_map_parse (show (parse { }
    "<?xml version='1.0'?><!DOCTYPE a [<!-- d --><?p q?>]>\n<?g h?><a>t<b/></a>").map
      (fun template => template.children.map Node.kindName) =
        .ok ["xml declaration", "doctype", "comment", "element"] by decide +kernel)
  exact ⟨template, h, hkinds, shaped_of_parse h⟩

end Template

end TalMarkup
