import TalMarkup.Proofs.Accepted
import TalMarkup.Proofs.Prologs

/-!
# Where the pieces of a template stand

A node of a template has a piece of the source: a leaf its value, an element its tags with the pieces of
its children between them. `Placed file before nodes text` says that the text is the pieces of the nodes
one after the other, and that every node is located in the line that its piece begins in, if `before` is
what stands in front of the text. `Prolog.Placed` says the same of a prolog, where spaces may stand in
front of the leaves.

* **`Content.placed`**: content is placed where its tokens stand.
* **`Prolog.placed_of_read`**: the leaves of a prolog are placed in front of the body.
* **`Template.placed_of_parse`**: the nodes of a template are placed in its source.
-/

namespace TalMarkup

/-! ## 1. Pieces of a body -/

/-- The start tag is that of an element with this tag: it has its name, and its attributes, bound in
    the order in which they are written, are those of the element. -/
def StartTag.Of (start : StartTag) (tag : Tag) : Prop :=
  start.Formed ∧ start.name.recorded = tag.name ∧
    Bindings.ofList (start.inside.attributes.map WrittenAttribute.pair) = tag.attributes

/-- The closing tag is that of an element with this tag. -/
def EndTag.Of (close : EndTag) (tag : Tag) : Prop := close.Formed ∧ close.name.recorded = tag.name

/-- The text is the pieces of the nodes, one after the other. With `before` in front of it, every node is
    located in the line that its piece begins in. -/
inductive Placed (file : String) : List Char → List Node → List Char → Prop
  | nil {before} : Placed file before [] []
  | leaf {before} {token : Token} {kind value nodes rest}
      (hformed : token.Formed) (hleaf : token.leaf? = some (kind, value))
      (more : Placed file (before ++ value) nodes rest) :
      Placed file before
        (.leaf kind (.after file (newlines before)) (String.ofList value) :: nodes) (value ++ rest)
  | single {before} {start : StartTag} {tag nodes rest}
      (hstart : start.Of tag) (hending : start.inside.ending = .selfClosing)
      (hlocation : tag.location = .after file (newlines before))
      (more : Placed file (before ++ start.text) nodes rest) :
      Placed file before (.element tag [] :: nodes) (start.text ++ rest)
  | pair {before} {start : StartTag} {tag children inner nodes rest} {close : EndTag}
      (hstart : start.Of tag) (hending : start.inside.ending = .opening)
      (hlocation : tag.location = .after file (newlines before))
      (inside : Placed file (before ++ start.text) children inner) (hclose : close.Of tag)
      (more : Placed file (before ++ (start.text ++ inner ++ close.text)) nodes rest) :
      Placed file before (.element tag children :: nodes) (start.text ++ inner ++ close.text ++ rest)

theorem StartTag.of_kept {start : StartTag} {options : Options} {scope : Scope} {lines stamp mid : Nat}
    {kept : Tag} (hformed : start.Formed) (hkept : start.kept options scope lines stamp = (kept, mid)) :
    start.Of kept := by
  obtain ⟨rfl, -⟩ := Prod.mk.inj hkept
  exact ⟨hformed, rfl, rfl⟩

theorem StartTag.location_of_kept {start : StartTag} {options : Options} {scope : Scope}
    {lines stamp mid : Nat} {kept : Tag} (hkept : start.kept options scope lines stamp = (kept, mid)) :
    kept.location = .after options.sourceFile lines := by
  obtain ⟨rfl, -⟩ := Prod.mk.inj hkept
  rfl

/-- **Content is placed where its tokens stand.** -/
theorem Content.placed {options : Options} {scope : Scope} {lines stamp next : Nat}
    {tokens : List Token} {nodes : List Node}
    (h : Content options scope lines stamp tokens nodes next)
    (hformed : ∀ token ∈ tokens, token.Formed) {before : List Char} (hbefore : newlines before = lines) :
    Placed options.sourceFile before nodes (tokens.flatMap Token.text) := by
  induction h generalizing before with
  | nil => exact .nil
  | leaf hleaf _ ih =>
    obtain ⟨htoken, hrest⟩ := List.forall_mem_cons.1 hformed
    subst hbefore
    rw [List.flatMap_cons, Token.text_of_leaf? hleaf]
    exact .leaf htoken hleaf (ih hrest (newlines_append _ _))
  | single hending hkept _ ih =>
    obtain ⟨htag, hrest⟩ := List.forall_mem_cons.1 hformed
    subst hbefore
    exact .single (StartTag.of_kept htag hkept) hending (StartTag.location_of_kept hkept)
      (ih hrest (newlines_append _ _))
  | @pair _ _ _ tag kept _ inner _ _ close tokens _ _ hending hkept _ hclose _ ihInside ihRest =>
    obtain ⟨htag, hrest⟩ := List.forall_mem_cons.1 hformed
    obtain ⟨hinner, hrest⟩ := List.forall_mem_append.1 hrest
    obtain ⟨hend, hrest⟩ := List.forall_mem_cons.1 hrest
    subst hbefore
    have htext : (Token.startTag tag :: (inner ++ .endTag close :: tokens)).flatMap Token.text =
        tag.text ++ inner.flatMap Token.text ++ close.text ++ tokens.flatMap Token.text := by
      simp [Token.text]
    rw [htext]
    exact .pair (StartTag.of_kept htag hkept) hending (StartTag.location_of_kept hkept)
      (ihInside hinner (newlines_append _ _)) ⟨hend, hclose⟩ (ihRest hrest (newlines_append _ _))

/-! ## 2. Pieces of a prolog -/

namespace Prolog

/-- The text is the values of the leaves, with spaces in front of each of them and at the end. Every value
    begins with its `<`, and comments and instructions are well-formed. With `before` in front of the text,
    every leaf is located in the line that its value begins in. -/
inductive Placed (file : String) : List Char → List Node → List Char → Prop
  | nil {before gap} (hgap : IsGap gap) : Placed file before [] gap
  | leaf {before gap kind value nodes rest} (hgap : IsGap gap)
      (hkind : kind ∈ [LeafKind.declaration, .doctype, .comment])
      (hlt : nextIs (· == '<') value = true)
      (hcomment : kind = .comment → (Token.verbatim value).Formed)
      (more : Placed file (before ++ gap ++ value) nodes rest) :
      Placed file before
        (.leaf kind (.after file (newlines (before ++ gap))) (String.ofList value) :: nodes)
        (gap ++ (value ++ rest))

theorem isGap_takeWhile (cs : List Char) : IsGap (cs.takeWhile isSpace) := fun _ hc =>
  List.mem_takeWhile_imp hc

theorem leafKind_mem (kind : Kind) :
    Assembly.leafKind kind ∈ [LeafKind.declaration, .doctype, .comment] := by
  cases kind <;> decide

/-- What is read off a text that begins with a `<` begins with it. -/
theorem nextIs_of_shorter {text rest : List Char} (hlt : nextIs (· == '<') (text ++ rest) = true)
    (hshorter : rest.length < (text ++ rest).length) : nextIs (· == '<') text = true := by
  have hne : text ≠ [] := by
    rintro rfl
    exact Nat.lt_irrefl _ hshorter
  rwa [nextIs_append_of_ne_nil _ hne] at hlt

/-- **An item of a prolog begins with a `<`.** -/
theorem nextIs_of_next {doctypeSeen : Bool} {cs text rest : List Char} {kind : Kind}
    (h : next doctypeSeen cs = .ok (.item kind text rest)) : nextIs (· == '<') text = true := by
  obtain ⟨hcs, hshorter⟩ := shorter_of_next h
  rw [← hcs] at hshorter
  refine nextIs_of_shorter ?_ hshorter
  rw [hcs]
  rw [next_eq_ok_iff] at h
  cases h with
  | doctype hmark =>
    obtain ⟨more, rfl⟩ := Scan.startsWith_iff.1 hmark
    rfl
  | comment hread =>
    obtain ⟨⟨body, rfl, -⟩, rfl⟩ := Scan.comment_eq_ok.1 hread
    rfl
  | instruction _ hread =>
    obtain ⟨⟨target, body, rfl, -⟩, rfl⟩ := Scan.instruction_eq_ok.1 hread
    rfl

/-- A declaration begins with a `<`. -/
theorem nextIs_of_declaration {cs text rest : List Char} (hmark : startsWith "<?xml " cs = true)
    (h : Scan.within .declaration (Scan.text Scan.declaration) cs = .ok (text, rest)) :
    nextIs (· == '<') text = true := by
  obtain ⟨⟨_, hread⟩, rfl⟩ := Scan.text_eq_ok.1 (Scan.within_eq_ok.1 h)
  obtain ⟨hsuffix, hshorter⟩ := Scan.advances_declaration hread
  rw [← readPart_append_of_suffix hsuffix] at hshorter
  refine nextIs_of_shorter ?_ hshorter
  rw [readPart_append_of_suffix hsuffix]
  obtain ⟨more, rfl⟩ := Scan.startsWith_iff.1 hmark
  rfl

/-- What a prolog takes for a comment is a comment or an instruction. -/
theorem formed_of_next {doctypeSeen : Bool} {cs text rest : List Char}
    (h : next doctypeSeen cs = .ok (.item .comment text rest)) : (Token.verbatim text).Formed := by
  rw [next_eq_ok_iff] at h
  cases h with
  | comment hread => exact Or.inl (Scan.comment_eq_ok.1 hread).1
  | instruction hdeclaration hread =>
    obtain ⟨hinstruction, rfl⟩ := Scan.instruction_eq_ok.1 hread
    rw [Token.startsWith_append_of_isInstruction hinstruction] at hdeclaration
    exact Or.inr (Or.inr ⟨hinstruction, hdeclaration⟩)

theorem Placed.cons_item {options : Options} {items : List Item} (kind : Kind)
    {gap text head before : List Char} (skipped : List Char) (hgap : IsGap gap)
    (hlt : nextIs (· == '<') text = true) (hcomment : kind = .comment → (Token.verbatim text).Formed)
    (h : ∀ before, Placed options.sourceFile before (leaves options (newlines before) items) head) :
    Placed options.sourceFile (before ++ skipped)
      (leaves options (newlines before) (⟨skipped ++ gap, kind, text⟩ :: items))
      (gap ++ (text ++ head)) := by
  have hleaf : newlines before + newlines (skipped ++ gap) = newlines (before ++ skipped ++ gap) := by
    simp
  have hmore : newlines before + newlines ((skipped ++ gap) ++ text) =
      newlines (before ++ skipped ++ gap ++ text) := by
    simp
  rw [leaves, hleaf, Item.spelling, hmore]
  refine .leaf hgap (leafKind_mem kind) hlt (fun hkind => hcomment ?_) (h _)
  cases kind <;> first | rfl | cases hkind

/-- Without items the body is everything, what was skipped included; with items this belongs to the
    first of them. -/
theorem placed_of_readItems {doctypeSeen : Bool} {skipped cs : List Char} {prolog : Prolog}
    (h : readItems doctypeSeen skipped cs = .ok prolog) (options : Options) :
    ∃ mark head, prolog.spelling = mark ++ head ∧ (mark = [] ∨ mark = skipped) ∧ ∀ before,
      Placed options.sourceFile (before ++ mark) (leaves options (newlines before) prolog.items) head := by
  fun_induction readItems doctypeSeen skipped cs generalizing prolog with
  | case1 => cases h
  | case2 doctypeSeen skipped cs gap unread =>
    cases h
    exact ⟨skipped, _, rfl, Or.inr rfl, fun _ => .nil (isGap_takeWhile cs)⟩
  | case3 =>
    cases h
    exact ⟨[], [], rfl, Or.inl rfl, fun _ => .nil isGap_nil⟩
  | case4 => cases h
  | case5 =>
    rename_i skipped cs gap unread kind text rest hnext prolog' hread ih
    cases h
    obtain ⟨mark, head, hspelling, hmark, hplaced⟩ := ih hread
    obtain rfl : mark = [] := or_self_iff.1 hmark
    refine ⟨skipped, cs.takeWhile isSpace ++ (text ++ head), ?_, Or.inr rfl, fun before =>
      Placed.cons_item kind skipped (isGap_takeWhile cs) (nextIs_of_next hnext) ?_ fun before => ?_⟩
    · show (prolog'.cons _).spelling = _
      rw [spelling_cons, hspelling]
      simp [Item.spelling, gap]
    · rintro rfl
      exact formed_of_next hnext
    · simpa using hplaced before

theorem placed_of_readFrom {skipped cs : List Char} {prolog : Prolog}
    (h : readFrom skipped cs = .ok prolog) (options : Options) :
    ∃ mark head, prolog.spelling = mark ++ head ∧ (mark = [] ∨ mark = skipped) ∧ ∀ before,
      Placed options.sourceFile (before ++ mark) (leaves options (newlines before) prolog.items) head := by
  unfold readFrom at h
  split at h
  · rename_i hfront
    split at h
    · cases h
    · rename_i text rest htext
      split at h
      · cases h
      · rename_i prolog' hread
        cases h
        obtain ⟨mark, head, hspelling, hmark, hplaced⟩ := placed_of_readItems hread options
        obtain rfl : mark = [] := or_self_iff.1 hmark
        have hkind : Kind.declaration ≠ .comment := by decide
        refine ⟨skipped, text ++ head, ?_, Or.inr rfl, fun before => ?_⟩
        · show (prolog'.cons _).spelling = _
          rw [spelling_cons, hspelling]
          simp [Item.spelling]
        · have hitem : Placed options.sourceFile (before ++ skipped)
              (leaves options (newlines before) (⟨skipped ++ [], .declaration, text⟩ :: prolog'.items))
              ([] ++ (text ++ head)) :=
            Placed.cons_item .declaration skipped isGap_nil (nextIs_of_declaration hfront htext)
              (fun h => absurd h hkind) fun before => by simpa using hplaced before
          rwa [List.append_nil] at hitem
  · exact placed_of_readItems h options

/-- **A prolog is placed in front of the body**, after a byte order mark. -/
theorem placed_of_read {source : List Char} {prolog : Prolog} (h : read source = .ok prolog)
    (options : Options) :
    ∃ mark head, prolog.spelling = mark ++ head ∧ (mark = [] ∨ mark = [byteOrderMark]) ∧ ∀ before,
      Placed options.sourceFile (before ++ mark) (leaves options (newlines before) prolog.items) head := by
  obtain ⟨skipped, cs, hread, hskipped⟩ : ∃ skipped cs, readFrom skipped cs = .ok prolog ∧
      (skipped = [] ∨ skipped = [byteOrderMark]) := by
    unfold read at h
    split at h
    · exact ⟨_, _, h, Or.inl rfl⟩
    · split at h
      · rename_i hmark
        exact ⟨_, _, h, Or.inr (by rw [hmark])⟩
      · exact ⟨_, _, h, Or.inl rfl⟩
  obtain ⟨mark, head, hspelling, hmark, hplaced⟩ := placed_of_readFrom hread options
  refine ⟨mark, head, hspelling, ?_, hplaced⟩
  rcases hmark with rfl | rfl
  · exact Or.inl rfl
  · exact hskipped

end Prolog

/-! ## 3. Pieces of a source -/

/-- **The pieces of a template make up its source**, where every node is located as it stands there. -/
theorem Template.placed_of_parse {options : Options} {source : String} {template : Template}
    (h : parse options source = .ok template) :
    ∃ mark head body first rest, source.toList = mark ++ head ++ body ∧
      (mark = [] ∨ mark = [Prolog.byteOrderMark]) ∧ template.children = first ++ rest ∧
        Prolog.Placed options.sourceFile mark first head ∧
          Placed options.sourceFile (mark ++ head) rest body := by
  obtain ⟨next, hread⟩ := parse_eq_ok_iff.1 h
  obtain ⟨prolog, nodes, hprolog, hfault, content, rfl, -⟩ := read_eq_ok_iff.1 hread
  obtain ⟨mark, head, hspelling, hmark, hplaced⟩ := Prolog.placed_of_read hprolog options
  have hbody : Placed options.sourceFile (mark ++ head) nodes prolog.body := by
    rw [← Body.text_of_read hfault]
    exact content.placed (fun _ => Body.formed_of_mem) (by rw [hspelling])
  have hsource : source.toList = mark ++ head ++ prolog.body := by
    rw [← hspelling, Prolog.spelling_of_read hprolog]
  exact ⟨mark, head, prolog.body, _, nodes, hsource, hmark, rfl, hplaced [], hbody⟩

end TalMarkup
