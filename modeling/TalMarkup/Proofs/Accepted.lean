import TalMarkup.Template.Read
import TalMarkup.Proofs.Content

/-!
# Which sources are accepted

A source is accepted if its prolog and the tokens of its body are read without a fault, the tokens are
content, and not everything is blank. The template then is the leaves of the prolog followed by the
nodes of the body.

**`Template.read_eq_ok_iff`** says this in both directions. What is said of all accepted sources is
proved from it: of the body by induction on its `Content`, of the prolog by induction on its items.
-/

namespace TalMarkup

/-! ## 1. The prolog -/

/-- The leaves that the items of a prolog become, after so many line feeds. -/
def Prolog.leaves (options : Options) : Nat → List Prolog.Item → List Node
  | _, [] => []
  | lines, item :: items =>
    .leaf (Assembly.leafKind item.kind) (.after options.sourceFile (lines + newlines item.gap))
      (String.ofList item.text) :: leaves options (lines + newlines item.spelling) items

namespace Assembly

theorem foldl_item (options : Options) (items : List Prolog.Item) (assembly : Assembly) :
    items.foldl (item options) assembly =
      ⟨assembly.newlines + TalMarkup.newlines (items.flatMap Prolog.Item.spelling), assembly.nextStamp,
        assembly.openTags, (Prolog.leaves options assembly.newlines items).reverse ++ assembly.level⟩ := by
  induction items generalizing assembly with
  | nil => rfl
  | cons first items ih =>
    rw [List.foldl_cons, ih]
    simp [item, pass, leaf, attach, Prolog.leaves, Prolog.Item.spelling, Nat.add_assoc]

/-- The state at the start of a body. -/
def atBody (options : Options) (prolog : Prolog) (stamp : Nat) : Assembly :=
  ⟨TalMarkup.newlines prolog.spelling, stamp, [], (Prolog.leaves options 0 prolog.items).reverse⟩

theorem prolog_start (options : Options) (prolog : Prolog) (stamp : Nat) :
    (start stamp).prolog options prolog = atBody options prolog stamp := by
  rw [Assembly.prolog, foldl_item]
  simp [start, pass, atBody, Prolog.spelling]

theorem finish_of_open {options : Options} {assembly : Assembly} {innermost : OpenTag}
    {outer : List OpenTag} (h : assembly.openTags = innermost :: outer) :
    assembly.finish options =
      .error { kind := .unclosedTag innermost.tag.name, line? := some innermost.tag.location.line } := by
  rw [finish, h]

theorem finish_of_closed {options : Options} {assembly : Assembly} (h : assembly.openTags = []) :
    assembly.finish options =
      if assembly.level.reverse.all Node.isBlankText then .error { kind := .emptyTemplate }
      else .ok ⟨.after options.sourceFile 0, assembly.level.reverse⟩ := by
  rw [finish, h]

/-- A source is refused at its end if an element is open, or if all is blank. -/
theorem error_of_finish {options : Options} {assembly : Assembly} {error : Error}
    (h : assembly.finish options = .error error) :
    (∃ innermost outer, assembly.openTags = innermost :: outer ∧
        error = { kind := .unclosedTag innermost.tag.name, line? := some innermost.tag.location.line }) ∨
      assembly.openTags = [] ∧ assembly.level.reverse.all Node.isBlankText = true ∧
        error = { kind := .emptyTemplate } := by
  rcases hopen : assembly.openTags with _ | ⟨innermost, outer⟩
  · rw [finish_of_closed hopen] at h
    split at h
    · rename_i hblank
      cases h
      exact Or.inr ⟨rfl, hblank, rfl⟩
    · cases h
  · rw [finish_of_open hopen] at h
    cases h
    exact Or.inl ⟨innermost, outer, rfl, rfl⟩

/-- A body that is content is taken in. -/
theorem tokens_atBody {options : Options} {prolog : Prolog} {stamp next : Nat} {tokens : List Token}
    {nodes : List Node}
    (h : Content options .empty (TalMarkup.newlines prolog.spelling) stamp tokens nodes next) :
    (atBody options prolog stamp).tokens options tokens =
      .ok ((atBody options prolog stamp).extend tokens nodes next) :=
  Content.tokens_eq h

/-- The nodes at the top when a body that is content was taken in. -/
theorem level_atBody (options : Options) (prolog : Prolog) (stamp : Nat) (tokens : List Token)
    (nodes : List Node) (next : Nat) :
    ((atBody options prolog stamp).extend tokens nodes next).level.reverse =
      Prolog.leaves options 0 prolog.items ++ nodes := by
  simp [extend, atBody]

end Assembly

/-! ## 2. The whole source -/

theorem Template.read_eq (options : Options) (stamp : Nat) {source : String} {prolog : Prolog}
    (hprolog : Prolog.read source.toList = .ok prolog) :
    read options stamp source =
      match (Assembly.atBody options prolog stamp).tokens options (Body.read prolog.body).tokens with
      | .error error => .error error
      | .ok assembly =>
        match (Body.read prolog.body).fault? with
        | some fault => .error (.ofFault source.toList fault)
        | none => (assembly.finish options).map fun template => (template, assembly.nextStamp) := by
  have hstart := Assembly.prolog_start options prolog stamp
  unfold read
  simp only [hprolog]
  exact hstart ▸ rfl

/-- **A source is accepted exactly if its prolog and its body are read without a fault, the body's
    tokens are content, and not all is blank.** -/
theorem Template.read_eq_ok_iff {options : Options} {stamp next : Nat} {source : String}
    {template : Template} :
    read options stamp source = .ok (template, next) ↔
      ∃ prolog nodes, Prolog.read source.toList = .ok prolog ∧
        (Body.read prolog.body).fault? = none ∧
        Content options .empty (newlines prolog.spelling) stamp (Body.read prolog.body).tokens nodes next ∧
        template = ⟨.after options.sourceFile 0, Prolog.leaves options 0 prolog.items ++ nodes⟩ ∧
        template.children.all Node.isBlankText = false := by
  rcases hprolog : Prolog.read source.toList with fault | prolog
  · simp [read, hprolog]
  · have hread := read_eq options stamp hprolog
    refine ⟨?_, ?_⟩
    · intro h
      rw [hread] at h
      split at h
      · cases h
      · rename_i assembly htokens
        have hreached := Reached.of_tokens rfl htokens
        rcases hfault : (Body.read prolog.body).fault? with _ | fault
        · simp only [hfault] at h
          rcases hopen : assembly.openTags with _ | ⟨innermost, outer⟩
          · obtain ⟨nodes, last, content, rfl⟩ := hreached.content_of_openTags hopen
            rw [Assembly.finish_of_closed hopen, Assembly.level_atBody] at h
            rcases hblank : (Prolog.leaves options 0 prolog.items ++ nodes).all Node.isBlankText
            · rw [hblank] at h
              cases h
              exact ⟨prolog, nodes, rfl, hfault, content, rfl, hblank⟩
            · rw [hblank] at h
              cases h
          · rw [Assembly.finish_of_open hopen] at h
            cases h
        · simp only [hfault] at h
          cases h
    · intro h
      obtain ⟨_, nodes, ⟨⟩, hfault, content, rfl, hblank⟩ := h
      rw [hread, Assembly.tokens_atBody content, hfault]
      simp only
      rw [Assembly.finish_of_closed rfl, Assembly.level_atBody, hblank]
      rfl

theorem Template.parse_eq_ok_iff {options : Options} {source : String} {template : Template} :
    parse options source = .ok template ↔ ∃ next, read options 0 source = .ok (template, next) := by
  rw [parse]
  rcases read options 0 source with error | ⟨template', next⟩ <;> simp [Except.map]

theorem Template.exists_of_isOk {options : Options} {source : String}
    (h : (parse options source).isOk = true) : ∃ template, parse options source = .ok template := by
  rcases hparse : parse options source with error | template
  · rw [hparse] at h
    cases h
  · exact ⟨template, rfl⟩

/-- If a value is computed from the template of a source, the source is read, and its template has this value. -/
theorem Template.exists_of_map_parse {β : Type} {options : Options} {source : String} {f : Template → β} {value : β}
    (h : (parse options source).map f = .ok value) :
    ∃ template, parse options source = .ok template ∧ f template = value := by
  rcases hparse : parse options source with error | template
  · rw [hparse] at h
    cases h
  · rw [hparse] at h
    exact ⟨template, rfl, Except.ok.inj h⟩

/-- Which error a source is refused with can be computed without telling templates apart. -/
theorem Template.map_parse_eq_error_iff {options : Options} {source : String} {error : Error} :
    (parse options source).map (fun _ => ()) = .error error ↔ parse options source = .error error := by
  rcases parse options source with found | template
  · rw [Except.map, Except.error.injEq, Except.error.injEq]
  · exact ⟨nofun, nofun⟩

end TalMarkup
