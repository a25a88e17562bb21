import Mathlib.Data.List.Basic
import TalMarkup.Proofs.Joining
import TalMarkup.Tree.Walk

/-!
# What options add to a template

Options name the file of every location and say which declarations make aliases. All else in a template
comes from the source alone: `bare` takes away what options add, and what is left is what `Options.plain`,
which add nothing, make of the source.

* `Assembly.map_bare_token`: this holds of every step of an assembly, and so of a run on tokens. A source is
  refused under any options as it is refused under the plain ones (**`Template.map_bare_read`**).
* **`Content.of_agree`**: of the namespaces that options know, only those count that some tag declares.

**`Template.read_recoloured`** says both of any two options.
-/

namespace TalMarkup

/-! ## 1. Taking away what options add -/

/-- The location without its file. -/
def Location.bare (location : Location) : Location := { location with file := "" }

/-- The tag without its scope and the file of its location. -/
def Tag.bare (tag : Tag) : Tag := { tag with location := tag.location.bare, scope := .empty }

mutual

/-- The node without the files and the scopes in it. -/
def Node.bare : Node → Node
  | .element tag children => .element tag.bare (Node.bareAll children)
  | .leaf kind location value => .leaf kind location.bare value

/-- The nodes without the files and the scopes in them. -/
def Node.bareAll : List Node → List Node
  | [] => []
  | node :: nodes => Node.bare node :: Node.bareAll nodes

end

/-- The template without the files and the scopes in it. -/
def Template.bare (template : Template) : Template :=
  ⟨template.location.bare, Node.bareAll template.children⟩

/-- Options that add nothing: the file has no name, and no namespace is known. -/
def Options.plain : Options := ⟨"", .empty⟩

/-- The open tag without the files and the scopes in it. -/
def OpenTag.bare (openTag : OpenTag) : OpenTag := ⟨openTag.tag.bare, Node.bareAll openTag.before⟩

/-- The assembly without the files and the scopes in it. Without scopes no stamps are used. -/
def Assembly.bare (assembly : Assembly) : Assembly :=
  ⟨assembly.newlines, 0, assembly.openTags.map OpenTag.bare, Node.bareAll assembly.level⟩

namespace Node

theorem bareAll_eq_map (nodes : List Node) : bareAll nodes = nodes.map bare := by
  induction nodes with
  | nil => rfl
  | cons node nodes ih => rw [bareAll, ih, List.map_cons]

theorem bareAll_reverse (nodes : List Node) : bareAll nodes.reverse = (bareAll nodes).reverse := by
  rw [bareAll_eq_map, bareAll_eq_map, List.map_reverse]

theorem isBlankText_bare (node : Node) : node.bare.isBlankText = node.isBlankText := by
  cases node with
  | element tag children => rfl
  | leaf kind location value => cases kind <;> rfl

end Node

/-! ## 2. Steps and runs -/

/-- Where no namespace is known nothing is declared. -/
theorem Scope.declare_of_unknown (scope : Scope) (attributes : Bindings) (stamp : Nat) :
    scope.declare .empty attributes.entries stamp = (scope, stamp) := by
  refine declare_of_not_declares ?_
  rw [Bindings.declares, List.any_eq_false]
  rintro ⟨name, uri⟩ _
  show ¬ (_ && (Registry.empty.canonical? uri).isSome) = true
  rw [show (Registry.empty.canonical? uri).isSome = false from rfl, Bool.and_false]
  exact Bool.false_ne_true

/-- Plain options keep of a start tag what is left of the tag that others keep. -/
theorem StartTag.kept_plain {tag : StartTag} {options : Options} {scope : Scope} {lines stamp mid : Nat}
    {kept : Tag} (hkept : tag.kept options scope lines stamp = (kept, mid)) :
    tag.kept .plain .empty lines 0 = (kept.bare, 0) := by
  obtain ⟨rfl, rfl⟩ := Prod.mk.inj hkept
  rw [StartTag.kept]
  simp only [Options.plain, Scope.declare_of_unknown]
  rfl

namespace Assembly

variable {options : Options} {assembly : Assembly}

theorem scope_bare (assembly : Assembly) : assembly.bare.scope = .empty := by
  rcases assembly with ⟨_, _, _ | ⟨innermost, outer⟩, _⟩ <;> rfl

/-- **A step under any options is, taken bare, a step under the plain ones.** -/
theorem map_bare_token (options : Options) (assembly : Assembly) (token : Token) :
    (assembly.token options token).map bare = assembly.bare.token .plain token := by
  cases token with
  | charData value => rfl
  | verbatim value => rfl
  | startTag tag =>
    rcases hkept : tag.kept options assembly.scope assembly.newlines assembly.nextStamp with ⟨kept, mid⟩
    have hplain := StartTag.kept_plain hkept
    rw [← scope_bare assembly] at hplain
    rw [token_startTag hkept, token_startTag hplain]
    cases tag.inside.ending <;> rfl
  | endTag tag =>
    rcases hopen : assembly.openTags with _ | ⟨innermost, outer⟩
    · have hbare : assembly.bare.openTags = [] := by rw [bare, hopen, List.map_nil]
      rw [token_endTag_nil hopen, token_endTag_nil hbare]
      rfl
    · have hbare : assembly.bare.openTags = innermost.bare :: outer.map OpenTag.bare := by
        rw [bare, hopen, List.map_cons]
      by_cases hname : tag.name.recorded = innermost.tag.name
      · rw [token_endTag_match hopen hname, token_endTag_match hbare hname, Except.map, bare, pass, bare]
        simp only [Node.bareAll, Node.bare, Node.bareAll_reverse]
        rfl
      · rw [token_endTag_mismatch hopen hname, token_endTag_mismatch hbare hname]
        rfl

/-- **A run under any options is, taken bare, a run under the plain ones.** -/
theorem map_bare_tokens (options : Options) (assembly : Assembly) (tokens : List Token) :
    (assembly.tokens options tokens).map bare = assembly.bare.tokens .plain tokens := by
  induction tokens generalizing assembly with
  | nil => rfl
  | cons token tokens ih =>
    have htoken := map_bare_token options assembly token
    rw [Assembly.tokens, Assembly.tokens, ← htoken]
    rcases assembly.token options token with error | mid
    · rfl
    · exact ih mid

theorem bare_atBody (options : Options) (prolog : Prolog) (stamp : Nat) :
    (atBody options prolog stamp).bare = atBody .plain prolog 0 := by
  have hleaves : ∀ (items : List Prolog.Item) (lines : Nat),
      Node.bareAll (Prolog.leaves options lines items) = Prolog.leaves .plain lines items := by
    intro items
    induction items with
    | nil => exact fun _ => rfl
    | cons item items ih =>
      intro lines
      rw [Prolog.leaves, Prolog.leaves, Node.bareAll, ih]
      rfl
  rw [bare, atBody, atBody, Node.bareAll_reverse, hleaves]
  rfl

theorem map_bare_finish (options : Options) (assembly : Assembly) :
    (assembly.finish options).map Template.bare = assembly.bare.finish .plain := by
  rcases hopen : assembly.openTags with _ | ⟨innermost, outer⟩
  · have hbare : assembly.bare.openTags = [] := by rw [bare, hopen, List.map_nil]
    have hlevel : assembly.bare.level.reverse = Node.bareAll assembly.level.reverse :=
      (Node.bareAll_reverse _).symm
    have hblank : (Node.bareAll assembly.level.reverse).all Node.isBlankText =
        assembly.level.reverse.all Node.isBlankText := by
      rw [Node.bareAll_eq_map, List.all_map]
      exact congrArg _ (funext Node.isBlankText_bare)
    rw [finish_of_closed hopen, finish_of_closed hbare, hlevel, hblank]
    split <;> rfl
  · have hbare : assembly.bare.openTags = innermost.bare :: outer.map OpenTag.bare := by
      rw [bare, hopen, List.map_cons]
    rw [finish_of_open hopen, finish_of_open hbare]
    rfl

end Assembly

/-- **What is left of a template when it is taken bare is what plain options make of its source**, and the
    same sources are refused in the same way. -/
theorem Template.map_bare_read (options : Options) (stamp : Nat) (source : String) :
    (read options stamp source).map (fun result => result.1.bare) = parse .plain source := by
  rcases hprolog : Prolog.read source.toList with fault | prolog
  · rw [parse, read, read, hprolog]
    rfl
  · rw [read_eq options stamp hprolog, parse_eq hprolog, ← Assembly.bare_atBody options prolog stamp,
      ← Assembly.map_bare_tokens]
    rcases (Assembly.atBody options prolog stamp).tokens options (Body.read prolog.body).tokens
      with error | assembly
    · rfl
    · rcases hfault : (Body.read prolog.body).fault? with _ | fault
      · have hfinish := Assembly.map_bare_finish options assembly
        simp only [Except.map]
        rw [← hfinish]
        rcases assembly.finish options with error | template <;> rfl
      · rfl

/-! ## 3. The namespaces that count -/

/-- For the values that the attributes bind aliases to both registries know the same. -/
def Registry.AgreeOn (registry registry' : Registry) (attributes : Bindings) : Prop :=
  ∀ aliasName uri, attributes.get? (aliasAttribute aliasName) = some uri →
    registry.canonical? uri = registry'.canonical? uri

/-- So they do for every element among the nodes and below them. -/
def Registry.AgreeOnAll (registry registry' : Registry) (nodes : List Node) : Prop :=
  ∀ tag children, .element tag children ∈ Node.preorderAll nodes →
    registry.AgreeOn registry' tag.attributes

section Agree

variable {options options' : Options} {scope : Scope} {lines stamp : Nat}

/-- Registries that agree on the attributes make the same declarations of them. -/
theorem Scope.declared_of_agree {registry registry' : Registry} {attributes : Bindings}
    (h : registry.AgreeOn registry' attributes) :
    declared registry attributes.entries = declared registry' attributes.entries := by
  refine congrArg Bindings.ofList (List.filterMap_congr fun entry hentry => ?_)
  obtain ⟨name, value⟩ := entry
  have hget := Bindings.get?_of_mem hentry
  show declaration? registry name value = declaration? registry' name value
  rw [declaration?, declaration?]
  rcases halias : declaredAlias? name with _ | aliasName
  · rfl
  · rw [declaredAlias?_eq_some_iff.1 halias] at hget
    rw [h aliasName value hget]

theorem StartTag.kept_of_agree {tag : StartTag} {kept : Tag} {mid : Nat}
    (hkept : tag.kept options scope lines stamp = (kept, mid))
    (hfile : options.sourceFile = options'.sourceFile)
    (hagree : options.registry.AgreeOn options'.registry kept.attributes) :
    tag.kept options' scope lines stamp = (kept, mid) := by
  obtain ⟨rfl, rfl⟩ := Prod.mk.inj hkept
  rw [kept, ← hfile]
  simp only [Scope.declare, Scope.declared_of_agree hagree]

/-- **Content is content under all options that name the same file and agree on its elements.** -/
theorem Content.of_agree {next : Nat} {tokens : List Token} {nodes : List Node}
    (h : Content options scope lines stamp tokens nodes next)
    (hfile : options.sourceFile = options'.sourceFile)
    (hagree : options.registry.AgreeOnAll options'.registry nodes) :
    Content options' scope lines stamp tokens nodes next := by
  induction h with
  | nil => exact .nil
  | leaf hleaf _ ih =>
    rw [hfile]
    refine .leaf hleaf (ih fun tag children hmem => hagree tag children ?_)
    rw [Node.preorderAll]
    exact List.mem_append_right _ hmem
  | single hending hkept _ ih =>
    have hown := hagree _ _ (by rw [Node.preorderAll, Node.preorder]; exact List.mem_cons_self)
    refine .single hending (StartTag.kept_of_agree hkept hfile hown)
      (ih fun tag children hmem => hagree tag children ?_)
    rw [Node.preorderAll]
    exact List.mem_append_right _ hmem
  | pair hending hkept _ hclose _ ihInside ihRest =>
    have hown := hagree _ _ (by rw [Node.preorderAll, Node.preorder]; exact List.mem_cons_self)
    refine .pair hending (StartTag.kept_of_agree hkept hfile hown)
      (ihInside fun tag children hmem => hagree tag children ?_) hclose
      (ihRest fun tag children hmem => hagree tag children ?_)
    · rw [Node.preorderAll, Node.preorder]
      exact List.mem_append_left _ (List.mem_cons_of_mem _ hmem)
    · rw [Node.preorderAll]
      exact List.mem_append_right _ hmem

theorem Prolog.leaves_of_file (hfile : options.sourceFile = options'.sourceFile) (lines : Nat)
    (items : List Item) : leaves options lines items = leaves options' lines items := by
  induction items generalizing lines with
  | nil => rfl
  | cons item items ih => rw [leaves, leaves, hfile, ih]

end Agree

/-! ## 4. Templates -/

theorem Node.laterAll_zero : ∀ nodes : List Node, laterAll 0 nodes = nodes
  | [] => rfl
  | .leaf _ _ _ :: nodes => by rw [laterAll, later, laterAll_zero nodes]; rfl
  | .element _ children :: nodes => by
    rw [laterAll, later, laterAll_zero children, laterAll_zero nodes]
    rfl

/-- Behind the same leaves nodes that are the same are the same. -/
theorem Prolog.sameAll_leaves {nodes nodes' : List Node} (h : Node.sameAll nodes nodes' = true)
    (options : Options) (lines : Nat) (items : List Item) :
    Node.sameAll (leaves options lines items ++ nodes) (leaves options lines items ++ nodes') = true := by
  induction items generalizing lines with
  | nil => exact h
  | cons item items ih =>
    refine Node.sameAll_cons ?_ (ih _)
    rw [Node.same]
    simp only [beq_self_eq_true, Bool.and_self]

namespace Template

variable {options options' : Options} {stamp next : Nat} {source : String} {template : Template}

/-- **Options that name the same file and agree on all elements make the same template**, whatever stamps
    its levels take. -/
theorem read_of_agree (h : read options stamp source = .ok (template, next))
    (hfile : options.sourceFile = options'.sourceFile)
    (hagree : options.registry.AgreeOnAll options'.registry template.children) (stamp' : Nat) :
    ∃ template' next', read options' stamp' source = .ok (template', next') ∧
      (template' == template) = true := by
  obtain ⟨prolog, nodes, hprolog, hfault, content, rfl, hblank⟩ := read_eq_ok_iff.1 h
  have hnodes : options.registry.AgreeOnAll options'.registry nodes := by
    intro tag children hmem
    refine hagree tag children ?_
    rw [Node.preorderAll_append]
    exact List.mem_append_right _ hmem
  have hleaves := Prolog.leaves_of_file hfile 0 prolog.items
  obtain ⟨nodes', next', content', hsame⟩ :=
    (content.of_agree hfile hnodes).later (rfl : Scope.empty.Alike .empty) 0 stamp'
  rw [Node.laterAll_zero] at hsame
  have hblank' : nodes'.all Node.isBlankText = nodes.all Node.isBlankText :=
    Bool.eq_iff_iff.2 (content'.all_isBlankText.trans content.all_isBlankText.symm)
  refine ⟨_, next', read_eq_ok_iff.2 ⟨prolog, nodes', hprolog, hfault, content', rfl, ?_⟩, ?_⟩
  · rw [List.all_append, hblank', ← hleaves, ← List.all_append]
    exact hblank
  · show (_ == _ && Node.sameAll _ _) = true
    rw [← hfile, ← hleaves, beq_self_eq_true, Prolog.sameAll_leaves hsame]
    rfl

/-- **Options only colour a template.** A source that is refused under some options is refused under all
    with the same error. Otherwise templates differ in the files of locations and in scopes at most; under
    options that name the same file and know the same of every namespace that a tag of the template binds an
    alias to, they are the same. -/
theorem read_recoloured (options options' : Options) (stamp stamp' : Nat) (source : String) :
    (∀ error, read options stamp source = .error error ↔ read options' stamp' source = .error error) ∧
    ∀ template next, read options stamp source = .ok (template, next) →
      ∃ template' next', read options' stamp' source = .ok (template', next') ∧
        template'.bare = template.bare ∧
        (options.sourceFile = options'.sourceFile →
          options.registry.AgreeOnAll options'.registry template.children →
            (template' == template) = true) := by
  have hbare := (map_bare_read options stamp source).trans (map_bare_read options' stamp' source).symm
  rcases hread : read options stamp source with error | ⟨template, next⟩
  · rcases hread' : read options' stamp' source with error' | ⟨template', next'⟩
    · rw [hread, hread'] at hbare
      cases hbare
      exact ⟨fun _ => Iff.rfl, nofun⟩
    · rw [hread, hread'] at hbare
      cases hbare
  · rcases hread' : read options' stamp' source with error' | ⟨template', next'⟩
    · rw [hread, hread'] at hbare
      cases hbare
    · rw [hread, hread'] at hbare
      refine ⟨fun _ => ⟨nofun, nofun⟩, ?_⟩
      rintro _ _ ⟨⟩
      refine ⟨template', next', rfl, (Except.ok.inj hbare).symm, fun hfile hagree => ?_⟩
      obtain ⟨_, _, hother, hsame⟩ := read_of_agree hread hfile hagree stamp'
      rw [hread'] at hother
      cases hother
      exact hsame

theorem read_recoloured_nested :
    ∃ template next template' next',
      read { } 0 "<a xmlns:t='http://xml.zope.org/namespaces/tal'>\n<t:b xmlns:u='urn:u'/></a>" =
        .ok (template, next) ∧
      read { registry := (Registry.empty.insert "urn:x" "u").insert Registry.tal "tal" } 7
          "<a xmlns:t='http://xml.zope.org/namespaces/tal'>\n<t:b xmlns:u='urn:u'/></a>" =
        .ok (template', next') ∧
      template'.bare = template.bare ∧ (template' == template) = true := by
  have hok : (match read { }
        0 "<a xmlns:t='http://xml.zope.org/namespaces/tal'>\n<t:b xmlns:u='urn:u'/></a>" with
      | .ok (template, _) => (Node.preorderAll template.children).all fun node =>
          node.tag?.all fun tag => tag.attributes.entries.all fun entry =>
            Registry.standard.canonical? entry.2 ==
              ((Registry.empty.insert "urn:x" "u").insert Registry.tal "tal").canonical? entry.2
      | .error _ => false) = true := by decide +kernel
  split at hok
  · rename_i template next hread
    obtain ⟨template', next', hread', hbare, hsame⟩ := (read_recoloured { }
      { registry := (Registry.empty.insert "urn:x" "u").insert Registry.tal "tal" } 0 7 _).2 template next hread
    refine ⟨template, next, template', next', hread, hread', hbare, hsame rfl ?_⟩
    intro tag children hmem aliasName uri hget
    have htag := List.all_eq_true.1 hok _ hmem
    exact beq_iff_eq.1 (List.all_eq_true.1 htag (_, uri) (Bindings.mem_of_get? hget))
  · cases hok

end Template

end TalMarkup
