import TalMarkup.Proofs.Aliases
import TalMarkup.Proofs.Continuing
import TalMarkup.Proofs.Verdict

/-!
# Joining two templates

When a template that does not end with text is followed by one that starts with a tag, both together are
one template: it has the nodes of the first, and then those of the second, as many lines further on as the
first has line feeds (`Node.later`).

Nothing is handed over at the border but the number of lines and the first free stamp:

* `Content.later`: the same tokens are content in other lines and with other stamps, and their nodes agree
  in everything else.
* `Token.FormedAll.append`: the tokens of both are the tokens of the whole.

**`Template.parse_append`** adds that the first prolog stays what it is.
-/

namespace TalMarkup

/-! ## 1. Nodes further on -/

/-- The location that many lines further on. -/
def Location.later (location : Location) (lines : Nat) : Location :=
  ⟨location.file, location.line + lines, Nat.add_pos_left location.line_pos lines⟩

mutual

/-- The node with everything in it that many lines further on. -/
def Node.later (lines : Nat) : Node → Node
  | .element tag children =>
    .element { tag with location := tag.location.later lines } (Node.laterAll lines children)
  | .leaf kind location value => .leaf kind (location.later lines) value

/-- The nodes with everything in them that many lines further on. -/
def Node.laterAll (lines : Nat) : List Node → List Node
  | [] => []
  | node :: nodes => Node.later lines node :: Node.laterAll lines nodes

end

theorem Location.later_after (file : String) (newlines lines : Nat) :
    (after file newlines).later lines = after file (newlines + lines) := by
  simp only [later, after, Location.mk.injEq, true_and]
  omega

/-! ## 2. The same content elsewhere -/

/-- What an element keeps of its tag is the same in other lines, with other stamps, in a scope that is
    alike. -/
theorem StartTag.kept_later {tag : StartTag} {options : Options} {scope scope' : Scope}
    {lines stamp mid : Nat} {kept : Tag} (hkept : tag.kept options scope lines stamp = (kept, mid))
    (hscope : scope'.Alike scope) (further stamp' : Nat) :
    ∃ kept' mid', tag.kept options scope' (lines + further) stamp' = (kept', mid') ∧
      kept'.name = kept.name ∧ kept'.scope.Alike kept.scope ∧
      (kept' == { kept with location := kept.location.later further }) = true := by
  obtain ⟨rfl, rfl⟩ := Prod.mk.inj hkept
  refine ⟨_, _, rfl, rfl, hscope.declare _ _ _ _, ?_⟩
  show (_ == _ && _ == _ && _ == _ && _ == _) = true
  rw [Bool.and_eq_true, Bool.and_eq_true, Bool.and_eq_true]
  refine ⟨⟨⟨?_, ?_⟩, ?_⟩, ?_⟩
  · exact beq_self_eq_true _
  · exact beq_self_eq_true _
  · rw [Location.later_after]
    exact beq_self_eq_true _
  · exact (hscope.declare _ _ _ _).beq

theorem Node.sameAll_cons {node node' : Node} {nodes nodes' : List Node} (h : Node.same node node' = true)
    (hrest : Node.sameAll nodes nodes' = true) : Node.sameAll (node :: nodes) (node' :: nodes') = true := by
  rw [Node.sameAll, h, hrest]
  rfl

/-- **Content is content in other lines too**, with other stamps and in a scope that is alike. -/
theorem Content.later {options : Options} {scope scope' : Scope} {lines stamp next : Nat}
    {tokens : List Token} {nodes : List Node} (h : Content options scope lines stamp tokens nodes next)
    (hscope : scope'.Alike scope) (further stamp' : Nat) :
    ∃ nodes' next', Content options scope' (lines + further) stamp' tokens nodes' next' ∧
      Node.sameAll nodes' (Node.laterAll further nodes) = true := by
  induction h generalizing scope' stamp' with
  | nil => exact ⟨[], stamp', .nil, rfl⟩
  | @leaf scope lines stamp token kind value tokens nodes next hleaf _ ih =>
    obtain ⟨nodes', next', content, hsame⟩ := ih hscope stamp'
    rw [Nat.add_right_comm] at content
    refine ⟨_, next', .leaf hleaf content, ?_⟩
    refine Node.sameAll_cons ?_ hsame
    rw [Node.later, Node.same, Location.later_after]
    simp only [beq_self_eq_true, Bool.and_self]
  | @single scope lines stamp tag kept mid tokens nodes next hending hkept _ ih =>
    obtain ⟨kept', mid', hkept', -, -, htag⟩ := StartTag.kept_later hkept hscope further stamp'
    obtain ⟨nodes', next', content, hsame⟩ := ih hscope mid'
    rw [Nat.add_right_comm] at content
    refine ⟨_, next', .single hending hkept' content, Node.sameAll_cons ?_ hsame⟩
    rw [Node.later, Node.same, htag]
    rfl
  | @pair scope lines stamp tag kept first inner children last close tokens nodes next hending hkept _ hclose
      _ ihInside ihRest =>
    obtain ⟨kept', first', hkept', hname, hinner, htag⟩ := StartTag.kept_later hkept hscope further stamp'
    obtain ⟨children', last', inside, hchildren⟩ := ihInside hinner first'
    obtain ⟨nodes', next', content, hsame⟩ := ihRest hscope last'
    rw [Nat.add_right_comm] at inside content
    refine ⟨_, next', .pair hending hkept' inside (hclose.trans hname.symm) content,
      Node.sameAll_cons ?_ hsame⟩
    rw [Node.later, Node.same, htag, hchildren]
    rfl

/-! ## 3. The border -/

section Border

variable {options : Options} {scope : Scope} {lines stamp next : Nat} {tokens : List Token}
  {nodes : List Node}

/-- Content that ends with character data ends with a text. -/
theorem Content.text_of_charData (h : Content options scope lines stamp tokens nodes next)
    {value : List Char} (hlast : tokens.getLast? = some (.charData value)) :
    ∃ node ∈ nodes.getLast?, node.text? ≠ none := by
  -- the last token is one of the others, or it is the first and there are no others
  have of_rest : ∀ (token : Token) (node : Node) {more : List Token} {others : List Node},
      (more.getLast? = some (.charData value) → ∃ last ∈ others.getLast?, last.text? ≠ none) →
        (token = .charData value → more = [] → others = [] ∧ node.text? ≠ none) →
          (token :: more).getLast? = some (.charData value) →
            ∃ last ∈ (node :: others).getLast?, last.text? ≠ none := by
    intro token node more others hmore hfirst hlast
    rw [List.getLast?_cons, Option.some.injEq] at hlast
    rw [List.getLast?_cons]
    cases hcase : more.getLast? with
    | some last =>
      rw [hcase, Option.getD_some] at hlast
      obtain ⟨node', hnode', htext⟩ := hmore (hcase.trans (congrArg some hlast))
      exact ⟨node', by rw [hnode']; rfl, htext⟩
    | none =>
      rw [hcase, Option.getD_none] at hlast
      obtain ⟨rfl, htext⟩ := hfirst hlast (List.getLast?_eq_none_iff.1 hcase)
      exact ⟨node, rfl, htext⟩
  induction h with
  | nil => cases hlast
  | leaf hleaf rest ih =>
    refine of_rest _ _ ih ?_ hlast
    rintro rfl rfl
    cases hleaf
    cases rest
    exact ⟨rfl, nofun⟩
  | single _ _ _ ih => exact of_rest (.startTag _) _ ih nofun hlast
  | @pair _ _ _ tag _ _ inner _ _ close tokens _ _ _ _ _ _ _ _ ih =>
    have hend : (Token.startTag tag :: (inner ++ .endTag close :: tokens)).getLast? =
        (Token.endTag close :: tokens).getLast? := by
      rw [← List.cons_append, List.getLast?_append, List.getLast?_cons, Option.some_or]
    exact of_rest (.endTag close) _ ih nofun (hend.symm.trans hlast)

/-- **Content that does not end with a text ends with markup.** -/
theorem Content.isMarkup_getLast (h : Content options scope lines stamp tokens nodes next)
    (hlast : ∀ node ∈ nodes.getLast?, node.text? = none) : ∀ token ∈ tokens.getLast?, token.IsMarkup := by
  rintro token htoken value rfl
  obtain ⟨node, hnode, htext⟩ := h.text_of_charData htoken
  exact htext (hlast node hnode)

/-- No start tag of content is cut. -/
theorem Content.uncut (h : Content options scope lines stamp tokens nodes next) : Uncut tokens := by
  induction h with
  | nil => exact fun _ hmem => absurd hmem List.not_mem_nil
  | leaf hleaf _ ih =>
    intro tag hmem
    rcases List.mem_cons.1 hmem with rfl | hmem
    · cases hleaf
    · exact ih tag hmem
  | single hending _ _ ih =>
    intro tag hmem
    rcases List.mem_cons.1 hmem with heq | hmem
    · cases heq
      rw [hending]
      nofun
    · exact ih tag hmem
  | pair hending _ _ _ _ ihInside ihRest =>
    intro tag hmem
    rw [List.mem_cons, List.mem_append, List.mem_cons] at hmem
    rcases hmem with heq | hmem | heq | hmem
    · cases heq
      rw [hending]
      nofun
    · exact ihInside tag hmem
    · cases heq
    · exact ihRest tag hmem

end Border

namespace Token

variable {token : Token}

/-- The token is no start tag that the input ends in. -/
def IsWhole (token : Token) : Prop := ∀ tag, token = .startTag tag → tag.inside.ending ≠ .cut

/-- Markup ends with a `>`, unless the input ends in it. -/
theorem Formed.mem_text (h : token.Formed) (hmarkup : token.IsMarkup) (hwhole : token.IsWhole) :
    '>' ∈ token.text := by
  cases token with
  | charData value => exact absurd rfl (hmarkup value)
  | verbatim value =>
    rcases h with ⟨body, rfl, -⟩ | ⟨body, rfl, -⟩ | ⟨⟨target, body, rfl, -⟩, -⟩ <;> simp [text]
  | startTag tag =>
    have hending := hwhole tag rfl
    have hmem : '>' ∈ tag.inside.ending.text := by
      cases hcase : tag.inside.ending with
      | opening => decide
      | selfClosing => decide
      | cut => exact absurd hcase hending
    simp [text, StartTag.text, TagInside.text, hmem]
  | endTag tag => simp [text, EndTag.text]

theorem endsBefore_of_isMarkup (hmarkup : token.IsMarkup) (hwhole : token.IsWhole) (rest : List Char) :
    token.EndsBefore rest := by
  cases token with
  | charData value => exact absurd rfl (hmarkup value)
  | verbatim value => trivial
  | startTag tag => exact fun hcut => absurd hcut (hwhole tag rfl)
  | endTag tag => trivial

/-- **Tokens may be followed by others if the last is markup.** -/
theorem FormedAll.append {front back : List Token} (h : FormedAll front) (h' : FormedAll back)
    (huncut : Uncut front) (hlast : ∀ token ∈ front.getLast?, token.IsMarkup) :
    FormedAll (front ++ back) := by
  induction front with
  | nil => exact h'
  | cons first front ih =>
    obtain ⟨hfirst, hends, hfront⟩ := h
    cases front with
    | nil =>
      have hwhole : first.IsWhole := fun tag htag => huncut tag (List.mem_singleton.2 htag.symm)
      exact ⟨hfirst, endsBefore_of_isMarkup (hlast first rfl) hwhole _, h'⟩
    | cons second front =>
      have hne : (second :: front).flatMap text ≠ [] :=
        List.append_ne_nil_of_left_ne_nil hfront.1.text_ne_nil _
      have hrest := ih hfront (fun tag htag => huncut tag (List.mem_cons_of_mem _ htag))
        (fun token htoken => hlast token (by rwa [List.getLast?_cons_cons]))
      refine ⟨hfirst, ?_, hrest⟩
      show first.EndsBefore ((second :: front ++ back).flatMap text)
      rw [List.flatMap_append]
      exact hends.append hne _

end Token

section Markup

variable {options : Options} {scope : Scope} {lines stamp next : Nat} {tokens : List Token}
  {nodes : List Node} {cs : List Char}

/-- **A body that is content is marked** if there is markup in it. -/
theorem Content.marked_of_mem (hbody : Body.read cs = ⟨tokens, none⟩)
    (h : Content options scope lines stamp tokens nodes next) {token : Token} (hmem : token ∈ tokens)
    (hmarkup : token.IsMarkup) : Marked cs := by
  have hformed : token.Formed := Body.formed_of_mem (by rw [hbody]; exact hmem)
  have hwhole : token.IsWhole := fun tag htag => h.uncut tag (htag ▸ hmem)
  obtain ⟨front, back, rfl⟩ := List.append_of_mem hmem
  exact Body.marked_of_read hbody hmarkup (hformed.mem_text hmarkup hwhole)

/-- **A body that does not end with a text is empty or marked.** -/
theorem Content.marked_or_nil (hbody : Body.read cs = ⟨tokens, none⟩)
    (h : Content options scope lines stamp tokens nodes next)
    (hlast : ∀ node ∈ nodes.getLast?, node.text? = none) : Marked cs ∨ cs = [] := by
  rcases List.eq_nil_or_concat tokens with rfl | ⟨init, last, hconcat⟩
  · exact Or.inr (Body.read_eq_iff.1 hbody).2
  · rw [List.concat_eq_append] at hconcat
    subst hconcat
    have hmarkup : last.IsMarkup := h.isMarkup_getLast hlast last List.getLast?_concat
    exact Or.inl (h.marked_of_mem hbody (List.mem_append_right _ List.mem_cons_self) hmarkup)

end Markup

/-! ## 4. Templates -/

namespace Template

/-- **Two templates are one template**, if the first does not end with text and the second starts with a
    tag: the nodes of the second come behind those of the first, in lines that are further on. -/
theorem parse_append {options : Options} {front back : String} {first second : Template}
    (h : parse options front = .ok first) (h' : parse options back = .ok second)
    (hlast : ∀ node ∈ first.children.getLast?, node.text? = none)
    (htag : ∃ c cs, back.toList = '<' :: c :: cs ∧ isNameStart c = true) :
    ∃ added, parse options (front ++ back) = .ok ⟨first.location, first.children ++ added⟩ ∧
      Node.sameAll added (Node.laterAll (newlines front.toList) second.children) = true := by
  obtain ⟨next, hread⟩ := parse_eq_ok_iff.1 h
  obtain ⟨prolog, nodes, hprolog, hfault, content, rfl, hblank⟩ := read_eq_ok_iff.1 hread
  obtain ⟨next', hread'⟩ := parse_eq_ok_iff.1 h'
  obtain ⟨prolog', nodes', hprolog', hfault', content', rfl, -⟩ := read_eq_ok_iff.1 hread'
  -- the second source is all body
  have hstarts : Prolog.StartsWithTag back.toList := by
    obtain ⟨c, cs, hback, hc⟩ := htag
    rw [hback] at hprolog' ⊢
    exact Prolog.startsWithTag_of_read (isNameChar_of_isNameStart hc) hprolog'
  rw [Prolog.read_of_startsWithTag hstarts] at hprolog'
  cases hprolog'
  rcases hbody : Body.read prolog.body with ⟨tokens, fault?⟩
  rcases hbody' : Body.read back.toList with ⟨tokens', fault?'⟩
  rw [hbody] at hfault content
  rw [hbody'] at hfault' content'
  subst hfault hfault'
  obtain ⟨hformed, hspelling⟩ := Body.read_eq_iff.1 hbody
  obtain ⟨hformed', hspelling'⟩ := Body.read_eq_iff.1 hbody'
  have hnodes : ∀ node ∈ nodes.getLast?, node.text? = none := by
    intro node hnode
    refine hlast node ?_
    show node ∈ (Prolog.leaves options 0 prolog.items ++ nodes).getLast?
    rw [List.getLast?_append, hnode]
    rfl
  have hsettled : Prolog.Settled prolog.body back.toList :=
    (content.marked_or_nil hbody hnodes).imp_right fun hnil => ⟨hnil, hstarts⟩
  have hjoined : Body.read (prolog.body ++ back.toList) = ⟨tokens ++ tokens', none⟩ := by
    refine Body.read_eq_iff.2 ⟨hformed.append hformed' content.uncut (content.isMarkup_getLast hnodes), ?_⟩
    rw [List.flatMap_append, ← hspelling, ← hspelling']
  have hlines : newlines front.toList = newlines prolog.spelling + newlines (tokens.flatMap Token.text) := by
    rw [← Prolog.spelling_of_read hprolog, newlines_append, hspelling]
  obtain ⟨added, last, further, hsame⟩ :=
    content'.later (rfl : Scope.empty.Alike .empty) (newlines front.toList) next
  rw [show newlines (Prolog.spelling ⟨[], [], back.toList⟩) = 0 from rfl, Nat.zero_add, hlines] at further
  refine ⟨added, parse_eq_ok_iff.2 ⟨last, read_eq_ok_iff.2
    ⟨prolog.followedBy back.toList, nodes ++ added, ?_, ?_, ?_, ?_, ?_⟩⟩, hsame⟩
  · rw [String.toList_append]
    exact Prolog.read_append hprolog hsettled
  · show (Body.read (prolog.body ++ back.toList)).fault? = none
    rw [hjoined]
  · show Content options .empty (newlines prolog.spelling) 0
      (Body.read (prolog.body ++ back.toList)).tokens (nodes ++ added) last
    rw [hjoined]
    exact content.append further
  · rw [List.append_assoc]
    rfl
  · rw [List.all_append, hblank, Bool.false_and]

theorem parse_append_prolog :
    ∃ first second, parse { } "<!DOCTYPE a [\n]>\n<!-- -->" = .ok first ∧
      parse { } "<t:a xmlns:t='http://xml.zope.org/namespaces/tal'>\n<b/></t:a>" = .ok second ∧
        ∃ added, parse { } ("<!DOCTYPE a [\n]>\n<!-- -->" ++
            "<t:a xmlns:t='http://xml.zope.org/namespaces/tal'>\n<b/></t:a>") =
              .ok ⟨first.location, first.children ++ added⟩ ∧
          Node.sameAll added (Node.laterAll 2 second.children) = true := by
  have hfirst : (match parse { } "<!DOCTYPE a [\n]>\n<!-- -->" with
      | .ok first => decide (∀ node ∈ first.children.getLast?, node.text? = none)
      | .error _ => false) = true := by decide +kernel
  obtain ⟨second, h'⟩ := exists_of_isOk (show (parse { }
    "<t:a xmlns:t='http://xml.zope.org/namespaces/tal'>\n<b/></t:a>").isOk = true by decide +kernel)
  split at hfirst
  · rename_i first h
    exact ⟨first, second, h, h', parse_append h h' (of_decide_eq_true hfirst) ⟨_, _, rfl, by decide⟩⟩
  · cases hfirst

end Template

end TalMarkup
