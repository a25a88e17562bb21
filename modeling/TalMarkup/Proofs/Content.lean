import TalMarkup.Template.Assembly
import TalMarkup.Proofs.Tokens

/-!
# Content: what a run of tokens stands for

An `Assembly` goes token by token with a stack of open tags. `Content` says the same without a stack:
tokens in which every element is closed again stand for a list of nodes, each element for the tokens
between its tags. The two agree:

* **`Content.tokens_append`**: tokens that are content add their nodes to the present level, whatever
  is open around it, and leave everything else as it is;
* **`Reached.of_tokens`**: whatever tokens an assembly takes in, they are content, then an opening tag,
  then content, and so on, one opening tag for each element that is still open (`Reached`).

`Reached` is the invariant of the run: one token keeps it (`Reached.token`), and a closing tag turns
the last opening tag and the content after it into one more piece of content.
-/

namespace TalMarkup

/-! ## 1. What a start tag makes of its element -/

/-- What an element keeps of its start tag, and the first stamp that is free after it. -/
def StartTag.kept (tag : StartTag) (options : Options) (scope : Scope) (lines stamp : Nat) : Tag × Nat :=
  let attributes := Bindings.ofList (tag.inside.attributes.map WrittenAttribute.pair)
  let declared := scope.declare options.registry attributes.entries stamp
  (⟨tag.name.recorded, attributes, .after options.sourceFile lines, declared.1⟩, declared.2)

/-- The kind and the value of the leaf that a token stands for, if it is no tag. -/
def Token.leaf? : Token → Option (LeafKind × List Char)
  | .charData value => some (.text, value)
  | .verbatim value => some (.comment, value)
  | .startTag _ => none
  | .endTag _ => none

theorem Token.text_of_leaf? {token : Token} {kind : LeafKind} {value : List Char}
    (h : token.leaf? = some (kind, value)) : token.text = value := by
  cases token <;> cases h <;> rfl

/-- The tokens, read in this scope after so many line feeds, stand for the nodes. Their scopes take
    stamps from the first number on; the second is the first stamp that is free then. -/
inductive Content (options : Options) :
    Scope → Nat → Nat → List Token → List Node → Nat → Prop
  | nil {scope lines stamp} : Content options scope lines stamp [] [] stamp
  | leaf {scope lines stamp token kind value tokens nodes next}
      (hleaf : token.leaf? = some (kind, value))
      (rest : Content options scope (lines + newlines value) stamp tokens nodes next) :
      Content options scope lines stamp (token :: tokens)
        (.leaf kind (.after options.sourceFile lines) (String.ofList value) :: nodes) next
  | single {scope lines stamp tag kept mid tokens nodes next}
      (hending : tag.inside.ending = .selfClosing)
      (hkept : tag.kept options scope lines stamp = (kept, mid))
      (rest : Content options scope (lines + newlines tag.text) mid tokens nodes next) :
      Content options scope lines stamp (.startTag tag :: tokens) (.element kept [] :: nodes) next
  | pair {scope lines stamp tag kept first inner children last close tokens nodes next}
      (hending : tag.inside.ending = .opening)
      (hkept : tag.kept options scope lines stamp = (kept, first))
      (inside : Content options kept.scope (lines + newlines tag.text) first inner children last)
      (hclose : close.name.recorded = kept.name)
      (rest : Content options scope
        (lines + newlines (tag.text ++ inner.flatMap Token.text ++ close.text)) last tokens nodes next) :
      Content options scope lines stamp (.startTag tag :: (inner ++ .endTag close :: tokens))
        (.element kept children :: nodes) next

namespace Content

variable {options : Options} {scope : Scope} {lines stamp next last : Nat} {tokens more : List Token}
  {nodes others : List Node}

/-- **Content after content is content.** -/
theorem append (h : Content options scope lines stamp tokens nodes next)
    (h' : Content options scope (lines + newlines (tokens.flatMap Token.text)) next more others last) :
    Content options scope lines stamp (tokens ++ more) (nodes ++ others) last := by
  induction h with
  | nil => exact h'
  | leaf hleaf _ ih =>
    refine leaf hleaf (ih ?_)
    rwa [List.flatMap_cons, Token.text_of_leaf? hleaf, newlines_append, ← Nat.add_assoc] at h'
  | single hending hkept _ ih =>
    refine single hending hkept (ih ?_)
    rwa [List.flatMap_cons, newlines_append, ← Nat.add_assoc] at h'
  | pair hending hkept inside hclose _ _ ih =>
    rw [List.cons_append, List.append_assoc, List.cons_append]
    refine pair hending hkept inside hclose (ih ?_)
    simpa [Token.text, Nat.add_assoc] using h'

end Content

/-! ## 2. Single steps of an assembly -/

namespace Assembly

variable {options : Options} {assembly after : Assembly}

theorem token_leaf {token : Token} {kind : LeafKind} {value : List Char}
    (h : token.leaf? = some (kind, value)) :
    assembly.token options token = .ok ((assembly.leaf options kind value).pass value) := by
  cases token <;> cases h <;> rfl

/-- What a start tag does to an assembly, by the ways in which it may end. -/
theorem token_startTag {tag : StartTag} {kept : Tag} {mid : Nat}
    (hkept : tag.kept options assembly.scope assembly.newlines assembly.nextStamp = (kept, mid)) :
    assembly.token options (.startTag tag) =
      match tag.inside.ending with
      | .opening => .ok (({ assembly with
          nextStamp := mid, openTags := ⟨kept, assembly.level⟩ :: assembly.openTags,
          level := [] }).pass tag.text)
      | .selfClosing =>
        .ok (({ assembly with nextStamp := mid }.attach (.element kept [])).pass tag.text)
      | .cut => .error { kind := .unclosedTag tag.name.recorded, line? := some assembly.line } := by
  obtain ⟨rfl, rfl⟩ := Prod.mk.inj hkept
  rcases tag with ⟨name, attributes, gap, tagEnding⟩
  cases tagEnding <;> rfl

theorem token_endTag_nil {tag : EndTag} (hopen : assembly.openTags = []) :
    assembly.token options (.endTag tag) =
      .error { kind := .unexpectedClosing tag.name.recorded, line? := some assembly.line } := by
  rw [token, enter, endTag, hopen]
  rfl

theorem token_endTag_match {tag : EndTag} {innermost : OpenTag} {outer : List OpenTag}
    (hopen : assembly.openTags = innermost :: outer)
    (hname : tag.name.recorded = innermost.tag.name) :
    assembly.token options (.endTag tag) =
      .ok ({ assembly with
        openTags := outer,
        level := .element innermost.tag assembly.level.reverse :: innermost.before }.pass tag.text) := by
  rw [token, enter, endTag, hopen]
  simp only [hname, ↓reduceIte]
  rfl

theorem token_endTag_mismatch {tag : EndTag} {innermost : OpenTag} {outer : List OpenTag}
    (hopen : assembly.openTags = innermost :: outer)
    (hname : tag.name.recorded ≠ innermost.tag.name) :
    assembly.token options (.endTag tag) =
      .error { kind := .mismatchedTag innermost.tag.name tag.name.recorded, line? := some assembly.line } := by
  rw [token, enter, endTag, hopen]
  simp only [Ne.symm hname, ↓reduceIte]
  rfl

theorem tokens_append (front back : List Token) :
    assembly.tokens options (front ++ back) =
      (assembly.tokens options front).bind (tokens options · back) := by
  induction front generalizing assembly with
  | nil => rfl
  | cons first front ih =>
    rw [List.cons_append, tokens, tokens]
    rcases assembly.token options first with error | mid
    · rfl
    · exact ih

theorem tokens_cons_of_ok {token : Token} {tokens : List Token}
    (h : assembly.token options token = .ok after) :
    assembly.tokens options (token :: tokens) = after.tokens options tokens := by
  rw [Assembly.tokens, h]

end Assembly

/-- The state that content leads to: more line feeds passed, other stamps free, more nodes on the
    present level. -/
def Assembly.extend (assembly : Assembly) (tokens : List Token) (nodes : List Node) (next : Nat) :
    Assembly :=
  ⟨assembly.newlines + TalMarkup.newlines (tokens.flatMap Token.text), next, assembly.openTags,
    nodes.reverse ++ assembly.level⟩

/-- **Content is taken in whatever is open around it**, and adds its nodes to the present level. -/
theorem Content.tokens_append {options : Options} {scope : Scope} {lines stamp next : Nat}
    {tokens : List Token} {nodes : List Node}
    (h : Content options scope lines stamp tokens nodes next) (assembly : Assembly)
    (hscope : assembly.scope = scope) (hlines : assembly.newlines = lines)
    (hstamp : assembly.nextStamp = stamp) (more : List Token) :
    assembly.tokens options (tokens ++ more) =
      (assembly.extend tokens nodes next).tokens options more := by
  induction h generalizing assembly more with
  | nil =>
    subst hlines hstamp
    rfl
  | leaf hleaf _ ih =>
    subst hscope hlines hstamp
    rw [List.cons_append, Assembly.tokens_cons_of_ok (Assembly.token_leaf hleaf)]
    refine (ih _ ?_ ?_ ?_ more).trans ?_
    · rfl
    · rfl
    · rfl
    · simp [Assembly.extend, Assembly.leaf, Assembly.attach, Assembly.pass,
        Token.text_of_leaf? hleaf, Nat.add_assoc]
  | single hending hkept _ ih =>
    subst hscope hlines hstamp
    have htoken := Assembly.token_startTag hkept
    rw [hending] at htoken
    rw [List.cons_append, Assembly.tokens_cons_of_ok htoken]
    refine (ih _ ?_ ?_ ?_ more).trans ?_
    · rfl
    · rfl
    · rfl
    · simp [Assembly.extend, Assembly.attach, Assembly.pass, Token.text, Nat.add_assoc]
  | pair hending hkept _ hclose _ ihInside ihRest =>
    subst hscope hlines hstamp
    have htoken := Assembly.token_startTag hkept
    rw [hending] at htoken
    rw [List.cons_append, List.append_assoc, Assembly.tokens_cons_of_ok htoken]
    refine (ihInside _ ?_ ?_ ?_ _).trans ?_
    · rfl
    · rfl
    · rfl
    · rw [List.cons_append, Assembly.tokens_cons_of_ok (Assembly.token_endTag_match rfl hclose)]
      refine (ihRest _ ?_ ?_ ?_ more).trans ?_
      · rfl
      · simp [Assembly.extend, Assembly.pass, Nat.add_assoc]
      · rfl
      · simp [Assembly.extend, Assembly.pass, Token.text, Nat.add_assoc]

theorem Content.tokens_eq {options : Options} {assembly : Assembly} {next : Nat} {tokens : List Token}
    {nodes : List Node}
    (h : Content options assembly.scope assembly.newlines assembly.nextStamp tokens nodes next) :
    assembly.tokens options tokens = .ok (assembly.extend tokens nodes next) := by
  have htokens := h.tokens_append assembly rfl rfl rfl []
  rwa [List.append_nil] at htokens

/-! ## 3. Where a run leads to -/

/-- The state right after the start tag of an element that is open from there on. -/
def Assembly.enterTag (assembly : Assembly) (tag : StartTag) (kept : Tag) (mid : Nat) : Assembly :=
  ⟨assembly.newlines + TalMarkup.newlines tag.text, mid, ⟨kept, assembly.level⟩ :: assembly.openTags, []⟩

/-- From `start` the tokens lead to this state: they are content, or what leads to some state, then an
    opening tag, and then content. -/
inductive Reached (options : Options) (start : Assembly) : List Token → Assembly → Prop
  | level {tokens nodes next}
      (content : Content options start.scope start.newlines start.nextStamp tokens nodes next) :
      Reached options start tokens (start.extend tokens nodes next)
  | opened {front assembly tag kept mid inner nodes next}
      (reached : Reached options start front assembly)
      (hending : tag.inside.ending = .opening)
      (hkept : tag.kept options assembly.scope assembly.newlines assembly.nextStamp = (kept, mid))
      (content : Content options kept.scope (assembly.newlines + newlines tag.text) mid inner nodes next) :
      Reached options start (front ++ .startTag tag :: inner)
        ((assembly.enterTag tag kept mid).extend inner nodes next)

namespace Reached

variable {options : Options} {start assembly after : Assembly} {tokens : List Token}

/-- Content leads on from every state. -/
theorem extend (h : Reached options start tokens assembly) {more : List Token} {nodes : List Node}
    {next : Nat}
    (content : Content options assembly.scope assembly.newlines assembly.nextStamp more nodes next) :
    Reached options start (tokens ++ more) (assembly.extend more nodes next) := by
  cases h with
  | level before =>
    have h := level (before.append (by exact content))
    simpa [Assembly.extend, Nat.add_assoc] using h
  | opened reached hending hkept before =>
    have h := opened reached hending hkept (before.append (by exact content))
    simpa [Assembly.extend, Assembly.enterTag, Nat.add_assoc] using h

/-- **One token keeps the invariant.** -/
theorem token (h : Reached options start tokens assembly) (hstart : start.openTags = [])
    {token : Token} (htoken : assembly.token options token = .ok after) :
    Reached options start (tokens ++ [token]) after := by
  have of_content : ∀ {node : Node} {next : Nat},
      Content options assembly.scope assembly.newlines assembly.nextStamp [token] [node] next →
        after = assembly.extend [token] [node] next → Reached options start (tokens ++ [token]) after := by
    rintro node next content rfl
    exact h.extend content
  rcases hleaf : token.leaf? with _ | ⟨kind, value⟩
  · cases token with
    | charData => cases hleaf
    | verbatim => cases hleaf
    | startTag tag =>
      rcases hkept : tag.kept options assembly.scope assembly.newlines assembly.nextStamp with ⟨kept, mid⟩
      rw [Assembly.token_startTag hkept] at htoken
      cases hending : tag.inside.ending with
      | opening =>
        rw [hending] at htoken
        cases htoken
        have hopened := opened h hending hkept Content.nil
        simpa [Assembly.extend, Assembly.enterTag, Assembly.pass] using hopened
      | selfClosing =>
        rw [hending] at htoken
        cases htoken
        exact of_content (.single hending hkept .nil)
          (by simp [Assembly.extend, Assembly.attach, Assembly.pass, Token.text])
      | cut => rw [hending] at htoken; cases htoken
    | endTag close =>
      cases h with
      | level content =>
        rw [Assembly.token_endTag_nil (by exact hstart)] at htoken
        cases htoken
      | @opened front outside tag kept mid inner nodes next reached hending hkept content =>
        by_cases hname : close.name.recorded = kept.name
        · rw [Assembly.token_endTag_match rfl hname] at htoken
          cases htoken
          have hclosed := reached.extend (.pair hending hkept content hname .nil)
          simpa [Assembly.extend, Assembly.enterTag, Assembly.pass, Token.text, Nat.add_assoc] using hclosed
        · rw [Assembly.token_endTag_mismatch rfl hname] at htoken
          cases htoken
  · rw [Assembly.token_leaf hleaf] at htoken
    cases htoken
    exact of_content (.leaf hleaf .nil)
      (by simp [Assembly.extend, Assembly.leaf, Assembly.attach, Assembly.pass, Token.text_of_leaf? hleaf])

/-- **Every run keeps the invariant.** -/
theorem run (h : Reached options start tokens assembly) (hstart : start.openTags = [])
    {more : List Token} (hmore : assembly.tokens options more = .ok after) :
    Reached options start (tokens ++ more) after := by
  induction more generalizing tokens assembly with
  | nil => cases hmore; rwa [List.append_nil]
  | cons token more ih =>
    rw [Assembly.tokens] at hmore
    split at hmore
    · cases hmore
    · rename_i mid htoken
      rw [List.append_cons]
      exact ih (h.token hstart htoken) hmore

theorem refl : Reached options start [] start := level .nil

/-- **A run leads to a state that its tokens describe.** -/
theorem of_tokens (hstart : start.openTags = []) (h : start.tokens options tokens = .ok after) :
    Reached options start tokens after :=
  refl.run hstart h

theorem content_of_openTags (h : Reached options start tokens after) (hafter : after.openTags = []) :
    ∃ nodes next, Content options start.scope start.newlines start.nextStamp tokens nodes next ∧
      after = start.extend tokens nodes next := by
  cases h with
  | level content => exact ⟨_, _, content, rfl⟩
  | opened => cases hafter

end Reached

end TalMarkup
