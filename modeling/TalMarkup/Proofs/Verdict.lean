import Mathlib.Data.List.Induction
import TalMarkup.Proofs.Accepted
import TalMarkup.Proofs.Nesting

/-!
# The verdict on a source

What becomes of a source whose prolog can be read depends on the tokens of its body, on the fault after
them, and on how the tags are nested. **`Template.parse_verdict`** says it in full:

1. if a closing tag does not carry the name of the tag that is innermost there, reading stops at the
   first such closing tag;
2. otherwise, if there is a fault, it is reported;
3. otherwise, if the input ends in a start tag, this tag is reported, and if tags are open at the end,
   the innermost of them;
4. otherwise there is a template, unless all is blank.

The stack of an assembly enters through `Reached.nesting` only: what is on top of it is the innermost
open tag.
-/

namespace TalMarkup

/-- The line that what follows the tokens starts on. -/
def Prolog.lineAfter (prolog : Prolog) (tokens : List Token) : Nat :=
  newlines (prolog.spelling ++ tokens.flatMap Token.text) + 1

/-- No start tag among the tokens is cut by the end of the input. -/
def Uncut (tokens : List Token) : Prop := ∀ tag, .startTag tag ∈ tokens → tag.inside.ending ≠ .cut

/-- The token is text with nothing but White_Space in it. -/
def Token.IsBlank (token : Token) : Prop :=
  ∃ value, token = .charData value ∧ isBlankText (String.ofList value) = true

/-! ## 1. The stack and the open tags -/

namespace Reached

variable {options : Options} {start assembly after : Assembly} {tokens front : List Token}

theorem newlines_eq (h : Reached options start tokens assembly) :
    assembly.newlines = start.newlines + newlines (tokens.flatMap Token.text) := by
  induction h with
  | level => rfl
  | opened _ _ _ _ ih =>
    simp [Assembly.extend, Assembly.enterTag, ih, Token.text, Nat.add_assoc]

/-- **On top of the stack is the innermost open tag.** -/
theorem nesting (h : Reached options start tokens assembly) (hstart : start.openTags = []) :
    (assembly.openTags = [] ∧ NoneOpen tokens) ∨
      ∃ innermost outer before tag, assembly.openTags = innermost :: outer ∧
        Innermost tokens before tag ∧ innermost.tag.name = tag.name.recorded ∧
        innermost.tag.location.line = start.newlines + newlines (before.flatMap Token.text) + 1 := by
  cases h with
  | level content => exact Or.inl ⟨hstart, content.balanced.noneOpen⟩
  | opened reached hending hkept content =>
    refine Or.inr ⟨_, _, _, _, rfl, Balanced.innermost hending content.balanced, ?_, ?_⟩
    · rw [← (Prod.mk.inj hkept).1]
    · rw [← (Prod.mk.inj hkept).1, ← reached.newlines_eq]
      rfl

end Reached

/-! ## 2. How far a run gets -/

namespace Assembly

variable (options : Options) {start : Assembly} {tokens front : List Token} {close : EndTag}

theorem openTags_atBody (prolog : Prolog) (stamp : Nat) : (atBody options prolog stamp).openTags = [] := rfl

/-- A run stops at a token that is refused, whatever follows it. -/
theorem tokens_of_stop {options : Options} {mid : Assembly} {token : Token} {error : Error}
    (hmid : start.tokens options front = .ok mid) (hstop : mid.token options token = .error error)
    (back : List Token) : start.tokens options (front ++ token :: back) = .error error := by
  rw [tokens_append, hmid]
  show mid.tokens options (token :: back) = _
  rw [tokens, hstop]

/-- **Nested tokens are taken in**, whatever is still open after them. -/
theorem tokens_of_nested (hstart : start.openTags = []) (hnested : Nested tokens) (huncut : Uncut tokens) :
    ∃ after, start.tokens options tokens = .ok after := by
  induction tokens using List.reverseRecOn with
  | nil => exact ⟨start, rfl⟩
  | append_singleton tokens token ih =>
    obtain ⟨mid, hmid⟩ := ih hnested.of_append fun tag htag => huncut tag (List.mem_append_left _ htag)
    have hreached := Reached.of_tokens hstart hmid
    suffices htoken : ∃ after, mid.token options token = .ok after by
      obtain ⟨after, hafter⟩ := htoken
      refine ⟨after, ?_⟩
      rw [tokens_append, hmid]
      exact tokens_cons_of_ok hafter
    rcases hleaf : token.leaf? with _ | ⟨kind, value⟩
    · cases token with
      | charData => cases hleaf
      | verbatim => cases hleaf
      | startTag tag =>
        rw [token_startTag rfl]
        have hending := huncut tag (List.mem_append_right _ List.mem_cons_self)
        rcases hcase : tag.inside.ending
        · exact ⟨_, rfl⟩
        · exact ⟨_, rfl⟩
        · exact absurd hcase hending
      | endTag close =>
        obtain ⟨before, tag, hinnermost, hname⟩ := hnested tokens close [] rfl
        rcases hreached.nesting hstart with ⟨-, hnone⟩ | ⟨top, outer, _, _, hopen, hother, htop, -⟩
        · exact absurd hinnermost hnone.not_innermost
        · obtain ⟨-, rfl⟩ := hinnermost.unique hother
          exact ⟨_, token_endTag_match hopen (hname.symm.trans htop.symm)⟩
    · exact ⟨_, token_leaf hleaf⟩

/-- **A run stops at the first closing tag that does not fit.** -/
theorem tokens_of_misfit (hstart : start.openTags = []) (hnested : Nested front) (huncut : Uncut front)
    (hmisfit : ¬ Fits front close) (back : List Token) :
    (∃ before tag, Innermost front before tag ∧
        start.tokens options (front ++ .endTag close :: back) =
          .error {
            kind := .mismatchedTag tag.name.recorded close.name.recorded,
            line? := some (start.newlines + TalMarkup.newlines (front.flatMap Token.text) + 1) }) ∨
      NoneOpen front ∧ start.tokens options (front ++ .endTag close :: back) =
        .error {
          kind := .unexpectedClosing close.name.recorded,
          line? := some (start.newlines + TalMarkup.newlines (front.flatMap Token.text) + 1) } := by
  obtain ⟨mid, hmid⟩ := tokens_of_nested options hstart hnested huncut
  have hreached := Reached.of_tokens hstart hmid
  have hline : mid.line = start.newlines + TalMarkup.newlines (front.flatMap Token.text) + 1 :=
    congrArg (· + 1) hreached.newlines_eq
  rw [← hline]
  rcases hreached.nesting hstart with ⟨hopen, hnone⟩ | ⟨top, outer, before, tag, hopen, hinnermost, htop, -⟩
  · exact Or.inr ⟨hnone, tokens_of_stop hmid (token_endTag_nil hopen) back⟩
  · refine Or.inl ⟨before, tag, hinnermost, ?_⟩
    rw [← htop]
    refine tokens_of_stop hmid (token_endTag_mismatch hopen fun hname => hmisfit ?_) back
    exact ⟨before, tag, hinnermost, htop.symm.trans hname.symm⟩

/-- A run stops at a start tag that the input ends in. -/
theorem tokens_of_cut (hstart : start.openTags = []) (hnested : Nested front) (huncut : Uncut front)
    {tag : StartTag} (hcut : tag.inside.ending = .cut) :
    start.tokens options (front ++ [.startTag tag]) =
      .error {
        kind := .unclosedTag tag.name.recorded,
        line? := some (start.newlines + TalMarkup.newlines (front.flatMap Token.text) + 1) } := by
  obtain ⟨mid, hmid⟩ := tokens_of_nested options hstart hnested huncut
  have hreached := Reached.of_tokens hstart hmid
  refine tokens_of_stop hmid ?_ []
  rw [token_startTag rfl, hcut, ← hreached.newlines_eq]
  rfl

end Assembly

/-! ## 3. The tokens of a body -/

/-- **Where tokens are not nested there is a first closing tag that does not fit.** -/
theorem exists_misfit {tokens : List Token} (h : ¬ Nested tokens) :
    ∃ front close back, tokens = front ++ .endTag close :: back ∧ Nested front ∧ ¬ Fits front close := by
  induction tokens using List.reverseRecOn with
  | nil =>
    refine absurd (fun front close back heq => ?_) h
    cases front <;> cases heq
  | append_singleton tokens token ih =>
    by_cases hnested : Nested tokens
    · obtain ⟨front, close, back, heq, hmisfit⟩ : ∃ front close back,
          tokens ++ [token] = front ++ .endTag close :: back ∧ ¬ Fits front close := by
        by_contra hall
        exact h fun front close back heq => by_contra fun hmisfit =>
          hall ⟨front, close, back, heq, hmisfit⟩
      rcases List.eq_nil_or_concat back with rfl | ⟨more, last, rfl⟩
      · obtain ⟨rfl, -⟩ := List.append_inj' heq rfl
        exact ⟨tokens, close, [], heq, hnested, hmisfit⟩
      · -- all closing tags but the last one are among the tokens that are nested
        have hinit : tokens = front ++ .endTag close :: more := by
          have hsnoc : tokens ++ [token] = (front ++ .endTag close :: more) ++ [last] := by simpa using heq
          exact (List.append_inj' hsnoc rfl).1
        exact absurd (hnested front close more hinit) hmisfit
    · obtain ⟨front, close, back, rfl, hfront, hmisfit⟩ := ih hnested
      exact ⟨front, close, back ++ [token], by simp, hfront, hmisfit⟩

namespace Body

variable {cs : List Char} {front back : List Token} {token : Token} {fault? : Option (Fault (List Char))}

/-- A start tag that another token follows is not cut. -/
theorem uncut_of_append (h : read cs = ⟨front ++ token :: back, fault?⟩) : Uncut front := by
  intro tag htag hcut
  obtain ⟨before, after, rfl⟩ := List.append_of_mem htag
  rw [List.append_assoc, List.cons_append] at h
  exact absurd (nil_of_cut h hcut).1 (by simp)

/-- A start tag that is cut is the last token, and there is no fault. -/
theorem cut_of_not_uncut {tokens : List Token} (h : read cs = ⟨tokens, fault?⟩) (hnot : ¬ Uncut tokens) :
    ∃ front tag, tokens = front ++ [.startTag tag] ∧ tag.inside.ending = .cut ∧ fault? = none := by
  obtain ⟨tag, htag, hcut⟩ : ∃ tag, .startTag tag ∈ tokens ∧ tag.inside.ending = .cut := by
    by_contra hall
    exact hnot fun tag htag hcut => hall ⟨tag, htag, hcut⟩
  obtain ⟨before, after, rfl⟩ := List.append_of_mem htag
  obtain ⟨rfl, hfault⟩ := nil_of_cut h hcut
  exact ⟨before, tag, rfl, hcut, hfault⟩

/-- A start tag in front of a fault is not cut. -/
theorem uncut_of_fault {tokens : List Token} {fault : Fault (List Char)}
    (h : read cs = ⟨tokens, some fault⟩) : Uncut tokens := by
  by_contra hnot
  obtain ⟨_, _, -, -, hfault⟩ := cut_of_not_uncut h hnot
  cases hfault

end Body

/-! ## 4. Blank templates -/

theorem Prolog.all_isBlankText_leaves {options : Options} {items : List Item} {lines : Nat} :
    (leaves options lines items).all Node.isBlankText = true ↔ items = [] := by
  cases items with
  | nil => exact ⟨fun _ => rfl, fun _ => rfl⟩
  | cons item items =>
    have hblank : ∀ {location value},
        Node.isBlankText (.leaf (Assembly.leafKind item.kind) location value) = false := by
      intro location value
      cases item.kind <;> rfl
    simp [leaves, hblank]

theorem Content.all_isBlankText {options : Options} {scope : Scope} {lines stamp next : Nat}
    {tokens : List Token} {nodes : List Node}
    (h : Content options scope lines stamp tokens nodes next) :
    nodes.all Node.isBlankText = true ↔ ∀ token ∈ tokens, token.IsBlank := by
  induction h with
  | nil => simp
  | @leaf _ _ _ token _ _ _ _ _ hleaf _ ih =>
    rw [List.all_cons, Bool.and_eq_true, ih, List.forall_mem_cons]
    refine and_congr_left fun _ => ?_
    cases token with
    | charData value =>
      cases hleaf
      refine ⟨fun hblank => ⟨_, rfl, hblank⟩, ?_⟩
      intro h
      obtain ⟨_, ⟨⟩, hblank⟩ := h
      exact hblank
    | verbatim value =>
      cases hleaf
      exact ⟨nofun, nofun⟩
    | startTag => cases hleaf
    | endTag => cases hleaf
  | single => exact ⟨nofun, fun h => nomatch h _ List.mem_cons_self⟩
  | pair => exact ⟨nofun, fun h => nomatch h _ List.mem_cons_self⟩

/-! ## 5. The whole source -/

namespace Template

variable {options : Options} {source : String} {prolog : Prolog} {tokens : List Token}
  {fault? : Option (Fault (List Char))}

/-- What becomes of a source is said by the run on its tokens, by its fault, and at its end. -/
theorem parse_eq (hprolog : Prolog.read source.toList = .ok prolog) :
    parse options source =
      match (Assembly.atBody options prolog 0).tokens options (Body.read prolog.body).tokens with
      | .error error => .error error
      | .ok assembly =>
        match (Body.read prolog.body).fault? with
        | some fault => .error (.ofFault source.toList fault)
        | none => assembly.finish options := by
  rw [parse, read_eq options 0 hprolog]
  rcases Body.read prolog.body with ⟨tokens, fault?⟩
  rcases (Assembly.atBody options prolog 0).tokens options tokens with error | assembly
  · rfl
  · cases fault? with
    | some fault => rfl
    | none =>
      simp only
      rcases assembly.finish options with error | template <;> rfl

theorem parse_eq_error (hprolog : Prolog.read source.toList = .ok prolog)
    (hbody : Body.read prolog.body = ⟨tokens, fault?⟩) {error : Error}
    (htokens : (Assembly.atBody options prolog 0).tokens options tokens = .error error) :
    parse options source = .error error := by
  rw [parse_eq hprolog, hbody, htokens]

/-- Where an error comes from: from the prolog, from a token that is refused, from the fault after the tokens,
    or from the end of the source. -/
inductive Refused (options : Options) (source : String) (error : Error) : Prop
  | prolog {fault : Fault (List Char)} (hprolog : Prolog.read source.toList = .error fault)
      (herror : error = .ofFault source.toList fault)
  | token {prolog : Prolog} {tokens : List Token} {fault? : Option (Fault (List Char))}
      (hprolog : Prolog.read source.toList = .ok prolog)
      (hbody : Body.read prolog.body = ⟨tokens, fault?⟩)
      (hrun : (Assembly.atBody options prolog 0).tokens options tokens = .error error)
  | fault {prolog : Prolog} {tokens : List Token} {fault : Fault (List Char)} {assembly : Assembly}
      (hprolog : Prolog.read source.toList = .ok prolog)
      (hbody : Body.read prolog.body = ⟨tokens, some fault⟩)
      (hrun : (Assembly.atBody options prolog 0).tokens options tokens = .ok assembly)
      (herror : error = .ofFault source.toList fault)
  | finish {prolog : Prolog} {tokens : List Token} {assembly : Assembly}
      (hprolog : Prolog.read source.toList = .ok prolog)
      (hbody : Body.read prolog.body = ⟨tokens, none⟩)
      (hrun : (Assembly.atBody options prolog 0).tokens options tokens = .ok assembly)
      (hfinish : assembly.finish options = .error error)

/-- **Every error comes from one of these places.** -/
theorem refused_of_parse {error : Error} (h : parse options source = .error error) :
    Refused options source error := by
  rcases hprolog : Prolog.read source.toList with fault | prolog
  · rw [parse, read, hprolog] at h
    cases h
    exact .prolog hprolog rfl
  · rw [parse_eq hprolog] at h
    rcases hbody : Body.read prolog.body with ⟨tokens, fault?⟩
    rw [hbody] at h
    rcases hrun : (Assembly.atBody options prolog 0).tokens options tokens with error' | assembly
    · rw [hrun] at h
      cases h
      exact .token hprolog hbody hrun
    · rw [hrun] at h
      cases fault? with
      | some fault =>
        cases h
        exact .fault hprolog hbody hrun rfl
      | none => exact .finish hprolog hbody hrun h

/-- **The end of nested tokens**: the innermost open tag is reported, and if there is none, all is
    accepted that is not blank. -/
theorem parse_of_nested (hprolog : Prolog.read source.toList = .ok prolog)
    (hbody : Body.read prolog.body = ⟨tokens, none⟩) (hnested : Nested tokens) (huncut : Uncut tokens) :
    (∃ before tag, Innermost tokens before tag ∧ parse options source =
        .error { kind := .unclosedTag tag.name.recorded, line? := some (prolog.lineAfter before) }) ∨
      NoneOpen tokens ∧
        (prolog.items = [] ∧ (∀ token ∈ tokens, token.IsBlank) →
          parse options source = .error { kind := .emptyTemplate }) ∧
        (¬ (prolog.items = [] ∧ ∀ token ∈ tokens, token.IsBlank) →
          ∃ template, parse options source = .ok template) := by
  have hstart := Assembly.openTags_atBody options prolog 0
  obtain ⟨after, hafter⟩ := Assembly.tokens_of_nested options hstart hnested huncut
  have hparse : parse options source = after.finish options := by
    rw [parse_eq hprolog, hbody, hafter]
  have hreached := Reached.of_tokens hstart hafter
  rw [hparse]
  rcases hreached.nesting hstart with ⟨hopen, hnone⟩ | ⟨top, outer, before, tag, hopen, hinnermost, hname, hline⟩
  · obtain ⟨nodes, last, content, rfl⟩ := hreached.content_of_openTags hopen
    have hblank : (Prolog.leaves options 0 prolog.items ++ nodes).all Node.isBlankText = true ↔
        prolog.items = [] ∧ ∀ token ∈ tokens, token.IsBlank := by
      rw [List.all_append, Bool.and_eq_true, Prolog.all_isBlankText_leaves, content.all_isBlankText]
    rw [Assembly.finish_of_closed hopen, Assembly.level_atBody]
    refine Or.inr ⟨hnone, fun hall => ?_, fun hall => ?_⟩
    · rw [if_pos (hblank.2 hall)]
    · rw [if_neg (fun h => hall (hblank.1 h))]
      exact ⟨_, rfl⟩
  · refine Or.inl ⟨before, tag, hinnermost, ?_⟩
    rw [Assembly.finish_of_open hopen, hname, hline, Prolog.lineAfter, newlines_append]
    rfl

/-- What is to become of a source with this prolog, whose body is read as these tokens up to this fault. -/
structure Verdict (options : Options) (source : String) (prolog : Prolog) (tokens : List Token)
    (fault? : Option (Fault (List Char))) : Prop where
  /-- The tokens stand in the source right after the prolog. -/
  source_eq : ∃ rest, source.toList = prolog.spelling ++ tokens.flatMap Token.text ++ rest
  /-- The first closing tag that does not carry the name of the innermost open tag is reported. -/
  of_misfit : ¬ Nested tokens → ∃ front close back,
    tokens = front ++ .endTag close :: back ∧ Nested front ∧ ¬ Fits front close ∧
      ((∃ before tag, Innermost front before tag ∧ parse options source = .error {
          kind := .mismatchedTag tag.name.recorded close.name.recorded,
          line? := some (prolog.lineAfter front) }) ∨
        NoneOpen front ∧
          parse options source = .error {
            kind := .unexpectedClosing close.name.recorded, line? := some (prolog.lineAfter front) } ∧
          (ErrorKind.unexpectedClosing close.name.recorded).message =
            "Unexpected closing tag </" ++ close.name.recorded ++ ">")
  /-- If all closing tags fit, a fault is reported with its row. -/
  of_fault : Nested tokens → ∀ fault, fault? = some fault →
    parse options source = .error {
      kind := .malformed (fault.map (Position.before source.toList)),
      line? := some (Position.before source.toList fault.place).row }
  /-- A start tag that the input ends in is reported with the line it starts on. -/
  of_cut : Nested tokens → ¬ Uncut tokens → ∃ front tag,
    tokens = front ++ [.startTag tag] ∧ tag.inside.ending = .cut ∧ fault? = none ∧
      parse options source = .error {
        kind := .unclosedTag tag.name.recorded, line? := some (prolog.lineAfter front) }
  /-- If tags are open at the end, the innermost is reported with the line it starts on. If none is,
      there is a template, unless all is blank. -/
  of_end : Nested tokens → fault? = none → Uncut tokens →
    (∃ before tag, Innermost tokens before tag ∧ parse options source = .error {
        kind := .unclosedTag tag.name.recorded, line? := some (prolog.lineAfter before) }) ∨
      NoneOpen tokens ∧
        (prolog.items = [] ∧ (∀ token ∈ tokens, token.IsBlank) →
          parse options source = .error { kind := .emptyTemplate }) ∧
        (¬ (prolog.items = [] ∧ ∀ token ∈ tokens, token.IsBlank) →
          ∃ template, parse options source = .ok template)

/-- **The verdict on a source whose prolog can be read.** -/
theorem parse_verdict (options : Options) (hprolog : Prolog.read source.toList = .ok prolog)
    (hbody : Body.read prolog.body = ⟨tokens, fault?⟩) :
    Verdict options source prolog tokens fault? := by
  have hstart := Assembly.openTags_atBody options prolog 0
  have hline : ∀ front, (Assembly.atBody options prolog 0).newlines +
      newlines (front.flatMap Token.text) + 1 = prolog.lineAfter front := by
    intro front
    rw [Prolog.lineAfter, newlines_append]
    rfl
  constructor
  case source_eq =>
    have htokens : Body.read prolog.body = ⟨tokens ++ [], fault?⟩ := by rw [hbody, List.append_nil]
    obtain ⟨rest, hrest, -⟩ := Body.read_append htokens
    exact ⟨rest, by rw [List.append_assoc, ← hrest, Prolog.spelling_of_read hprolog]⟩
  case of_misfit =>
    intro hnot
    obtain ⟨front, close, back, rfl, hfront, hmisfit⟩ := exists_misfit hnot
    refine ⟨front, close, back, rfl, hfront, hmisfit, ?_⟩
    have huncut := Body.uncut_of_append hbody
    rcases Assembly.tokens_of_misfit options hstart hfront huncut hmisfit back with
      ⟨before, tag, hinnermost, hrun⟩ | ⟨hnone, hrun⟩
    · rw [hline] at hrun
      exact Or.inl ⟨before, tag, hinnermost, parse_eq_error hprolog hbody hrun⟩
    · rw [hline] at hrun
      exact Or.inr ⟨hnone, parse_eq_error hprolog hbody hrun, rfl⟩
  case of_fault =>
    rintro hnested fault rfl
    have huncut := Body.uncut_of_fault hbody
    obtain ⟨after, hafter⟩ := Assembly.tokens_of_nested options hstart hnested huncut
    rw [parse_eq hprolog, hbody, hafter]
    simp only [Error.ofFault, Fault.place_map]
  case of_cut =>
    intro hnested hnot
    obtain ⟨front, tag, rfl, hcut, hfault⟩ := Body.cut_of_not_uncut hbody hnot
    have huncut := Body.uncut_of_append hbody
    have hrun := Assembly.tokens_of_cut options hstart hnested.of_append huncut hcut
    rw [hline] at hrun
    exact ⟨front, tag, rfl, hcut, hfault, parse_eq_error hprolog hbody hrun⟩
  case of_end =>
    rintro hnested rfl huncut
    exact parse_of_nested hprolog hbody hnested huncut

theorem parse_verdict_mismatch :
    ∃ prolog tokens fault?, Prolog.read "<!-- -->\n<a>\n<b></a>".toList = .ok prolog ∧
      Body.read prolog.body = ⟨tokens, fault?⟩ ∧
      parse { } "<!-- -->\n<a>\n<b></a>" = .error { kind := .mismatchedTag "b" "a", line? := some 3 } ∧
      Verdict { } "<!-- -->\n<a>\n<b></a>" prolog tokens fault? := by
  rcases hprolog : Prolog.read "<!-- -->\n<a>\n<b></a>".toList with fault | prolog
  · have hok : (Prolog.read "<!-- -->\n<a>\n<b></a>".toList).isOk = true := by decide +kernel
    rw [hprolog] at hok
    cases hok
  · exact ⟨prolog, _, _, rfl, rfl, map_parse_eq_error_iff.1 (by decide +kernel), parse_verdict { } hprolog rfl⟩

end Template

end TalMarkup
