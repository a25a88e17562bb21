import TalMarkup.Proofs.Accepted
import TalMarkup.Proofs.Continuing

/-!
# Reading what was written

A forest of elements, texts, comments and CDATA sections can be written down in many ways: with other
spaces inside of tags, with other quote marks, an element without children with one tag or with two.
`Written` relates a forest to all of them.

**`Template.parse_of_written`**: each of them is read as a template with the nodes of the forest
(`Gives`), if the forest is one that markup can express (`Proper`) and starts with an element.
-/

namespace TalMarkup

/-! ## 1. Forests -/

/-- A piece of a forest. -/
inductive Piece
  | element (name : QName) (attributes : List (QName × List Char)) (children : List Piece)
  | text (value : List Char)
  | comment (body : List Char)
  | cdata (body : List Char)

/-- The name is a local part, or a qualifier and a local part; none of them is empty. -/
def QName.Proper (name : QName) : Prop :=
  IsNamePart name.localPart ∧ ∀ qualifier ∈ name.qualifier?, IsNamePart qualifier

/-- The attributes have different names, and values that some quote marks may stand around. -/
def ProperAttributes (attributes : List (QName × List Char)) : Prop :=
  (attributes.map fun pair => pair.1.text).Nodup ∧
    ∀ pair ∈ attributes, pair.1.Proper ∧ IsXmlText pair.2 ∧ '<' ∉ pair.2

instance (name : QName) : Decidable name.Proper := inferInstanceAs (Decidable (_ ∧ _))

instance (attributes : List (QName × List Char)) : Decidable (ProperAttributes attributes) :=
  inferInstanceAs (Decidable (_ ∧ _))

/-- Markup can express the forest. Two texts next to each other it cannot keep apart. -/
inductive Proper : List Piece → Prop
  | nil : Proper []
  | element {name attributes children pieces}
      (hname : name.Proper) (hattributes : ProperAttributes attributes) (inside : Proper children)
      (more : Proper pieces) : Proper (.element name attributes children :: pieces)
  | text {value pieces}
      (hne : value ≠ []) (hxml : IsXmlText value) (hlt : '<' ∉ value) (hmark : ¬ "]]>".toList <:+: value)
      (hnext : ∀ other more, pieces ≠ .text other :: more) (more : Proper pieces) :
      Proper (.text value :: pieces)
  | comment {body pieces}
      (hxml : IsXmlText body) (hhyphens : ¬ "--".toList <:+: body) (hlast : body.getLast? ≠ some '-')
      (more : Proper pieces) : Proper (.comment body :: pieces)
  | cdata {body pieces}
      (hxml : IsXmlText body) (hmark : ¬ "]]>".toList <:+: body) (more : Proper pieces) :
      Proper (.cdata body :: pieces)

/-- The attributes may be written so: in their order, with a space at least in front of each, and quote
    marks that do not stand in the value. -/
def LaidOut (attributes : List (QName × List Char)) (written : List WrittenAttribute) : Prop :=
  (written.map fun a => (a.name, a.value)) = attributes ∧
    ∀ a ∈ written, (a.gap ≠ [] ∧ IsGap a.gap) ∧ IsGap a.beforeEquals ∧ IsGap a.afterEquals ∧
      (a.mark = '"' ∨ a.mark = '\x27') ∧ a.mark ∉ a.value

instance (attributes : List (QName × List Char)) (written : List WrittenAttribute) :
    Decidable (LaidOut attributes written) :=
  inferInstanceAs (Decidable (_ ∧ _))

/-- The text is the forest written down. -/
inductive Written : List Piece → List Char → Prop
  | nil : Written [] []
  | single {name attributes written gap pieces rest}
      (hattributes : LaidOut attributes written) (hgap : IsGap gap) (more : Written pieces rest) :
      Written (.element name attributes [] :: pieces)
        ((⟨name, ⟨written, gap, .selfClosing⟩⟩ : StartTag).text ++ rest)
  | pair {name attributes written gap children inner endGap pieces rest}
      (hattributes : LaidOut attributes written) (hgap : IsGap gap) (inside : Written children inner)
      (hendGap : IsGap endGap) (more : Written pieces rest) :
      Written (.element name attributes children :: pieces)
        ((⟨name, ⟨written, gap, .opening⟩⟩ : StartTag).text ++ inner ++
          (⟨name, endGap⟩ : EndTag).text ++ rest)
  | text {value pieces rest} (more : Written pieces rest) :
      Written (.text value :: pieces) (value ++ rest)
  | comment {body pieces rest} (more : Written pieces rest) :
      Written (.comment body :: pieces) ("<!--".toList ++ body ++ "-->".toList ++ rest)
  | cdata {body pieces rest} (more : Written pieces rest) :
      Written (.cdata body :: pieces) ("<![CDATA[".toList ++ body ++ "]]>".toList ++ rest)

/-- The nodes are those of the forest, with names as they are spelled, attributes in their order, and
    comments and sections with their marks. -/
inductive Gives : List Piece → List Node → Prop
  | nil : Gives [] []
  | element {name : QName} {attributes children pieces tag nodes more}
      (hname : tag.name = String.ofList name.text)
      (hattributes : tag.attributes.entries =
        attributes.map fun pair => (String.ofList pair.1.text, String.ofList pair.2))
      (inside : Gives children nodes) (rest : Gives pieces more) :
      Gives (.element name attributes children :: pieces) (.element tag nodes :: more)
  | text {value pieces location more} (rest : Gives pieces more) :
      Gives (.text value :: pieces) (.leaf .text location (String.ofList value) :: more)
  | comment {body pieces location more} (rest : Gives pieces more) :
      Gives (.comment body :: pieces)
        (.leaf .comment location (String.ofList ("<!--".toList ++ body ++ "-->".toList)) :: more)
  | cdata {body pieces location more} (rest : Gives pieces more) :
      Gives (.cdata body :: pieces)
        (.leaf .comment location (String.ofList ("<![CDATA[".toList ++ body ++ "]]>".toList)) :: more)

/-! ## 2. Names and attributes -/

namespace QName

variable {name : QName}

theorem Proper.formed (h : name.Proper) : name.Formed :=
  ⟨h.1, fun qualifier hqualifier => Or.inr (h.2 qualifier hqualifier)⟩

theorem Proper.recorded_eq (h : name.Proper) : name.recorded = String.ofList name.text := by
  rcases name with ⟨_ | _ | ⟨c, qualifier⟩, localPart⟩
  · rfl
  · exact absurd (h.2 [] rfl).1 Bool.false_ne_true
  · rfl

end QName

namespace LaidOut

variable {attributes : List (QName × List Char)} {written : List WrittenAttribute}

theorem formed (h : LaidOut attributes written) (hproper : ProperAttributes attributes) :
    ∀ a ∈ written, a.Formed := by
  obtain ⟨rfl, hlayout⟩ := h
  intro a ha
  obtain ⟨⟨hne, hgap⟩, hbefore, hafter, hmark, hnot⟩ := hlayout a ha
  obtain ⟨hname, hxml, hlt⟩ := hproper.2 (a.name, a.value) (List.mem_map_of_mem ha)
  exact ⟨hne, hgap, rfl, hname.formed, hbefore, hafter, hmark, hxml, hnot, hlt⟩

theorem formed_startTag (h : LaidOut attributes written) {name : QName} (hname : name.Proper)
    (hproper : ProperAttributes attributes) {gap : List Char} (hgap : IsGap gap) {tagEnding : TagEnding}
    (hending : tagEnding ≠ .cut) : StartTag.Formed ⟨name, ⟨written, gap, tagEnding⟩⟩ :=
  ⟨hname.formed, h.formed hproper, hgap, fun hcut => absurd hcut hending⟩

/-- **Attributes with different names are bound as they are written.** -/
theorem entries_eq (h : LaidOut attributes written) (hproper : ProperAttributes attributes) :
    (Bindings.ofList (written.map WrittenAttribute.pair)).entries =
      attributes.map fun pair => (String.ofList pair.1.text, String.ofList pair.2) := by
  obtain ⟨rfl, -⟩ := h
  have hpairs : written.map WrittenAttribute.pair =
      (written.map fun a => (a.name, a.value)).map fun pair =>
        (String.ofList pair.1.text, String.ofList pair.2) := by
    rw [List.map_map]
    refine List.map_congr_left fun a ha => ?_
    have hname : a.name.Proper := (hproper.2 (a.name, a.value) (List.mem_map_of_mem ha)).1
    show (a.name.recorded, String.ofList a.value) = _
    rw [hname.recorded_eq]
    rfl
  rw [hpairs]
  refine Bindings.entries_ofList ?_
  have hnodup : (((written.map fun a => (a.name, a.value)).map fun pair => pair.1.text).map
      String.ofList).Nodup :=
    List.Pairwise.map String.ofList (fun _ _ hne heq => hne (String.ofList_injective heq)) hproper.1
  simpa only [List.map_map, Function.comp_def] using hnodup

end LaidOut

/-! ## 3. The tokens of a forest -/

/-- Markup begins here, or the input ends. -/
def MarkupNext (cs : List Char) : Prop := cs = [] ∨ nextIs (· == '<') cs = true

theorem MarkupNext.append {cs rest : List Char} (h : MarkupNext cs) (hrest : MarkupNext rest) :
    MarkupNext (cs ++ rest) := by
  cases cs with
  | nil => exact hrest
  | cons c cs => exact Or.inr (h.resolve_left (List.cons_ne_nil _ _))

/-- After a text comes markup. -/
theorem Written.markupNext {pieces : List Piece} {text : List Char} (h : Written pieces text)
    (hfirst : ∀ value more, pieces ≠ .text value :: more) : MarkupNext text := by
  cases h with
  | nil => exact Or.inl rfl
  | text => exact absurd rfl (hfirst _ _)
  | single => exact Or.inr rfl
  | pair => exact Or.inr rfl
  | comment => exact Or.inr rfl
  | cdata => exact Or.inr rfl

/-- The tokens can be read in front of any markup, and are content with the nodes of the forest. -/
structure ReadAs (pieces : List Piece) (tokens : List Token) : Prop where
  formed : ∀ more, Token.FormedAll more → MarkupNext (more.flatMap Token.text) →
    Token.FormedAll (tokens ++ more)
  content : ∀ options scope lines stamp, ∃ nodes next,
    Content options scope lines stamp tokens nodes next ∧ Gives pieces nodes

namespace ReadAs

variable {pieces children : List Piece} {tokens inner : List Token} {name : QName}
  {attributes : List (QName × List Char)} {written : List WrittenAttribute} {gap endGap : List Char}

theorem nil : ReadAs [] [] :=
  ⟨fun _ hmore _ => hmore, fun _ _ _ stamp => ⟨[], stamp, .nil, .nil⟩⟩

theorem leaf {piece : Piece} {token : Token} {kind : LeafKind} {value : List Char}
    (hleaf : token.leaf? = some (kind, value)) (htoken : token.Formed)
    (hends : ∀ rest, MarkupNext rest → token.EndsBefore (tokens.flatMap Token.text ++ rest))
    (hgives : ∀ location {nodes}, Gives pieces nodes →
      Gives (piece :: pieces) (.leaf kind location (String.ofList value) :: nodes))
    (more : ReadAs pieces tokens) : ReadAs (piece :: pieces) (token :: tokens) := by
  refine ⟨fun next hnext hmarkup => ⟨htoken, ?_, more.formed next hnext hmarkup⟩,
    fun options scope lines stamp => ?_⟩
  · show token.EndsBefore ((tokens ++ next).flatMap Token.text)
    rw [List.flatMap_append]
    exact hends _ hmarkup
  · obtain ⟨nodes, last, content, hnodes⟩ := more.content options scope (lines + newlines value) stamp
    exact ⟨_, last, .leaf hleaf content, hgives _ hnodes⟩

theorem single (hname : name.Proper) (hproper : ProperAttributes attributes)
    (hattributes : LaidOut attributes written) (hgap : IsGap gap) (more : ReadAs pieces tokens) :
    ReadAs (.element name attributes [] :: pieces)
      (.startTag ⟨name, ⟨written, gap, .selfClosing⟩⟩ :: tokens) := by
  refine ⟨fun next hnext hmarkup => ⟨?_, nofun, more.formed next hnext hmarkup⟩,
    fun options scope lines stamp => ?_⟩
  · exact hattributes.formed_startTag hname hproper hgap nofun
  · rcases hkept : StartTag.kept ⟨name, ⟨written, gap, .selfClosing⟩⟩ options scope lines stamp
      with ⟨kept, mid⟩
    obtain ⟨nodes, last, content, hnodes⟩ := more.content options scope _ mid
    refine ⟨_, last, .single rfl hkept content, ?_⟩
    obtain ⟨rfl, -⟩ := Prod.mk.inj hkept
    exact .element hname.recorded_eq (hattributes.entries_eq hproper) .nil hnodes

theorem pair (hname : name.Proper) (hproper : ProperAttributes attributes)
    (hattributes : LaidOut attributes written) (hgap : IsGap gap) (inside : ReadAs children inner)
    (hendGap : IsGap endGap) (more : ReadAs pieces tokens) :
    ReadAs (.element name attributes children :: pieces)
      (.startTag ⟨name, ⟨written, gap, .opening⟩⟩ :: (inner ++ .endTag ⟨name, endGap⟩ :: tokens)) := by
  refine ⟨fun next hnext hmarkup => ?_, fun options scope lines stamp => ?_⟩
  · have hend : Token.FormedAll (.endTag ⟨name, endGap⟩ :: (tokens ++ next)) :=
      ⟨⟨hname.formed, hendGap⟩, trivial, more.formed next hnext hmarkup⟩
    -- the closing tag is the markup that the inner tokens stand in front of
    have hinside := inside.formed _ hend (Or.inr rfl)
    rw [List.cons_append, List.append_assoc]
    exact ⟨hattributes.formed_startTag hname hproper hgap nofun, nofun, hinside⟩
  · rcases hkept : StartTag.kept ⟨name, ⟨written, gap, .opening⟩⟩ options scope lines stamp
      with ⟨kept, first⟩
    obtain ⟨nodes, mid, content, hnodes⟩ := inside.content options kept.scope _ first
    obtain ⟨others, last, rest, hothers⟩ := more.content options scope _ mid
    have hkeptName : name.recorded = kept.name := by rw [← (Prod.mk.inj hkept).1]
    refine ⟨_, last, .pair rfl hkept content hkeptName rest, ?_⟩
    obtain ⟨rfl, -⟩ := Prod.mk.inj hkept
    exact .element hname.recorded_eq (hattributes.entries_eq hproper) hnodes hothers

end ReadAs

/-- **A forest that is written down is the spelling of tokens that stand for it.** -/
theorem Written.readAs {pieces : List Piece} {text : List Char} (h : Written pieces text)
    (hproper : Proper pieces) :
    ∃ tokens, text = tokens.flatMap Token.text ∧ ReadAs pieces tokens := by
  induction h with
  | nil => exact ⟨[], rfl, .nil⟩
  | single hattributes hgap _ ih =>
    cases hproper with
    | element hname hproper _ more =>
      obtain ⟨tokens, rfl, hread⟩ := ih more
      exact ⟨_, rfl, .single hname hproper hattributes hgap hread⟩
  | pair hattributes hgap _ hendGap _ ihInside ihMore =>
    cases hproper with
    | element hname hproper inside more =>
      obtain ⟨inner, rfl, hinner⟩ := ihInside inside
      obtain ⟨tokens, rfl, hread⟩ := ihMore more
      exact ⟨_, by simp [Token.text], .pair hname hproper hattributes hgap hinner hendGap hread⟩
  | @text value _ _ written ih =>
    cases hproper with
    | text hne hxml hlt hmark hnext more =>
      obtain ⟨tokens, rfl, hread⟩ := ih more
      have hends := written.markupNext hnext
      exact ⟨.charData value :: tokens, rfl, .leaf rfl ⟨hne, hxml, hlt, hmark⟩
        (fun _ => hends.append) (fun _ _ => .text) hread⟩
  | @comment body _ _ _ ih =>
    cases hproper with
    | comment hxml hhyphens hlast more =>
      obtain ⟨tokens, rfl, hread⟩ := ih more
      exact ⟨.verbatim _ :: tokens, rfl, .leaf rfl (Or.inl ⟨body, rfl, hxml, hhyphens, hlast⟩)
        (fun _ _ => trivial) (fun _ _ => .comment) hread⟩
  | @cdata body _ _ _ ih =>
    cases hproper with
    | cdata hxml hmark more =>
      obtain ⟨tokens, rfl, hread⟩ := ih more
      exact ⟨.verbatim _ :: tokens, rfl, .leaf rfl (Or.inr (Or.inl ⟨body, rfl, hxml, hmark⟩))
        (fun _ _ => trivial) (fun _ _ => .cdata) hread⟩

/-! ## 4. The whole source -/

/-- A source that starts with a whole tag has no prolog. -/
theorem Prolog.read_of_startTag {tag : StartTag} (htag : tag.Formed) (hending : tag.inside.ending ≠ .cut)
    (rest : List Char) : read (tag.text ++ rest) = .ok ⟨[], [], tag.text ++ rest⟩ := by
  have htext : tag.text ++ rest = '<' :: (tag.name.text ++ (tag.inside.text ++ rest)) := by
    simp [StartTag.text]
  rw [htext]
  exact read_of_startsWithTag ⟨tag.name, _, htag.1, rfl, htag.2.nextIs_text fun h => absurd h hending⟩

/-- A forest that starts with an element is written down without a prolog. -/
theorem Written.prolog_read {name : QName} {attributes : List (QName × List Char)}
    {children pieces : List Piece} {text : List Char}
    (hproper : Proper (.element name attributes children :: pieces))
    (h : Written (.element name attributes children :: pieces) text) :
    Prolog.read text = .ok ⟨[], [], text⟩ := by
  cases hproper with
  | element hname hproper _ _ =>
    cases h with
    | single hattributes hgap _ =>
      exact Prolog.read_of_startTag (hattributes.formed_startTag hname hproper hgap (by nofun)) (by nofun) _
    | pair hattributes hgap _ _ _ =>
      rw [List.append_assoc, List.append_assoc]
      exact Prolog.read_of_startTag (hattributes.formed_startTag hname hproper hgap (by nofun)) (by nofun) _

/-- **Every way of writing down a forest that starts with an element is read as that forest.** -/
theorem Template.parse_of_written (options : Options) {name : QName}
    {attributes : List (QName × List Char)} {children pieces : List Piece} {text : List Char}
    (hproper : Proper (.element name attributes children :: pieces))
    (hwritten : Written (.element name attributes children :: pieces) text) :
    ∃ template, parse options (String.ofList text) = .ok template ∧
      Gives (.element name attributes children :: pieces) template.children := by
  have hprolog := hwritten.prolog_read hproper
  obtain ⟨tokens, htext, hread⟩ := hwritten.readAs hproper
  have hformed := hread.formed [] trivial (Or.inl rfl)
  rw [List.append_nil] at hformed
  have hbody : Body.read text = ⟨tokens, none⟩ := Body.read_eq_iff.2 ⟨hformed, htext⟩
  obtain ⟨nodes, next, content, hgives⟩ := hread.content options .empty 0 0
  refine ⟨⟨.after options.sourceFile 0, nodes⟩, parse_eq_ok_iff.2 ⟨next, read_eq_ok_iff.2
    ⟨⟨[], [], text⟩, nodes, ?_, ?_, ?_, rfl, ?_⟩⟩, hgives⟩
  · rw [String.toList_ofList]
    exact hprolog
  · show (Body.read text).fault? = none
    rw [hbody]
  · show Content options .empty _ 0 (Body.read text).tokens nodes next
    rw [hbody]
    exact content
  · -- the first node is an element, which is not blank
    cases hgives with
    | element => rfl

theorem Template.parse_of_written_nested :
    ∃ template,
      parse { } "<t:a x = '1'\ty=\"it's\" >hi<!-- c --><b/><![CDATA[<]]></t:a >\n" = .ok template ∧
        Gives [
          .element ⟨some ['t'], ['a']⟩ [(⟨none, ['x']⟩, ['1']), (⟨none, ['y']⟩, "it's".toList)]
            [.text "hi".toList, .comment " c ".toList, .element ⟨none, ['b']⟩ [] [], .cdata ['<']],
          .text ['\n']] template.children := by
  refine parse_of_written { } ?_ ?_
  · refine .element (by decide) (by decide) ?_ ?_
    · refine .text (by decide) (by decide) (by decide) (by decide) nofun ?_
      refine .comment (by decide) (by decide) (by decide) ?_
      refine .element (by decide) (by decide) .nil ?_
      exact .cdata (by decide) (by decide) .nil
    · exact .text (by decide) (by decide) (by decide) (by decide) nofun .nil
  · have hspace : IsGap [' '] := by decide
    have hlayout : LaidOut [(⟨none, ['x']⟩, ['1']), (⟨none, ['y']⟩, "it's".toList)]
        [⟨[' '], ⟨none, ['x']⟩, [' '], [' '], '\x27', ['1']⟩,
          ⟨['\t'], ⟨none, ['y']⟩, [], [], '"', "it's".toList⟩] := by decide
    have hplain : LaidOut [] [] := by decide
    exact .pair hlayout hspace (.text (.comment (.single hplain isGap_nil (.cdata .nil)))) hspace
      (.text .nil)

end TalMarkup
