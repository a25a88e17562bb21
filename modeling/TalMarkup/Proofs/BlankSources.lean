import Mathlib.Data.Bool.AllAny
import TalMarkup.Proofs.Stopping
import TalMarkup.Proofs.StrayClosing

/-!
# Which sources are empty templates

A source is an empty template exactly if it is made of White_Space that a document may hold: of all of it but
U+000B and U+000C (**`Template.parse_eq_empty_iff`**).

Three notions of blank meet here. White_Space makes text blank, and `isXmlChar_iff_of_isBlank` says which of
it a document may hold. The spaces of markup, which are skipped in front of a prolog item, do not matter: the
prolog of a source without a `<` in its body has the body read from its start on if it has no items
(`Prolog.body_eq_of_plain`).
-/

namespace TalMarkup

/-! ## 1. Blank text of documents -/

/-- **A document may hold all White_Space but two characters.** -/
theorem isXmlChar_iff_of_isBlank {c : Char} (h : isBlank c = true) :
    isXmlChar c = true ↔ c ≠ '\x0b' ∧ c ≠ '\x0c' := by
  have hall : ∀ c ∈ blankChars, isXmlChar c = true ↔ c ≠ '\x0b' ∧ c ≠ '\x0c' :=
    List.all_iff_forall_prop.1 (by decide)
  exact hall c (List.contains_iff_mem.1 h)

theorem isBlank_isXmlText_iff {cs : List Char} :
    cs.all isBlank = true ∧ IsXmlText cs ↔ ∀ c ∈ cs, isBlank c = true ∧ c ≠ '\x0b' ∧ c ≠ '\x0c' := by
  rw [List.all_eq_true, IsXmlText, ← forall₂_and]
  exact forall₂_congr fun c _ => and_congr_right isXmlChar_iff_of_isBlank

/-- Markup is not blank, for it starts with a `<`. -/
theorem Token.Formed.isBlank_iff {token : Token} (h : token.Formed) :
    token.IsBlank ↔ token.text.all isBlank = true := by
  have hdata : ∀ value, isBlankText (String.ofList value) = value.all isBlank := by
    intro value
    rw [isBlankText, String.toList_ofList]
  constructor
  · intro hblank
    obtain ⟨value, rfl, hvalue⟩ := hblank
    rwa [hdata] at hvalue
  · intro hblank
    by_cases hmarkup : token.IsMarkup
    · have hlt := h.nextIs_text hmarkup []
      rw [List.append_nil] at hlt
      rcases hcs : token.text with _ | ⟨c, cs⟩
      · rw [hcs] at hlt
        cases hlt
      · rw [hcs] at hlt hblank
        obtain rfl : c = '<' := beq_iff_eq.1 hlt
        exact absurd List.mem_cons_self (not_mem_of_blank hblank rfl)
    · obtain ⟨value, rfl⟩ := Token.exists_of_not_isMarkup hmarkup
      exact ⟨value, rfl, (hdata value).trans hblank⟩

/-- **The tokens of a body are blank if the body is.** -/
theorem Body.isBlank_iff {cs : List Char} {tokens : List Token} (h : read cs = ⟨tokens, none⟩) :
    (∀ token ∈ tokens, token.IsBlank) ↔ cs.all isBlank = true := by
  have hformed : ∀ token ∈ tokens, token.Formed := by
    intro token hmem
    exact formed_of_mem (by rw [h]; exact hmem)
  rw [(read_eq_iff.1 h).2, List.all_flatMap, List.all_eq_true]
  exact forall₂_congr fun token hmem => (hformed token hmem).isBlank_iff

/-- A document may hold all that is read as blank text. -/
theorem Body.isXmlText_of_isBlank {cs : List Char} {tokens : List Token} (h : read cs = ⟨tokens, none⟩)
    (hblank : ∀ token ∈ tokens, token.IsBlank) : IsXmlText cs := by
  intro c hc
  rw [(read_eq_iff.1 h).2, List.mem_flatMap] at hc
  obtain ⟨token, hmem, hc⟩ := hc
  obtain ⟨value, rfl, -⟩ := hblank token hmem
  have hformed : Token.Formed (.charData value) := formed_of_mem (by rw [h]; exact hmem)
  exact hformed.2.1 c hc

/-- A prolog without items leaves the source whole to a body without a `<`. -/
theorem Prolog.body_eq_of_plain {source : List Char} {prolog : Prolog} (h : read source = .ok prolog)
    (hitems : prolog.items = []) (hlt : '<' ∉ prolog.body) : prolog.body = source := by
  obtain ⟨-, -, -, hgap, -⟩ := read_resume h hlt
  rw [← spelling_of_read h, spelling, hitems, hgap]
  rfl

/-! ## 2. Where the error comes from -/

namespace Assembly

variable {options : Options} {assembly : Assembly} {tokens : List Token} {error : Error}

/-- No token is refused because all is blank. -/
theorem kind_ne_of_token {token : Token} (h : assembly.token options token = .error error) :
    error.kind ≠ .emptyTemplate := by
  cases token with
  | charData value => cases h
  | verbatim value => cases h
  | startTag tag =>
    rw [token_startTag rfl] at h
    split at h <;> cases h
    exact nofun
  | endTag close =>
    rcases hopen : assembly.openTags with _ | ⟨innermost, outer⟩
    · rw [token_endTag_nil hopen] at h
      cases h
      exact nofun
    · by_cases hname : close.name.recorded = innermost.tag.name
      · rw [token_endTag_match hopen hname] at h
        cases h
      · rw [token_endTag_mismatch hopen hname] at h
        cases h
        exact nofun

theorem kind_ne_of_tokens (h : assembly.tokens options tokens = .error error) :
    error.kind ≠ .emptyTemplate := by
  obtain ⟨_, _, _, _, -, -, hstop⟩ := exists_of_tokens_error h
  exact kind_ne_of_token hstop

end Assembly

namespace Template

variable {options : Options} {source : String} {error : Error}

/-- **A template is empty if its prolog has no items and all its tokens are blank.** -/
theorem isBlank_of_parse (h : parse options source = .error error) (hkind : error.kind = .emptyTemplate) :
    ∃ prolog tokens, Prolog.read source.toList = .ok prolog ∧ Body.read prolog.body = ⟨tokens, none⟩ ∧
      prolog.items = [] ∧ ∀ token ∈ tokens, token.IsBlank := by
  cases refused_of_parse h with
  | prolog _ herror =>
    rw [herror] at hkind
    cases hkind
  | token _ _ hrun => exact absurd hkind (Assembly.kind_ne_of_tokens hrun)
  | fault _ _ _ herror =>
    rw [herror] at hkind
    cases hkind
  | @finish prolog tokens assembly hprolog hbody hrun hfinish =>
    rcases Assembly.error_of_finish hfinish with ⟨_, _, -, rfl⟩ | ⟨hopen, hblank, -⟩
    · cases hkind
    · obtain ⟨nodes, next, content, rfl⟩ := (Reached.of_tokens rfl hrun).content_of_openTags hopen
      rw [Assembly.level_atBody, List.all_append, Bool.and_eq_true, Prolog.all_isBlankText_leaves,
        content.all_isBlankText] at hblank
      exact ⟨prolog, tokens, hprolog, hbody, hblank⟩

theorem isBlank_source_of_parse (h : parse options source = .error error)
    (hkind : error.kind = .emptyTemplate) :
    source.toList.all isBlank = true ∧ IsXmlText source.toList := by
  obtain ⟨prolog, tokens, hprolog, hbody, hitems, hblank⟩ := isBlank_of_parse h hkind
  have hall : prolog.body.all isBlank = true := (Body.isBlank_iff hbody).1 hblank
  rw [← Prolog.body_eq_of_plain hprolog hitems (not_mem_of_blank hall rfl)]
  exact ⟨hall, Body.isXmlText_of_isBlank hbody hblank⟩

/-- Blank text that a document may hold is an empty template. -/
theorem parse_of_isBlank (options : Options) (hblank : source.toList.all isBlank = true)
    (hxml : IsXmlText source.toList) : parse options source = .error { kind := .emptyTemplate } := by
  have hprolog := Prolog.read_of_blank hblank
  obtain ⟨tokens, nodes, hbody, content⟩ := Content.of_blank options hblank hxml
  have hnodes : nodes.all Node.isBlankText = true :=
    content.all_isBlankText.2 ((Body.isBlank_iff hbody).2 hblank)
  rw [parse_eq hprolog, hbody, Assembly.tokens_atBody content]
  simp only
  rw [Assembly.finish_of_closed rfl, Assembly.level_atBody]
  exact if_pos hnodes

/-- **The empty templates are the sources of White_Space without U+000B and U+000C**, the empty source
    among them. The error then knows no line and no path. -/
theorem parse_eq_empty_iff (options : Options) (source : String) :
    (parse options source = .error { kind := .emptyTemplate } ↔
        ∀ c ∈ source.toList, isBlank c = true ∧ c ≠ '\x0b' ∧ c ≠ '\x0c') ∧
      ((∃ error, parse options source = .error error ∧ error.kind = .emptyTemplate) ↔
        ∀ c ∈ source.toList, isBlank c = true ∧ c ≠ '\x0b' ∧ c ≠ '\x0c') := by
  rw [← isBlank_isXmlText_iff]
  have hparse : source.toList.all isBlank = true ∧ IsXmlText source.toList →
      parse options source = .error { kind := .emptyTemplate } :=
    fun h => parse_of_isBlank options h.1 h.2
  refine ⟨⟨fun h => isBlank_source_of_parse h rfl, hparse⟩, ⟨?_, fun h => ⟨_, hparse h, rfl⟩⟩⟩
  intro h
  obtain ⟨error, h, hkind⟩ := h
  exact isBlank_source_of_parse h hkind

theorem parse_eq_empty_iff_mixed :
    parse { } " \t\u0085\u00a0\r\n\u3000" = .error { kind := .emptyTemplate } ∧
      parse { } "" = .error { kind := .emptyTemplate } ∧
      parse { } "\ufeff \n" ≠ .error { kind := .emptyTemplate } ∧
      parse { } "\n\x0b" ≠ .error { kind := .emptyTemplate } :=
  ⟨(parse_eq_empty_iff { } _).1.2 (List.all_iff_forall_prop.1 (by decide)),
    (parse_eq_empty_iff { } _).1.2 (List.all_iff_forall_prop.1 (by decide)),
    fun h => absurd (List.all_iff_forall_prop.2 ((parse_eq_empty_iff { } _).1.1 h)) (by decide),
    fun h => absurd (List.all_iff_forall_prop.2 ((parse_eq_empty_iff { } _).1.1 h)) (by decide)⟩

end Template

end TalMarkup
