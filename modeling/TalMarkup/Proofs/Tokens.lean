import TalMarkup.Markup.Token
import TalMarkup.Proofs.Tags

/-!
# Tokens that can be read

Reading and spelling of the tokens of a body are inverse to each other:

* `Token.first_eq_ok`: the first token of a text is the one that is formed and spelled in front of it,
  and that what follows does not go on with (`Token.EndsBefore`);
* **`Body.read_eq_iff`**: a body is read to its end as some tokens exactly if it is their spelling and
  each of them is formed and ends before the next.

So no two spellings of tokens are confused, and a text is read in one way only.
-/

namespace TalMarkup

/-! ## 1. Verbatim markup -/

/-- A comment. -/
def IsComment (value : List Char) : Prop :=
  ∃ body, value = "<!--".toList ++ body ++ "-->".toList ∧ IsXmlText body ∧
    ¬ "--".toList <:+: body ∧ body.getLast? ≠ some '-'

/-- A CDATA section. -/
def IsSection (value : List Char) : Prop :=
  ∃ body, value = "<![CDATA[".toList ++ body ++ "]]>".toList ∧ IsXmlText body ∧
    ¬ "]]>".toList <:+: body

/-- A processing instruction: a name, and what follows it. -/
def IsInstruction (value : List Char) : Prop :=
  ∃ target body, value = "<?".toList ++ (target ++ (body ++ "?>".toList)) ∧
    nextIs isNameStart target = true ∧ (∀ c ∈ target, isNameChar c = true) ∧
      nextIs isNameChar body = false ∧ IsXmlText body ∧ ¬ "?>".toList <:+: body

theorem endMark_comment : EndMark "-->" := ⟨['-', '-'], '>', rfl, by decide⟩

theorem endMark_section : EndMark "]]>" := ⟨[']', ']'], '>', rfl, by decide⟩

theorem endMark_instruction : EndMark "?>" := ⟨['?'], '>', rfl, by decide⟩

namespace Scan

theorem comment_eq_ok {cs value rest : List Char} :
    comment cs = .ok (value, rest) ↔ IsComment value ∧ cs = value ++ rest := by
  refine ⟨?_, ?_⟩
  · intro h
    refine ⟨?_, (reads_comment h).symm⟩
    obtain ⟨_, m₁, h₁, h⟩ := bind_eq_ok.1 h
    obtain ⟨body, m₂, h₂, h⟩ := bind_eq_ok.1 h
    obtain ⟨u, m₃, h₃, h⟩ := bind_eq_ok.1 h
    obtain ⟨-, hxml, -⟩ := (upTo_mark_eq_ok endMark_comment).1 ⟨m₂, u, h₂, h₃⟩
    split at h
    · cases h
    · rename_i hhyphens
      split at h
      · cases h
      · rename_i hlast
        cases h
        exact ⟨body, rfl, hxml, fun hin => hhyphens ((holds_eq_true_iff (by decide)).2 hin), hlast⟩
  · intro h
    obtain ⟨⟨body, rfl, hxml, hhyphens, hlast⟩, rfl⟩ := h
    have hmark : ¬ "-->".toList <:+: body := fun h =>
      hhyphens (List.IsInfix.trans ⟨[], ['>'], rfl⟩ h)
    obtain ⟨mid, u, h₂, h₃⟩ :=
      (upTo_mark_eq_ok endMark_comment).2 ⟨(rfl : body ++ ("-->".toList ++ rest) = _), hxml, hmark⟩
    have hopen : literal "<!--" ("<!--".toList ++ (body ++ ("-->".toList ++ rest))) =
        .ok ((), body ++ ("-->".toList ++ rest)) := literal_eq_ok.2 rfl
    rw [List.append_assoc, List.append_assoc]
    refine bind_eq_ok.2 ⟨(), _, hopen, bind_eq_ok.2 ⟨body, mid, h₂, bind_eq_ok.2 ⟨u, rest, h₃, ?_⟩⟩⟩
    rw [if_neg (fun h => hhyphens ((holds_eq_true_iff (by decide)).1 h)), if_neg hlast]
    simp only [List.append_assoc]
    rfl

theorem cdata_eq_ok {cs value rest : List Char} :
    cdata cs = .ok (value, rest) ↔ IsSection value ∧ cs = value ++ rest := by
  refine ⟨?_, ?_⟩
  · intro h
    refine ⟨?_, (reads_cdata h).symm⟩
    obtain ⟨_, m₁, h₁, h⟩ := bind_eq_ok.1 h
    obtain ⟨body, m₂, h₂, h⟩ := bind_eq_ok.1 h
    obtain ⟨u, m₃, h₃, h⟩ := bind_eq_ok.1 h
    cases h
    obtain ⟨-, hxml, hmark⟩ := (upTo_mark_eq_ok endMark_section).1 ⟨m₂, u, h₂, h₃⟩
    exact ⟨body, rfl, hxml, hmark⟩
  · intro h
    obtain ⟨⟨body, rfl, hxml, hmark⟩, rfl⟩ := h
    obtain ⟨mid, u, h₂, h₃⟩ :=
      (upTo_mark_eq_ok endMark_section).2 ⟨(rfl : body ++ ("]]>".toList ++ rest) = _), hxml, hmark⟩
    have hopen : literal "<![CDATA[" ("<![CDATA[".toList ++ (body ++ ("]]>".toList ++ rest))) =
        .ok ((), body ++ ("]]>".toList ++ rest)) := literal_eq_ok.2 rfl
    rw [List.append_assoc, List.append_assoc]
    refine bind_eq_ok.2 ⟨(), _, hopen, bind_eq_ok.2 ⟨body, mid, h₂, bind_eq_ok.2 ⟨u, rest, h₃, ?_⟩⟩⟩
    simp only [List.append_assoc]
    rfl

theorem name_eq_ok {cs value rest : List Char} :
    name cs = .ok (value, rest) ↔ cs = value ++ rest ∧ nextIs isNameStart value = true ∧
      (∀ c ∈ value, isNameChar c = true) ∧ nextIs isNameChar rest = false := by
  refine ⟨?_, ?_⟩
  · intro h
    cases cs with
    | nil => cases h
    | cons c cs =>
      simp only [name, optionalName] at h
      split at h
      · rename_i hstart
        obtain ⟨hcs, hchars, hnext⟩ := span_eq_ok.1 h
        refine ⟨hcs, ?_, hchars, hnext⟩
        cases value with
        | nil =>
          rw [List.nil_append] at hcs
          rw [← hcs, nextIs, isNameChar_of_isNameStart hstart] at hnext
          cases hnext
        | cons d value => exact (List.cons.inj hcs).1 ▸ hstart
      · cases h
  · intro h
    obtain ⟨rfl, hstart, hchars, hnext⟩ := h
    cases value with
    | nil => cases hstart
    | cons c value =>
      rw [List.cons_append, name, optionalName, if_pos (by exact hstart)]
      exact span_eq_ok.2 ⟨rfl, hchars, hnext⟩

theorem not_infix_of_gap {gap body : List Char} (hgap : IsGap gap) (h : ¬ "?>".toList <:+: body) :
    ¬ "?>".toList <:+: gap ++ body := by
  induction gap with
  | nil => exact h
  | cons c gap ih =>
    obtain ⟨hc, hgap⟩ := List.forall_mem_cons.1 hgap
    rw [List.cons_append, List.infix_cons_iff]
    rintro (hfront | hinfix)
    · obtain ⟨more, hmore⟩ := hfront
      have hquestion : '?' = c := (List.cons.inj hmore).1
      rw [← hquestion] at hc
      cases hc
    · exact ih hgap hinfix

theorem instruction_eq_ok {cs value rest : List Char} :
    instruction cs = .ok (value, rest) ↔ IsInstruction value ∧ cs = value ++ rest := by
  refine ⟨?_, ?_⟩
  · intro h
    refine ⟨?_, (reads_instruction h).symm⟩
    obtain ⟨_, m₁, h₁, h⟩ := bind_eq_ok.1 h
    obtain ⟨target, m₂, h₂, h⟩ := bind_eq_ok.1 h
    obtain ⟨gap, m₃, h₃, h⟩ := bind_eq_ok.1 h
    obtain ⟨body, m₄, h₄, h⟩ := bind_eq_ok.1 h
    obtain ⟨u, m₅, h₅, h⟩ := bind_eq_ok.1 h
    cases h
    obtain ⟨-, hstart, hchars, hnext⟩ := name_eq_ok.1 h₂
    obtain ⟨rfl, hgap, -⟩ := span_eq_ok.1 h₃
    obtain ⟨rfl, hxml, hmark⟩ := (upTo_mark_eq_ok endMark_instruction).1 ⟨m₄, u, h₄, h₅⟩
    refine ⟨target, gap ++ body, by simp, hstart, hchars, ?_, fun c hc => ?_,
      not_infix_of_gap hgap hmark⟩
    · rcases hbody : gap ++ body with _ | ⟨c, more⟩
      · rfl
      · rwa [← List.append_assoc, hbody] at hnext
    · exact (List.mem_append.1 hc).elim (fun hc => isXmlChar_of_isSpace (hgap c hc)) (hxml c)
  · intro h
    obtain ⟨⟨target, whole, rfl, hstart, hchars, hnext, hxml, hmark⟩, rfl⟩ := h
    -- the scanner takes the spaces at the front of what follows the name on their own
    obtain ⟨gap, body, rfl, hgap, hbody⟩ : ∃ gap body, whole = gap ++ body ∧ IsGap gap ∧
        nextIs isSpace body = false := ⟨_, _, takeWhile_dropWhile_eq_iff.1 ⟨rfl, rfl⟩⟩
    have hxml' : IsXmlText body := fun c hc => hxml c (List.mem_append_right gap hc)
    have hmark' : ¬ "?>".toList <:+: body := fun h => hmark (h.trans (List.suffix_append gap body).isInfix)
    obtain ⟨mid, u, h₄, h₅⟩ :=
      (upTo_mark_eq_ok endMark_instruction).2
        ⟨(rfl : body ++ ("?>".toList ++ rest) = _), hxml', hmark'⟩
    have hname : nextIs isNameChar (gap ++ (body ++ ("?>".toList ++ rest))) = false := by
      rcases hgb : gap ++ body with _ | ⟨c, more⟩
      · rw [← List.append_assoc, hgb]; rfl
      · rw [← List.append_assoc, hgb]; rwa [hgb] at hnext
    have hspace : nextIs isSpace (body ++ ("?>".toList ++ rest)) = false := by
      cases body with
      | nil => rfl
      | cons c body => exact hbody
    have hreadName := name_eq_ok.2 ⟨rfl, hstart, hchars, hname⟩
    have hreadGap := span_eq_ok.2 ⟨rfl, hgap, hspace⟩
    simp only [List.append_assoc]
    refine bind_eq_ok.2 ⟨(), _, literal_eq_ok.2 rfl, bind_eq_ok.2 ⟨target, _, hreadName,
      bind_eq_ok.2 ⟨gap, _, hreadGap, bind_eq_ok.2 ⟨body, mid, h₄, bind_eq_ok.2 ⟨u, rest, h₅, ?_⟩⟩⟩⟩⟩
    simp only [List.append_assoc]
    rfl

theorem charData_eq_ok {cs value rest : List Char} :
    charData cs = .ok (value, rest) ↔ cs = value ++ rest ∧ IsXmlText value ∧ '<' ∉ value ∧
      ¬ "]]>".toList <:+: value ∧ (rest = [] ∨ nextIs (· == '<') rest = true) := by
  have hcut : ∀ {value mid}, cut (nextIs (· == '<')) cs = (value, mid) ↔ cs = value ++ mid ∧
      '<' ∉ value ∧ (mid = [] ∨ nextIs (· == '<') mid = true) := by
    intro value mid
    rw [cut_nextIs_eq_iff]
    refine and_congr_right fun _ => and_congr_left fun _ => ⟨fun h hlt => ?_, fun h c hc => ?_⟩
    · simpa using h _ hlt
    · exact beq_eq_false_iff_ne.2 fun hlt => h (hlt ▸ hc)
  refine ⟨?_, ?_⟩
  · intro h
    obtain ⟨value', mid, h₁, h₂⟩ := bind_eq_ok.1 h
    obtain ⟨hread, hxml⟩ := upTo_eq_ok.1 h₁
    obtain ⟨hcs, hlt, hrest⟩ := hcut.1 hread
    split at h₂
    · cases h₂
    · rename_i hmark
      cases h₂
      exact ⟨hcs, hxml, hlt, fun h => hmark ((holds_eq_true_iff (by decide)).2 h), hrest⟩
  · intro h
    obtain ⟨hcs, hxml, hlt, hmark, hrest⟩ := h
    have hpart : cut (nextIs (· == '<')) cs = (value, rest) := hcut.2 ⟨hcs, hlt, hrest⟩
    have hread : upTo (nextIs (· == '<')) cs = .ok (value, rest) := upTo_eq_ok.2 ⟨hpart, hxml⟩
    refine bind_eq_ok.2 ⟨value, rest, hread, ?_⟩
    rw [if_neg fun h => hmark ((holds_eq_true_iff (by decide)).1 h)]
    rfl

end Scan

/-! ## 2. One token -/

namespace Token

/-- The token can be read: character data that is not empty, a comment, section or instruction, a
    tag. -/
def Formed : Token → Prop
  | charData value => value ≠ [] ∧ IsXmlText value ∧ '<' ∉ value ∧ ¬ "]]>".toList <:+: value
  | verbatim value => IsComment value ∨ IsSection value ∨
      (IsInstruction value ∧ startsWith "<?xml " value = false)
  | startTag tag => tag.Formed
  | endTag tag => tag.Formed

/-- The token ends where `rest` begins: character data goes on up to a `<`, and nothing follows a tag
    that the input ends in. -/
def EndsBefore (rest : List Char) : Token → Prop
  | charData _ => rest = [] ∨ nextIs (· == '<') rest = true
  | verbatim _ => True
  | startTag tag => tag.inside.ending = .cut → rest = []
  | endTag _ => True

theorem startsWith_append_of_isInstruction {value : List Char} (h : IsInstruction value)
    (rest : List Char) : startsWith "<?xml " (value ++ rest) = startsWith "<?xml " value := by
  obtain ⟨target, body, rfl, -⟩ := h
  exact startsWith_append (by decide) (by simp) rest

/-- Where a name follows a `<`, no markup of another kind starts. -/
theorem startsWith_of_name {c : Char} (hc : isNameChar c = true) (cs : List Char) :
    ∀ mark ∈ ["<!--", "<![CDATA[", "<!DOCTYPE", "<!", "<?xml ", "<?", "</"],
      startsWith mark ('<' :: c :: cs) = false := by
  have hbang : '!' ≠ c := (ne_of_class hc (by decide)).symm
  have hquestion : '?' ≠ c := (ne_of_class hc (by decide)).symm
  have hslash : '/' ≠ c := (ne_of_class hc (by decide)).symm
  simp [startsWith, List.isPrefixOf, hbang, hquestion, hslash]

theorem first_of_name {c : Char} (hc : isNameChar c = true) (cs : List Char) :
    first ('<' :: c :: cs) = (StartTag.read ('<' :: c :: cs)).map fun read => (startTag read.1, read.2) := by
  have hmarks := startsWith_of_name hc cs
  simp only [List.forall_mem_cons] at hmarks
  obtain ⟨h₁, h₂, -, h₃, h₄, h₅, h₆, -⟩ := hmarks
  have hlt : startsWith "<" ('<' :: c :: cs) = true := rfl
  have hlone : '<' :: c :: cs ≠ ['<'] := fun h => List.cons_ne_nil _ _ (List.cons.inj h).2
  simp only [first, hlt, h₁, h₂, h₃, h₄, h₅, h₆, hlone]
  cases StartTag.read ('<' :: c :: cs) <;> rfl

open Scan in
theorem first_eq_ok {cs rest : List Char} (hcs : cs ≠ []) {token : Token} :
    first cs = .ok (token, rest) ↔
      token.Formed ∧ cs = token.text ++ rest ∧ token.EndsBefore rest := by
  refine ⟨?_, ?_⟩
  · intro h
    suffices hformed : token.Formed ∧ token.EndsBefore rest from
      ⟨hformed.1, (text_of_first h).symm, hformed.2⟩
    unfold first at h
    split at h
    · rename_i hlt
      obtain ⟨value, hvalue, rfl⟩ := map_eq_ok.1 (within_eq_ok.1 h)
      obtain ⟨hread, hxml, hnot, hmark, hrest⟩ := charData_eq_ok.1 hvalue
      refine ⟨⟨?_, hxml, hnot, hmark⟩, hrest⟩
      rintro rfl
      rw [List.nil_append] at hread
      subst hread
      cases cs with
      | nil => exact hcs rfl
      | cons c cs =>
        have hc : c = '<' := beq_iff_eq.1 (hrest.resolve_left hcs)
        rw [startsWith_cons (x := '<') rfl, hc] at hlt
        cases hlt
    · split at h
      · obtain ⟨value, hvalue, rfl⟩ := map_eq_ok.1 (within_eq_ok.1 h)
        exact ⟨Or.inl (comment_eq_ok.1 hvalue).1, trivial⟩
      · split at h
        · obtain ⟨value, hvalue, rfl⟩ := map_eq_ok.1 (within_eq_ok.1 h)
          exact ⟨Or.inr (Or.inl (cdata_eq_ok.1 hvalue).1), trivial⟩
        · split at h
          · cases h
          · rename_i hunknown
            split at h
            · obtain ⟨value, hvalue, rfl⟩ := map_eq_ok.1 (within_eq_ok.1 h)
              obtain ⟨hinstruction, rfl⟩ := instruction_eq_ok.1 hvalue
              refine ⟨Or.inr (Or.inr ⟨hinstruction, ?_⟩), trivial⟩
              rw [← startsWith_append_of_isInstruction hinstruction rest]
              simp only [Bool.or_eq_true, not_or] at hunknown
              exact Bool.eq_false_iff.2 hunknown.2
            · split at h
              · obtain ⟨tag, htag, rfl⟩ := map_eq_ok.1 (within_eq_ok.1 h)
                exact ⟨(endTag_eq_ok.1 htag).1, trivial⟩
              · split at h
                · cases h
                · rename_i tag rest' htag
                  cases h
                  obtain ⟨hformed, -, hrest⟩ := StartTag.read_eq_ok.1 htag
                  exact ⟨hformed, hrest⟩
  · intro h
    obtain ⟨hformed, rfl, hrest⟩ := h
    cases token with
    | charData value =>
      obtain ⟨hne, hxml, hlt, hmark⟩ := hformed
      obtain ⟨c, value, rfl⟩ := List.exists_cons_of_ne_nil hne
      have hc : '<' ≠ c := fun h => hlt (h ▸ List.mem_cons_self)
      have hstart : startsWith "<" (c :: (value ++ rest)) = false := by
        rw [startsWith_cons (x := '<') rfl]
        exact beq_eq_false_iff_ne.2 hc
      rw [text, List.cons_append, first, hstart, if_pos (by rfl)]
      exact within_eq_ok.2 (map_eq_ok.2 ⟨_, charData_eq_ok.2 ⟨rfl, hxml, hlt, hmark, hrest⟩, rfl⟩)
    | verbatim value =>
      rcases hformed with hcomment | hsection | ⟨hinstruction, hdeclaration⟩
      · have hread := comment_eq_ok.2 ⟨hcomment, (rfl : value ++ rest = _)⟩
        obtain ⟨body, rfl, -⟩ := hcomment
        show within .comment (verbatim <$> comment) _ = _
        exact within_eq_ok.2 (map_eq_ok.2 ⟨_, hread, rfl⟩)
      · have hread := cdata_eq_ok.2 ⟨hsection, (rfl : value ++ rest = _)⟩
        obtain ⟨body, rfl, -⟩ := hsection
        show within .cdata (verbatim <$> cdata) _ = _
        exact within_eq_ok.2 (map_eq_ok.2 ⟨_, hread, rfl⟩)
      · have hread := instruction_eq_ok.2 ⟨hinstruction, (rfl : value ++ rest = _)⟩
        rw [← startsWith_append_of_isInstruction hinstruction rest] at hdeclaration
        obtain ⟨target, body, rfl, -⟩ := hinstruction
        have hunknown : ¬ ((decide ("<?".toList ++ (target ++ (body ++ "?>".toList)) ++ rest = ['<']) ||
            startsWith "<!" ("<?".toList ++ (target ++ (body ++ "?>".toList)) ++ rest) ||
            startsWith "<?xml " ("<?".toList ++ (target ++ (body ++ "?>".toList)) ++ rest)) = true) := by
          rw [hdeclaration, Bool.or_false, Bool.or_eq_true, decide_eq_true_eq]
          rintro (h | h)
          · exact absurd (List.cons.inj h).2 (List.cons_ne_nil _ _)
          · cases h
        rw [text, first, if_neg (by exact Bool.false_ne_true), if_neg (by exact Bool.false_ne_true),
          if_neg (by exact Bool.false_ne_true), if_neg hunknown, if_pos (by rfl)]
        exact within_eq_ok.2 (map_eq_ok.2 ⟨_, hread, rfl⟩)
    | startTag tag =>
      have hread := StartTag.read_eq_ok.2 ⟨hformed, (rfl : tag.text ++ rest = _), hrest⟩
      have htext : tag.text ++ rest = '<' :: (tag.name.text ++ (tag.inside.text ++ rest)) := by
        simp [StartTag.text]
      have hname := hformed.1.nextIs_text (tag.inside.text ++ rest)
      rw [htext] at hread
      rw [text, htext]
      rcases hcs : tag.name.text ++ (tag.inside.text ++ rest) with _ | ⟨c, more⟩
      · rw [hcs] at hname
        cases hname
      · rw [hcs] at hname hread
        rw [first_of_name hname, hread]
        rfl
    | endTag tag =>
      have hread := endTag_eq_ok.2 ⟨hformed, (rfl : tag.text ++ rest = _)⟩
      show within .element (endTag <$> Scan.endTag) _ = _
      exact within_eq_ok.2 (map_eq_ok.2 ⟨_, hread, rfl⟩)

end Token

/-! ## 3. All tokens -/

/-- Every token can be read, and ends before the spelling of the next. -/
def Token.FormedAll : List Token → Prop
  | [] => True
  | token :: tokens =>
    token.Formed ∧ token.EndsBefore (tokens.flatMap Token.text) ∧ FormedAll tokens

theorem Token.Formed.text_ne_nil {token : Token} (h : token.Formed) : token.text ≠ [] := by
  cases token with
  | charData value => exact h.1
  | verbatim value =>
    rcases h with ⟨body, rfl, -⟩ | ⟨body, rfl, -⟩ | ⟨⟨target, body, rfl, -⟩, -⟩
    · exact List.cons_ne_nil _ _
    · exact List.cons_ne_nil _ _
    · exact List.cons_ne_nil _ _
  | startTag tag => exact List.cons_ne_nil _ _
  | endTag tag => exact List.cons_ne_nil _ _

namespace Body

theorem read_cons_iff {cs : List Char} {token : Token} {tokens : List Token}
    {fault? : Option (Fault (List Char))} :
    read cs = ⟨token :: tokens, fault?⟩ ↔
      cs ≠ [] ∧ ∃ rest, Token.first cs = .ok (token, rest) ∧ read rest = ⟨tokens, fault?⟩ := by
  cases cs with
  | nil => simp [read]
  | cons c cs =>
    rw [read]
    rcases hfirst : Token.first (c :: cs) with fault | ⟨token', rest⟩
    · simp
    · simp only [Body.mk.injEq, List.cons.injEq, and_assoc]
      refine ⟨?_, ?_⟩
      · intro h
        obtain ⟨rfl, rfl, rfl⟩ := h
        exact ⟨List.cons_ne_nil _ _, rest, rfl, rfl⟩
      · intro h
        obtain ⟨-, rest', h, hread⟩ := h
        cases h
        rw [hread]
        exact ⟨rfl, rfl, rfl⟩

/-- After some of its tokens a body goes on with the others. -/
theorem read_append {cs : List Char} {front back : List Token}
    {fault? : Option (Fault (List Char))} (h : read cs = ⟨front ++ back, fault?⟩) :
    ∃ rest, cs = front.flatMap Token.text ++ rest ∧ read rest = ⟨back, fault?⟩ := by
  induction front generalizing cs with
  | nil => exact ⟨cs, rfl, h⟩
  | cons token front ih =>
    obtain ⟨-, mid, hfirst, hread⟩ := read_cons_iff.1 h
    obtain ⟨rest, rfl, hrest⟩ := ih hread
    exact ⟨rest, by rw [← Token.text_of_first hfirst, List.flatMap_cons, List.append_assoc], hrest⟩

/-- Every token of a body can be read, also where a fault follows. -/
theorem formed_of_mem {cs : List Char} {token : Token} (h : token ∈ (read cs).tokens) :
    token.Formed := by
  obtain ⟨front, back, htokens⟩ := List.append_of_mem h
  have hbody : read cs = ⟨front ++ token :: back, (read cs).fault?⟩ := by rw [← htokens]
  obtain ⟨rest, -, hrest⟩ := read_append hbody
  obtain ⟨hne, _, hfirst, -⟩ := read_cons_iff.1 hrest
  exact ((Token.first_eq_ok hne).1 hfirst).1

/-- **A body is read to its end as the tokens that it spells, and as no others.** -/
theorem read_eq_iff {cs : List Char} {tokens : List Token} :
    read cs = ⟨tokens, none⟩ ↔ Token.FormedAll tokens ∧ cs = tokens.flatMap Token.text := by
  induction tokens generalizing cs with
  | nil =>
    refine ⟨?_, ?_⟩
    · intro h
      have hfault : (read cs).fault? = none := by rw [h]
      have hcs := text_of_read hfault
      rw [h] at hcs
      exact ⟨trivial, hcs.symm⟩
    · intro h
      obtain ⟨-, rfl⟩ := h
      rw [List.flatMap_nil, read]
  | cons token tokens ih =>
    rw [read_cons_iff]
    refine ⟨?_, ?_⟩
    · intro h
      obtain ⟨hne, rest, hfirst, hread⟩ := h
      obtain ⟨htoken, rfl, hends⟩ := (Token.first_eq_ok hne).1 hfirst
      obtain ⟨hformed, rfl⟩ := ih.1 hread
      exact ⟨⟨htoken, hends, hformed⟩, rfl⟩
    · intro h
      obtain ⟨⟨htoken, hends, hformed⟩, rfl⟩ := h
      have hne : token.text ++ tokens.flatMap Token.text ≠ [] :=
        List.append_ne_nil_of_left_ne_nil htoken.text_ne_nil _
      exact ⟨hne, _, (Token.first_eq_ok hne).2 ⟨htoken, rfl, hends⟩, ih.2 ⟨hformed, rfl⟩⟩

/-- A start tag that the input ends in is the last token, and no fault follows it. -/
theorem nil_of_cut {cs : List Char} {front back : List Token} {tag : StartTag}
    {fault? : Option (Fault (List Char))} (h : read cs = ⟨front ++ .startTag tag :: back, fault?⟩)
    (hcut : tag.inside.ending = .cut) : back = [] ∧ fault? = none := by
  obtain ⟨rest, -, hrest⟩ := read_append h
  obtain ⟨hne, mid, hfirst, hread⟩ := read_cons_iff.1 hrest
  obtain ⟨-, -, hends⟩ := (Token.first_eq_ok hne).1 hfirst
  rw [hends hcut, read] at hread
  cases hread
  exact ⟨rfl, rfl⟩

end Body

end TalMarkup
