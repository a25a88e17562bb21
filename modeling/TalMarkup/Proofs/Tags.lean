import TalMarkup.Markup.Tag
import TalMarkup.Proofs.Scanning

/-!
# Tags that can be read

A `StartTag` is any value of its fields. One that is `Formed` is spelled as markup wants it: names
made of name characters, spaces in front of every attribute, a quote mark that its value does not
hold. This file shows that reading and spelling are inverse to each other on formed tags:

* `qname_eq_ok`, `writtenAttribute_eq_ok`, `tagStep_eq_ok`, `endTag_eq_ok`: what is read off the front
  of a text is formed and spelled there, and whatever is formed and spelled there is read;
* **`StartTag.read_eq_ok`**: the same for a whole start tag. A tag that is cut by the end of the input
  has nothing after it.
-/

namespace TalMarkup

/-! ## 1. Names -/

/-- A part of a name: it starts as names do, and has no colon. -/
def IsNamePart (part : List Char) : Prop :=
  nextIs isNameStart part = true ∧ (∀ c ∈ part, isNameChar c = true) ∧ ':' ∉ part

instance (part : List Char) : Decidable (IsNamePart part) :=
  have : Decidable (∀ c ∈ part, isNameChar c = true) := List.decidableBAll _ part
  inferInstanceAs (Decidable (_ ∧ _ ∧ _))

namespace QName

/-- The name may stand in a tag. Its qualifier may be empty. -/
def Formed (name : QName) : Prop :=
  IsNamePart name.localPart ∧ ∀ qualifier ∈ name.qualifier?, qualifier = [] ∨ IsNamePart qualifier

theorem Formed.text_isNameChar {name : QName} (h : name.Formed) :
    ∀ c ∈ name.text, isNameChar c = true := by
  obtain ⟨hlocal, hqualifier⟩ := h
  intro c hc
  rcases name with ⟨_ | qualifier, localPart⟩
  · exact hlocal.2.1 c hc
  · rcases List.mem_append.1 hc with hc | hc
    · rcases hqualifier qualifier rfl with rfl | hq
      · exact absurd hc List.not_mem_nil
      · exact hq.2.1 c hc
    · rcases List.mem_cons.1 hc with rfl | hc
      · decide
      · exact hlocal.2.1 c hc

theorem Formed.nextIs_text {name : QName} (h : name.Formed) (rest : List Char) :
    nextIs isNameChar (name.text ++ rest) = true := by
  have hne : name.text ≠ [] := by
    rcases name with ⟨_ | qualifier, localPart⟩
    · intro hnil
      have hstart := h.1.1
      rw [show localPart = [] from hnil] at hstart
      cases hstart
    · simp [text]
  rw [nextIs_append_of_ne_nil _ hne]
  rcases hspelling : name.text with _ | ⟨c, cs⟩
  · exact absurd hspelling hne
  · exact h.text_isNameChar c (by rw [hspelling]; exact List.mem_cons_self)

/-- **A spelling made of name characters is read exactly as the name that it spells.** -/
theorem ofText?_eq_some_iff {spelling : List Char} (hchars : ∀ c ∈ spelling, isNameChar c = true)
    {name : QName} : ofText? spelling = some name ↔ name.Formed ∧ name.text = spelling := by
  refine ⟨?_, ?_⟩
  · intro h
    refine ⟨?_, text_of_ofText? h⟩
    unfold ofText? at h
    rcases hsplit : splitColon? spelling with _ | ⟨qualifier, localPart⟩
    · have hcolon := splitColon?_eq_none_iff.1 hsplit
      simp only [hsplit] at h
      split at h
      · rename_i hstart
        cases h
        exact ⟨⟨hstart, hchars, hcolon⟩, fun _ hq => by cases hq⟩
      · cases h
    · obtain ⟨rfl, hcolon⟩ := splitColon?_eq_some_iff.1 hsplit
      simp only [hsplit] at h
      split at h
      · rename_i htest
        cases h
        simp only [Bool.and_eq_true, Bool.or_eq_true, List.isEmpty_iff, Bool.not_eq_true',
          List.contains_eq_mem, decide_eq_false_iff_not] at htest
        obtain ⟨⟨hq, hl⟩, hlcolon⟩ := htest
        refine ⟨⟨hl, fun c hc => hchars c ?_, hlcolon⟩, fun q hqualifier => ?_⟩
        · exact List.mem_append_right _ (List.mem_cons_of_mem _ hc)
        · cases hqualifier
          exact hq.imp id fun hstart =>
            ⟨hstart, fun c hc => hchars c (List.mem_append_left _ hc), hcolon⟩
      · cases h
  · intro h
    obtain ⟨⟨⟨hl, -, hlcolon⟩, hqualifier⟩, rfl⟩ := h
    rcases name with ⟨_ | qualifier, localPart⟩
    · have hsplit : splitColon? localPart = none := splitColon?_eq_none_iff.2 hlcolon
      simp only [ofText?, text, hsplit]
      exact if_pos hl
    · have hq := hqualifier qualifier rfl
      have hcolon : ':' ∉ qualifier := by
        rcases hq with rfl | hq
        · exact List.not_mem_nil
        · exact hq.2.2
      have hsplit : splitColon? (qualifier ++ ':' :: localPart) = some (qualifier, localPart) :=
        splitColon?_eq_some_iff.2 ⟨rfl, hcolon⟩
      simp only [ofText?, text, hsplit]
      refine if_pos ?_
      simp only [Bool.and_eq_true, Bool.or_eq_true, List.isEmpty_iff, Bool.not_eq_true',
        List.contains_eq_mem, decide_eq_false_iff_not]
      exact ⟨⟨hq.imp id fun hq => hq.1, hl⟩, hlcolon⟩

end QName

namespace Scan

theorem qname_eq_ok {cs rest : List Char} {name : QName} :
    qname cs = .ok (name, rest) ↔
      name.Formed ∧ cs = name.text ++ rest ∧ nextIs isNameChar rest = false := by
  refine ⟨?_, ?_⟩
  · intro h
    obtain ⟨spelling, mid, h₁, h₂⟩ := bind_eq_ok.1 h
    obtain ⟨hcs, hchars, hnext⟩ := span_eq_ok.1 h₁
    rcases hname : QName.ofText? spelling with _ | name'
    · simp only [hname] at h₂
      cases h₂
    · simp only [hname] at h₂
      cases h₂
      obtain ⟨hformed, rfl⟩ := (QName.ofText?_eq_some_iff hchars).1 hname
      exact ⟨hformed, hcs, hnext⟩
  · intro h
    obtain ⟨hformed, rfl, hnext⟩ := h
    have hchars := hformed.text_isNameChar
    have hspan : span isNameChar (name.text ++ rest) = .ok (name.text, rest) :=
      span_eq_ok.2 ⟨rfl, hchars, hnext⟩
    refine bind_eq_ok.2 ⟨name.text, rest, hspan, ?_⟩
    simp only [(QName.ofText?_eq_some_iff hchars).2 ⟨hformed, rfl⟩]
    rfl

theorem equals_eq_ok {cs rest before after : List Char} :
    equals cs = .ok ((before, after), rest) ↔
      cs = before ++ '=' :: (after ++ rest) ∧ IsGap before ∧ IsGap after ∧
        nextIs isSpace rest = false := by
  refine ⟨?_, ?_⟩
  · intro h
    obtain ⟨before', m₁, h₁, h⟩ := bind_eq_ok.1 h
    obtain ⟨_, m₂, h₂, h⟩ := bind_eq_ok.1 h
    obtain ⟨after', m₃, h₃, h⟩ := bind_eq_ok.1 h
    cases h
    obtain ⟨rfl, hbefore, -⟩ := span_eq_ok.1 h₁
    obtain ⟨rfl, hafter, hnext⟩ := span_eq_ok.1 h₃
    rw [char_eq_ok.1 h₂]
    exact ⟨rfl, hbefore, hafter, hnext⟩
  · intro h
    obtain ⟨rfl, hbefore, hafter, hnext⟩ := h
    have hfirst : spaces (before ++ '=' :: (after ++ rest)) = .ok (before, '=' :: (after ++ rest)) :=
      span_eq_ok.2 ⟨rfl, hbefore, rfl⟩
    have hmark : char '=' ('=' :: (after ++ rest)) = .ok ((), after ++ rest) := char_eq_ok.2 rfl
    have hsecond : spaces (after ++ rest) = .ok (after, rest) := span_eq_ok.2 ⟨rfl, hafter, hnext⟩
    exact bind_eq_ok.2 ⟨_, _, hfirst, bind_eq_ok.2 ⟨(), _, hmark, bind_eq_ok.2 ⟨_, _, hsecond, rfl⟩⟩⟩

end Scan

/-! ## 2. Attributes -/

/-- The value may stand between two of these quote marks. -/
def IsValue (mark : Char) (value : List Char) : Prop :=
  (mark = '"' ∨ mark = '\x27') ∧ IsXmlText value ∧ mark ∉ value ∧ '<' ∉ value

namespace WrittenAttribute

/-- The attribute may stand in a tag where `gap` is in front of it. -/
def FormedAfter (gap : List Char) (a : WrittenAttribute) : Prop :=
  a.gap = gap ∧ a.name.Formed ∧ IsGap a.beforeEquals ∧ IsGap a.afterEquals ∧ IsValue a.mark a.value

/-- The attribute may stand in a tag: there is a space in front of it at least. -/
def Formed (a : WrittenAttribute) : Prop := a.gap ≠ [] ∧ IsGap a.gap ∧ a.FormedAfter a.gap

/-- The spelling of an attribute without the spaces in front of it. -/
def afterGap (a : WrittenAttribute) : List Char :=
  a.name.text ++ (a.beforeEquals ++ '=' :: (a.afterEquals ++ a.mark :: (a.value ++ [a.mark])))

theorem text_eq (a : WrittenAttribute) : a.text = a.gap ++ a.afterGap := by simp [text, afterGap]

theorem FormedAfter.nextIs_afterGap {gap : List Char} {a : WrittenAttribute} (h : a.FormedAfter gap)
    (rest : List Char) : nextIs isNameChar (a.afterGap ++ rest) = true := by
  rw [afterGap, List.append_assoc]
  exact h.2.1.nextIs_text _

end WrittenAttribute

namespace Scan

theorem value_eq_ok {mark : Char} (hmark : mark = '"' ∨ mark = '\x27') {cs rest value : List Char} :
    (∃ mid u, upTo (nextIs fun c => c == mark || c == '<') cs = .ok (value, mid) ∧
        char mark mid = .ok (u, rest)) ↔
      IsValue mark value ∧ cs = value ++ mark :: rest := by
  refine ⟨?_, ?_⟩
  · intro h
    obtain ⟨mid, u, h₁, h₂⟩ := h
    obtain ⟨hcut, hxml⟩ := upTo_eq_ok.1 h₁
    rw [char_eq_ok.1 h₂] at hcut
    obtain ⟨hcs, hvalue, -⟩ := cut_nextIs_eq_iff.1 hcut
    refine ⟨⟨hmark, hxml, fun h => ?_, fun h => ?_⟩, hcs⟩
    · simpa using hvalue _ h
    · simpa using hvalue _ h
  · intro h
    obtain ⟨⟨-, hxml, hnot, hlt⟩, rfl⟩ := h
    refine ⟨mark :: rest, (), upTo_eq_ok.2 ⟨cut_nextIs_eq_iff.2 ⟨rfl, fun c hc => ?_, Or.inr ?_⟩, hxml⟩,
      char_eq_ok.2 rfl⟩
    · have hcm : c ≠ mark := fun h => hnot (h ▸ hc)
      have hcl : c ≠ '<' := fun h => hlt (h ▸ hc)
      simp [hcm, hcl]
    · simp [nextIs]

/-- **An attribute is read exactly where a formed one is spelled.** -/
theorem writtenAttribute_eq_ok {gap cs rest : List Char} {written : WrittenAttribute} :
    writtenAttribute gap cs = .ok (written, rest) ↔
      written.FormedAfter gap ∧ gap ++ cs = written.text ++ rest := by
  refine ⟨?_, ?_⟩
  · intro h
    refine ⟨?_, (text_of_writtenAttribute h).symm⟩
    obtain ⟨name, m₁, h₁, h⟩ := bind_eq_ok.1 h
    obtain ⟨⟨before, after⟩, m₂, h₂, h⟩ := bind_eq_ok.1 h
    obtain ⟨mark, m₃, h₃, h⟩ := bind_eq_ok.1 h
    obtain ⟨value, m₄, h₄, h⟩ := bind_eq_ok.1 h
    obtain ⟨u, m₅, h₅, h⟩ := bind_eq_ok.1 h
    cases h
    obtain ⟨-, hbefore, hafter, -⟩ := equals_eq_ok.1 h₂
    have hmark := (quote_eq_ok.1 h₃).2
    exact ⟨rfl, (qname_eq_ok.1 h₁).1, hbefore, hafter,
      ((value_eq_ok hmark).1 ⟨m₄, u, h₄, h₅⟩).1⟩
  · rcases written with ⟨gap', name, before, after, mark, value⟩
    intro h
    obtain ⟨⟨rfl, hname, hbefore, hafter, hvalue⟩, hcs⟩ := h
    rw [WrittenAttribute.text_eq, List.append_assoc] at hcs
    have hcs := List.append_cancel_left hcs
    simp only [WrittenAttribute.afterGap, List.append_assoc, List.cons_append,
      List.nil_append] at hcs
    subst hcs
    have hmark := hvalue.1
    have hread := (value_eq_ok hmark).2 ⟨hvalue, (rfl : value ++ mark :: rest = _)⟩
    obtain ⟨m₄, u, h₄, h₅⟩ := hread
    -- neither a space nor the equals sign goes on with the name
    have hnext : nextIs isNameChar (before ++ '=' :: (after ++ mark :: (value ++ mark :: rest))) = false := by
      cases before with
      | nil => rfl
      | cons c before => exact isNameChar_of_isSpace (hbefore c List.mem_cons_self)
    have hquote : nextIs isSpace (mark :: (value ++ mark :: rest)) = false := by
      rcases hmark with rfl | rfl <;> rfl
    have hreadName := qname_eq_ok.2 ⟨hname, rfl, hnext⟩
    have hreadEquals := equals_eq_ok.2 ⟨rfl, hbefore, hafter, hquote⟩
    have hreadMark := quote_eq_ok.2 ⟨(rfl : mark :: (value ++ mark :: rest) = _), hmark⟩
    exact bind_eq_ok.2 ⟨name, _, hreadName, bind_eq_ok.2 ⟨(before, after), _, hreadEquals,
      bind_eq_ok.2 ⟨mark, _, hreadMark, bind_eq_ok.2 ⟨value, m₄, h₄, bind_eq_ok.2 ⟨u, rest, h₅, rfl⟩⟩⟩⟩⟩

end Scan

/-! ## 3. One step inside a start tag -/

/-- The step may be taken inside a tag. -/
def TagStep.Formed : TagStep → Prop
  | .attr written => written.Formed
  | .ending gap tagEnding => IsGap gap ∧ tagEnding ≠ .cut

namespace Scan

theorem startsWith_cons {x c : Char} {mark : String} (hmark : mark.toList = [x]) (cs : List Char) :
    startsWith mark (c :: cs) = (x == c) := by
  simp [startsWith, hmark, List.isPrefixOf]

/-- A text that goes on with a name does not start with a mark that is none. -/
theorem startsWith_of_nextIs {x : Char} {mark : String} (hmark : mark.toList = [x])
    (hx : isNameChar x = false) {cs : List Char} (h : nextIs isNameChar cs = true) :
    ¬ startsWith mark cs = true := by
  cases cs with
  | nil => cases h
  | cons c cs =>
    rw [startsWith_cons hmark, beq_iff_eq]
    exact (ne_of_class h hx).symm

/-- **A step is taken exactly where a formed one is spelled.** -/
theorem tagStep_eq_ok {cs rest : List Char} {step : TagStep} :
    tagStep cs = .ok (step, rest) ↔ step.Formed ∧ cs = stepText step ++ rest := by
  refine ⟨?_, ?_⟩
  · intro h
    refine ⟨?_, (text_of_tagStep h).symm⟩
    obtain ⟨gap, m₁, h₁, h⟩ := bind_eq_ok.1 h
    obtain ⟨-, hgap, -⟩ := span_eq_ok.1 h₁
    obtain ⟨unread, m₂, h₂, h⟩ := bind_eq_ok.1 h
    cases h₂
    split at h
    · obtain ⟨_, m₃, h₃, h⟩ := bind_eq_ok.1 h
      cases h
      exact ⟨hgap, nofun⟩
    · split at h
      · obtain ⟨_, m₃, h₃, h⟩ := bind_eq_ok.1 h
        obtain ⟨_, m₄, h₄, h⟩ := bind_eq_ok.1 h
        cases h
        exact ⟨hgap, nofun⟩
      · split at h
        · cases h
        · rename_i hsep
          obtain ⟨written, hwritten, rfl⟩ := map_eq_ok.1 h
          have hafter := (writtenAttribute_eq_ok.1 hwritten).1
          refine ⟨fun hnil => ?_, hafter.1 ▸ hgap, by rw [hafter.1]; exact hafter⟩
          -- without a space in front only the end of the input is left, where no name stands
          have hnil : gap = [] := hafter.1 ▸ hnil
          cases hm : m₁ with
          | nil =>
            obtain ⟨name, m₃, hname, -⟩ := bind_eq_ok.1 hwritten
            obtain ⟨hformed, hspelled, -⟩ := qname_eq_ok.1 hname
            have hnext := hformed.nextIs_text m₃
            rw [← hspelled, hm] at hnext
            cases hnext
          | cons c more => exact hsep c more hnil hm
  · intro h
    obtain ⟨hformed, rfl⟩ := h
    cases step with
    | attr written =>
      obtain ⟨hne, hgap, hafter⟩ := hformed
      have hnext := hafter.nextIs_afterGap rest
      have hspace : nextIs isSpace (written.afterGap ++ rest) = false :=
        nextIs_eq_false_of_nextIs (fun c hc => isSpace_of_isNameChar hc) hnext
      rw [stepText, written.text_eq, List.append_assoc]
      have hspaces := span_eq_ok.2 ⟨rfl, hgap, hspace⟩
      refine bind_eq_ok.2 ⟨written.gap, _, hspaces, bind_eq_ok.2 ⟨_, _, rfl, ?_⟩⟩
      rw [if_neg (startsWith_of_nextIs (x := '>') rfl rfl hnext),
        if_neg (startsWith_of_nextIs (x := '/') rfl rfl hnext)]
      have hwritten : writtenAttribute written.gap (written.afterGap ++ rest) = .ok (written, rest) :=
        writtenAttribute_eq_ok.2 ⟨hafter, by rw [written.text_eq, List.append_assoc]⟩
      obtain ⟨g, gap, hg⟩ := List.exists_cons_of_ne_nil hne
      rw [hg] at hwritten ⊢
      exact map_eq_ok.2 ⟨written, hwritten, rfl⟩
    | ending gap tagEnding =>
      obtain ⟨hgap, hcut⟩ := hformed
      rw [stepText, List.append_assoc]
      cases tagEnding with
      | opening =>
        refine bind_eq_ok.2 ⟨gap, _, span_eq_ok.2 ⟨rfl, hgap, rfl⟩, bind_eq_ok.2 ⟨_, _, rfl, ?_⟩⟩
        have hmark : startsWith ">" (TagEnding.opening.text ++ rest) = true :=
          startsWith_iff.2 ⟨rest, rfl⟩
        rw [if_pos hmark]
        exact bind_eq_ok.2 ⟨(), rest, char_eq_ok.2 rfl, rfl⟩
      | selfClosing =>
        refine bind_eq_ok.2 ⟨gap, _, span_eq_ok.2 ⟨rfl, hgap, rfl⟩, bind_eq_ok.2 ⟨_, _, rfl, ?_⟩⟩
        have hother : ¬ startsWith ">" (TagEnding.selfClosing.text ++ rest) = true := by
          rw [TagEnding.text, List.cons_append, startsWith_cons rfl]
          decide
        have hmark : startsWith "/" (TagEnding.selfClosing.text ++ rest) = true :=
          startsWith_iff.2 ⟨'>' :: rest, rfl⟩
        rw [if_neg hother, if_pos hmark]
        exact bind_eq_ok.2 ⟨(), _, char_eq_ok.2 rfl,
          bind_eq_ok.2 ⟨(), rest, char_eq_ok.2 rfl, rfl⟩⟩
      | cut => exact absurd rfl hcut

end Scan

/-! ## 4. Whole tags -/

namespace TagInside

/-- What may follow the name of a start tag. In front of the end of the input there are no spaces. -/
def Formed (inside : TagInside) : Prop :=
  (∀ a ∈ inside.attributes, a.Formed) ∧ IsGap inside.gap ∧ (inside.ending = .cut → inside.gap = [])

theorem text_cons (written : WrittenAttribute) (inside : TagInside) :
    ({ inside with attributes := written :: inside.attributes } : TagInside).text =
      written.text ++ inside.text := by
  simp [text]

theorem ne_nil_of_tagStep {cs rest : List Char} {step : TagStep}
    (h : Scan.tagStep cs = .ok (step, rest)) : cs ≠ [] := by
  have hlength := (Scan.advances_tagStep h).2
  rintro rfl
  exact absurd hlength (Nat.not_lt_zero _)

theorem read_of_ending {cs rest gap : List Char} {tagEnding : TagEnding}
    (h : Scan.tagStep cs = .ok (.ending gap tagEnding, rest)) :
    read cs = .ok (⟨[], gap, tagEnding⟩, rest) := by
  have hstep : Scan.within .attr Scan.tagStep cs = .ok _ := Scan.within_eq_ok.2 h
  rw [read, if_neg (ne_nil_of_tagStep h)]
  split <;> simp_all

theorem read_of_attr {cs mid rest : List Char} {written : WrittenAttribute} {inside : TagInside}
    (h : Scan.tagStep cs = .ok (.attr written, mid)) (hread : read mid = .ok (inside, rest)) :
    read cs = .ok ({ inside with attributes := written :: inside.attributes }, rest) := by
  have hstep : Scan.within .attr Scan.tagStep cs = .ok _ := Scan.within_eq_ok.2 h
  rw [read, if_neg (ne_nil_of_tagStep h)]
  split <;> simp_all

/-- **What follows the name of a start tag is read exactly where it is formed and spelled.** -/
theorem read_eq_ok {cs rest : List Char} {inside : TagInside} :
    read cs = .ok (inside, rest) ↔
      inside.Formed ∧ cs = inside.text ++ rest ∧ (inside.ending = .cut → rest = []) := by
  refine ⟨?_, ?_⟩
  · intro h
    suffices hformed : inside.Formed ∧ (inside.ending = .cut → rest = []) from
      ⟨hformed.1, (text_of_read h).symm, hformed.2⟩
    fun_induction read cs generalizing inside rest with
    | case1 =>
      cases h
      exact ⟨⟨List.forall_mem_nil _, isGap_nil, fun _ => rfl⟩, fun _ => rfl⟩
    | case2 => cases h
    | case3 cs _ gap tagEnding mid hstep =>
      cases h
      obtain ⟨hgap, hcut⟩ := (Scan.tagStep_eq_ok.1 (Scan.within_eq_ok.1 hstep)).1
      exact ⟨⟨List.forall_mem_nil _, hgap, fun h => absurd h hcut⟩, fun h => absurd h hcut⟩
    | case4 => cases h
    | case5 cs _ written mid hstep inside' rest' hread ih =>
      cases h
      obtain ⟨⟨hattributes, hgap, hcut⟩, hrest⟩ := ih hread
      have hwritten := (Scan.tagStep_eq_ok.1 (Scan.within_eq_ok.1 hstep)).1
      exact ⟨⟨List.forall_mem_cons.2 ⟨hwritten, hattributes⟩, hgap, hcut⟩, hrest⟩
  · intro h
    obtain ⟨hformed, rfl, hrest⟩ := h
    rcases inside with ⟨attributes, gap, tagEnding⟩
    induction attributes with
    | nil =>
      obtain ⟨-, hgap, hcut⟩ := hformed
      by_cases hending : tagEnding = .cut
      · obtain rfl : gap = [] := hcut hending
        obtain rfl : rest = [] := hrest hending
        subst hending
        rw [read, if_pos (by rfl)]
      · exact read_of_ending (Scan.tagStep_eq_ok.2 ⟨⟨hgap, hending⟩, by simp [text, Scan.stepText]⟩)
    | cons written attributes ih =>
      obtain ⟨hattributes, hgap, hcut⟩ := hformed
      obtain ⟨hwritten, hattributes⟩ := List.forall_mem_cons.1 hattributes
      have hstep : Scan.tagStep (written.text ++ ((⟨attributes, gap, tagEnding⟩ : TagInside).text ++ rest)) =
          .ok (.attr written, (⟨attributes, gap, tagEnding⟩ : TagInside).text ++ rest) :=
        Scan.tagStep_eq_ok.2 ⟨hwritten, rfl⟩
      rw [text_cons written ⟨attributes, gap, tagEnding⟩, List.append_assoc]
      exact read_of_attr hstep (ih ⟨hattributes, hgap, hcut⟩ hrest)

theorem Formed.nextIs_text {inside : TagInside} (h : inside.Formed) {rest : List Char}
    (hrest : inside.ending = .cut → rest = []) : nextIs isNameChar (inside.text ++ rest) = false := by
  rcases inside with ⟨attributes, gap, tagEnding⟩
  cases attributes with
  | nil =>
    obtain ⟨-, hgap, hcut⟩ := h
    cases gap with
    | nil =>
      cases tagEnding with
      | opening => rfl
      | selfClosing => rfl
      | cut => rw [hrest rfl]; rfl
    | cons c gap => exact isNameChar_of_isSpace (hgap c List.mem_cons_self)
  | cons written attributes =>
    obtain ⟨hne, hgap, -⟩ := h.1 written List.mem_cons_self
    obtain ⟨c, gap', hg⟩ := List.exists_cons_of_ne_nil hne
    rw [text_cons written ⟨attributes, gap, tagEnding⟩, written.text_eq, hg]
    exact isNameChar_of_isSpace (hgap c (by rw [hg]; exact List.mem_cons_self))

end TagInside

/-- The tag can be read. -/
def StartTag.Formed (tag : StartTag) : Prop := tag.name.Formed ∧ tag.inside.Formed

/-- The tag can be read. -/
def EndTag.Formed (tag : EndTag) : Prop := tag.name.Formed ∧ IsGap tag.gap

theorem Scan.tagOpening_eq_ok {cs rest : List Char} {name : QName} :
    tagOpening cs = .ok (name, rest) ↔
      name.Formed ∧ cs = '<' :: (name.text ++ rest) ∧ nextIs isNameChar rest = false := by
  refine ⟨?_, ?_⟩
  · intro h
    obtain ⟨_, mid, h₁, h₂⟩ := bind_eq_ok.1 h
    obtain ⟨hformed, rfl, hnext⟩ := qname_eq_ok.1 h₂
    exact ⟨hformed, literal_eq_ok.1 h₁, hnext⟩
  · intro h
    obtain ⟨hformed, rfl, hnext⟩ := h
    have hmark : literal "<" ('<' :: (name.text ++ rest)) = .ok ((), name.text ++ rest) := literal_eq_ok.2 rfl
    have hname : qname (name.text ++ rest) = .ok (name, rest) := qname_eq_ok.2 ⟨hformed, rfl, hnext⟩
    exact bind_eq_ok.2 ⟨(), _, hmark, hname⟩

/-- **A start tag is read exactly where a formed one is spelled.** -/
theorem StartTag.read_eq_ok {cs rest : List Char} {tag : StartTag} :
    StartTag.read cs = .ok (tag, rest) ↔
      tag.Formed ∧ cs = tag.text ++ rest ∧ (tag.inside.ending = .cut → rest = []) := by
  refine ⟨?_, ?_⟩
  · intro h
    suffices hformed : tag.Formed ∧ (tag.inside.ending = .cut → rest = []) from
      ⟨hformed.1, (StartTag.text_of_read h).symm, hformed.2⟩
    unfold StartTag.read at h
    split at h
    · cases h
    · rename_i name mid hname
      split at h
      · cases h
      · rename_i inside rest' hinside
        cases h
        have hname := (Scan.tagOpening_eq_ok.1 (Scan.within_eq_ok.1 hname)).1
        obtain ⟨hformed, -, hrest⟩ := TagInside.read_eq_ok.1 hinside
        exact ⟨⟨hname, hformed⟩, hrest⟩
  · intro h
    obtain ⟨⟨hname, hinside⟩, rfl, hrest⟩ := h
    have hopening : Scan.tagOpening (tag.text ++ rest) = .ok (tag.name, tag.inside.text ++ rest) :=
      Scan.tagOpening_eq_ok.2 ⟨hname, by simp [StartTag.text], hinside.nextIs_text hrest⟩
    have hread := TagInside.read_eq_ok.2 ⟨hinside, rfl, hrest⟩
    have hwithin : Scan.within .element Scan.tagOpening (tag.text ++ rest) = .ok _ :=
      Scan.within_eq_ok.2 hopening
    simp only [StartTag.read, hwithin, hread]

/-- **A closing tag is read exactly where a formed one is spelled.** -/
theorem Scan.endTag_eq_ok {cs rest : List Char} {tag : EndTag} :
    endTag cs = .ok (tag, rest) ↔ tag.Formed ∧ cs = tag.text ++ rest := by
  refine ⟨?_, ?_⟩
  · intro h
    refine ⟨?_, (text_of_endTag h).symm⟩
    obtain ⟨_, m₁, h₁, h⟩ := bind_eq_ok.1 h
    obtain ⟨name, m₂, h₂, h⟩ := bind_eq_ok.1 h
    obtain ⟨gap, m₃, h₃, h⟩ := bind_eq_ok.1 h
    obtain ⟨_, m₄, h₄, h⟩ := bind_eq_ok.1 h
    cases h
    exact ⟨(qname_eq_ok.1 h₂).1, (span_eq_ok.1 h₃).2.1⟩
  · intro h
    obtain ⟨⟨hname, hgap⟩, rfl⟩ := h
    have hnext : nextIs isNameChar (tag.gap ++ '>' :: rest) = false := by
      rcases hg : tag.gap with _ | ⟨c, gap⟩
      · rfl
      · exact isNameChar_of_isSpace (hgap c (by rw [hg]; exact List.mem_cons_self))
    have htext : tag.text ++ rest = "</".toList ++ (tag.name.text ++ (tag.gap ++ '>' :: rest)) := by
      simp [EndTag.text]
    rw [htext]
    have hreadName := qname_eq_ok.2 ⟨hname, rfl, hnext⟩
    have hreadGap : spaces (tag.gap ++ '>' :: rest) = .ok (tag.gap, '>' :: rest) :=
      span_eq_ok.2 ⟨rfl, hgap, rfl⟩
    have hreadEnd : char '>' ('>' :: rest) = .ok ((), rest) := char_eq_ok.2 rfl
    exact bind_eq_ok.2 ⟨(), _, literal_eq_ok.2 rfl, bind_eq_ok.2 ⟨tag.name, _, hreadName,
      bind_eq_ok.2 ⟨tag.gap, _, hreadGap, bind_eq_ok.2 ⟨(), rest, hreadEnd, rfl⟩⟩⟩⟩

end TalMarkup
