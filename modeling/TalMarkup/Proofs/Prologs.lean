import TalMarkup.Markup.Prolog
import TalMarkup.Proofs.Tokens

/-!
# What a prolog goes on with

`Prolog.next` tries one mark after the other at the front of the unread text. `Prolog.Finds` says what it
comes to, one case for each thing that may stand there, and **`Prolog.next_eq_ok_iff`** that it is this and
nothing else. Facts about prologs are proved by these cases.

A source that starts with a tag has no prolog (`Prolog.read_of_startsWithTag`).
-/

namespace TalMarkup

namespace Prolog

/-! ## 1. What stands at the front -/

/-- The name of a start tag stands at the front, whole. -/
def StartsWithTag (cs : List Char) : Prop :=
  ∃ (name : QName) (rest : List Char), name.Formed ∧ cs = '<' :: (name.text ++ rest) ∧
    nextIs isNameChar rest = false

/-- What is found at the front of the text. Nothing that a prolog goes on with is found in front of an
    internal subset that the input ends in, of a declaration, of other markup with a `!` and of text. -/
inductive Finds (doctypeSeen : Bool) (cs : List Char) : Next → Prop
  | doctype {rest} (hmark : startsWith "<!DOCTYPE" cs = true) (hseen : doctypeSeen = false)
      (hread : Doctype.read cs = .ok (some rest)) :
      Finds doctypeSeen cs (.item .doctype (readPart cs rest) rest)
  | cutDoctype (hmark : startsWith "<!DOCTYPE" cs = true) (hseen : doctypeSeen = false)
      (hread : Doctype.read cs = .ok none) : Finds doctypeSeen cs .other
  | comment {value rest} (hread : Scan.comment cs = .ok (value, rest)) :
      Finds doctypeSeen cs (.item .comment value rest)
  | instruction {value rest} (hdeclaration : startsWith "<?xml " cs = false)
      (hread : Scan.instruction cs = .ok (value, rest)) : Finds doctypeSeen cs (.item .comment value rest)
  | startTag (h : StartsWithTag cs) : Finds doctypeSeen cs .startTag
  | declaration (hmark : startsWith "<?xml " cs = true) : Finds doctypeSeen cs .other
  | bang (hmark : startsWith "<!" cs = true) (hcomment : startsWith "<!--" cs = false)
      (hdoctype : (startsWith "<!DOCTYPE" cs && !doctypeSeen) = false) : Finds doctypeSeen cs .other
  | text (hlt : startsWith "<" cs = false) : Finds doctypeSeen cs .other

variable {doctypeSeen : Bool} {skipped cs rest text : List Char} {kind : Kind} {found : Next}
  {prolog : Prolog}

/-- Where a name follows a `<`, it decides what is found. -/
theorem next_of_name {c : Char} (hc : isNameChar c = true) (cs : List Char) :
    next doctypeSeen ('<' :: c :: cs) =
      (Scan.within .element Scan.tagOpening ('<' :: c :: cs)).map fun _ => .startTag := by
  have hmarks := Token.startsWith_of_name hc cs
  simp only [List.forall_mem_cons] at hmarks
  obtain ⟨hcomment, -, hdoctype, hbang, hdeclaration, hquestion, -⟩ := hmarks
  have hlt : startsWith "<" ('<' :: c :: cs) = true := rfl
  simp only [next, hcomment, hdoctype, hbang, hdeclaration, hquestion, hlt]
  rcases Scan.within .element Scan.tagOpening ('<' :: c :: cs) with fault | read <;> rfl

theorem finds_of_next (h : next doctypeSeen cs = .ok found) : Finds doctypeSeen cs found := by
  unfold next at h
  split at h
  · rename_i hdoctype
    rw [Bool.and_eq_true, Bool.not_eq_true'] at hdoctype
    split at h <;> cases h
    · rename_i hread
      exact .cutDoctype hdoctype.1 hdoctype.2 hread
    · rename_i hread
      exact .doctype hdoctype.1 hdoctype.2 hread
  · rename_i hdoctype
    split at h
    · split at h <;> cases h
      rename_i hread
      exact .comment (Scan.within_eq_ok.1 hread)
    · rename_i hcomment
      split at h
      · rename_i hother
        cases h
        rcases Bool.or_eq_true_iff.1 hother with hmark | hmark
        · exact .declaration hmark
        · exact .bang hmark (Bool.eq_false_iff.2 hcomment) (Bool.eq_false_iff.2 hdoctype)
      · rename_i hother
        rw [Bool.or_eq_true, not_or] at hother
        split at h
        · split at h <;> cases h
          rename_i hread
          exact .instruction (Bool.eq_false_iff.2 hother.1) (Scan.within_eq_ok.1 hread)
        · split at h
          · split at h <;> cases h
            rename_i read hread
            exact .startTag ⟨read.1, read.2, Scan.tagOpening_eq_ok.1 (Scan.within_eq_ok.1 hread)⟩
          · rename_i hlt
            cases h
            exact .text (Bool.eq_false_iff.2 hlt)

theorem next_of_finds (h : Finds doctypeSeen cs found) : next doctypeSeen cs = .ok found := by
  cases h with
  | doctype hmark hseen hread => rw [next, hmark, hseen, if_pos (by rfl), hread]
  | cutDoctype hmark hseen hread => rw [next, hmark, hseen, if_pos (by rfl), hread]
  | comment hread =>
    have hwithin : Scan.within .comment Scan.comment cs = .ok _ := Scan.within_eq_ok.2 hread
    obtain ⟨⟨body, rfl, -⟩, rfl⟩ := Scan.comment_eq_ok.1 hread
    rw [next, if_neg (by exact Bool.false_ne_true), if_pos (by rfl), hwithin]
  | instruction hdeclaration hread =>
    have hwithin : Scan.within .instruction Scan.instruction cs = .ok _ := Scan.within_eq_ok.2 hread
    obtain ⟨⟨target, body, rfl, -⟩, rfl⟩ := Scan.instruction_eq_ok.1 hread
    rw [next, if_neg (by exact Bool.false_ne_true), if_neg (by exact Bool.false_ne_true), hdeclaration,
      if_neg (by exact Bool.false_ne_true), if_pos (by rfl), hwithin]
  | startTag h =>
    obtain ⟨name, rest, hname, rfl, hrest⟩ := h
    have hopening : Scan.within .element Scan.tagOpening ('<' :: (name.text ++ rest)) = .ok (name, rest) :=
      Scan.within_eq_ok.2 (Scan.tagOpening_eq_ok.2 ⟨hname, rfl, hrest⟩)
    have hnext := hname.nextIs_text rest
    rcases hcs : name.text ++ rest with _ | ⟨c, cs⟩
    · rw [hcs] at hnext
      cases hnext
    · rw [hcs] at hnext hopening
      rw [next_of_name hnext, hopening]
      rfl
  | declaration hmark =>
    obtain ⟨more, rfl⟩ := Scan.startsWith_iff.1 hmark
    rw [next, if_neg (by exact Bool.false_ne_true), if_neg (by exact Bool.false_ne_true), if_pos (by rfl)]
  | bang hmark hcomment hdoctype =>
    rw [next, hdoctype, hcomment, hmark, Bool.or_true]
    rfl
  | text hlt =>
    have hmark : ∀ (mark : String) more, mark.toList = '<' :: more → startsWith mark cs = false := by
      intro mark more hmark
      rw [Bool.eq_false_iff] at hlt ⊢
      exact fun hfront => hlt (Scan.startsWith_iff.2
        (List.IsPrefix.trans ⟨more, hmark.symm⟩ (Scan.startsWith_iff.1 hfront)))
    rw [next, hmark "<!DOCTYPE" _ rfl, hmark "<!--" _ rfl, hmark "<?xml " _ rfl, hmark "<!" _ rfl,
      hmark "<?" _ rfl, hlt]
    rfl

/-- **What stands at the front is found, and nothing else.** -/
theorem next_eq_ok_iff : next doctypeSeen cs = .ok found ↔ Finds doctypeSeen cs found :=
  ⟨finds_of_next, next_of_finds⟩

theorem next_eq_startTag_iff : next doctypeSeen cs = .ok .startTag ↔ StartsWithTag cs := by
  rw [next_eq_ok_iff]
  refine ⟨fun h => ?_, .startTag⟩
  cases h with
  | startTag h => exact h

/-! ## 2. Items and the body -/

theorem readItems_of_startTag (h : next doctypeSeen (cs.dropWhile isSpace) = .ok .startTag) :
    readItems doctypeSeen skipped cs = .ok ⟨[], skipped ++ cs.takeWhile isSpace, cs.dropWhile isSpace⟩ := by
  rw [readItems]
  split <;> simp_all

theorem readItems_of_other (h : next doctypeSeen (cs.dropWhile isSpace) = .ok .other) :
    readItems doctypeSeen skipped cs = .ok ⟨[], [], skipped ++ cs⟩ := by
  rw [readItems]
  split <;> simp_all

theorem readItems_of_item (h : next doctypeSeen (cs.dropWhile isSpace) = .ok (.item kind text rest)) :
    readItems doctypeSeen skipped cs =
      (readItems (doctypeSeen || kind == .doctype) [] rest).map
        (cons ⟨skipped ++ cs.takeWhile isSpace, kind, text⟩) := by
  rw [readItems]
  split <;> simp_all
  rcases readItems (doctypeSeen || kind == .doctype) [] rest <;> rfl

/-- Behind a declaration the items are read. -/
theorem readFrom_of_text (hdeclaration : startsWith "<?xml " cs = true)
    (h : Scan.within .declaration (Scan.text Scan.declaration) cs = .ok (text, rest)) :
    readFrom skipped cs = (readItems false [] rest).map (cons ⟨skipped, .declaration, text⟩) := by
  rw [readFrom, if_pos hdeclaration, h]
  dsimp only
  rcases readItems false [] rest with fault | prolog <;> rfl

theorem StartsWithTag.dropWhile_isSpace (h : StartsWithTag cs) :
    cs.takeWhile isSpace = [] ∧ cs.dropWhile isSpace = cs := by
  obtain ⟨name, rest, -, rfl, -⟩ := h
  exact ⟨rfl, rfl⟩

theorem StartsWithTag.not_declaration (h : StartsWithTag cs) : startsWith "<?xml " cs = false := by
  obtain ⟨name, rest, hname, rfl, -⟩ := h
  have hnext := hname.nextIs_text rest
  rcases hcs : name.text ++ rest with _ | ⟨c, cs⟩
  · rfl
  · rw [hcs] at hnext
    exact Token.startsWith_of_name hnext cs "<?xml " (by simp)

/-- **A source that starts with a tag has no prolog.** -/
theorem read_of_startsWithTag (h : StartsWithTag cs) : read cs = .ok ⟨[], [], cs⟩ := by
  obtain ⟨hgap, hunread⟩ := h.dropWhile_isSpace
  have hnext : next false (cs.dropWhile isSpace) = .ok .startTag := by
    rw [hunread]
    exact next_eq_startTag_iff.2 h
  have hread : readFrom [] cs = .ok ⟨[], [], cs⟩ := by
    rw [readFrom, h.not_declaration, if_neg Bool.false_ne_true, readItems_of_startTag hnext, hgap, hunread]
    rfl
  obtain ⟨name, rest, -, rfl, -⟩ := h
  exact hread

/-- A source that starts with a `<` and a name starts with a tag if its prolog can be read. -/
theorem startsWithTag_of_read {c : Char} (hc : isNameChar c = true)
    (h : read ('<' :: c :: cs) = .ok prolog) : StartsWithTag ('<' :: c :: cs) := by
  have hdeclaration := Token.startsWith_of_name hc cs "<?xml " (by simp)
  have hread : readItems false [] ('<' :: c :: cs) = .ok prolog := by
    rw [read, if_neg (by decide), readFrom, hdeclaration] at h
    exact h
  rcases hopening : Scan.within .element Scan.tagOpening ('<' :: c :: cs) with fault | ⟨name, rest⟩
  · have hnext : next false (('<' :: c :: cs).dropWhile isSpace) = .error fault := by
      show next false ('<' :: c :: cs) = _
      rw [next_of_name hc, hopening]
      rfl
    rw [readItems] at hread
    split at hread <;> simp_all
  · exact ⟨name, rest, Scan.tagOpening_eq_ok.1 (Scan.within_eq_ok.1 hopening)⟩

end Prolog

end TalMarkup
