import TalMarkup.Markup.Tag
import TalMarkup.Markup.Verbatim

/-!
# The tokens of a template's body

After its prolog a template is a sequence of tokens: character data, verbatim markup, start tags and
closing tags. `Token.first` reads one of them; `Body.read` reads all, up to the end of the input or
to the first fault, and comes to an end because every token takes something off the input.
-/

namespace TalMarkup

/-! ## 1. One token -/

/-- A piece of a template's body. -/
inductive Token
  | charData (value : List Char)
  /-- A comment, a processing instruction or a CDATA section. -/
  | verbatim (value : List Char)
  | startTag (tag : StartTag)
  | endTag (tag : EndTag)
deriving DecidableEq

namespace Token

/-- The spelling of a token. -/
def text : Token → List Char
  | .charData value => value
  | .verbatim value => value
  | .startTag tag => tag.text
  | .endTag tag => tag.text

end Token

/-- Reads character data up to the next `<`. The end mark of a CDATA section may not stand in it. -/
def Scan.charData : Scan (List Char) := do
  let value ← upTo (nextIs (· == '<'))
  if holds "]]>" value then throw .sectionEndInText
  else return value

namespace Token

open Scan in
/-- Reads the first token. What starts with `<` and is no construct of a body is unknown: a lone
    `<` at the end, a second XML declaration, a `<!` of any other kind. -/
def first (cs : List Char) : Except (Fault (List Char)) (Token × List Char) :=
  if !startsWith "<" cs then within .text (charData <$> Scan.charData) cs
  else if startsWith "<!--" cs then within .comment (verbatim <$> Scan.comment) cs
  else if startsWith "<![CDATA[" cs then within .cdata (verbatim <$> Scan.cdata) cs
  else if cs = ['<'] || startsWith "<!" cs || startsWith "<?xml " cs then .error (.unknown cs)
  else if startsWith "<?" cs then within .instruction (verbatim <$> Scan.instruction) cs
  else if startsWith "</" cs then within .element (endTag <$> Scan.endTag) cs
  else
    match StartTag.read cs with
    | .error fault => .error fault
    | .ok (tag, rest) => .ok (startTag tag, rest)

end Token

/-- Character data that does not start with `<` takes a character at least. -/
theorem Scan.shorter_of_charData {c : Char} {cs value rest : List Char}
    (hc : startsWith "<" (c :: cs) = false) (h : charData (c :: cs) = .ok (value, rest)) :
    rest <:+ c :: cs ∧ rest.length < (c :: cs).length := by
  obtain ⟨part, mid, h₁, h₂⟩ := bind_eq_ok.1 h
  have hrest : rest = mid := by split at h₂ <;> cases h₂; rfl
  have hmid : mid = (cut (nextIs (· == '<')) cs).2 := by
    have hstop : nextIs (· == '<') (c :: cs) = false := by
      simpa [startsWith, nextIs, List.isPrefixOf, BEq.comm] using hc
    simp only [upTo] at h₁
    split at h₁
    · cases h₁; exact cut_cons_snd hstop
    · cases h₁
  subst hrest hmid
  have hsuffix := cut_snd_suffix (nextIs (· == '<')) cs
  exact ⟨hsuffix.trans (List.suffix_cons _ _), Nat.lt_succ_of_le hsuffix.length_le⟩

theorem Scan.reads_charData : Reads charData := by
  intro cs part rest h
  obtain ⟨value, mid, h₁, h₂⟩ := bind_eq_ok.1 h
  split at h₂
  · cases h₂
  · cases h₂; exact reads_upTo _ h₁

open Scan in
/-- **A token is read as it is written.** -/
theorem Token.text_of_first {cs rest : List Char} {token : Token}
    (h : first cs = .ok (token, rest)) : token.text ++ rest = cs := by
  have of_map : ∀ {s : Scan (List Char)} {f : List Char → Token} {construct : Construct},
      Reads s → (∀ value, (f value).text = value) → within construct (f <$> s) cs = .ok (token, rest) →
        token.text ++ rest = cs := by
    intro s f construct hs hf h
    obtain ⟨value, hvalue, rfl⟩ := map_eq_ok.1 (within_eq_ok.1 h)
    rw [hf]
    exact hs hvalue
  unfold first at h
  split at h
  · exact of_map reads_charData (fun _ => rfl) h
  · split at h
    · exact of_map reads_comment (fun _ => rfl) h
    · split at h
      · exact of_map reads_cdata (fun _ => rfl) h
      · split at h
        · cases h
        · split at h
          · exact of_map reads_instruction (fun _ => rfl) h
          · split at h
            · obtain ⟨tag, htag, rfl⟩ := map_eq_ok.1 (within_eq_ok.1 h)
              exact text_of_endTag htag
            · split at h
              · cases h
              · rename_i tag rest' htag
                cases h
                exact StartTag.text_of_read htag

open Scan in
theorem Token.shorter_of_first {c : Char} {cs rest : List Char} {token : Token}
    (h : first (c :: cs) = .ok (token, rest)) :
    rest <:+ c :: cs ∧ rest.length < (c :: cs).length := by
  unfold first at h
  split at h
  · rename_i hc
    obtain ⟨value, h₁, _⟩ := map_eq_ok.1 (within_eq_ok.1 h)
    exact Scan.shorter_of_charData (by simpa using hc) h₁
  · split at h
    · exact advances_map advances_comment _ (within_eq_ok.1 h)
    · split at h
      · exact advances_map advances_cdata _ (within_eq_ok.1 h)
      · split at h
        · cases h
        · split at h
          · exact advances_map advances_instruction _ (within_eq_ok.1 h)
          · split at h
            · exact advances_map advances_endTag _ (within_eq_ok.1 h)
            · split at h
              · cases h
              · rename_i tag rest' htag
                cases h
                exact StartTag.shorter_of_read htag

/-! ## 2. The whole body -/

/-- What a body is read as: its tokens, and the fault that stopped reading, if one did. -/
structure Body where
  tokens : List Token
  fault? : Option (Fault (List Char))

/-- Reads the tokens of a body. -/
def Body.read : List Char → Body
  | [] => ⟨[], none⟩
  | c :: cs =>
    match _ : Token.first (c :: cs) with
    | .error fault => ⟨[], some fault⟩
    | .ok (token, rest) =>
      let body := read rest
      ⟨token :: body.tokens, body.fault?⟩
termination_by cs => cs.length
decreasing_by exact (Token.shorter_of_first ‹_›).2

/-- **The tokens of a body that is read to its end make up the body.** -/
theorem Body.text_of_read {cs : List Char} (h : (read cs).fault? = none) :
    (read cs).tokens.flatMap Token.text = cs := by
  fun_induction read cs with
  | case1 => rfl
  | case2 => cases h
  | case3 c cs token rest hfirst body ih =>
    rw [List.flatMap_cons, ih h]
    exact Token.text_of_first hfirst

end TalMarkup
