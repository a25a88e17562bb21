import TalMarkup.Markup.QName

/-!
# Tags

Start tags and closing tags as they are written, layout included: every structure here has a `text`
that gives its spelling back.

A start tag that the input ends in, between two attributes, is read as well; its ending is `cut`.
Where the input ends within an attribute, the attribute is invalid.
-/

namespace TalMarkup

/-! ## 1. What a tag is made of -/

/-- An attribute as it is written, with the spaces in front of it. -/
structure WrittenAttribute where
  gap : List Char
  name : QName
  beforeEquals : List Char
  afterEquals : List Char
  /-- The quote mark around the value. -/
  mark : Char
  value : List Char
deriving DecidableEq

/-- How a start tag ends. -/
inductive TagEnding
  /-- Its element is open now. -/
  | opening
  /-- Its element has no content and no closing tag. -/
  | selfClosing
  /-- The input ends in the tag. -/
  | cut
deriving DecidableEq

/-- What follows the name of a start tag. -/
structure TagInside where
  attributes : List WrittenAttribute
  /-- The spaces in front of the ending. -/
  gap : List Char
  ending : TagEnding
deriving DecidableEq

/-- A start tag as it is written. -/
structure StartTag where
  name : QName
  inside : TagInside
deriving DecidableEq

/-- A closing tag as it is written. -/
structure EndTag where
  name : QName
  /-- The spaces after the name. -/
  gap : List Char
deriving DecidableEq

/-! ## 2. Spelling -/

/-- The spelling of an attribute, the spaces in front of it included. -/
def WrittenAttribute.text (a : WrittenAttribute) : List Char :=
  a.gap ++ a.name.text ++ a.beforeEquals ++ '=' :: a.afterEquals ++ a.mark :: a.value ++ [a.mark]

/-- The name and value that a tree keeps of an attribute. -/
def WrittenAttribute.pair (a : WrittenAttribute) : String × String :=
  (a.name.recorded, String.ofList a.value)

/-- The spelling of the end of a start tag. -/
def TagEnding.text : TagEnding → List Char
  | .opening => ['>']
  | .selfClosing => ['/', '>']
  | .cut => []

/-- The spelling of what follows the name of a start tag. -/
def TagInside.text (inside : TagInside) : List Char :=
  inside.attributes.flatMap WrittenAttribute.text ++ inside.gap ++ inside.ending.text

/-- The spelling of a start tag. -/
def StartTag.text (tag : StartTag) : List Char := '<' :: tag.name.text ++ tag.inside.text

/-- The spelling of a closing tag. -/
def EndTag.text (tag : EndTag) : List Char :=
  '<' :: '/' :: tag.name.text ++ tag.gap ++ ['>']

/-! ## 3. Reading -/

/-- One step inside a start tag, after its name: an attribute, or the tag's ending with the spaces
    in front of it. -/
inductive TagStep
  | attr (written : WrittenAttribute)
  | ending (gap : List Char) (ending : TagEnding)

namespace Scan

/-- Reads an attribute in front of which `gap` was read. The value goes up to its quote mark, and
    no `<` may stand in it. -/
def writtenAttribute (gap : List Char) : Scan WrittenAttribute := do
  let name ← qname
  let (beforeEquals, afterEquals) ← equals
  let mark ← quote
  let value ← upTo (nextIs fun c => c == mark || c == '<')
  char mark
  return ⟨gap, name, beforeEquals, afterEquals, mark, value⟩

/-- Reads one step inside a start tag. An attribute needs a space in front of it. -/
def tagStep : Scan TagStep := do
  let gap ← spaces
  let unread ← get
  if startsWith ">" unread then
    char '>'
    return .ending gap .opening
  else if startsWith "/" unread then
    char '/'
    char '>'
    return .ending gap .selfClosing
  else
    match gap, unread with
    | [], c :: _ => throw (.unexpected .space c unread)
    | _, _ => TagStep.attr <$> writtenAttribute gap

/-- Reads the name of a start tag, and the `<` in front of it. -/
def tagOpening : Scan QName := do
  literal "<"
  qname

/-- Reads a closing tag. -/
def endTag : Scan EndTag := do
  literal "</"
  let name ← qname
  let gap ← spaces
  char '>'
  return ⟨name, gap⟩

theorem advances_writtenAttribute (gap : List Char) : Advances (writtenAttribute gap) :=
  advances_bind_right keeps_qname fun _ => advances_bind_right keeps_equals fun _ =>
    advances_bind advances_quote fun _ => keeps_bind (keeps_upTo _) fun _ =>
      keeps_bind (advances_char _).keeps fun _ => keeps_pure _

theorem advances_tagStep : Advances tagStep := by
  refine advances_bind_right (keeps_span _) fun gap => advances_bind_right keeps_get fun unread => ?_
  split
  · exact advances_bind (advances_char _) fun _ => keeps_pure _
  · split
    · exact advances_bind (advances_char _) fun _ =>
        keeps_bind (advances_char _).keeps fun _ => keeps_pure _
    · split
      · intro _ _ _ h; cases h
      · exact advances_map (advances_writtenAttribute gap) _

/-- **An attribute is read as it is written.** -/
theorem text_of_writtenAttribute {gap cs rest : List Char} {written : WrittenAttribute}
    (h : writtenAttribute gap cs = .ok (written, rest)) : written.text ++ rest = gap ++ cs := by
  obtain ⟨name, m₁, h₁, h⟩ := bind_eq_ok.1 h
  obtain ⟨⟨before, after⟩, m₂, h₂, h⟩ := bind_eq_ok.1 h
  obtain ⟨mark, m₃, h₃, h⟩ := bind_eq_ok.1 h
  obtain ⟨value, m₄, h₄, h⟩ := bind_eq_ok.1 h
  obtain ⟨_, m₅, h₅, h⟩ := bind_eq_ok.1 h
  cases h
  obtain ⟨before', n₁, k₁, h₂⟩ := bind_eq_ok.1 h₂
  obtain ⟨_, n₂, k₂, h₂⟩ := bind_eq_ok.1 h₂
  obtain ⟨after', n₃, k₃, h₂⟩ := bind_eq_ok.1 h₂
  cases h₂
  rw [← text_of_qname h₁, ← reads_span _ k₁, char_eq_ok.1 k₂, ← reads_span _ k₃,
    (quote_eq_ok.1 h₃).1, ← reads_upTo _ h₄, char_eq_ok.1 h₅]
  simp [WrittenAttribute.text]

/-- The spelling of one step inside a start tag. -/
def stepText : TagStep → List Char
  | .attr written => written.text
  | .ending gap ending => gap ++ ending.text

theorem text_of_tagStep {cs rest : List Char} {step : TagStep} (h : tagStep cs = .ok (step, rest)) :
    stepText step ++ rest = cs := by
  obtain ⟨gap, m₁, h₁, h⟩ := bind_eq_ok.1 h
  obtain ⟨unread, m₂, h₂, h⟩ := bind_eq_ok.1 h
  cases h₂
  rw [← reads_span _ h₁]
  split at h
  · obtain ⟨_, m₃, h₃, h⟩ := bind_eq_ok.1 h
    cases h
    rw [char_eq_ok.1 h₃]
    simp [stepText, TagEnding.text]
  · split at h
    · obtain ⟨_, m₃, h₃, h⟩ := bind_eq_ok.1 h
      obtain ⟨_, m₄, h₄, h⟩ := bind_eq_ok.1 h
      cases h
      rw [char_eq_ok.1 h₃, char_eq_ok.1 h₄]
      simp [stepText, TagEnding.text]
    · split at h
      · cases h
      · obtain ⟨written, hwritten, rfl⟩ := map_eq_ok.1 h
        exact text_of_writtenAttribute hwritten

/-- **A closing tag is read as it is written.** -/
theorem text_of_endTag {cs rest : List Char} {tag : EndTag} (h : endTag cs = .ok (tag, rest)) :
    tag.text ++ rest = cs := by
  obtain ⟨_, m₁, h₁, h⟩ := bind_eq_ok.1 h
  obtain ⟨name, m₂, h₂, h⟩ := bind_eq_ok.1 h
  obtain ⟨gap, m₃, h₃, h⟩ := bind_eq_ok.1 h
  obtain ⟨_, m₄, h₄, h⟩ := bind_eq_ok.1 h
  cases h
  rw [literal_eq_ok.1 h₁, ← text_of_qname h₂, ← reads_span _ h₃, char_eq_ok.1 h₄]
  simp [EndTag.text]

theorem advances_tagOpening : Advances tagOpening :=
  advances_bind (advances_literal (by decide)) fun _ => keeps_qname

theorem advances_endTag : Advances endTag :=
  advances_bind (advances_literal (by decide)) fun _ => keeps_bind keeps_qname fun _ =>
    keeps_bind (keeps_span _) fun _ => keeps_bind (advances_char _).keeps fun _ => keeps_pure _

end Scan

namespace TagInside

/-- Reads a start tag after its name, up to its end or the end of the input. -/
def read (cs : List Char) : Except (Fault (List Char)) (TagInside × List Char) :=
  if cs = [] then .ok (⟨[], [], .cut⟩, [])
  else
    match _ : Scan.within .attr Scan.tagStep cs with
    | .error fault => .error fault
    | .ok (.ending gap ending, rest) => .ok (⟨[], gap, ending⟩, rest)
    | .ok (.attr written, rest) =>
      match read rest with
      | .error fault => .error fault
      | .ok (inside, rest) => .ok ({ inside with attributes := written :: inside.attributes }, rest)
termination_by cs.length
decreasing_by exact (Scan.advances_tagStep (Scan.within_eq_ok.1 ‹_›)).2

theorem suffix_of_read {cs rest : List Char} {inside : TagInside}
    (h : read cs = .ok (inside, rest)) : rest <:+ cs := by
  fun_induction read cs generalizing inside rest with
  | case1 => cases h; exact List.suffix_refl _
  | case2 => cases h
  | case3 cs _ gap ending mid hstep =>
    cases h; exact (Scan.advances_tagStep (Scan.within_eq_ok.1 hstep)).1
  | case4 => cases h
  | case5 cs _ written mid hstep inside' rest' hread ih =>
    cases h
    exact (ih hread).trans (Scan.advances_tagStep (Scan.within_eq_ok.1 hstep)).1

theorem text_of_read {cs rest : List Char} {inside : TagInside}
    (h : read cs = .ok (inside, rest)) : inside.text ++ rest = cs := by
  fun_induction read cs generalizing inside rest with
  | case1 => cases h; simp [text, TagEnding.text]
  | case2 => cases h
  | case3 cs _ gap ending mid hstep =>
    cases h
    rw [← Scan.text_of_tagStep (Scan.within_eq_ok.1 hstep)]
    simp [text, Scan.stepText]
  | case4 => cases h
  | case5 cs _ written mid hstep inside' rest' hread ih =>
    cases h
    rw [← Scan.text_of_tagStep (Scan.within_eq_ok.1 hstep), ← ih hread]
    simp [text, Scan.stepText]

end TagInside

/-- Reads a start tag. -/
def StartTag.read (cs : List Char) : Except (Fault (List Char)) (StartTag × List Char) :=
  match Scan.within .element Scan.tagOpening cs with
  | .error fault => .error fault
  | .ok (name, rest) =>
    match TagInside.read rest with
    | .error fault => .error fault
    | .ok (inside, rest) => .ok (⟨name, inside⟩, rest)

theorem StartTag.shorter_of_read {cs rest : List Char} {tag : StartTag}
    (h : StartTag.read cs = .ok (tag, rest)) : rest <:+ cs ∧ rest.length < cs.length := by
  unfold StartTag.read at h
  split at h
  · cases h
  · rename_i name mid hname
    split at h
    · cases h
    · rename_i inside rest' hinside
      cases h
      have hmid := Scan.advances_tagOpening (Scan.within_eq_ok.1 hname)
      have hrest := TagInside.suffix_of_read hinside
      exact ⟨hrest.trans hmid.1, Nat.lt_of_le_of_lt hrest.length_le hmid.2⟩

/-- **A start tag is read as it is written.** -/
theorem StartTag.text_of_read {cs rest : List Char} {tag : StartTag}
    (h : StartTag.read cs = .ok (tag, rest)) : tag.text ++ rest = cs := by
  unfold StartTag.read at h
  split at h
  · cases h
  · rename_i name mid hname
    split at h
    · cases h
    · rename_i inside rest' hinside
      cases h
      obtain ⟨_, m₁, h₁, h₂⟩ := Scan.bind_eq_ok.1 (Scan.within_eq_ok.1 hname)
      rw [Scan.literal_eq_ok.1 h₁, ← Scan.text_of_qname h₂, ← TagInside.text_of_read hinside]
      simp [StartTag.text]

end TalMarkup
