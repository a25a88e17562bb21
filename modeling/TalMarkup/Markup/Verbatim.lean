import TalMarkup.Scan.Keeps

/-!
# Markup kept verbatim

Comments, processing instructions, CDATA sections and the XML declaration. A tree keeps each of them
as the text it is written in, and this text is what the first three scanners give; the scanner of the
declaration only finds out where it ends.
-/

namespace TalMarkup

namespace Scan

/-! ## 1. Comments, instructions, sections -/

/-- Reads a comment. Two hyphens may not stand in it, nor one hyphen in front of its end mark. -/
def comment : Scan (List Char) := do
  literal "<!--"
  let body ← upTo (startsWith "-->")
  literal "-->"
  if holds "--" body then throw .doubleHyphen
  else if body.getLast? = some '-' then throw .trailingHyphen
  else return "<!--".toList ++ body ++ "-->".toList

/-- Reads a processing instruction. -/
def instruction : Scan (List Char) := do
  literal "<?"
  let target ← name
  let gap ← spaces
  let body ← upTo (startsWith "?>")
  literal "?>"
  return "<?".toList ++ target ++ gap ++ body ++ "?>".toList

/-- Reads a CDATA section. -/
def cdata : Scan (List Char) := do
  literal "<![CDATA["
  let body ← upTo (startsWith "]]>")
  literal "]]>"
  return "<![CDATA[".toList ++ body ++ "]]>".toList

theorem advances_comment : Advances comment := by
  refine advances_bind (advances_literal (by decide)) fun _ => keeps_bind (keeps_upTo _) fun body =>
    keeps_bind (keeps_literal _) fun _ => ?_
  split
  · exact keeps_throw _
  · split
    · exact keeps_throw _
    · exact keeps_pure _

theorem advances_instruction : Advances instruction :=
  advances_bind (advances_literal (by decide)) fun _ => keeps_bind keeps_name fun _ =>
    keeps_bind (keeps_span _) fun _ => keeps_bind (keeps_upTo _) fun _ =>
      keeps_bind (keeps_literal _) fun _ => keeps_pure _

theorem advances_cdata : Advances cdata :=
  advances_bind (advances_literal (by decide)) fun _ => keeps_bind (keeps_upTo _) fun _ =>
    keeps_bind (keeps_literal _) fun _ => keeps_pure _

/-- **A comment is given as it is written.** -/
theorem reads_comment : Reads comment := by
  intro cs part rest h
  obtain ⟨_, m₁, h₁, h⟩ := bind_eq_ok.1 h
  obtain ⟨body, m₂, h₂, h⟩ := bind_eq_ok.1 h
  obtain ⟨_, m₃, h₃, h⟩ := bind_eq_ok.1 h
  split at h
  · cases h
  · split at h
    · cases h
    · cases h
      rw [literal_eq_ok.1 h₁, ← reads_upTo _ h₂, literal_eq_ok.1 h₃]
      simp only [List.append_assoc]

theorem reads_instruction : Reads instruction := by
  intro cs part rest h
  obtain ⟨_, m₁, h₁, h⟩ := bind_eq_ok.1 h
  obtain ⟨target, m₂, h₂, h⟩ := bind_eq_ok.1 h
  obtain ⟨gap, m₃, h₃, h⟩ := bind_eq_ok.1 h
  obtain ⟨body, m₄, h₄, h⟩ := bind_eq_ok.1 h
  obtain ⟨_, m₅, h₅, h⟩ := bind_eq_ok.1 h
  cases h
  rw [literal_eq_ok.1 h₁, ← reads_name h₂, ← reads_span _ h₃, ← reads_upTo _ h₄,
    literal_eq_ok.1 h₅]
  simp only [List.append_assoc]

theorem reads_cdata : Reads cdata := by
  intro cs part rest h
  obtain ⟨_, m₁, h₁, h⟩ := bind_eq_ok.1 h
  obtain ⟨body, m₂, h₂, h⟩ := bind_eq_ok.1 h
  obtain ⟨_, m₃, h₃, h⟩ := bind_eq_ok.1 h
  cases h
  rw [literal_eq_ok.1 h₁, ← reads_upTo _ h₂, literal_eq_ok.1 h₃]
  simp only [List.append_assoc]

/-! ## 2. The XML declaration -/

/-- Reads the spaces between two fields of the declaration. There must be one, unless the
    declaration or the input ends here. -/
def declarationGap : Scan Unit := do
  let unread ← get
  if unread.isEmpty || startsWith "?>" unread then return ()
  else
    let _ ← someSpaces

/-- A character that may stand in the name of an encoding. -/
def isEncodingChar (c : Char) : Bool := c.isAlphanum || c == '.' || c == '-' || c == '_'

/-- Reads the value of the field `encoding`. -/
def encodingValue : Scan Unit := do
  let _ ← equals
  let mark ← quote
  let _ ← span isEncodingChar
  char mark
  declarationGap

/-- Reads the value of the field `standalone`, which is `yes` or `no`. -/
def standaloneValue : Scan Unit := do
  let _ ← equals
  let mark ← quote
  let unread ← get
  let value ← name
  if value = ['y', 'e', 's'] || value = ['n', 'o'] then char mark
  else throw (.missing ["yes", "no"] unread)

/-- Reads the XML declaration. -/
def declaration : Scan Unit := do
  literal "<?xml "
  let _ ← spaces
  literal "version"
  let _ ← equals
  let mark ← quote
  literal "1."
  let _ ← span Char.isDigit
  char mark
  declarationGap
  whenNext "encoding" encodingValue
  whenNext "standalone" standaloneValue
  let _ ← spaces
  literal "?>"

theorem keeps_declarationGap : Keeps declarationGap := by
  refine keeps_bind keeps_get fun _ => ?_
  split
  · exact keeps_pure _
  · exact keeps_bind keeps_someSpaces fun _ => keeps_pure _

theorem keeps_encodingValue : Keeps encodingValue :=
  keeps_bind keeps_equals fun _ => keeps_bind advances_quote.keeps fun _ =>
    keeps_bind (keeps_span _) fun _ => keeps_bind (advances_char _).keeps fun _ =>
      keeps_declarationGap

theorem keeps_standaloneValue : Keeps standaloneValue := by
  refine keeps_bind keeps_equals fun _ => keeps_bind advances_quote.keeps fun _ =>
    keeps_bind keeps_get fun _ => keeps_bind keeps_name fun _ => ?_
  split
  · exact (advances_char _).keeps
  · exact keeps_throw _

theorem advances_declaration : Advances declaration :=
  advances_bind (advances_literal (by decide)) fun _ => keeps_bind (keeps_span _) fun _ =>
    keeps_bind (keeps_literal _) fun _ => keeps_bind keeps_equals fun _ =>
      keeps_bind advances_quote.keeps fun _ => keeps_bind (keeps_literal _) fun _ =>
        keeps_bind (keeps_span _) fun _ => keeps_bind (advances_char _).keeps fun _ =>
          keeps_bind keeps_declarationGap fun _ =>
            keeps_bind (keeps_whenNext keeps_encodingValue) fun _ =>
              keeps_bind (keeps_whenNext keeps_standaloneValue) fun _ =>
                keeps_bind (keeps_span _) fun _ => keeps_literal _

end Scan

end TalMarkup
