import TalMarkup.Markup.Verbatim

/-!
# The document type declaration

`Doctype.read` finds out where a `<!DOCTYPE` ends. It has three outcomes: the text after the declaration,
a fault, or, for an internal subset that the input ends in, neither. The subset's entities, comments
and processing instructions are checked; its other declarations are skipped.
-/

namespace TalMarkup

namespace Scan

/-! ## 1. External identifiers and entities -/

/-- Reads an external identifier if one starts here, and says whether one does. -/
def externalId : Scan Bool := do
  let unread ← get
  if startsWith "SYSTEM" unread then
    literal "SYSTEM"
    let _ ← someSpaces
    quoted
    return true
  else if startsWith "PUBLIC" unread then
    literal "PUBLIC"
    let _ ← someSpaces
    quoted
    let _ ← someSpaces
    quoted
    return true
  else return false

/-- Reads the notation that an unparsed entity names. -/
def entityNotation : Scan Unit := do
  let _ ← someSpaces
  let _ ← optionalName

/-- Reads what an entity stands for: a quoted text or an external identifier. A general entity may
    go on with the name of a notation. -/
def entityValue (general : Bool) : Scan Unit := do
  match ← get with
  | [] => throw .endOfInput
  | c :: unread =>
    if c = '"' || c = '\x27' then quoted
    else if c = 'S' || c = 'P' then
      if ← externalId then
        if general then
          let _ ← spaces
          whenNext "NDATA" entityNotation
      else throw .badExternalId
    else throw (.unexpected (.oneOf ['"', '\x27', 'S', 'P']) c (c :: unread))

/-- Reads the mark of a parameter entity, if there is one, and says whether the entity is a general
    one. -/
def entityKind : Scan Bool := do
  if startsWith "%" (← get) then
    char '%'
    let _ ← someSpaces
    return false
  else return true

/-- Reads an entity declaration. -/
def entity : Scan Unit := do
  literal "<!ENTITY"
  let _ ← someSpaces
  let general ← entityKind
  let _ ← name
  let _ ← someSpaces
  entityValue general
  let _ ← spaces
  char '>'

/-! ## 2. The parts of a doctype -/

/-- Reads a doctype up to its `>`, or up to the `[` of its internal subset, and says whether it has
    a subset. -/
def doctypeOpening : Scan Bool := do
  literal "<!DOCTYPE"
  let _ ← someSpaces
  let _ ← name
  let _ ← spaces
  let _ ← externalId
  let _ ← spaces
  match ← get with
  | [] => throw .endOfInput
  | c :: unread =>
    if c = '[' then
      char '['
      return true
    else if c = '>' then
      char '>'
      return false
    else throw (.unexpected (.oneOf ['[', '>']) c (c :: unread))

/-- Reads the end of an internal subset and of its doctype. -/
def subsetEnd : Scan Unit := do
  char ']'
  let _ ← spaces
  char '>'

theorem keeps_externalId : Keeps externalId := by
  refine keeps_bind keeps_get fun _ => ?_
  split
  · exact keeps_bind (keeps_literal _) fun _ => keeps_bind keeps_someSpaces fun _ =>
      keeps_bind keeps_quoted fun _ => keeps_pure _
  · split
    · exact keeps_bind (keeps_literal _) fun _ => keeps_bind keeps_someSpaces fun _ =>
        keeps_bind keeps_quoted fun _ => keeps_bind keeps_someSpaces fun _ =>
          keeps_bind keeps_quoted fun _ => keeps_pure _
    · exact keeps_pure _

theorem keeps_entityNotation : Keeps entityNotation :=
  keeps_bind keeps_someSpaces fun _ => keeps_bind keeps_optionalName fun _ => keeps_pure _

theorem keeps_entityValue (general : Bool) : Keeps (entityValue general) := by
  refine keeps_bind keeps_get fun unread => ?_
  split
  · exact keeps_throw _
  · split
    · exact keeps_quoted
    · split
      · refine keeps_bind keeps_externalId fun found => ?_
        split
        · split
          · exact keeps_bind (keeps_span _) fun _ => keeps_whenNext keeps_entityNotation
          · exact keeps_pure _
        · exact keeps_throw _
      · exact keeps_throw _

theorem keeps_entityKind : Keeps entityKind := by
  refine keeps_bind keeps_get fun _ => ?_
  split
  · exact keeps_bind (advances_char _).keeps fun _ => keeps_bind keeps_someSpaces fun _ =>
      keeps_pure _
  · exact keeps_pure _

theorem advances_entity : Advances entity :=
  advances_bind (advances_literal (by decide)) fun _ => keeps_bind keeps_someSpaces fun _ =>
    keeps_bind keeps_entityKind fun _ => keeps_bind keeps_name fun _ =>
      keeps_bind keeps_someSpaces fun _ => keeps_bind (keeps_entityValue _) fun _ =>
        keeps_bind (keeps_span _) fun _ => (advances_char _).keeps

theorem advances_doctypeOpening : Advances doctypeOpening := by
  refine advances_bind (advances_literal (by decide)) fun _ => keeps_bind keeps_someSpaces fun _ =>
    keeps_bind keeps_name fun _ => keeps_bind (keeps_span _) fun _ =>
      keeps_bind keeps_externalId fun _ => keeps_bind (keeps_span _) fun _ =>
        keeps_bind keeps_get fun unread => ?_
  split
  · exact keeps_throw _
  · split
    · exact keeps_bind (advances_char _).keeps fun _ => keeps_pure _
    · split
      · exact keeps_bind (advances_char _).keeps fun _ => keeps_pure _
      · exact keeps_throw _

theorem keeps_subsetEnd : Keeps subsetEnd :=
  keeps_bind (advances_char _).keeps fun _ => keeps_bind (keeps_span _) fun _ =>
    (advances_char _).keeps

end Scan

/-! ## 3. The internal subset -/

namespace Doctype

open Scan

/-- The marks of the declarations in an internal subset that are skipped. -/
def skippedDeclarations : List String := ["<!ELEMENT", "<!ATTLIST", "<!NOTATION"]

/-- Reads one item of an internal subset and gives what is left. A declaration that is skipped goes
    up to its first `>`. -/
def subsetItem (cs : List Char) : Except (Fault (List Char)) (List Char) :=
  if startsWith "<!ENTITY" cs then (within .entity entity cs).map Prod.snd
  else if startsWith "<!--" cs then (within .comment comment cs).map Prod.snd
  else if startsWith "<?xml " cs then .error (.unknown cs)
  else if startsWith "<?" cs then (within .instruction instruction cs).map Prod.snd
  else if skippedDeclarations.any (startsWith · cs) then
    match cs.dropWhile (· != '>') with
    | [] => .error (.unknown cs)
    | _ :: rest => .ok rest
  else .error (.unknown cs)

theorem shorter_of_within {α : Type} {construct : Construct} {s : Scan α} (hs : Advances s)
    {cs rest : List Char} (h : (within construct s cs).map Prod.snd = .ok rest) :
    rest <:+ cs ∧ rest.length < cs.length := by
  rcases hw : within construct s cs with fault | ⟨a, mid⟩
  · simp [hw, Except.map] at h
  · simp only [hw, Except.map, Except.ok.injEq] at h
    exact h ▸ hs (within_eq_ok.1 hw)

theorem shorter_of_subsetItem {cs rest : List Char} (h : subsetItem cs = .ok rest) :
    rest <:+ cs ∧ rest.length < cs.length := by
  unfold subsetItem at h
  split at h
  · exact shorter_of_within advances_entity h
  · split at h
    · exact shorter_of_within advances_comment h
    · split at h
      · cases h
      · split at h
        · exact shorter_of_within advances_instruction h
        · split at h
          · split at h
            · cases h
            · rename_i c rest' hdrop
              cases h
              have hsuffix := List.dropWhile_suffix (· != '>') (l := cs)
              rw [hdrop] at hsuffix
              exact ⟨(List.suffix_cons _ _).trans hsuffix, hsuffix.length_le⟩
          · cases h

/-- Reads an internal subset and the end of its doctype, and gives what is left; nothing, if the
    input ends in the subset. -/
def subset : List Char → Except (Fault (List Char)) (Option (List Char))
  | [] => .ok none
  | c :: cs =>
    if isSpace c then subset cs
    else if c = ']' then
      match Scan.within .doctype Scan.subsetEnd (c :: cs) with
      | .error fault => .error fault
      | .ok (_, rest) => .ok (some rest)
    else
      match _ : subsetItem (c :: cs) with
      | .error fault => .error fault
      | .ok rest => subset rest
termination_by cs => cs.length
decreasing_by
  · exact Nat.lt_succ_self _
  · exact (shorter_of_subsetItem ‹_›).2

/-! ## 4. The whole declaration -/

/-- Reads a doctype and gives what is left; nothing, if the input ends in its internal subset. -/
def read (cs : List Char) : Except (Fault (List Char)) (Option (List Char)) :=
  match Scan.within .doctype Scan.doctypeOpening cs with
  | .error fault => .error fault
  | .ok (true, rest) => subset rest
  | .ok (false, rest) => .ok (some rest)

theorem suffix_of_subset {cs rest : List Char} (h : subset cs = .ok (some rest)) : rest <:+ cs := by
  fun_induction subset cs with
  | case1 => cases h
  | case2 c cs _ ih => exact (ih h).trans (List.suffix_cons _ _)
  | case3 => cases h
  | case4 c cs _ mid hend => cases h; exact Scan.keeps_subsetEnd (Scan.within_eq_ok.1 hend)
  | case5 => cases h
  | case6 c cs _ _ mid hitem ih => exact (ih h).trans (shorter_of_subsetItem hitem).1

theorem shorter_of_read {cs rest : List Char} (h : read cs = .ok (some rest)) :
    rest <:+ cs ∧ rest.length < cs.length := by
  unfold read at h
  split at h
  · cases h
  · rename_i mid hopening
    have hmid := Scan.advances_doctypeOpening (Scan.within_eq_ok.1 hopening)
    have hrest := suffix_of_subset h
    exact ⟨hrest.trans hmid.1, Nat.lt_of_le_of_lt hrest.length_le hmid.2⟩
  · rename_i mid hopening
    cases h
    exact Scan.advances_doctypeOpening (Scan.within_eq_ok.1 hopening)

end Doctype

end TalMarkup
