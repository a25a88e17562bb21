import TalMarkup.Proofs.DocumentStages
import TalMarkup.Proofs.StrayClosing

/-!
# Doctypes that are left open

An internal subset that the input ends in is no fault of the prolog. The prolog ends in front of its doctype,
and it is the body that reports the doctype as unknown markup. A fault in a subset is reported by the prolog
right away, even where unknown markup anywhere else would only end it.

`Stage.Outcome.Decides` says this of what a prolog is read as, for a given end of a run through the document.
It is kept from item to item (`Prolog.decides_readItems`). **`Template.parse_of_open_subset`** says it of whole
sources.
-/

namespace TalMarkup

open Scan

/-- What a prolog is to be read as, if a run through the document ends so. A doctype whose subset is left open
    is left to the body, with nothing but spaces and what was skipped in front of it; a fault in a subset is the
    fault of the prolog. -/
structure Stage.Outcome.Decides (outcome : Outcome) (skipped : List Char)
    (result : Except (Fault (List Char)) Prolog) : Prop where
  of_ended : ∀ opened, outcome = .ended (.subset opened) → startsWith "<!DOCTYPE" opened = true ∧
    ∃ prolog gap, result = .ok prolog ∧ prolog.body = gap ++ opened ∧
      ∀ c ∈ gap, c ∈ skipped ∨ isSpace c = true
  of_failed : ∀ opened fault, outcome = .failed (.subset opened) fault → result = .error fault

/-! ## 1. Prologs -/

namespace Prolog

variable {outcome : Stage.Outcome} {skipped cs : List Char} {result : Except (Fault (List Char)) Prolog}
  {stage : Stage} {fault : Fault (List Char)}

theorem decides_of_failed (h : outcome = .failed stage fault) : outcome.Decides skipped (.error fault) := by
  subst h
  exact ⟨nofun, fun _ _ h => congrArg Except.error (Stage.Outcome.failed.inj h).2⟩

/-- A run that does not end in a subset decides nothing. -/
theorem decides_of_beside (doctypeSeen : Bool)
    (h : outcome = .startTag ∨ outcome = .ended (.beside doctypeSeen) ∨
      ∃ fault, outcome = .failed (.beside doctypeSeen) fault) : outcome.Decides skipped result := by
  rcases h with rfl | rfl | ⟨fault, rfl⟩
  · exact ⟨nofun, nofun⟩
  · exact ⟨fun opened h => absurd (Stage.Outcome.ended.inj h) (Stage.beside_ne_subset _ opened), nofun⟩
  · exact ⟨nofun, fun opened _ h => absurd (Stage.Outcome.failed.inj h).1 (Stage.beside_ne_subset _ opened)⟩

/-- **One more item in front changes nothing.** -/
theorem decides_map_cons (h : outcome.Decides [] result) (item : Item) :
    outcome.Decides skipped (result.map (cons item)) := by
  constructor
  case of_ended =>
    intro opened hended
    obtain ⟨hmark, prolog, gap, rfl, hbody, hgap⟩ := h.of_ended opened hended
    exact ⟨hmark, _, gap, rfl, hbody, fun c hc => Or.inr ((hgap c hc).resolve_left List.not_mem_nil)⟩
  case of_failed =>
    intro opened fault hfailed
    rw [h.of_failed opened fault hfailed]
    rfl

/-- **A run through the document decides what the items are read as.** -/
theorem decides_readItems (doctypeSeen : Bool) (skipped cs : List Char) :
    (Stage.run (.beside doctypeSeen) cs).Decides skipped (readItems doctypeSeen skipped cs) := by
  fun_induction readItems doctypeSeen skipped cs with
  | case1 doctypeSeen skipped cs unread fault hnext =>
    obtain ⟨stage, hfailed⟩ := Stage.run_of_next hnext
    exact decides_of_failed hfailed
  | case2 doctypeSeen skipped cs gap unread hnext =>
    exact decides_of_beside doctypeSeen (Or.inl (Stage.run_of_next hnext))
  | case3 doctypeSeen skipped cs unread hnext =>
    rcases Stage.run_of_next hnext with ⟨hmark, hended⟩ | hended | hfailed
    · rw [hended]
      constructor
      case of_ended =>
        intro opened h
        cases h
        refine ⟨hmark, _, skipped ++ cs.takeWhile isSpace, rfl, ?_, fun c hc => ?_⟩
        · rw [List.append_assoc]
          exact congrArg (skipped ++ ·) List.takeWhile_append_dropWhile.symm
        · exact (List.mem_append.1 hc).imp id List.mem_takeWhile_imp
      case of_failed =>
        intro opened fault h
        cases h
    · exact decides_of_beside doctypeSeen (Or.inr (Or.inl hended))
    · exact decides_of_beside doctypeSeen (Or.inr (Or.inr ⟨_, hfailed⟩))
  | case4 doctypeSeen skipped cs unread kind text rest hnext fault hread ih =>
    have hrun : Stage.run _ cs = Stage.run _ rest := Stage.run_of_next hnext
    rw [hread] at ih
    rw [hrun]
    exact decides_map_cons ih ⟨[], kind, text⟩
  | case5 doctypeSeen skipped cs gap unread kind text rest hnext prolog hread ih =>
    have hrun : Stage.run _ cs = Stage.run _ rest := Stage.run_of_next hnext
    rw [hread] at ih
    rw [hrun]
    exact decides_map_cons ih ⟨gap, kind, text⟩

theorem within_text {α : Type} (construct : Construct) (s : Scan α) (cs : List Char) :
    within construct (Scan.text s) cs = (within construct s cs).map fun read => (readPart cs read.2, read.2) := by
  unfold within Scan.text
  rcases s cs with cause | read <;> rfl

theorem decides_readFrom (skipped cs : List Char) :
    (Stage.runFrom cs).Decides skipped (readFrom skipped cs) := by
  rw [Stage.runFrom]
  split
  · rename_i hdeclaration
    have htext := within_text .declaration declaration cs
    rcases hread : within .declaration declaration cs with fault | ⟨_, rest⟩
    · rw [hread] at htext
      rw [readFrom, if_pos hdeclaration, htext]
      exact decides_of_failed rfl
    · rw [hread] at htext
      rw [readFrom_of_text hdeclaration htext]
      exact decides_map_cons (decides_readItems false [] rest) _
  · rename_i hdeclaration
    rw [readFrom, if_neg hdeclaration]
    exact decides_readItems false skipped cs

/-- **A run through the document decides what its prolog is read as.** -/
theorem decides_read (source : List Char) :
    ∃ skipped, (∀ c ∈ skipped, c = byteOrderMark) ∧
      (Stage.runDocument source).Decides skipped (read source) := by
  cases source with
  | nil => exact ⟨[], nofun, decides_readFrom [] []⟩
  | cons c cs =>
    rw [Stage.runDocument, read]
    split
    · rename_i hmark
      exact ⟨[c], by simpa using hmark, decides_readFrom [c] cs⟩
    · exact ⟨[], nofun, decides_readFrom [] (c :: cs)⟩

end Prolog

/-! ## 2. Bodies -/

/-- A doctype is no markup of a body. -/
theorem Body.read_of_doctype {opened : List Char} (hmark : startsWith "<!DOCTYPE" opened = true) :
    read opened = ⟨[], some (.unknown opened)⟩ := by
  obtain ⟨more, rfl⟩ := Scan.startsWith_iff.1 hmark
  exact read_of_error (List.cons_ne_nil _ _) rfl

/-! ## 3. Whole sources -/

namespace Template

variable {source : String} {opened : List Char} {fault : Fault (List Char)}

theorem parse_of_prolog_error (options : Options) (h : Prolog.read source.toList = .error fault) :
    parse options source = .error (.ofFault source.toList fault) := by
  rw [parse, read, h]
  rfl

/-- **A doctype that a body starts with is unknown**, whatever spaces stand in front of it. -/
theorem parse_of_doctype (options : Options) {prolog : Prolog} {gap : List Char}
    (hprolog : Prolog.read source.toList = .ok prolog) (hbody : prolog.body = gap ++ opened)
    (hmark : startsWith "<!DOCTYPE" opened = true) (hgap : ∀ c ∈ gap, c = Prolog.byteOrderMark ∨ isSpace c = true) :
    parse options source = .error (.ofFault source.toList (.unknown opened)) := by
  have hclass : ∀ {c}, c ∈ gap → isXmlChar c = true ∧ c ≠ '<' ∧ c ≠ ']' := by
    intro c hc
    rcases hgap c hc with rfl | hspace
    · decide
    · exact ⟨isXmlChar_of_isSpace hspace, ne_of_class hspace rfl, ne_of_class hspace rfl⟩
  have hend : ¬ "]]>".toList <:+: gap := fun h => (hclass (h.subset List.mem_cons_self)).2.2 rfl
  obtain ⟨tokens, nodes, hread, content⟩ := Content.of_text options .empty (newlines prolog.spelling) 0
    (fun c hc => (hclass hc).1) (fun h => (hclass h).2.1 rfl) hend
  have hlt : nextIs (· == '<') opened = true := by
    obtain ⟨more, rfl⟩ := Scan.startsWith_iff.1 hmark
    rfl
  have hbody' : Body.read prolog.body = ⟨tokens, some (.unknown opened)⟩ := by
    rw [hbody, Body.read_append_lt hread content.uncut hlt, Body.read_of_doctype hmark, List.append_nil]
  rw [parse_eq hprolog, hbody', Assembly.tokens_atBody content]

/-- **A doctype whose internal subset is left open is reported where it starts, and a fault in a subset is
    reported as it is.** -/
theorem parse_of_open_subset (options : Options) (source : String) :
    (∀ opened, Stage.runDocument source.toList = .ended (.subset opened) →
        opened <:+ source.toList ∧ startsWith "<!DOCTYPE" opened = true ∧
          parse options source = .error {
            kind := .malformed (.unknown (.before source.toList opened)),
            line? := some (newlines (readPart source.toList opened) + 1) }) ∧
      ∀ opened fault, Stage.runDocument source.toList = .failed (.subset opened) fault →
        parse options source = .error {
          kind := .malformed (fault.map (.before source.toList)),
          line? := some (Position.before source.toList fault.place).row } := by
  obtain ⟨skipped, hskipped, hdecides⟩ := Prolog.decides_read source.toList
  refine ⟨fun opened hended => ?_, fun opened fault hfailed => ?_⟩
  · obtain ⟨hmark, prolog, gap, hprolog, hbody, hgap⟩ := hdecides.of_ended opened hended
    have hparse := parse_of_doctype options hprolog hbody hmark fun c hc => (hgap c hc).imp (hskipped c) id
    have hsuffix : opened <:+ source.toList := by
      rw [← Prolog.spelling_of_read hprolog, hbody]
      exact ⟨prolog.spelling ++ gap, List.append_assoc _ _ _⟩
    refine ⟨hsuffix, hmark, ?_⟩
    rw [hparse, ← Position.after_row]
    rfl
  · have hparse := parse_of_prolog_error options (hdecides.of_failed opened fault hfailed)
    rw [hparse, Error.ofFault, Fault.place_map]

theorem parse_of_open_subset_marked :
    Stage.runDocument
          "\ufeff<?xml version='1.0'?>\n<!-- -->\n <!DOCTYPE a [<!ENTITY b 'c'>\n<!-- ]> --><?d?> ".toList =
        .ended (.subset "<!DOCTYPE a [<!ENTITY b 'c'>\n<!-- ]> --><?d?> ".toList) ∧
      parse { } "\ufeff<?xml version='1.0'?>\n<!-- -->\n <!DOCTYPE a [<!ENTITY b 'c'>\n<!-- ]> --><?d?> " =
        .error { kind := .malformed (.unknown ⟨3, 2⟩), line? := some 3 } ∧
      Stage.runDocument "<!DOCTYPE a [\n<b>]>".toList =
        .failed (.subset "<!DOCTYPE a [\n<b>]>".toList) (.unknown "<b>]>".toList) ∧
      parse { } "<!DOCTYPE a [\n<b>]>" = .error { kind := .malformed (.unknown ⟨2, 1⟩), line? := some 2 } := by
  have hended : Stage.runDocument
        "\ufeff<?xml version='1.0'?>\n<!-- -->\n <!DOCTYPE a [<!ENTITY b 'c'>\n<!-- ]> --><?d?> ".toList =
      .ended (.subset "<!DOCTYPE a [<!ENTITY b 'c'>\n<!-- ]> --><?d?> ".toList) := by decide +kernel
  have hfailed : Stage.runDocument "<!DOCTYPE a [\n<b>]>".toList =
      .failed (.subset "<!DOCTYPE a [\n<b>]>".toList) (.unknown "<b>]>".toList) := by decide +kernel
  exact ⟨hended, ((parse_of_open_subset { } _).1 _ hended).2.2, hfailed,
    (parse_of_open_subset { } _).2 _ _ hfailed⟩

end Template

end TalMarkup
