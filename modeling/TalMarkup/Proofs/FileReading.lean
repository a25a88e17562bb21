import TalMarkup.Proofs.Stopping
import TalMarkup.Proofs.Utf8

/-!
# Reading from a file

A file is read as the text that its bytes are in UTF-8, with the path as the file that nodes record. What goes wrong
in the text goes wrong in the same way in the file, and the error gets the path, which it has not by itself
(`Template.path?_of_parse`). A file that is no text, or is no file, gives an error with the path and without a line.

**`Template.readsFile`** says this of every path and of whatever it leads to; the bytes that are those of a text are
the well-formed ones (`Utf8.wellFormed_iff`).
-/

namespace TalMarkup

/-! ## 1. What is found at a path -/

theorem fromUTF8?_eq_some_iff {content : ByteArray} {source : String} :
    String.fromUTF8? content = some source ↔ source.toUTF8 = content := by
  rw [String.fromUTF8?, String.toUTF8_eq_toByteArray]
  constructor
  · intro h
    split at h
    · cases h
      rfl
    · cases h
  · rintro rfl
    rw [dif_pos source.isValidUTF8]
    rfl

-- U+D800 written as if it were a character
example : String.fromUTF8? ⟨#[0xED, 0xA0, 0x80]⟩ = none := by decide

theorem exists_toUTF8_iff {content : ByteArray} :
    (∃ source : String, source.toUTF8 = content) ↔ Utf8.WellFormed content.data.toList := by
  rw [Utf8.wellFormed_iff]
  refine exists_congr fun source => ?_
  rw [utf8Bytes, Array.toList_inj]
  exact ⟨congrArg ByteArray.data, ByteArray.ext⟩

namespace FileState

/-- What is found at a path. The empty path leads nowhere. -/
def found (file : FileState) (path : String) : FileState := if path = "" then .missing else file

variable {file : FileState} {path : String}

theorem text_of_found :
    file.text path =
      match file.found path with
      | .missing => .error .notFound
      | .directory => .error .isDirectory
      | .bytes content =>
        match String.fromUTF8? content with
        | none => .error .notUtf8
        | some source => .ok source := by
  by_cases hpath : path = ""
  · have hfound : file.found path = .missing := if_pos hpath
    rw [hfound]
    exact if_pos hpath
  · have hfound : file.found path = file := if_neg hpath
    rw [hfound]
    exact if_neg hpath

theorem text_of_source {source : String} (h : file.found path = .bytes source.toUTF8) :
    file.text path = .ok source := by
  have hbytes : String.fromUTF8? source.toUTF8 = some source := fromUTF8?_eq_some_iff.2 rfl
  rw [text_of_found, h]
  simp only [hbytes]

end FileState

/-! ## 2. Errors of a text have no path -/

theorem Assembly.path?_of_token {options : Options} {assembly : Assembly} {token : Token} {error : Error}
    (h : assembly.token options token = .error error) : error.path? = none := by
  cases token with
  | charData value => cases h
  | verbatim value => cases h
  | startTag tag =>
    rw [token_startTag rfl] at h
    split at h <;> cases h
    rfl
  | endTag close =>
    rcases hopen : assembly.openTags with _ | ⟨innermost, outer⟩
    · rw [token_endTag_nil hopen] at h
      cases h
      rfl
    · by_cases hname : close.name.recorded = innermost.tag.name
      · rw [token_endTag_match hopen hname] at h
        cases h
      · rw [token_endTag_mismatch hopen hname] at h
        cases h
        rfl

namespace Template

theorem path?_of_parse {options : Options} {source : String} {error : Error}
    (h : parse options source = .error error) : error.path? = none := by
  cases refused_of_parse h with
  | prolog _ herror =>
    rw [herror]
    rfl
  | token _ _ hrun =>
    obtain ⟨_, _, _, _, -, -, hstop⟩ := Assembly.exists_of_tokens_error hrun
    exact Assembly.path?_of_token hstop
  | fault _ _ _ herror =>
    rw [herror]
    rfl
  | finish _ _ _ hfinish =>
    rcases Assembly.error_of_finish hfinish with ⟨_, _, -, rfl⟩ | ⟨-, -, rfl⟩ <;> rfl

/-! ## 3. Reading -/

variable {options : Options} {path source : String} {file : FileState}

/-- **A file is read as its text**, with the path as the file that is recorded, and put into errors. -/
theorem parseFile_of_source (h : file.found path = .bytes source.toUTF8) :
    parseFile options path file =
      (parse { options with sourceFile := path } source).mapError (·.inFile path) := by
  rw [parseFile, readFile, FileState.text_of_source h, parse]
  rcases hread : read { options with sourceFile := path } 0 source with error | ⟨template, next⟩ <;>
    · simp only [hread]
      rfl

theorem parseFile_of_unreadable {reason : ReadError} (h : file.text path = .error reason) :
    parseFile options path file = .error { kind := .unreadable reason, path? := some path } := by
  rw [parseFile, readFile, h]
  rfl

/-- What comes of reading a file at a path. -/
structure ReadsFile (options : Options) (path : String) (file : FileState) : Prop where
  /-- The bytes of a text give the template of the text, where the path is the file of all nodes. -/
  ok_iff : ∀ source : String, file.found path = .bytes source.toUTF8 → ∀ template,
    parseFile options path file = .ok template ↔
      parse { options with sourceFile := path } source = .ok template
  /-- If the text is refused, so is the file, for the same cause and at the same line; the path is added. -/
  refused : ∀ source : String, file.found path = .bytes source.toUTF8 → ∀ error,
    parse { options with sourceFile := path } source = .error error →
      error.path? = none ∧ parseFile options path file = .error { error with path? := some path }
  /-- Bytes that are those of no text are not read. -/
  notUtf8 : ∀ content, file.found path = .bytes content → (∀ source : String, source.toUTF8 ≠ content) →
    parseFile options path file =
      .error { kind := .unreadable .notUtf8, path? := some path, line? := none }
  missing : file.found path = .missing →
    parseFile options path file =
      .error { kind := .unreadable .notFound, path? := some path, line? := none }
  directory : file.found path = .directory →
    parseFile options path file =
      .error { kind := .unreadable .isDirectory, path? := some path, line? := none }
  /-- The file name among the options does not matter. -/
  sourceFile : ∀ sourceFile, parseFile { options with sourceFile } path file = parseFile options path file

/-- **Reading a file agrees with reading its text**, and the bytes of a text are those that are well formed. -/
theorem readsFile :
    (∀ options path file, ReadsFile options path file) ∧
      ∀ content : ByteArray,
        (∃ source : String, source.toUTF8 = content) ↔ Utf8.WellFormed content.data.toList := by
  refine ⟨fun options path file => ?_, fun content => exists_toUTF8_iff⟩
  constructor
  case ok_iff =>
    intro source hfound template
    rw [parseFile_of_source hfound]
    rcases parse { options with sourceFile := path } source with error | other
    · exact ⟨nofun, nofun⟩
    · exact Iff.rfl
  case refused =>
    intro source hfound error herror
    rw [parseFile_of_source hfound, herror]
    exact ⟨path?_of_parse herror, rfl⟩
  case notUtf8 =>
    intro content hfound hnone
    refine parseFile_of_unreadable ?_
    rw [FileState.text_of_found, hfound]
    have hbytes : String.fromUTF8? content = none :=
      Option.eq_none_iff_forall_ne_some.2 fun source hsource => hnone source (fromUTF8?_eq_some_iff.1 hsource)
    simp only [hbytes]
  case missing =>
    intro hfound
    refine parseFile_of_unreadable ?_
    rw [FileState.text_of_found, hfound]
  case directory =>
    intro hfound
    refine parseFile_of_unreadable ?_
    rw [FileState.text_of_found, hfound]
  case sourceFile => exact fun sourceFile => rfl

end Template

end TalMarkup
