import TalMarkup.Proofs.Continuing
import TalMarkup.Proofs.Verdict

/-!
# Reading stops at a wrong closing tag

A closing tag that does not belong to the innermost open tag is reported as soon as it is read. So nothing
that follows it matters, whether it can be read or not.

A run that ends with this error was refused a closing tag (`Assembly.exists_endTag_of_misfit`), and all
tokens up to that tag are read the same with more text behind. **`Template.parse_append_of_misfit`** puts
this together.
-/

namespace TalMarkup

/-- The cause is a closing tag that does not belong to the innermost open tag. -/
def ErrorKind.IsMisfit : ErrorKind → Prop
  | .unexpectedClosing _ => True
  | .mismatchedTag _ _ => True
  | _ => False

namespace Assembly

variable {options : Options} {assembly : Assembly} {tokens : List Token} {error : Error}

/-- **A run that is stopped is stopped at the first token that is refused.** -/
theorem exists_of_tokens_error (h : assembly.tokens options tokens = .error error) :
    ∃ front token back mid, tokens = front ++ token :: back ∧ assembly.tokens options front = .ok mid ∧
      mid.token options token = .error error := by
  induction tokens generalizing assembly with
  | nil => cases h
  | cons first tokens ih =>
    rcases hfirst : assembly.token options first with error' | next
    · rw [Assembly.tokens, hfirst] at h
      cases h
      exact ⟨[], first, tokens, assembly, rfl, rfl, hfirst⟩
    · rw [tokens_cons_of_ok hfirst] at h
      obtain ⟨front, token, back, mid, rfl, hfront, hstop⟩ := ih h
      exact ⟨first :: front, token, back, mid, rfl, by rw [tokens_cons_of_ok hfirst, hfront], hstop⟩

/-- Of all tokens only closing tags are refused because they do not fit. -/
theorem exists_endTag_of_misfit {token : Token} (h : assembly.token options token = .error error)
    (hkind : error.kind.IsMisfit) : ∃ close, token = .endTag close := by
  cases token with
  | charData value => cases h
  | verbatim value => cases h
  | startTag tag =>
    rw [token_startTag rfl] at h
    split at h
    · cases h
    · cases h
    · cases h
      exact hkind.elim
  | endTag close => exact ⟨close, rfl⟩

end Assembly

namespace Template

variable {options : Options} {source : String} {error : Error}

/-- **A wrong closing tag is found while tokens are taken in**: neither the markup nor the end of the
    source is reported so. -/
theorem tokens_of_misfit (h : parse options source = .error error) (hkind : error.kind.IsMisfit) :
    ∃ prolog, Prolog.read source.toList = .ok prolog ∧
      (Assembly.atBody options prolog 0).tokens options (Body.read prolog.body).tokens = .error error := by
  cases refused_of_parse h with
  | prolog _ herror =>
    rw [herror] at hkind
    exact hkind.elim
  | token hprolog hbody hrun => exact ⟨_, hprolog, by rw [hbody]; exact hrun⟩
  | fault _ _ _ herror =>
    rw [herror] at hkind
    exact hkind.elim
  | finish _ _ _ hfinish =>
    rcases Assembly.error_of_finish hfinish with ⟨_, _, -, rfl⟩ | ⟨-, -, rfl⟩
    · exact hkind.elim
    · exact hkind.elim

/-- **What follows a wrong closing tag does not matter**: the error is the same, with its names and its
    line. -/
theorem parse_append_of_misfit (h : parse options source = .error error) (hkind : error.kind.IsMisfit)
    (more : String) : parse options (source ++ more) = .error error := by
  obtain ⟨prolog, hprolog, hrun⟩ := tokens_of_misfit h hkind
  obtain ⟨front, token, back, mid, htokens, hfront, hstop⟩ := Assembly.exists_of_tokens_error hrun
  obtain ⟨close, rfl⟩ := Assembly.exists_endTag_of_misfit hstop hkind
  have hbody : Body.read prolog.body = ⟨front ++ .endTag close :: back, (Body.read prolog.body).fault?⟩ := by
    rw [← htokens]
  have hmarked : Marked prolog.body :=
    Body.marked_of_read hbody nofun (List.mem_append_right _ List.mem_cons_self)
  have hprolog' : Prolog.read (source ++ more).toList = .ok (prolog.followedBy more.toList) := by
    rw [String.toList_append]
    exact Prolog.read_append hprolog (Or.inl hmarked)
  obtain ⟨back', fault', hbody'⟩ := Body.read_append_text hbody (fun _ => trivial) more.toList
  exact parse_eq_error hprolog' hbody' (Assembly.tokens_of_stop hfront hstop back')

theorem parse_append_of_misfit_mismatch :
    parse { } "<!-- -->\n<a>\n<b></a>" =
        .error { kind := .mismatchedTag "b" "a", line? := some 3 } ∧
      ∀ more, parse { } ("<!-- -->\n<a>\n<b></a>" ++ more) =
        .error { kind := .mismatchedTag "b" "a", line? := some 3 } := by
  have hparse : parse { } "<!-- -->\n<a>\n<b></a>" =
      .error { kind := .mismatchedTag "b" "a", line? := some 3 } := map_parse_eq_error_iff.1 (by decide +kernel)
  exact ⟨hparse, parse_append_of_misfit hparse trivial⟩

end Template

end TalMarkup
