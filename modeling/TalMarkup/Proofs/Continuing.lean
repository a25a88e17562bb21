import TalMarkup.Proofs.Extending
import TalMarkup.Proofs.Prologs

/-!
# Sources with more text behind

Where a prolog ends is decided by what follows it. So text behind a source may turn what was its body into
one more item of its prolog: the input may end in the middle of one. But this cannot be where a piece of
markup of the body was read (`Marked`), nor where a start tag begins the text behind.

* **`Prolog.read_append`**: then the prolog is the same, and the body goes on with the text behind.
* **`Body.read_append_text`**: the tokens of a body stay up to the last one that does not depend on what
  follows it.
-/

namespace TalMarkup

namespace Prolog

/-! ## 1. What stands next -/

/-- What is found, with more text behind it. -/
def Next.followedBy (more : List Char) : Next → Next
  | .item kind text rest => .item kind text (rest ++ more)
  | .startTag => .startTag
  | .other => .other

variable {doctypeSeen : Bool} {skipped cs rest text more : List Char} {kind : Kind} {found : Next}
  {prolog : Prolog}

/-- The end of every item is a `>`. -/
theorem mem_of_next_item (h : next doctypeSeen cs = .ok (.item kind text rest)) : '>' ∈ cs := by
  rw [next_eq_ok_iff] at h
  cases h with
  | doctype _ _ hread => exact (Doctype.read_append hread []).1
  | comment hread =>
    obtain ⟨⟨body, rfl, -⟩, rfl⟩ := Scan.comment_eq_ok.1 hread
    simp
  | instruction _ hread =>
    obtain ⟨⟨target, body, rfl, -⟩, rfl⟩ := Scan.instruction_eq_ok.1 hread
    simp

theorem readPart_append_append {whole : List Char} (h : rest <:+ whole) (more : List Char) :
    readPart (whole ++ more) (rest ++ more) = readPart whole rest := by
  obtain ⟨part, rfl⟩ := h
  rw [List.append_assoc, readPart_append, readPart_append]

/-- The name of a tag does not go on behind a `>`. -/
theorem StartsWithTag.append (h : StartsWithTag cs) (hopen : '>' ∈ cs) (more : List Char) :
    StartsWithTag (cs ++ more) := by
  obtain ⟨name, rest, hname, rfl, hrest⟩ := h
  have hnot : '>' ∉ name.text := fun hmem => absurd (hname.text_isNameChar _ hmem) (by decide)
  have hne : rest ≠ [] := by
    rintro rfl
    rw [List.append_nil, List.mem_cons] at hopen
    exact hnot (hopen.resolve_left (by decide))
  rw [← nextIs_append_of_ne_nil _ hne more] at hrest
  exact ⟨name, rest ++ more, hname, by rw [List.cons_append, List.append_assoc], hrest⟩

/-- **What stands next is found the same with more text behind.** Only a doctype that the input ends in
    may turn into an item. -/
theorem next_append (h : next doctypeSeen cs = .ok found) (hopen : '>' ∈ cs)
    (hdoctype : found = .other → startsWith "<!DOCTYPE" cs = false) (more : List Char) :
    next doctypeSeen (cs ++ more) = .ok (found.followedBy more) := by
  rw [next_eq_ok_iff] at h ⊢
  cases h with
  | doctype hmark hseen hread =>
    have hpart := readPart_append_append (Doctype.shorter_of_read hread).1 more
    rw [Next.followedBy, ← hpart]
    exact .doctype (by rwa [startsWith_append (by decide) hopen]) hseen (Doctype.read_append hread more).2
  | cutDoctype hmark =>
    rw [hdoctype rfl] at hmark
    cases hmark
  | comment hread => exact .comment (Scan.append_of_spelled Scan.comment_eq_ok hread more)
  | instruction hdeclaration hread =>
    exact .instruction (by rwa [startsWith_append (by decide) hopen])
      (Scan.append_of_spelled Scan.instruction_eq_ok hread more)
  | startTag htag => exact .startTag (htag.append hopen more)
  | declaration hmark => exact .declaration (by rwa [startsWith_append (by decide) hopen])
  | bang hmark hcomment hdoctype =>
    refine .bang ?_ ?_ ?_
    · rwa [startsWith_append (by decide) hopen]
    · rwa [startsWith_append (by decide) hopen]
    · rwa [startsWith_append (by decide) hopen]
  | text hlt => exact .text (by rwa [startsWith_append (by decide) hopen])

end Prolog

/-! ## 2. Markup in a body -/

/-- There is markup in the text, with a `>` in it or behind it, and the first is read as a token. -/
def Marked (cs : List Char) : Prop :=
  ∃ text rest token after, cs = text ++ rest ∧ '<' ∉ text ∧ nextIs (· == '<') rest = true ∧ '>' ∈ rest ∧
    Token.first rest = .ok (token, after)

/-- The token is markup, not character data. -/
def Token.IsMarkup (token : Token) : Prop := ∀ value, token ≠ .charData value

theorem Token.exists_of_not_isMarkup {token : Token} (h : ¬ token.IsMarkup) :
    ∃ value, token = .charData value := by
  by_contra hnot
  exact h fun value heq => hnot ⟨value, heq⟩

namespace Marked

variable {cs plain : List Char}

theorem mem (h : Marked cs) : '>' ∈ cs := by
  obtain ⟨text, rest, _, _, rfl, -, -, hopen, -⟩ := h
  exact List.mem_append_right text hopen

/-- **The first markup comes behind all text without a `<`.** -/
theorem of_append (h : Marked (plain ++ cs)) (hplain : '<' ∉ plain) : Marked cs := by
  obtain ⟨text, rest, token, after, heq, htext, hlt, hopen, hfirst⟩ := h
  rcases List.append_eq_append_iff.1 heq with ⟨inner, rfl, rfl⟩ | ⟨inner, rfl, rfl⟩
  · exact ⟨inner, rest, token, after, rfl, fun h => htext (List.mem_append_right _ h), hlt, hopen, hfirst⟩
  · cases inner with
    | nil => exact ⟨[], cs, token, after, rfl, List.not_mem_nil, hlt, hopen, hfirst⟩
    | cons c inner =>
      obtain rfl : c = '<' := beq_iff_eq.1 hlt
      exact absurd (List.mem_append_right text List.mem_cons_self) hplain

/-- What is found in front of markup is no doctype. -/
theorem not_doctype (h : Marked cs) : startsWith "<!DOCTYPE" cs = false := by
  obtain ⟨text, rest, token, after, rfl, htext, hlt, hopen, hfirst⟩ := h
  rw [Bool.eq_false_iff]
  intro hdoctype
  obtain ⟨more, hmore⟩ := Scan.startsWith_iff.1 hdoctype
  cases text with
  | cons c text =>
    obtain rfl : '<' = c := (List.cons.inj hmore).1
    exact htext List.mem_cons_self
  | nil =>
    rw [List.nil_append] at hmore
    rw [← hmore] at hfirst
    cases hfirst

end Marked

theorem Token.Formed.nextIs_text {token : Token} (h : token.Formed) (hmarkup : token.IsMarkup)
    (rest : List Char) : nextIs (· == '<') (token.text ++ rest) = true := by
  cases token with
  | charData value => exact absurd rfl (hmarkup value)
  | verbatim value =>
    rcases h with ⟨body, rfl, -⟩ | ⟨body, rfl, -⟩ | ⟨⟨target, body, rfl, -⟩, -⟩ <;> rfl
  | startTag tag => rfl
  | endTag tag => rfl

theorem Token.EndsBefore.append {token : Token} {rest : List Char} (h : token.EndsBefore rest)
    (hne : rest ≠ []) (more : List Char) : token.EndsBefore (rest ++ more) := by
  cases token with
  | charData value =>
    refine Or.inr ?_
    rw [nextIs_append_of_ne_nil _ hne]
    exact h.resolve_left hne
  | verbatim value => trivial
  | startTag tag => exact fun hcut => absurd (h hcut) hne
  | endTag tag => trivial

namespace Body

variable {cs : List Char} {front back : List Token} {token : Token} {fault? : Option (Fault (List Char))}

/-- **A body is marked if some of its tokens is markup that ends with a `>`.** -/
theorem marked_of_read (h : read cs = ⟨front ++ token :: back, fault?⟩) (hmarkup : token.IsMarkup)
    (hopen : '>' ∈ token.text) : Marked cs := by
  induction front generalizing cs with
  | nil =>
    obtain ⟨hne, rest, hfirst, -⟩ := read_cons_iff.1 h
    obtain ⟨hformed, rfl, -⟩ := (Token.first_eq_ok hne).1 hfirst
    exact ⟨[], _, token, rest, rfl, List.not_mem_nil, hformed.nextIs_text hmarkup rest,
      List.mem_append_left rest hopen, hfirst⟩
  | cons first front ih =>
    obtain ⟨hne, rest, hfirst, hread⟩ := read_cons_iff.1 h
    obtain ⟨hformed, rfl, -⟩ := (Token.first_eq_ok hne).1 hfirst
    have hmarked := ih hread
    by_cases hdata : first.IsMarkup
    · exact ⟨[], _, first, rest, rfl, List.not_mem_nil, hformed.nextIs_text hdata rest,
        List.mem_append_right _ hmarked.mem, hfirst⟩
    · obtain ⟨value, rfl⟩ := Token.exists_of_not_isMarkup hdata
      obtain ⟨text, after, next, more, rfl, htext, hnext⟩ := hmarked
      refine ⟨value ++ text, after, next, more, (List.append_assoc _ _ _).symm, ?_, hnext⟩
      rw [List.mem_append, not_or]
      exact ⟨hformed.2.2.1, htext⟩

/-- **With text behind a body its tokens stay**, up to one that does not depend on what follows it. -/
theorem read_append_text (h : read cs = ⟨front ++ token :: back, fault?⟩)
    (htoken : ∀ rest, token.EndsBefore rest) (more : List Char) :
    ∃ back' fault', read (cs ++ more) = ⟨front ++ token :: back', fault'⟩ := by
  induction front generalizing cs with
  | nil =>
    obtain ⟨hne, rest, hfirst, -⟩ := read_cons_iff.1 h
    obtain ⟨hformed, rfl, -⟩ := (Token.first_eq_ok hne).1 hfirst
    have hne' : token.text ++ rest ++ more ≠ [] := List.append_ne_nil_of_left_ne_nil hne more
    exact ⟨_, _, read_cons_iff.2 ⟨hne', rest ++ more,
      (Token.first_eq_ok hne').2 ⟨hformed, List.append_assoc _ _ _, htoken _⟩, rfl⟩⟩
  | cons first front ih =>
    obtain ⟨hne, rest, hfirst, hread⟩ := read_cons_iff.1 h
    obtain ⟨hformed, rfl, hends⟩ := (Token.first_eq_ok hne).1 hfirst
    have hrest : rest ≠ [] := by
      rintro rfl
      rw [read] at hread
      simp at hread
    obtain ⟨back', fault', hmore⟩ := ih hread
    have hne' : first.text ++ rest ++ more ≠ [] := List.append_ne_nil_of_left_ne_nil hne more
    exact ⟨back', fault', read_cons_iff.2 ⟨hne', rest ++ more,
      (Token.first_eq_ok hne').2 ⟨hformed, List.append_assoc _ _ _, hends.append hrest more⟩, hmore⟩⟩

end Body

/-! ## 3. The whole prolog -/

namespace Prolog

variable {doctypeSeen : Bool} {skipped cs rest text more : List Char} {kind : Kind} {prolog : Prolog}

/-- The prolog of a source with more text behind. -/
def followedBy (prolog : Prolog) (more : List Char) : Prolog := { prolog with body := prolog.body ++ more }

/-- The body starts where it does whatever is found in it or behind it: there is markup in it, or it is
    empty and a start tag follows. -/
def Settled (body more : List Char) : Prop := Marked body ∨ body = [] ∧ StartsWithTag more

/-- Spaces in front of something else are the same with more text behind. -/
theorem dropWhile_isSpace_append (h : cs.dropWhile isSpace ≠ []) (more : List Char) :
    (cs ++ more).takeWhile isSpace = cs.takeWhile isSpace ∧
      (cs ++ more).dropWhile isSpace = cs.dropWhile isSpace ++ more := by
  obtain ⟨hcs, hgap, hrest⟩ := takeWhile_dropWhile_eq_iff.1 (⟨rfl, rfl⟩ : _ ∧ cs.dropWhile isSpace = _)
  refine takeWhile_dropWhile_eq_iff.2 ⟨?_, hgap, ?_⟩
  · rw [← List.append_assoc, ← hcs]
  · rwa [nextIs_append_of_ne_nil _ h]

theorem lt_not_mem_takeWhile (cs : List Char) : '<' ∉ cs.takeWhile isSpace := fun hmem =>
  absurd (List.mem_takeWhile_imp hmem) (by decide)

/-- Behind spaces and what was skipped a marked text is marked. -/
theorem Marked.dropWhile_isSpace (h : Marked (skipped ++ cs)) (hskipped : '<' ∉ skipped) :
    Marked (cs.dropWhile isSpace) := by
  have hwhole : Marked (cs.takeWhile isSpace ++ cs.dropWhile isSpace) := by
    rw [List.takeWhile_append_dropWhile]
    exact h.of_append hskipped
  exact hwhole.of_append (lt_not_mem_takeWhile cs)

/-- An item is read off the front, whatever follows. -/
theorem readItems_append_of_item (h : next doctypeSeen (cs.dropWhile isSpace) = .ok (.item kind text rest))
    (more : List Char) :
    readItems doctypeSeen skipped (cs ++ more) =
      (readItems (doctypeSeen || kind == .doctype) [] (rest ++ more)).map
        (cons ⟨skipped ++ cs.takeWhile isSpace, kind, text⟩) := by
  have hopen : '>' ∈ cs.dropWhile isSpace := mem_of_next_item h
  obtain ⟨hgap, hunread⟩ := dropWhile_isSpace_append (List.ne_nil_of_mem hopen) more
  have hnext : next doctypeSeen ((cs ++ more).dropWhile isSpace) = .ok (.item kind text (rest ++ more)) := by
    rw [hunread]
    exact next_append h hopen Next.noConfusion more
  rw [readItems_of_item hnext, hgap]

/-- **The items of a prolog stay with text behind.** -/
theorem readItems_append (h : readItems doctypeSeen skipped cs = .ok prolog) (hskipped : '<' ∉ skipped)
    (hbody : Settled prolog.body more) :
    readItems doctypeSeen skipped (cs ++ more) = .ok (prolog.followedBy more) := by
  fun_induction readItems doctypeSeen skipped cs generalizing prolog with
  | case1 => cases h
  | case2 doctypeSeen skipped cs gap unread =>
    rename_i hnext
    cases h
    have htag : StartsWithTag unread := next_eq_startTag_iff.1 hnext
    obtain ⟨name, rest, -, hname, -⟩ := htag
    have hne : unread ≠ [] := hname ▸ List.cons_ne_nil _ _
    have hmarked : Marked unread := hbody.resolve_right fun hnil => hne hnil.1
    obtain ⟨hgap, hunread⟩ := dropWhile_isSpace_append hne more
    have hnext' : next doctypeSeen ((cs ++ more).dropWhile isSpace) = .ok .startTag := by
      rw [hunread]
      exact next_append hnext hmarked.mem Next.noConfusion more
    rw [readItems_of_startTag hnext', hgap, hunread]
    rfl
  | case3 doctypeSeen skipped cs unread =>
    rename_i hnext
    cases h
    rcases hbody with hmarked | ⟨hnil, htag⟩
    · have hmarked' : Marked unread := Marked.dropWhile_isSpace hmarked hskipped
      obtain ⟨-, hunread⟩ := dropWhile_isSpace_append (List.ne_nil_of_mem hmarked'.mem) more
      have hnext' : next doctypeSeen ((cs ++ more).dropWhile isSpace) = .ok .other := by
        rw [hunread]
        exact next_append hnext hmarked'.mem (fun _ => hmarked'.not_doctype) more
      rw [readItems_of_other hnext', ← List.append_assoc]
      rfl
    · obtain ⟨rfl, rfl⟩ := List.append_eq_nil_iff.1 hnil
      obtain ⟨hgap, hunread⟩ := htag.dropWhile_isSpace
      have hnext' : next doctypeSeen (more.dropWhile isSpace) = .ok .startTag := by
        rw [hunread]
        exact next_eq_startTag_iff.2 htag
      rw [List.nil_append, readItems_of_startTag hnext', hgap, hunread]
      rfl
  | case4 => cases h
  | case5 doctypeSeen skipped cs gap unread kind text rest hnext prolog' hread =>
    rename_i ih
    cases h
    rw [readItems_append_of_item hnext, ih hread List.not_mem_nil hbody]
    rfl

/-- Where items are read there is a `>`, or nothing at all. -/
theorem mem_of_readItems (h : readItems doctypeSeen skipped cs = .ok prolog) (hskipped : '<' ∉ skipped)
    (hbody : Settled prolog.body more) : '>' ∈ cs ∨ cs = [] ∧ StartsWithTag more := by
  have hmem : '>' ∈ cs.dropWhile isSpace → '>' ∈ cs := fun h => (List.dropWhile_suffix _).subset h
  rw [readItems] at h
  split at h
  · cases h
  · rename_i hnext
    cases h
    obtain ⟨name, rest, -, hname, -⟩ := next_eq_startTag_iff.1 hnext
    refine Or.inl (hmem (Marked.mem (hbody.resolve_right fun hnil => ?_)))
    exact absurd (hname.symm.trans hnil.1) (List.cons_ne_nil _ _)
  · cases h
    rcases hbody with hmarked | ⟨hnil, htag⟩
    · exact Or.inl (hmem (Marked.dropWhile_isSpace hmarked hskipped).mem)
    · exact Or.inr ⟨(List.append_eq_nil_iff.1 hnil).2, htag⟩
  · rename_i hnext
    exact Or.inl (hmem (mem_of_next_item hnext))

/-- **A declaration is read the same with more text behind.** -/
theorem readFrom_of_declaration (hdeclaration : startsWith "<?xml " cs = true)
    (h : Scan.within .declaration (Scan.text Scan.declaration) cs = .ok (text, rest)) (more : List Char) :
    readFrom skipped (cs ++ more) =
      (readItems false [] (rest ++ more)).map (cons ⟨skipped, .declaration, text⟩) := by
  obtain ⟨⟨u, hscan⟩, rfl⟩ := Scan.text_eq_ok.1 (Scan.within_eq_ok.1 h)
  obtain ⟨hopen, hscan'⟩ := Scan.extends_declaration hscan trivial
  have hpart := readPart_append_append (Scan.advances_declaration hscan).1 more
  have hread : Scan.within .declaration (Scan.text Scan.declaration) (cs ++ more) =
      .ok (readPart cs rest, rest ++ more) :=
    Scan.within_eq_ok.2 (Scan.text_eq_ok.2 ⟨⟨u, hscan'⟩, hpart.symm⟩)
  have hdeclaration' : startsWith "<?xml " (cs ++ more) = true := by
    rw [startsWith_append (by decide) hopen, hdeclaration]
  exact readFrom_of_text hdeclaration' hread

theorem readFrom_append (h : readFrom skipped cs = .ok prolog) (hskipped : '<' ∉ skipped)
    (hbody : Settled prolog.body more) :
    readFrom skipped (cs ++ more) = .ok (prolog.followedBy more) := by
  unfold readFrom at h
  split at h
  · rename_i hdeclaration
    split at h
    · cases h
    · rename_i text rest hread
      split at h
      · cases h
      · rename_i prolog' hitems
        cases h
        rw [readFrom_of_declaration hdeclaration hread, readItems_append hitems List.not_mem_nil hbody]
        rfl
  · rename_i hdeclaration
    have hsame : startsWith "<?xml " (cs ++ more) = false := by
      rcases mem_of_readItems h hskipped hbody with hopen | ⟨rfl, htag⟩
      · rw [startsWith_append (by decide) hopen]
        exact Bool.eq_false_iff.2 hdeclaration
      · exact htag.not_declaration
    rw [readFrom, hsame]
    exact readItems_append h hskipped hbody

/-- **The prolog of a source is the same with text behind**, if it is settled where the body starts. -/
theorem read_append {source : List Char} (h : read source = .ok prolog) (hbody : Settled prolog.body more) :
    read (source ++ more) = .ok (prolog.followedBy more) := by
  cases source with
  | nil =>
    have hnil : prolog.body = [] := (List.append_eq_nil_iff.1 (spelling_of_read h)).2
    have hempty : ¬ Marked prolog.body := by
      rw [hnil]
      exact fun hmarked => List.not_mem_nil hmarked.mem
    obtain ⟨name, rest, -, rfl, -⟩ := (hbody.resolve_left hempty).2
    exact readFrom_append h List.not_mem_nil hbody
  | cons c cs =>
    rw [List.cons_append, read]
    rw [read] at h
    split at h
    · rename_i hmark
      rw [if_pos hmark]
      refine readFrom_append h ?_ hbody
      rw [hmark]
      decide
    · rename_i hmark
      rw [if_neg hmark]
      exact readFrom_append h List.not_mem_nil hbody

end Prolog

end TalMarkup
