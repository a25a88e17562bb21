import TalMarkup.Markup.Doctype
import TalMarkup.Proofs.Tokens

/-!
# Scanning with more text behind

A scanner may look further than it reads: at the next character, to see that a name ends there, or at a
mark that does not stand there. Text behind its input can change what it sees, but not while a `>` is still
unread: no name and no mark goes on over a `>`.

`Scan.Extends` says that a scanner reads the same with more text behind. It passes from the parts of a `do`
block to the whole (`Scan.extends_bind`), so that it holds of everything that a `>` ends:

* `Scan.extends_declaration`: an XML declaration;
* **`Doctype.read_append`**: a doctype with all in its internal subset.

The pieces of a body need no such argument: of them it is known which texts are read
(`Token.first_eq_ok`).
-/

namespace TalMarkup

namespace Scan

variable {α β : Type} {more : List Char}

/-! ## 1. Scanners that read the same -/

/-- Whenever `p` holds of what `s` gives, there is a `>` in its input, and `s'` gives the same with `more`
    behind. -/
def Extends (more : List Char) (p : α → List Char → Prop) (s s' : Scan α) : Prop :=
  ∀ ⦃cs a rest⦄, s cs = .ok (a, rest) → p a rest →
    '>' ∈ cs ∧ s' (cs ++ more) = .ok (a, rest ++ more)

/-- There is a `>` in what a scanner leaves. -/
def Open (_ : α) (rest : List Char) : Prop := '>' ∈ rest

/-- **A sequence of two scanners reads the same if the first does in front of a `>`, and the second.** -/
theorem extends_bind {p : β → List Char → Prop} {s s' : Scan α} {f f' : α → Scan β}
    (hs : Extends more Open s s') (hf : ∀ a, Extends more p (f a) (f' a)) :
    Extends more p (s >>= f) (s' >>= f') := by
  intro cs b rest h hp
  obtain ⟨a, mid, h₁, h₂⟩ := bind_eq_ok.1 h
  obtain ⟨hmid, hsecond⟩ := hf a h₂ hp
  obtain ⟨hcs, hfirst⟩ := hs h₁ hmid
  exact ⟨hcs, bind_eq_ok.2 ⟨a, mid ++ more, hfirst, hsecond⟩⟩

theorem extends_pure (a : α) : Extends more Open (pure a : Scan α) (pure a) := by
  intro cs b rest h hopen
  cases h
  exact ⟨hopen, rfl⟩

theorem extends_throw {p : α → List Char → Prop} (cause : Cause (List Char)) (s : Scan α) :
    Extends more p (throw cause) s := by
  intro cs a rest h
  cases h

/-- Where a scanner looks at the unread text it may take there is a `>` in it. -/
theorem extends_get {f f' : List Char → Scan α} (hkeeps : Keeps (get >>= f))
    (hf : ∀ unread, '>' ∈ unread → Extends more Open (f unread) (f' (unread ++ more))) :
    Extends more Open (get >>= f) (get >>= f') := by
  intro cs a rest h hopen
  have hcs : '>' ∈ cs := (hkeeps h).subset hopen
  obtain ⟨unread, mid, hget, h⟩ := bind_eq_ok.1 h
  cases hget
  exact ⟨hcs, bind_eq_ok.2 ⟨cs ++ more, cs ++ more, rfl, (hf cs hcs h hopen).2⟩⟩

/-! ## 2. The scanners, one by one -/

theorem extends_char (x : Char) : Extends more Open (char x) (char x) := by
  intro cs a rest h hopen
  rw [char_eq_ok.1 h]
  exact ⟨List.mem_cons_of_mem x hopen, char_eq_ok.2 rfl⟩

theorem extends_literal (mark : String) : Extends more Open (literal mark) (literal mark) := by
  intro cs a rest h hopen
  rw [literal_eq_ok.1 h]
  exact ⟨List.mem_append_right _ hopen, literal_eq_ok.2 (List.append_assoc _ _ _)⟩

theorem extends_quote : Extends more Open quote quote := by
  intro cs mark rest h hopen
  obtain ⟨rfl, hmark⟩ := quote_eq_ok.1 h
  exact ⟨List.mem_cons_of_mem mark hopen, quote_eq_ok.2 ⟨rfl, hmark⟩⟩

theorem extends_span (p : Char → Bool) : Extends more Open (span p) (span p) := by
  intro cs part rest h hopen
  obtain ⟨rfl, hpart, hnext⟩ := span_eq_ok.1 h
  refine ⟨List.mem_append_right part hopen, span_eq_ok.2 ⟨List.append_assoc _ _ _, hpart, ?_⟩⟩
  rwa [nextIs_append_of_ne_nil p (List.ne_nil_of_mem hopen)]

theorem extends_someSpaces : Extends more Open someSpaces someSpaces := by
  intro cs gap rest h hopen
  cases cs with
  | nil => cases h
  | cons c cs =>
    simp only [someSpaces] at h
    split at h
    · rename_i hspace
      obtain ⟨hcs, hspan⟩ := extends_span isSpace h hopen
      exact ⟨hcs, by rwa [List.cons_append, someSpaces, if_pos hspace]⟩
    · cases h

theorem extends_name : Extends more Open name name := by
  intro cs value rest h hopen
  obtain ⟨rfl, hstart, hchars, hnext⟩ := name_eq_ok.1 h
  refine ⟨List.mem_append_right value hopen,
    name_eq_ok.2 ⟨List.append_assoc _ _ _, hstart, hchars, ?_⟩⟩
  rwa [nextIs_append_of_ne_nil _ (List.ne_nil_of_mem hopen)]

theorem extends_optionalName : Extends more Open optionalName optionalName := by
  intro cs value rest h hopen
  cases cs with
  | nil => cases h; exact absurd hopen List.not_mem_nil
  | cons c cs => exact extends_name h hopen

theorem extends_equals : Extends more Open equals equals :=
  extends_bind (extends_span _) fun _ => extends_bind (extends_char _) fun _ =>
    extends_bind (extends_span _) fun _ => extends_pure _

theorem extends_quoted : Extends more Open quoted quoted :=
  extends_bind extends_quote fun _ => extends_bind (extends_span _) fun _ => extends_char _

theorem extends_whenNext {mark : String} (hmark : '>' ∉ mark.toList.dropLast) {s : Scan Unit}
    (hkeeps : Keeps s) (hs : Extends more Open s s) :
    Extends more Open (whenNext mark s) (whenNext mark s) := by
  intro cs a rest h hopen
  have hcs : '>' ∈ cs := (keeps_whenNext hkeeps h).subset hopen
  refine ⟨hcs, ?_⟩
  rw [whenNext, startsWith_append hmark hcs]
  simp only [whenNext] at h
  split at h
  · rename_i hfront
    rw [if_pos hfront]
    exact (extends_bind (extends_literal mark) (fun _ => hs) h hopen).2
  · rename_i hfront
    rw [if_neg hfront]
    cases h
    rfl

/-- A scanner that reads whatever is spelled in front reads it the same, whatever follows. -/
theorem append_of_spelled {s : Scan (List Char)} {p : List Char → Prop}
    (hs : ∀ {cs value rest}, s cs = .ok (value, rest) ↔ p value ∧ cs = value ++ rest)
    {cs value rest : List Char} (h : s cs = .ok (value, rest)) (more : List Char) :
    s (cs ++ more) = .ok (value, rest ++ more) := by
  obtain ⟨hvalue, rfl⟩ := hs.1 h
  exact hs.2 ⟨hvalue, List.append_assoc _ _ _⟩

theorem extends_comment : Extends more Open comment comment := fun _ _ _ h hopen =>
  ⟨(advances_comment h).1.subset hopen, append_of_spelled comment_eq_ok h more⟩

theorem extends_instruction : Extends more Open instruction instruction := fun _ _ _ h hopen =>
  ⟨(advances_instruction h).1.subset hopen, append_of_spelled instruction_eq_ok h more⟩

/-! ## 3. The XML declaration -/

theorem extends_declarationGap : Extends more Open declarationGap declarationGap := by
  refine extends_get keeps_declarationGap fun unread hunread => ?_
  have hempty : (unread ++ more).isEmpty = unread.isEmpty := by
    cases unread with
    | nil => exact absurd hunread List.not_mem_nil
    | cons c cs => rfl
  rw [hempty, startsWith_append (by decide) hunread]
  split
  · exact extends_pure _
  · exact extends_bind extends_someSpaces fun _ => extends_pure _

theorem extends_encodingValue : Extends more Open encodingValue encodingValue :=
  extends_bind extends_equals fun _ => extends_bind extends_quote fun _ =>
    extends_bind (extends_span _) fun _ => extends_bind (extends_char _) fun _ => extends_declarationGap

theorem extends_standaloneValue : Extends more Open standaloneValue standaloneValue := by
  refine extends_bind extends_equals fun _ => extends_bind extends_quote fun mark => extends_get ?_ ?_
  · refine keeps_bind keeps_get fun _ => keeps_bind keeps_name fun _ => ?_
    split
    · exact (advances_char _).keeps
    · exact keeps_throw _
  · refine fun unread _ => extends_bind extends_name fun value => ?_
    by_cases hvalue : value = ['y', 'e', 's'] ∨ value = ['n', 'o']
    · simp only [Bool.or_eq_true, decide_eq_true_eq, hvalue, if_true]
      exact extends_char mark
    · simp only [Bool.or_eq_true, decide_eq_true_eq, hvalue, if_false]
      exact extends_throw _ _

/-- **An XML declaration is read the same, whatever follows.** -/
theorem extends_declaration : Extends more (fun _ _ => True) declaration declaration := by
  refine extends_bind (extends_literal _) fun _ => extends_bind (extends_span _) fun _ =>
    extends_bind (extends_literal _) fun _ => extends_bind extends_equals fun _ =>
      extends_bind extends_quote fun _ => extends_bind (extends_literal _) fun _ =>
        extends_bind (extends_span _) fun _ => extends_bind (extends_char _) fun _ =>
          extends_bind extends_declarationGap fun _ =>
            extends_bind (extends_whenNext (by decide) keeps_encodingValue extends_encodingValue) fun _ =>
              extends_bind (extends_whenNext (by decide) keeps_standaloneValue extends_standaloneValue)
                fun _ => extends_bind (extends_span _) fun _ => ?_
  intro cs a rest h _
  rw [literal_eq_ok.1 h]
  exact ⟨List.mem_append_left _ (by decide), literal_eq_ok.2 (List.append_assoc _ _ _)⟩

/-! ## 4. The document type declaration -/

theorem extends_externalId : Extends more Open externalId externalId := by
  refine extends_get keeps_externalId fun unread hunread => ?_
  rw [startsWith_append (by decide) hunread, startsWith_append (by decide) hunread]
  split
  · exact extends_bind (extends_literal _) fun _ => extends_bind extends_someSpaces fun _ =>
      extends_bind extends_quoted fun _ => extends_pure _
  · split
    · exact extends_bind (extends_literal _) fun _ => extends_bind extends_someSpaces fun _ =>
        extends_bind extends_quoted fun _ => extends_bind extends_someSpaces fun _ =>
          extends_bind extends_quoted fun _ => extends_pure _
    · exact extends_pure _

theorem extends_entityNotation : Extends more Open entityNotation entityNotation :=
  extends_bind extends_someSpaces fun _ => extends_bind extends_optionalName fun _ => extends_pure _

theorem extends_entityValue (general : Bool) :
    Extends more Open (entityValue general) (entityValue general) := by
  refine extends_get (keeps_entityValue general) fun unread hunread => ?_
  cases unread with
  | nil => exact absurd hunread List.not_mem_nil
  | cons c unread =>
    simp only [List.cons_append]
    by_cases hquote : (c = '"' || c = '\x27') = true
    · rw [if_pos hquote, if_pos hquote]
      exact extends_quoted
    · rw [if_neg hquote, if_neg hquote]
      by_cases hletter : (c = 'S' || c = 'P') = true
      · rw [if_pos hletter, if_pos hletter]
        refine extends_bind extends_externalId fun found => ?_
        split
        · split
          · exact extends_bind (extends_span _) fun _ =>
              extends_whenNext (by decide) keeps_entityNotation extends_entityNotation
          · exact extends_pure _
        · exact extends_throw _ _
      · rw [if_neg hletter, if_neg hletter]
        exact extends_throw _ _

theorem extends_entityKind : Extends more Open entityKind entityKind := by
  refine extends_get keeps_entityKind fun unread hunread => ?_
  rw [startsWith_append (by decide) hunread]
  split
  · exact extends_bind (extends_char _) fun _ => extends_bind extends_someSpaces fun _ => extends_pure _
  · exact extends_pure _

theorem extends_entity : Extends more Open entity entity :=
  extends_bind (extends_literal _) fun _ => extends_bind extends_someSpaces fun _ =>
    extends_bind extends_entityKind fun _ => extends_bind extends_name fun _ =>
      extends_bind extends_someSpaces fun _ => extends_bind (extends_entityValue _) fun _ =>
        extends_bind (extends_span _) fun _ => extends_char _

/-- A `>` ends what a scanner reads. -/
theorem extends_end : Extends more (fun _ _ => True) (char '>') (char '>') := by
  intro cs a rest h _
  rw [char_eq_ok.1 h]
  exact ⟨List.mem_cons_self, char_eq_ok.2 rfl⟩

theorem extends_subsetEnd : Extends more (fun _ _ => True) subsetEnd subsetEnd :=
  extends_bind (extends_char _) fun _ => extends_bind (extends_span _) fun _ => extends_end

/-- A doctype opening without a subset ends with a `>`; behind one with a subset there must be one. -/
theorem extends_doctypeOpening :
    Extends more (fun hasSubset rest => hasSubset = true → '>' ∈ rest) doctypeOpening doctypeOpening := by
  refine extends_bind (extends_literal _) fun _ => extends_bind extends_someSpaces fun _ =>
    extends_bind extends_name fun _ => extends_bind (extends_span _) fun _ =>
      extends_bind extends_externalId fun _ => extends_bind (extends_span _) fun _ => ?_
  intro cs hasSubset rest h hrest
  obtain ⟨unread, mid, hget, h⟩ := bind_eq_ok.1 h
  cases hget
  cases cs with
  | nil => cases h
  | cons c cs =>
    simp only at h
    split at h
    · rename_i hsubset
      subst hsubset
      obtain ⟨_, mid, hchar, h⟩ := bind_eq_ok.1 h
      cases h
      obtain ⟨hopen, hmore⟩ := extends_char _ hchar (hrest rfl)
      exact ⟨hopen, bind_eq_ok.2 ⟨_, _, rfl, bind_eq_ok.2 ⟨(), _, hmore, rfl⟩⟩⟩
    · split at h
      · rename_i hend
        subst hend
        obtain ⟨_, mid, hchar, h⟩ := bind_eq_ok.1 h
        cases h
        obtain ⟨hopen, hmore⟩ := extends_end hchar trivial
        exact ⟨hopen, bind_eq_ok.2 ⟨_, _, rfl, bind_eq_ok.2 ⟨(), _, hmore, rfl⟩⟩⟩
      · cases h

end Scan

namespace Doctype

open Scan

variable {cs rest : List Char}

/-- **An item of an internal subset is read the same if there is a `>` behind it.** -/
theorem subsetItem_append (h : subsetItem cs = .ok rest) (hopen : '>' ∈ rest) (more : List Char) :
    subsetItem (cs ++ more) = .ok (rest ++ more) := by
  have hcs : '>' ∈ cs := (shorter_of_subsetItem h).1.subset hopen
  have of_within : ∀ {α : Type} {construct : Construct} {s : Scan α}, Extends more Open s s →
      (within construct s cs).map Prod.snd = .ok rest →
        (within construct s (cs ++ more)).map Prod.snd = .ok (rest ++ more) := by
    intro α construct s hs h
    rcases hread : within construct s cs with fault | ⟨a, mid⟩
    · rw [hread] at h
      cases h
    · rw [hread] at h
      cases h
      rw [within_eq_ok.2 (hs (within_eq_ok.1 hread) hopen).2]
      rfl
  have hskipped : skippedDeclarations.any (startsWith · (cs ++ more)) =
      skippedDeclarations.any (startsWith · cs) := by
    simp only [skippedDeclarations, List.any_cons, List.any_nil]
    rw [startsWith_append (by decide) hcs, startsWith_append (by decide) hcs,
      startsWith_append (by decide) hcs]
  rw [subsetItem, startsWith_append (by decide) hcs, startsWith_append (by decide) hcs,
    startsWith_append (by decide) hcs, startsWith_append (by decide) hcs, hskipped]
  unfold subsetItem at h
  split at h
  · rename_i hentity
    rw [if_pos hentity]
    exact of_within extends_entity h
  · rename_i hentity
    rw [if_neg hentity]
    split at h
    · rename_i hcomment
      rw [if_pos hcomment]
      exact of_within extends_comment h
    · rename_i hcomment
      rw [if_neg hcomment]
      split at h
      · cases h
      · rename_i hdeclaration
        rw [if_neg hdeclaration]
        split at h
        · rename_i hinstruction
          rw [if_pos hinstruction]
          exact of_within extends_instruction h
        · rename_i hinstruction
          rw [if_neg hinstruction]
          split at h
          · rename_i hskip
            rw [if_pos hskip, List.dropWhile_append]
            split at h
            · cases h
            · rename_i c rest' hdrop
              cases h
              rw [hdrop]
              rfl
          · cases h

theorem subset_space {c : Char} (h : isSpace c = true) (cs : List Char) : subset (c :: cs) = subset cs := by
  rw [subset, if_pos h]

theorem subset_end (cs : List Char) :
    subset (']' :: cs) = (within .doctype subsetEnd (']' :: cs)).map fun read => some read.2 := by
  rw [subset, if_neg (by decide), if_pos rfl]
  rcases within .doctype subsetEnd (']' :: cs) with fault | ⟨u, rest⟩ <;> rfl

theorem subset_item {c : Char} (hspace : isSpace c = false) (hend : c ≠ ']')
    (h : subsetItem (c :: cs) = .ok rest) : subset (c :: cs) = subset rest := by
  rw [subset, if_neg (by rw [hspace]; exact Bool.false_ne_true), if_neg hend]
  split
  · simp_all
  · simp_all

/-- **An internal subset is read the same, whatever follows.** -/
theorem subset_append (h : subset cs = .ok (some rest)) (more : List Char) :
    '>' ∈ cs ∧ subset (cs ++ more) = .ok (some (rest ++ more)) := by
  fun_induction subset cs with
  | case1 => cases h
  | case2 c cs hspace ih =>
    obtain ⟨hopen, hread⟩ := ih h
    exact ⟨List.mem_cons_of_mem c hopen, by rw [List.cons_append, subset_space hspace, hread]⟩
  | case3 => cases h
  | case4 cs u rest' _ hread =>
    cases h
    obtain ⟨hopen, hend⟩ := extends_subsetEnd (within_eq_ok.1 hread) trivial
    have hwithin : within .doctype subsetEnd (']' :: (cs ++ more)) = .ok (u, rest ++ more) :=
      within_eq_ok.2 hend
    refine ⟨hopen, ?_⟩
    rw [List.cons_append, subset_end, hwithin]
    rfl
  | case5 => cases h
  | case6 c cs hspace hend mid hitem ih =>
    obtain ⟨hopen, hread⟩ := ih h
    have hopen' : '>' ∈ c :: cs := (shorter_of_subsetItem hitem).1.subset hopen
    have hitem' : subsetItem (c :: (cs ++ more)) = .ok (mid ++ more) := subsetItem_append hitem hopen more
    exact ⟨hopen', by rw [List.cons_append, subset_item (by simpa using hspace) hend hitem', hread]⟩

/-- **A doctype is read the same, whatever follows.** -/
theorem read_append (h : read cs = .ok (some rest)) (more : List Char) :
    '>' ∈ cs ∧ read (cs ++ more) = .ok (some (rest ++ more)) := by
  unfold read at h
  split at h
  · cases h
  · rename_i mid hopening
    obtain ⟨hopen, hsubset⟩ := subset_append h more
    obtain ⟨hcs, hread⟩ := extends_doctypeOpening (within_eq_ok.1 hopening) fun _ => hopen
    have hwithin : within .doctype doctypeOpening (cs ++ more) = .ok (true, mid ++ more) := within_eq_ok.2 hread
    exact ⟨hcs, by rw [read, hwithin]; exact hsubset⟩
  · rename_i mid hopening
    cases h
    obtain ⟨hcs, hread⟩ := extends_doctypeOpening (within_eq_ok.1 hopening) nofun
    have hwithin : within .doctype doctypeOpening (cs ++ more) = .ok (false, rest ++ more) :=
      within_eq_ok.2 hread
    exact ⟨hcs, by rw [read, hwithin]⟩

end Doctype

end TalMarkup
