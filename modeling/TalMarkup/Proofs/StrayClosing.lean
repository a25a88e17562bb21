import TalMarkup.Proofs.Joining
import TalMarkup.Proofs.Writing

/-!
# A closing tag with nothing open

The text in front of a closing tag leaves nothing open if it is a template, or blank. What becomes of the
tag depends on where the prolog of this text ends, for the prolog and the body are read by different rules:

* where it may go on, because nothing but spaces follows its items (`Prolog.MayGoOn`), any `<` that no item
  starts with is taken for a start tag. So the tag is reported as one without a name
  (**`Prolog.read_append_of_mayGoOn`**);
* anywhere else the body goes on with the tag (**`Prolog.read_append_of_not_mayGoOn`**), and there it is
  known as a closing tag that has nothing to close (**`Template.parse_of_closing`**).

Both come from `Prolog.read_resume`: behind a body without a `<` the items are read on from where they
ended. **`Template.parse_of_stray`** puts this together.
-/

namespace TalMarkup

/-- No mark that starts with a `<` stands where a text without one does. -/
theorem startsWith_append_of_plain {mark : String} (hmark : nextIs (· == '<') mark.toList = true)
    {cs : List Char} (hne : cs ≠ []) (hlt : '<' ∉ cs) (more : List Char) :
    startsWith mark (cs ++ more) = false := by
  rw [Bool.eq_false_iff]
  intro hfront
  obtain ⟨rest, hrest⟩ := Scan.startsWith_iff.1 hfront
  have hnext : nextIs (· == '<') (mark.toList ++ rest) = true := by
    cases hcase : mark.toList with
    | nil => rw [hcase] at hmark; cases hmark
    | cons c marks => rwa [hcase] at hmark
  rw [hrest, nextIs_append_of_ne_nil _ hne] at hnext
  cases cs with
  | nil => exact hne rfl
  | cons c cs => exact hlt (beq_iff_eq.1 hnext ▸ List.mem_cons_self)

namespace Prolog

/-! ## 1. Prologs that may go on -/

/-- The body without the byte order mark that the source starts with. An item takes this mark with it. -/
def unmarked (prolog : Prolog) : List Char :=
  if prolog.items = [] ∧ nextIs (· == byteOrderMark) prolog.body = true then prolog.body.tail
  else prolog.body

/-- Nothing but spaces follows the items, so that the next text may be one more item. -/
def MayGoOn (prolog : Prolog) : Prop := IsGap prolog.unmarked

instance (prolog : Prolog) : Decidable prolog.MayGoOn := inferInstanceAs (Decidable (IsGap _))

/-- The prolog with more items in front. -/
def prepend (items : List Item) (prolog : Prolog) : Prolog :=
  { prolog with items := items ++ prolog.items }

variable {doctypeSeen : Bool} {skipped cs source rest : List Char} {fault : Fault (List Char)}
  {prolog : Prolog}

theorem body_eq_unmarked (prolog : Prolog) :
    prolog.body = prolog.unmarked ∨ prolog.items = [] ∧ prolog.body = byteOrderMark :: prolog.unmarked := by
  unfold unmarked
  split
  · rename_i hmark
    cases hbody : prolog.body with
    | nil => exact Or.inl rfl
    | cons c rest =>
      rw [hbody] at hmark
      exact Or.inr ⟨hmark.1, congrArg (· :: rest) (beq_iff_eq.1 hmark.2)⟩
  · exact Or.inl rfl

theorem MayGoOn.lt_not_mem (h : prolog.MayGoOn) : '<' ∉ prolog.body := by
  have hnot : '<' ∉ prolog.unmarked := fun hmem => absurd (h '<' hmem) (by decide)
  rcases prolog.body_eq_unmarked with hbody | ⟨-, hbody⟩
  · rwa [hbody]
  · rw [hbody, List.mem_cons, not_or]
    exact ⟨by decide, hnot⟩

theorem MayGoOn.isXmlText_body (h : prolog.MayGoOn) : IsXmlText prolog.body := by
  have hxml : IsXmlText prolog.unmarked := fun c hc => isXmlChar_of_isSpace (h c hc)
  rcases prolog.body_eq_unmarked with hbody | ⟨-, hbody⟩
  · rwa [hbody]
  · rw [hbody]
    exact List.forall_mem_cons.2 ⟨by decide, hxml⟩

/-! ## 2. Reading on -/

/-- **A closing tag is taken for a start tag**, one whose name is missing. -/
theorem next_of_closing (cs : List Char) :
    next doctypeSeen ('<' :: '/' :: cs) = .error (.invalid .element ('<' :: '/' :: cs) .badName) := by
  rfl

theorem readItems_of_error (h : next doctypeSeen (cs.dropWhile isSpace) = .error fault) :
    readItems doctypeSeen skipped cs = .error fault := by
  rw [readItems]
  split <;> simp_all

/-- **Behind a body without a `<` the items go on where they ended.** -/
theorem readItems_resume (h : readItems doctypeSeen skipped cs = .ok prolog) (hlt : '<' ∉ prolog.body) :
    ∃ seen skipped' rest, skipped' = (if prolog.items = [] then skipped else []) ∧
      skipped' ++ rest = prolog.body ∧ prolog.gap = [] ∧
      ∀ more, readItems doctypeSeen skipped (cs ++ more) =
        (readItems seen skipped' (rest ++ more)).map (prepend prolog.items) := by
  fun_induction readItems doctypeSeen skipped cs generalizing prolog with
  | case1 => cases h
  | case2 doctypeSeen skipped cs gap unread =>
    rename_i hnext
    cases h
    obtain ⟨name, rest, -, hname, -⟩ := next_eq_startTag_iff.1 hnext
    have hmem : '<' ∈ unread := hname ▸ List.mem_cons_self
    exact absurd hmem hlt
  | case3 doctypeSeen skipped cs =>
    -- the body starts here, and so reading on starts here too
    cases h
    refine ⟨doctypeSeen, skipped, cs, rfl, rfl, rfl, fun more => ?_⟩
    rcases readItems doctypeSeen skipped (cs ++ more) with fault | last <;> rfl
  | case4 => cases h
  | case5 doctypeSeen skipped cs gap unread kind text rest hnext prolog' hread =>
    rename_i ih
    cases h
    obtain ⟨seen, skipped', tail, hskipped, hbody, hgap, hmore⟩ := ih hread hlt
    have hnil : skipped' = [] := by rw [hskipped, ite_self]
    refine ⟨seen, skipped', tail, hnil, hbody, hgap, fun more => ?_⟩
    rw [readItems_append_of_item hnext, hmore]
    rcases readItems seen skipped' (tail ++ more) with fault | last <;> rfl

/-- Where items are read in front of a body without a `<`, every `<` has a `>` behind it. -/
theorem mem_of_readItems_plain (h : readItems doctypeSeen skipped cs = .ok prolog)
    (hlt : '<' ∉ prolog.body) : '>' ∈ cs ∨ '<' ∉ cs := by
  rw [readItems] at h
  split at h
  · cases h
  · rename_i hnext
    cases h
    obtain ⟨name, rest, -, hname, -⟩ := next_eq_startTag_iff.1 hnext
    exact absurd (hname ▸ List.mem_cons_self) hlt
  · cases h
    exact Or.inr fun hmem => hlt (List.mem_append_right _ hmem)
  · rename_i hnext
    exact Or.inl ((List.dropWhile_suffix _).subset (mem_of_next_item hnext))

/-- No closing tag makes a declaration of what stands in front of it. -/
theorem not_declaration_append (hdeclaration : startsWith "<?xml " cs = false) (hcs : '>' ∈ cs ∨ '<' ∉ cs)
    (more : List Char) : startsWith "<?xml " (cs ++ '<' :: '/' :: more) = false := by
  rcases hcs with hopen | hlt
  · rwa [startsWith_append (by decide) hopen]
  · cases cs with
    | nil => rfl
    | cons c cs => exact startsWith_append_of_plain rfl (List.cons_ne_nil _ _) hlt _

theorem readFrom_resume (h : readFrom skipped cs = .ok prolog) (hlt : '<' ∉ prolog.body) :
    ∃ seen skipped' rest, skipped' = (if prolog.items = [] then skipped else []) ∧
      skipped' ++ rest = prolog.body ∧ prolog.gap = [] ∧
      ∀ more, readFrom skipped (cs ++ '<' :: '/' :: more) =
        (readItems seen skipped' (rest ++ '<' :: '/' :: more)).map (prepend prolog.items) := by
  unfold readFrom at h
  split at h
  · rename_i hdeclaration
    split at h
    · cases h
    · rename_i text rest hread
      split at h
      · cases h
      · rename_i prolog' hitems
        cases h
        obtain ⟨seen, skipped', tail, hskipped, hbody, hgap, hmore⟩ := readItems_resume hitems hlt
        have hnil : skipped' = [] := by rw [hskipped, ite_self]
        refine ⟨seen, skipped', tail, hnil, hbody, hgap, fun more => ?_⟩
        rw [readFrom_of_declaration hdeclaration hread, hmore]
        rcases readItems seen skipped' (tail ++ '<' :: '/' :: more) with fault | last <;> rfl
  · rename_i hdeclaration
    obtain ⟨seen, skipped', tail, hskipped, hbody, hgap, hmore⟩ := readItems_resume h hlt
    refine ⟨seen, skipped', tail, hskipped, hbody, hgap, fun more => ?_⟩
    have hnot := not_declaration_append (Bool.eq_false_iff.2 hdeclaration) (mem_of_readItems_plain h hlt) more
    rw [readFrom, hnot]
    exact hmore _

theorem read_of_unmarked (h : nextIs (· == byteOrderMark) source = false) :
    read source = readFrom [] source := by
  cases source with
  | nil => rfl
  | cons c cs => exact if_neg (beq_eq_false_iff_ne.1 h)

theorem unmarked_of_mark (h : (if prolog.items = [] then [byteOrderMark] else []) ++ rest = prolog.body) :
    prolog.unmarked = rest := by
  rw [unmarked, ← h]
  by_cases hitems : prolog.items = []
  · rw [if_pos hitems]
    exact if_pos ⟨hitems, rfl⟩
  · rw [if_neg hitems]
    exact if_neg fun hmark => hitems hmark.1

theorem unmarked_of_plain (h : readFrom [] source = .ok prolog) (hgap : prolog.gap = [])
    (hmark : nextIs (· == byteOrderMark) source = false) : prolog.unmarked = prolog.body := by
  refine if_neg fun hfront => ?_
  have hwhole : prolog.body = source := by
    rw [← List.nil_append source, ← spelling_of_readFrom h, spelling, hfront.1, hgap]
    rfl
  rw [hwhole, hmark] at hfront
  exact Bool.false_ne_true hfront.2

/-- **Behind a source whose body has no `<` the prolog goes on where it ended**, if a closing tag follows. -/
theorem read_resume (h : read source = .ok prolog) (hlt : '<' ∉ prolog.body) :
    ∃ seen skipped, skipped ++ prolog.unmarked = prolog.body ∧ prolog.gap = [] ∧
      ∀ more, read (source ++ '<' :: '/' :: more) =
        (readItems seen skipped (prolog.unmarked ++ '<' :: '/' :: more)).map (prepend prolog.items) := by
  by_cases hmark : nextIs (· == byteOrderMark) source = true
  · -- the mark is skipped, but belongs to the body if no item took it
    cases source with
    | nil => cases hmark
    | cons c cs =>
      obtain rfl : c = byteOrderMark := beq_iff_eq.1 hmark
      obtain ⟨seen, skipped, rest, hskipped, hbody, hgap, hmore⟩ := readFrom_resume h hlt
      have hrest : prolog.unmarked = rest := unmarked_of_mark (hskipped ▸ hbody)
      exact ⟨seen, skipped, by rw [hrest, hbody], hgap, by rwa [hrest]⟩
  · rw [Bool.not_eq_true] at hmark
    have hread : ∀ more, read (source ++ '<' :: '/' :: more) = readFrom [] (source ++ '<' :: '/' :: more) := by
      intro more
      cases source with
      | nil => rfl
      | cons c cs => exact read_of_unmarked hmark
    rw [read_of_unmarked hmark] at h
    obtain ⟨seen, skipped, rest, hskipped, hbody, hgap, hmore⟩ := readFrom_resume h hlt
    have hrest : prolog.unmarked = prolog.body := unmarked_of_plain h hgap hmark
    rw [ite_self] at hskipped
    subst hskipped hbody
    exact ⟨seen, [], hrest, hgap, fun more => by rw [hread, hmore, hrest]⟩

/-- **A closing tag where the prolog may go on is a fault of the prolog.** -/
theorem read_append_of_mayGoOn (h : read source = .ok prolog) (hgap : prolog.MayGoOn)
    (more : List Char) :
    read (source ++ '<' :: '/' :: more) = .error (.invalid .element ('<' :: '/' :: more) .badName) := by
  obtain ⟨seen, skipped, -, -, hmore⟩ := read_resume h hgap.lt_not_mem
  have hunread : (prolog.unmarked ++ '<' :: '/' :: more).dropWhile isSpace = '<' :: '/' :: more :=
    (takeWhile_dropWhile_eq_iff.2 ⟨rfl, hgap, rfl⟩).2
  have hnext : next seen ((prolog.unmarked ++ '<' :: '/' :: more).dropWhile isSpace) =
      .error (.invalid .element ('<' :: '/' :: more) .badName) := by
    rw [hunread]
    exact next_of_closing more
  rw [hmore, readItems_of_error hnext]
  rfl

/-- **A closing tag where the prolog does not go on belongs to the body.** -/
theorem read_append_of_not_mayGoOn (h : read source = .ok prolog)
    (hgap : ¬ prolog.MayGoOn) (hlt : '<' ∉ prolog.body) (more : List Char) :
    read (source ++ '<' :: '/' :: more) = .ok (prolog.followedBy ('<' :: '/' :: more)) := by
  obtain ⟨seen, skipped, hbody, hnil, hmore⟩ := read_resume h hlt
  have hne : prolog.unmarked.dropWhile isSpace ≠ [] := fun hdrop => hgap (List.dropWhile_eq_nil_iff.1 hdrop)
  obtain ⟨-, hunread⟩ := dropWhile_isSpace_append hne ('<' :: '/' :: more)
  have hplain : '<' ∉ prolog.unmarked.dropWhile isSpace := by
    rw [← hbody] at hlt
    exact fun hmem => hlt (List.mem_append_right _ ((List.dropWhile_suffix _).subset hmem))
  have hnext : next seen ((prolog.unmarked ++ '<' :: '/' :: more).dropWhile isSpace) = .ok .other := by
    rw [hunread]
    exact next_eq_ok_iff.2 (.text (startsWith_append_of_plain rfl hne hplain _))
  rw [hmore, readItems_of_other hnext, ← List.append_assoc, hbody]
  show Except.ok (⟨prolog.items ++ [], [], _⟩ : Prolog) = _
  rw [List.append_nil, ← hnil]
  rfl

end Prolog

/-! ## 3. Bodies -/

namespace Body

variable {cs more : List Char} {tokens : List Token}

/-- **The tokens of a body stay, and those of what follows come behind them**, if it starts with a `<`. -/
theorem read_append_lt (h : read cs = ⟨tokens, none⟩) (huncut : Uncut tokens)
    (hlt : nextIs (· == '<') more = true) :
    read (cs ++ more) = ⟨tokens ++ (read more).tokens, (read more).fault?⟩ := by
  induction tokens generalizing cs with
  | nil =>
    obtain ⟨-, rfl⟩ := read_eq_iff.1 h
    rfl
  | cons first tokens ih =>
    obtain ⟨hne, rest, hfirst, hread⟩ := read_cons_iff.1 h
    obtain ⟨hformed, rfl, hends⟩ := (Token.first_eq_ok hne).1 hfirst
    have hends' : first.EndsBefore (rest ++ more) := by
      cases first with
      | charData value =>
        refine Or.inr ?_
        cases rest with
        | nil => exact hlt
        | cons c rest => exact hends.resolve_left (List.cons_ne_nil _ _)
      | verbatim value => trivial
      | startTag tag => exact fun hcut => absurd hcut (huncut tag List.mem_cons_self)
      | endTag close => trivial
    have hne' : first.text ++ rest ++ more ≠ [] := List.append_ne_nil_of_left_ne_nil hne more
    exact read_cons_iff.2 ⟨hne', rest ++ more,
      (Token.first_eq_ok hne').2 ⟨hformed, List.append_assoc _ _ _, hends'⟩,
      ih hread fun tag htag => huncut tag (List.mem_cons_of_mem _ htag)⟩

theorem read_of_error {fault : Fault (List Char)} (hne : cs ≠ []) (h : Token.first cs = .error fault) :
    read cs = ⟨[], some fault⟩ := by
  cases cs with
  | nil => exact absurd rfl hne
  | cons c cs =>
    rw [read]
    split <;> simp_all

/-- A closing tag is read off the front. -/
theorem read_closing {close : EndTag} (h : close.Formed) (more : List Char) :
    read (close.text ++ more) = ⟨.endTag close :: (read more).tokens, (read more).fault?⟩ := by
  have hne : close.text ++ more ≠ [] := List.cons_ne_nil _ _
  exact read_cons_iff.2 ⟨hne, more, (Token.first_eq_ok hne).2 ⟨h, rfl, trivial⟩, rfl⟩

end Body

/-- **A body with a `<` that is content is marked.** -/
theorem Content.marked_of_lt {options : Options} {scope : Scope} {lines stamp next : Nat}
    {tokens : List Token} {nodes : List Node} {cs : List Char} (hbody : Body.read cs = ⟨tokens, none⟩)
    (h : Content options scope lines stamp tokens nodes next) (hlt : '<' ∈ cs) : Marked cs := by
  rw [(Body.read_eq_iff.1 hbody).2, List.mem_flatMap] at hlt
  obtain ⟨token, hmem, hlt⟩ := hlt
  refine h.marked_of_mem hbody hmem ?_
  rintro value rfl
  exact (Body.formed_of_mem (by rw [hbody]; exact hmem) : Token.Formed (.charData value)).2.2.1 hlt

/-! ## 4. Blank sources -/

section Blank

variable {cs more : List Char}

theorem not_mem_of_blank {c : Char} (hblank : cs.all isBlank = true) (hc : isBlank c = false) : c ∉ cs :=
  fun hmem => ne_of_class (List.all_eq_true.1 hblank c hmem) hc rfl

/-- A blank source has no prolog. -/
theorem Prolog.read_of_blank (hblank : cs.all isBlank = true) : read cs = .ok ⟨[], [], cs⟩ := by
  have hlt : '<' ∉ cs := not_mem_of_blank hblank rfl
  have hmark : nextIs (· == byteOrderMark) cs = false := by
    cases cs with
    | nil => rfl
    | cons c cs =>
      exact beq_eq_false_iff_ne.2 (ne_of_class (List.all_eq_true.1 hblank c List.mem_cons_self) rfl)
  have hdeclaration : startsWith "<?xml " cs = false :=
    Bool.eq_false_iff.2 fun hfront => hlt ((Scan.startsWith_iff.1 hfront).subset (by decide))
  have hunread : startsWith "<" (cs.dropWhile isSpace) = false :=
    Bool.eq_false_iff.2 fun hfront => hlt
      ((List.dropWhile_suffix _).subset ((Scan.startsWith_iff.1 hfront).subset (by decide)))
  rw [read_of_unmarked hmark, readFrom, hdeclaration]
  exact readItems_of_other (next_eq_ok_iff.2 (.text hunread))

/-- **Text is content**, if a document may hold it. -/
theorem Content.of_text (options : Options) (scope : Scope) (lines stamp : Nat) (hxml : IsXmlText cs)
    (hlt : '<' ∉ cs) (hmark : ¬ "]]>".toList <:+: cs) :
    ∃ tokens nodes, Body.read cs = ⟨tokens, none⟩ ∧
      Content options scope lines stamp tokens nodes stamp := by
  by_cases hne : cs = []
  · subst hne
    exact ⟨[], [], Body.read_eq_iff.2 ⟨trivial, rfl⟩, .nil⟩
  · have hformed : (Token.charData cs).Formed := ⟨hne, hxml, hlt, hmark⟩
    exact ⟨[.charData cs], _,
      Body.read_eq_iff.2 ⟨⟨hformed, Or.inl rfl, trivial⟩, (List.append_nil cs).symm⟩, .leaf rfl .nil⟩

/-- Blank text is content, if a document may hold it. -/
theorem Content.of_blank (options : Options) (hblank : cs.all isBlank = true) (hxml : IsXmlText cs) :
    ∃ tokens nodes, Body.read cs = ⟨tokens, none⟩ ∧ Content options .empty 0 0 tokens nodes 0 := by
  have hmark : ¬ "]]>".toList <:+: cs := fun hmark =>
    not_mem_of_blank (c := ']') hblank rfl (hmark.subset (by decide))
  exact of_text options .empty 0 0 hxml (not_mem_of_blank hblank rfl) hmark

/-- **Text is not read past a character that no document may hold.** -/
theorem Scan.charData_of_forbidden {plain rest : List Char} {c : Char} (hxml : IsXmlText plain)
    (hc : isXmlChar c = false) (hlt : '<' ∉ plain ++ c :: rest) (hmore : nextIs (· == '<') more = true) :
    charData (plain ++ c :: rest ++ more) = .error (.forbiddenChar c (c :: rest ++ more)) := by
  have hcut : cut (nextIs (· == '<')) (plain ++ c :: rest ++ more) = (plain ++ c :: rest, more) :=
    cut_nextIs_eq_iff.2 ⟨rfl, fun d hd => beq_eq_false_iff_ne.2 fun h => hlt (h ▸ hd), Or.inr hmore⟩
  have hsplit : (plain ++ c :: rest).takeWhile isXmlChar = plain ∧
      (plain ++ c :: rest).dropWhile isXmlChar = c :: rest :=
    takeWhile_dropWhile_eq_iff.2 ⟨rfl, hxml, hc⟩
  show (upTo _ >>= _) _ = _
  simp only [bind, StateT.bind, upTo, hcut, hsplit.2]
  rfl

theorem Body.read_of_forbidden {plain rest : List Char} {c : Char} (hxml : IsXmlText plain)
    (hc : isXmlChar c = false) (hlt : '<' ∉ plain ++ c :: rest) (hmore : nextIs (· == '<') more = true) :
    read (plain ++ c :: rest ++ more) =
      ⟨[], some (.invalid .text (plain ++ c :: rest ++ more) (.forbiddenChar c (c :: rest ++ more)))⟩ := by
  have hne : plain ++ c :: rest ≠ [] := List.append_ne_nil_of_right_ne_nil _ (List.cons_ne_nil _ _)
  have hmap : (Token.charData <$> Scan.charData) (plain ++ c :: rest ++ more) =
      .error (.forbiddenChar c (c :: rest ++ more)) := by
    show (Scan.charData _ >>= _) = _
    rw [Scan.charData_of_forbidden hxml hc hlt hmore]
    rfl
  refine read_of_error (List.append_ne_nil_of_left_ne_nil hne more) ?_
  rw [Token.first, startsWith_append_of_plain rfl hne hlt, if_pos (by rfl), Scan.within, hmap]

end Blank

/-! ## 5. The closing tag -/

namespace Template

/-- What is to become of a source that is `front` and then a closing tag of this name and any text, where
    `front` leaves nothing open and is cut into this prolog. -/
structure StrayVerdict (options : Options) (front : String) (prolog : Prolog) (name source : String) : Prop where
  /-- Where the prolog may go on, the closing tag is reported as a start tag without a name. -/
  of_mayGoOn : prolog.MayGoOn → parse options source = .error {
    kind := .malformed (.invalid .element (.after front.toList) .badName),
    line? := some (newlines front.toList + 1) }
  /-- Anywhere else it is reported as what it is. -/
  of_body : ¬ prolog.MayGoOn → (isBlankText front = true → IsXmlText front.toList) →
    parse options source = .error {
      kind := .unexpectedClosing name, line? := some (newlines front.toList + 1) } ∧
    (ErrorKind.unexpectedClosing name).message = "Unexpected closing tag </" ++ name ++ ">"
  /-- Blank text in front may hold a character that no document holds. Then this is reported. -/
  of_forbidden : isBlankText front = true → ∀ plain c rest, front.toList = plain ++ c :: rest →
    IsXmlText plain → isXmlChar c = false → parse options source = .error {
      kind := .malformed (.invalid .text .start (.forbiddenChar c (.after plain))), line? := some 1 }

variable {options : Options} {front source : String} {prolog : Prolog} {tokens : List Token}
  {nodes : List Node} {next : Nat} {close : EndTag} {more : List Char}

theorem parse_of_mayGoOn (hsource : source.toList = front.toList ++ '<' :: '/' :: more)
    (hprolog : Prolog.read front.toList = .ok prolog) (hgap : prolog.MayGoOn) :
    parse options source = .error {
      kind := .malformed (.invalid .element (.after front.toList) .badName),
      line? := some (newlines front.toList + 1) } := by
  have hread : Prolog.read source.toList = .error (.invalid .element ('<' :: '/' :: more) .badName) := by
    rw [hsource]
    exact Prolog.read_append_of_mayGoOn hprolog hgap more
  have hplace : Position.before source.toList ('<' :: '/' :: more) = .after front.toList := by
    rw [hsource, Position.before, readPart_append]
  rw [parse, read, hread, ← Position.after_row, ← hplace]
  rfl

/-- **Behind a body that is content a closing tag has nothing open to close.** -/
theorem parse_of_closing (hclose : close.Formed)
    (hsource : source.toList = front.toList ++ (close.text ++ more))
    (hprolog : Prolog.read front.toList = .ok prolog) (hgap : ¬ prolog.MayGoOn)
    (hbody : Body.read prolog.body = ⟨tokens, none⟩)
    (content : Content options .empty (newlines prolog.spelling) 0 tokens nodes next) :
    parse options source = .error {
      kind := .unexpectedClosing close.name.recorded, line? := some (newlines front.toList + 1) } := by
  have hprolog' : Prolog.read source.toList = .ok (prolog.followedBy (close.text ++ more)) := by
    rw [hsource]
    by_cases hlt : '<' ∈ prolog.body
    · exact Prolog.read_append hprolog (Or.inl (content.marked_of_lt hbody hlt))
    · exact Prolog.read_append_of_not_mayGoOn hprolog hgap hlt _
  have hbody' : Body.read (prolog.body ++ (close.text ++ more)) =
      ⟨tokens ++ .endTag close :: (Body.read more).tokens, (Body.read more).fault?⟩ := by
    rw [Body.read_append_lt hbody content.uncut rfl, Body.read_closing hclose]
  have hlines : newlines front.toList = newlines prolog.spelling + newlines (tokens.flatMap Token.text) := by
    rw [← Prolog.spelling_of_read hprolog, newlines_append, (Body.read_eq_iff.1 hbody).2]
  rw [hlines]
  exact parse_eq_error hprolog' hbody'
    (Assembly.tokens_of_stop (Assembly.tokens_atBody content) (Assembly.token_endTag_nil rfl) _)

theorem parse_of_forbidden {plain rest : List Char} {c : Char} (hblank : front.toList.all isBlank = true)
    (hsource : source.toList = front.toList ++ '<' :: '/' :: more) (hfront : front.toList = plain ++ c :: rest)
    (hxml : IsXmlText plain) (hc : isXmlChar c = false) :
    parse options source = .error {
      kind := .malformed (.invalid .text .start (.forbiddenChar c (.after plain))), line? := some 1 } := by
  have hprolog := Prolog.read_of_blank hblank
  have hlt : '<' ∉ front.toList := not_mem_of_blank hblank rfl
  have hgap : ¬ (⟨[], [], front.toList⟩ : Prolog).MayGoOn := by
    intro hgap
    have hmem : c ∈ front.toList := hfront ▸ List.mem_append_right _ List.mem_cons_self
    rw [hgap.isXmlText_body c hmem] at hc
    cases hc
  have hread : Prolog.read source.toList = .ok ⟨[], [], front.toList ++ '<' :: '/' :: more⟩ := by
    rw [hsource]
    exact Prolog.read_append_of_not_mayGoOn hprolog hgap hlt more
  rw [hfront] at hlt hread hsource
  have hstart : Position.before source.toList (plain ++ c :: rest ++ '<' :: '/' :: more) = .start := by
    rw [Position.before, hsource]
    exact congrArg Position.after (readPart_append [] _)
  have hplace : Position.before source.toList (c :: rest ++ '<' :: '/' :: more) = .after plain := by
    rw [Position.before, hsource, List.append_assoc, readPart_append]
  rw [parse_eq hread, Body.read_of_forbidden hxml hc hlt rfl]
  show Except.error (Error.ofFault _ _) = _
  rw [Error.ofFault, Fault.map, Cause.map, hstart, hplace]
  rfl

/-- A front that leaves nothing open is content, unless it is blank and holds what no document does. -/
theorem content_of_closed (options : Options) {front : String}
    (h : isBlankText front = true ∨ (parse options front).isOk = true) :
    ∃ prolog, Prolog.read front.toList = .ok prolog ∧
      ((isBlankText front = true → IsXmlText front.toList) →
        ∃ tokens nodes next, Body.read prolog.body = ⟨tokens, none⟩ ∧
          Content options .empty (newlines prolog.spelling) 0 tokens nodes next) := by
  by_cases hblank : isBlankText front = true
  · refine ⟨_, Prolog.read_of_blank hblank, fun hxml => ?_⟩
    obtain ⟨tokens, nodes, hbody, content⟩ := Content.of_blank options hblank (hxml hblank)
    exact ⟨tokens, nodes, 0, hbody, content⟩
  · obtain ⟨template, hparse⟩ := exists_of_isOk (h.resolve_left hblank)
    obtain ⟨next, hread⟩ := parse_eq_ok_iff.1 hparse
    obtain ⟨prolog, nodes, hprolog, hfault, content, -, -⟩ := read_eq_ok_iff.1 hread
    exact ⟨prolog, hprolog, fun _ => ⟨_, nodes, next, by rw [← hfault], content⟩⟩

/-- **A closing tag behind a front that leaves nothing open** is reported with its line, unless the prolog
    may go on there: then it is not known as a closing tag. -/
theorem parse_of_stray (options : Options) {front : String} {name : QName} (hname : name.Proper)
    (hfront : isBlankText front = true ∨ (parse options front).isOk = true) (more : String) :
    ∃ prolog, Prolog.read front.toList = .ok prolog ∧
      StrayVerdict options front prolog (String.ofList name.text)
        (front ++ "</" ++ String.ofList name.text ++ ">" ++ more) := by
  have hsource : (front ++ "</" ++ String.ofList name.text ++ ">" ++ more).toList =
      front.toList ++ ((⟨name, []⟩ : EndTag).text ++ more.toList) := by
    simp [EndTag.text]
  obtain ⟨prolog, hprolog, hcontent⟩ := content_of_closed options hfront
  refine ⟨prolog, hprolog, ?_⟩
  constructor
  case of_mayGoOn => exact parse_of_mayGoOn hsource hprolog
  case of_body =>
    intro hgap hxml
    obtain ⟨tokens, nodes, next, hbody, content⟩ := hcontent hxml
    have hparse := parse_of_closing ⟨hname.formed, isGap_nil⟩ hsource hprolog hgap hbody content
    rw [hname.recorded_eq] at hparse
    exact ⟨hparse, rfl⟩
  case of_forbidden =>
    intro hblank plain c rest
    exact parse_of_forbidden hblank hsource

theorem parse_of_stray_prolog :
    ∃ prolog, Prolog.read "<!-- -->\n".toList = .ok prolog ∧
      StrayVerdict { } "<!-- -->\n" prolog "t:b" ("<!-- -->\n" ++ "</" ++ "t:b" ++ ">" ++ "<a/>") := by
  have hname : QName.Proper ⟨some ['t'], ['b']⟩ := by decide
  have hok : (parse { } "<!-- -->\n").isOk = true := by decide +kernel
  exact parse_of_stray { } hname (Or.inr hok) "<a/>"

/-- A closing tag with nothing open is not always reported as such: not at the start of a source. -/
theorem not_unexpectedClosing_at_start :
    ¬ ∀ (options : Options) (front : String) (name : QName) (more : String), name.Proper →
      isBlankText front = true ∨ (parse options front).isOk = true →
        parse options (front ++ "</" ++ String.ofList name.text ++ ">" ++ more) = .error {
          kind := .unexpectedClosing (String.ofList name.text), line? := some (newlines front.toList + 1) } := by
  intro h
  have hparse := h { } "" ⟨none, ['b']⟩ "" (by decide) (Or.inl rfl)
  have hfails : (match parse { } ("" ++ "</" ++ String.ofList (QName.text ⟨none, ['b']⟩) ++ ">" ++ "") with
      | .error error => decide (error.kind = .unexpectedClosing "b")
      | .ok _ => false) = false := by decide +kernel
  rw [hparse] at hfails
  exact absurd hfails (by decide)

end Template

end TalMarkup
