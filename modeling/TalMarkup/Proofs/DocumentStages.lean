import TalMarkup.Proofs.Pieces

/-!
# A document, stage by stage

The markup in front of the first start tag of a document, read by a machine: `Stage` says what may stand at the
present place, `Stage.step` reads one piece of markup there, and `Stage.run` goes on up to a start tag, a fault
or the end of the input. In an internal subset every entity, comment and instruction is a step of its own.

`Prolog.next` and `Doctype.subset` read the same markup in larger pieces:

* **`Stage.run_of_doctype`**: a run through a doctype ends, fails and goes on where `Doctype.read` does;
* **`Stage.run_of_next`**: in front of a doctype and behind one a run goes on with what `Prolog.next` finds.
-/

namespace TalMarkup

theorem Scan.advances_subsetEnd : Advances subsetEnd :=
  advances_bind (advances_char _) fun _ => keeps_bind (keeps_span _) fun _ => (advances_char _).keeps

/-! ## 1. The machine -/

/-- What may stand at a place in a document. -/
inductive Stage
  /-- In front of the doctype. -/
  | head
  /-- In the internal subset of the doctype that this text starts with. -/
  | subset (opened : List Char)
  /-- Behind the doctype. -/
  | tail
deriving DecidableEq

/-- What one step comes to. -/
inductive Stage.Move
  | goOn (stage : Stage) (rest : List Char)
  | startTag

/-- How a run ends. -/
inductive Stage.Outcome
  | startTag
  /-- The input ends in this stage. -/
  | ended (stage : Stage)
  /-- In this stage there is a fault. -/
  | failed (stage : Stage) (fault : Fault (List Char))
deriving DecidableEq

namespace Stage

open Scan

/-- Reads a construct and goes on in the stage that it leads to. -/
def piece {α : Type} (construct : Construct) (s : Scan α) (next : α → Stage) (cs : List Char) :
    Except (Fault (List Char)) Move :=
  (within construct s cs).map fun read => .goOn (next read.1) read.2

/-- Reads what may stand in every stage: a space, a comment, an instruction. Anything else is for `other`. -/
def misc (stage : Stage) (other : List Char → Except (Fault (List Char)) Move) (cs : List Char) :
    Except (Fault (List Char)) Move :=
  if nextIs isSpace cs then .ok (.goOn stage cs.tail)
  else if startsWith "<!--" cs then piece .comment comment (fun _ => stage) cs
  else if startsWith "<?xml " cs then .error (.unknown cs)
  else if startsWith "<?" cs then piece .instruction instruction (fun _ => stage) cs
  else other cs

/-- Reads the name of a start tag. -/
def element (cs : List Char) : Except (Fault (List Char)) Move :=
  if startsWith "<!" cs then .error (.unknown cs)
  else if startsWith "<" cs then (within .element tagOpening cs).map fun _ => .startTag
  else .error (.unknown cs)

/-- Reads a doctype up to its end or to its internal subset. -/
def doctype (cs : List Char) : Except (Fault (List Char)) Move :=
  piece .doctype doctypeOpening (fun hasSubset => if hasSubset then .subset cs else .tail) cs

/-- Reads the end of the internal subset of a doctype, or a declaration in it. -/
def inSubset (opened cs : List Char) : Except (Fault (List Char)) Move :=
  if startsWith "<!ENTITY" cs then piece .entity entity (fun _ => .subset opened) cs
  else if startsWith "]" cs then piece .doctype subsetEnd (fun _ => .tail) cs
  else if Doctype.skippedDeclarations.any (startsWith · cs) then
    match cs.dropWhile (· != '>') with
    | [] => .error (.unknown cs)
    | _ :: rest => .ok (.goOn (.subset opened) rest)
  else .error (.unknown cs)

/-- Reads a piece of markup in front of the doctype, or its beginning. -/
def inHead (cs : List Char) : Except (Fault (List Char)) Move :=
  if startsWith "<!DOCTYPE" cs then doctype cs else misc .head element cs

/-- Reads one piece of markup. -/
def step (stage : Stage) (cs : List Char) : Except (Fault (List Char)) Move :=
  match stage with
  | .head => inHead cs
  | .subset opened => misc stage (inSubset opened) cs
  | .tail => misc stage element cs

theorem shorter_of_piece {α : Type} {construct : Construct} {s : Scan α} (hs : Advances s)
    {next : α → Stage} {cs rest : List Char} {stage : Stage}
    (h : piece construct s next cs = .ok (.goOn stage rest)) : rest.length < cs.length := by
  rcases hread : within construct s cs with fault | ⟨a, mid⟩
  · rw [piece, hread] at h
    cases h
  · rw [piece, hread] at h
    cases h
    exact (hs (within_eq_ok.1 hread)).2

theorem shorter_of_misc {stage stage' : Stage} {other : List Char → Except (Fault (List Char)) Move}
    {cs rest : List Char} (hother : other cs = .ok (.goOn stage' rest) → rest.length < cs.length)
    (h : misc stage other cs = .ok (.goOn stage' rest)) : rest.length < cs.length := by
  unfold misc at h
  split at h
  · rename_i hspace
    cases h
    cases cs with
    | nil => cases hspace
    | cons c cs => exact Nat.lt_succ_self _
  · split at h
    · exact shorter_of_piece advances_comment h
    · split at h
      · cases h
      · split at h
        · exact shorter_of_piece advances_instruction h
        · exact hother h

theorem not_goOn_of_element {cs rest : List Char} {stage : Stage} : element cs ≠ .ok (.goOn stage rest) := by
  intro h
  unfold element at h
  split at h
  · cases h
  · split at h
    · rcases hread : within .element tagOpening cs with fault | read <;> rw [hread] at h <;> cases h
    · cases h

theorem shorter_of_inSubset {opened cs rest : List Char} {stage : Stage}
    (h : inSubset opened cs = .ok (.goOn stage rest)) : rest.length < cs.length := by
  unfold inSubset at h
  split at h
  · exact shorter_of_piece advances_entity h
  · split at h
    · exact shorter_of_piece advances_subsetEnd h
    · split at h
      · split at h
        · cases h
        · rename_i c rest' hdrop
          cases h
          have hsuffix := (List.dropWhile_suffix (· != '>') (l := cs)).length_le
          rwa [hdrop] at hsuffix
      · cases h

theorem shorter_of_inHead {cs rest : List Char} {stage : Stage} (h : inHead cs = .ok (.goOn stage rest)) :
    rest.length < cs.length := by
  unfold inHead at h
  split at h
  · exact shorter_of_piece advances_doctypeOpening h
  · exact shorter_of_misc (fun h => absurd h not_goOn_of_element) h

/-- **Every step takes something off the input.** -/
theorem shorter_of_step {stage stage' : Stage} {cs rest : List Char}
    (h : stage.step cs = .ok (.goOn stage' rest)) : rest.length < cs.length := by
  cases stage with
  | head => exact shorter_of_inHead h
  | subset opened => exact shorter_of_misc shorter_of_inSubset h
  | tail => exact shorter_of_misc (fun h => absurd h not_goOn_of_element) h

/-- Reads markup from this stage on, up to a start tag, a fault or the end of the input. -/
def run (stage : Stage) (cs : List Char) : Outcome :=
  if cs = [] then .ended stage
  else
    match _ : stage.step cs with
    | .error fault => .failed stage fault
    | .ok .startTag => .startTag
    | .ok (.goOn stage' rest) => run stage' rest
termination_by cs.length
decreasing_by exact shorter_of_step ‹_›

/-- Reads a document from its first character on. Only there may a declaration stand. -/
def runFrom (cs : List Char) : Outcome :=
  if startsWith "<?xml " cs then
    match within .declaration declaration cs with
    | .error fault => .failed .head fault
    | .ok (_, rest) => run .head rest
  else run .head cs

/-- Reads a document, behind the byte order mark that it may start with. -/
def runDocument : List Char → Outcome
  | [] => runFrom []
  | c :: cs => if c = Prolog.byteOrderMark then runFrom cs else runFrom (c :: cs)

variable {stage stage' : Stage} {cs rest opened : List Char} {fault : Fault (List Char)}

@[simp] theorem run_nil (stage : Stage) : run stage [] = .ended stage := by
  rw [run, if_pos rfl]

theorem run_of_goOn (hne : cs ≠ []) (h : stage.step cs = .ok (.goOn stage' rest)) :
    run stage cs = run stage' rest := by
  rw [run, if_neg hne]
  split <;> simp_all

theorem run_of_error (hne : cs ≠ []) (h : stage.step cs = .error fault) :
    run stage cs = .failed stage fault := by
  rw [run, if_neg hne]
  split <;> simp_all

theorem run_of_startTag (hne : cs ≠ []) (h : stage.step cs = .ok .startTag) :
    run stage cs = .startTag := by
  rw [run, if_neg hne]
  split <;> simp_all

/-! ## 2. Internal subsets and doctypes -/

theorem piece_eq_map {α : Type} (construct : Construct) (s : Scan α) (stage : Stage) (cs : List Char) :
    piece construct s (fun _ => stage) cs =
      ((within construct s cs).map Prod.snd).map fun rest => .goOn stage rest := by
  rw [piece]
  rcases within construct s cs with fault | read <;> rfl

theorem step_subset_end (opened cs : List Char) :
    step (.subset opened) (']' :: cs) = piece .doctype subsetEnd (fun _ => .tail) (']' :: cs) := rfl

/-- A step in a subset reads an item of it, unless a space or the end of the subset follows. -/
theorem step_subset_cons {c : Char} (opened cs : List Char) (hspace : ¬ isSpace c = true) (hend : c ≠ ']') :
    step (.subset opened) (c :: cs) =
      (Doctype.subsetItem (c :: cs)).map fun rest => .goOn (.subset opened) rest := by
  have hbracket : ¬ startsWith "]" (c :: cs) = true := by
    rw [startsWith_cons (x := ']') rfl, beq_iff_eq]
    exact Ne.symm hend
  have hmisc : ¬ nextIs isSpace (c :: cs) = true := hspace
  generalize c :: cs = text at hbracket hmisc ⊢
  by_cases hentity : startsWith "<!ENTITY" text = true
  · obtain ⟨more, rfl⟩ := startsWith_iff.1 hentity
    exact piece_eq_map .entity entity (.subset opened) _
  · rw [step, misc, if_neg hmisc, Doctype.subsetItem, if_neg hentity, inSubset, if_neg hentity,
      if_neg hbracket]
    split
    · exact piece_eq_map .comment comment (.subset opened) text
    · split
      · rfl
      · split
        · exact piece_eq_map .instruction instruction (.subset opened) text
        · split
          · rcases text.dropWhile (· != '>') with _ | ⟨c, rest⟩ <;> rfl
          · rfl

/-- **A run through an internal subset** ends and fails where the subset does, and goes on behind its end. -/
theorem run_subset (opened cs : List Char) :
    run (.subset opened) cs =
      match Doctype.subset cs with
      | .error fault => .failed (.subset opened) fault
      | .ok none => .ended (.subset opened)
      | .ok (some rest) => run .tail rest := by
  fun_induction Doctype.subset cs with
  | case1 => exact run_nil _
  | case2 c cs hspace ih =>
    have hstep : step (.subset opened) (c :: cs) = .ok (.goOn (.subset opened) cs) := if_pos hspace
    rw [run_of_goOn (List.cons_ne_nil _ _) hstep, ih]
  | case3 cs fault _ hend =>
    have hstep : step (.subset opened) (']' :: cs) = .error fault := by
      rw [step_subset_end, piece, hend]
      rfl
    exact run_of_error (List.cons_ne_nil _ _) hstep
  | case4 cs _ rest _ hend =>
    have hstep : step (.subset opened) (']' :: cs) = .ok (.goOn .tail rest) := by
      rw [step_subset_end, piece, hend]
      rfl
    exact run_of_goOn (List.cons_ne_nil _ _) hstep
  | case5 c cs hspace hend fault hitem =>
    have hstep := step_subset_cons opened cs hspace hend
    rw [hitem] at hstep
    exact run_of_error (List.cons_ne_nil _ _) hstep
  | case6 c cs hspace hend rest hitem ih =>
    have hstep := step_subset_cons opened cs hspace hend
    rw [hitem] at hstep
    rw [run_of_goOn (List.cons_ne_nil _ _) hstep, ih]

/-- **A run through a doctype** ends, fails and goes on where the doctype does. -/
theorem run_of_doctype (hmark : startsWith "<!DOCTYPE" cs = true) :
    match Doctype.read cs with
    | .error fault => ∃ stage, run .head cs = .failed stage fault
    | .ok none => run .head cs = .ended (.subset cs)
    | .ok (some rest) => run .head cs = run .tail rest := by
  have hne : cs ≠ [] := by
    rintro rfl
    cases hmark
  have hstep : step .head cs = doctype cs := if_pos hmark
  rw [doctype, piece] at hstep
  rcases hread : within .doctype doctypeOpening cs with fault | ⟨_ | _, rest⟩
  · rw [hread] at hstep
    rw [Doctype.read, hread]
    exact ⟨.head, run_of_error hne hstep⟩
  · rw [hread] at hstep
    rw [Doctype.read, hread]
    exact run_of_goOn hne hstep
  · rw [hread] at hstep
    have hrun : run .head cs = run (.subset cs) rest := run_of_goOn hne hstep
    rw [run_subset] at hrun
    rw [Doctype.read, hread]
    rcases hsubset : Doctype.subset rest with fault | _ | after
    · simp only [hsubset] at hrun ⊢
      exact ⟨_, hrun⟩
    · simp only [hsubset] at hrun ⊢
      exact hrun
    · simp only [hsubset] at hrun ⊢
      exact hrun

/-! ## 3. Beside a doctype -/

/-- The stage in front of a doctype, or behind one. -/
def beside (doctypeSeen : Bool) : Stage := if doctypeSeen then .tail else .head

variable {doctypeSeen : Bool}

theorem beside_ne_subset (doctypeSeen : Bool) (opened : List Char) : beside doctypeSeen ≠ .subset opened := by
  cases doctypeSeen <;> exact nofun

/-- Spaces are skipped one by one. -/
theorem run_beside_dropWhile (doctypeSeen : Bool) (cs : List Char) :
    run (beside doctypeSeen) cs = run (beside doctypeSeen) (cs.dropWhile isSpace) := by
  induction cs with
  | nil => rfl
  | cons c cs ih =>
    by_cases hspace : isSpace c = true
    · have hmark : ¬ startsWith "<!DOCTYPE" (c :: cs) = true := by
        intro hmark
        obtain ⟨more, hmore⟩ := startsWith_iff.1 hmark
        obtain rfl : '<' = c := (List.cons.inj hmore).1
        cases hspace
      have hstep : step (beside doctypeSeen) (c :: cs) = .ok (.goOn (beside doctypeSeen) cs) := by
        cases doctypeSeen with
        | true => exact if_pos hspace
        | false => exact (if_neg hmark).trans (if_pos hspace)
      rw [run_of_goOn (List.cons_ne_nil _ _) hstep, ih, List.dropWhile_cons_of_pos hspace]
    · rw [List.dropWhile_cons_of_neg hspace]

/-- **Beside a doctype a step reads what a prolog finds there.** What a prolog does not hold is unknown. -/
theorem step_eq_next (hspace : nextIs isSpace cs = false)
    (hdoctype : (startsWith "<!DOCTYPE" cs && !doctypeSeen) = false) :
    step (beside doctypeSeen) cs =
      match Prolog.next doctypeSeen cs with
      | .error fault => .error fault
      | .ok .startTag => .ok .startTag
      | .ok (.item _ _ rest) => .ok (.goOn (beside doctypeSeen) rest)
      | .ok .other => .error (.unknown cs) := by
  have hstep : step (beside doctypeSeen) cs = misc (beside doctypeSeen) element cs := by
    cases doctypeSeen with
    | true => rfl
    | false =>
      rw [Bool.not_false, Bool.and_true] at hdoctype
      exact if_neg (Bool.eq_false_iff.1 hdoctype)
  rw [hstep, misc, hspace, if_neg Bool.false_ne_true, Prolog.next, hdoctype, if_neg Bool.false_ne_true]
  split
  · rw [piece_eq_map]
    rcases within .comment comment cs with fault | read <;> rfl
  · by_cases hdeclaration : startsWith "<?xml " cs = true
    · rw [if_pos hdeclaration, hdeclaration]
      rfl
    · rw [if_neg hdeclaration, Bool.eq_false_iff.2 hdeclaration, Bool.false_or]
      by_cases hbang : startsWith "<!" cs = true
      · obtain ⟨more, rfl⟩ := startsWith_iff.1 hbang
        rfl
      · rw [if_neg hbang]
        split
        · rw [piece_eq_map]
          rcases within .instruction instruction cs with fault | read <;> rfl
        · rw [element, if_neg hbang]
          split
          · rcases within .element tagOpening cs with fault | read <;> rfl
          · rfl

/-- An item that is no doctype leaves the stage as it is. -/
theorem beside_of_item {kind : Prolog.Kind} {text : List Char}
    (h : Prolog.next doctypeSeen cs = .ok (.item kind text rest))
    (hdoctype : (startsWith "<!DOCTYPE" cs && !doctypeSeen) = false) :
    beside (doctypeSeen || kind == .doctype) = beside doctypeSeen := by
  cases Prolog.next_eq_ok_iff.1 h with
  | doctype hmark hseen =>
    rw [hmark, hseen] at hdoctype
    cases hdoctype
  | comment => rw [show (Prolog.Kind.comment == .doctype) = false from rfl, Bool.or_false]
  | instruction => rw [show (Prolog.Kind.comment == .doctype) = false from rfl, Bool.or_false]

theorem nextIs_dropWhile_isSpace (cs : List Char) : nextIs isSpace (cs.dropWhile isSpace) = false :=
  (takeWhile_dropWhile_eq_iff.1 ⟨rfl, rfl⟩).2.2

/-- How a run is to end if this is found in front of the unread text. Where a prolog ends, it ends in the
    internal subset of a doctype, or else beside a doctype. -/
def Outcome.Follows (outcome : Outcome) (doctypeSeen : Bool) (unread : List Char) :
    Except (Fault (List Char)) Prolog.Next → Prop
  | .error fault => ∃ stage, outcome = .failed stage fault
  | .ok .startTag => outcome = .startTag
  | .ok (.item kind _ rest) => outcome = run (beside (doctypeSeen || kind == .doctype)) rest
  | .ok .other =>
    (startsWith "<!DOCTYPE" unread = true ∧ outcome = .ended (.subset unread)) ∨
      outcome = .ended (beside doctypeSeen) ∨ outcome = .failed (beside doctypeSeen) (.unknown unread)

/-- **A run beside a doctype goes on with what a prolog goes on with.** -/
theorem run_of_next {found : Except (Fault (List Char)) Prolog.Next}
    (h : Prolog.next doctypeSeen (cs.dropWhile isSpace) = found) :
    (run (beside doctypeSeen) cs).Follows doctypeSeen (cs.dropWhile isSpace) found := by
  have hspace := nextIs_dropWhile_isSpace cs
  subst h
  rw [run_beside_dropWhile doctypeSeen cs]
  generalize cs.dropWhile isSpace = unread at hspace ⊢
  by_cases hdoctype : (startsWith "<!DOCTYPE" unread && !doctypeSeen) = true
  · obtain ⟨hmark, hseen⟩ := Bool.and_eq_true_iff.1 hdoctype
    rw [Bool.not_eq_true'] at hseen
    subst hseen
    have hrun := run_of_doctype hmark
    rw [Prolog.next, if_pos hdoctype]
    rcases hread : Doctype.read unread with fault | _ | rest
    · rw [hread] at hrun
      exact hrun
    · rw [hread] at hrun
      exact Or.inl ⟨hmark, hrun⟩
    · rw [hread] at hrun
      exact hrun
  · rw [Bool.not_eq_true] at hdoctype
    have hstep := step_eq_next hspace hdoctype
    by_cases hne : unread = []
    · subst hne
      exact Or.inr (Or.inl (run_nil _))
    · rcases hnext : Prolog.next doctypeSeen unread with fault | ⟨kind, text, rest⟩ | _ | _
      · rw [hnext] at hstep
        exact ⟨_, run_of_error hne hstep⟩
      · rw [hnext] at hstep
        show _ = run _ rest
        rw [beside_of_item hnext hdoctype]
        exact run_of_goOn hne hstep
      · rw [hnext] at hstep
        exact run_of_startTag hne hstep
      · rw [hnext] at hstep
        exact Or.inr (Or.inr (run_of_error hne hstep))

end Stage

end TalMarkup
