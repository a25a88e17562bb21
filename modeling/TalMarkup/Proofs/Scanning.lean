import Mathlib.Data.List.TakeWhile
import TalMarkup.Scan.Keeps

/-!
# Which part a scanner reads

`Scan.Keeps` says that nothing is lost in front of what a scanner leaves. Here it is said which part
it takes off, in both directions:

* a run of characters ends where the next one is of another kind (`span_eq_ok`);
* a cut is at the first place where the stop test holds (`cut_eq_iff`), so the text in front of an
  end mark is any text that does not hold the mark (`upTo_mark_eq_ok`);
* whether a mark stands in front does not depend on what is behind a `>` (`startsWith_append`).

The second needs that a mark does not overlap itself: its last character stands nowhere else in it
(`EndMark`).
-/

namespace TalMarkup

/-- A run of spaces, possibly empty. -/
def IsGap (cs : List Char) : Prop := ∀ c ∈ cs, isSpace c = true

/-- Every character may stand in a document. -/
def IsXmlText (cs : List Char) : Prop := ∀ c ∈ cs, isXmlChar c = true

instance (cs : List Char) : Decidable (IsGap cs) :=
  List.decidableBAll (fun c => isSpace c = true) cs

instance (cs : List Char) : Decidable (IsXmlText cs) :=
  List.decidableBAll (fun c => isXmlChar c = true) cs

theorem isGap_nil : IsGap [] := fun _ h => absurd h List.not_mem_nil

/-! ## 1. Classes of characters that exclude each other -/

theorem isNameChar_of_isSpace {c : Char} (h : isSpace c = true) : isNameChar c = false := by
  simp only [isSpace, Bool.or_eq_true, beq_iff_eq, or_assoc] at h
  rcases h with rfl | rfl | rfl | rfl <;> decide

theorem isSpace_of_isNameChar {c : Char} (h : isNameChar c = true) : isSpace c = false :=
  Bool.eq_false_iff.2 fun hspace => by rw [isNameChar_of_isSpace hspace] at h; cases h

theorem isXmlChar_of_isSpace {c : Char} (h : isSpace c = true) : isXmlChar c = true := by
  simp only [isSpace, Bool.or_eq_true, beq_iff_eq, or_assoc] at h
  rcases h with rfl | rfl | rfl | rfl <;> decide

/-- A character that is not in a class differs from every character of it. -/
theorem ne_of_class {p : Char → Bool} {c d : Char} (hc : p c = true) (hd : p d = false) : c ≠ d :=
  fun h => by rw [h, hd] at hc; cases hc

/-! ## 2. Runs -/

theorem nextIs_append_of_ne_nil (p : Char → Bool) {cs : List Char} (h : cs ≠ []) (rest : List Char) :
    nextIs p (cs ++ rest) = nextIs p cs := by
  cases cs with
  | nil => exact absurd rfl h
  | cons c cs => rfl

theorem nextIs_eq_false_of_nextIs {p q : Char → Bool} (hpq : ∀ c, p c = true → q c = false)
    {cs : List Char} (h : nextIs p cs = true) : nextIs q cs = false := by
  cases cs with
  | nil => rfl
  | cons c cs => exact hpq c h

/-- **A text is cut where a class of characters ends in one way.** -/
theorem takeWhile_dropWhile_eq_iff {p : Char → Bool} {cs part rest : List Char} :
    (cs.takeWhile p = part ∧ cs.dropWhile p = rest) ↔
      cs = part ++ rest ∧ (∀ c ∈ part, p c = true) ∧ nextIs p rest = false := by
  induction cs generalizing part with
  | nil =>
    refine ⟨?_, ?_⟩
    · rintro ⟨rfl, rfl⟩; exact ⟨rfl, fun _ h => absurd h List.not_mem_nil, rfl⟩
    · intro h
      obtain ⟨h, -, -⟩ := h
      obtain ⟨rfl, rfl⟩ := List.append_eq_nil_iff.1 h.symm
      exact ⟨rfl, rfl⟩
  | cons c cs ih =>
    by_cases hc : p c = true
    · rw [List.takeWhile_cons_of_pos hc, List.dropWhile_cons_of_pos hc]
      refine ⟨?_, ?_⟩
      · intro h
        obtain ⟨rfl, hrest⟩ := h
        obtain ⟨h₁, h₂, h₃⟩ := ih.1 ⟨rfl, hrest⟩
        exact ⟨congrArg (c :: ·) h₁, List.forall_mem_cons.2 ⟨hc, h₂⟩, h₃⟩
      · intro h
        obtain ⟨h₁, h₂, h₃⟩ := h
        cases part with
        | nil =>
          rw [List.nil_append] at h₁
          rw [← h₁, nextIs, hc] at h₃
          cases h₃
        | cons d part =>
          obtain ⟨rfl, hcs⟩ := List.cons.inj h₁
          obtain ⟨hpart, hrest⟩ := ih.2 ⟨hcs, (List.forall_mem_cons.1 h₂).2, h₃⟩
          exact ⟨congrArg (c :: ·) hpart, hrest⟩
    · rw [List.takeWhile_cons_of_neg hc, List.dropWhile_cons_of_neg hc]
      refine ⟨?_, ?_⟩
      · intro h
        obtain ⟨rfl, rfl⟩ := h
        exact ⟨rfl, fun _ h => absurd h List.not_mem_nil, Bool.eq_false_iff.2 hc⟩
      · intro h
        obtain ⟨h₁, h₂, -⟩ := h
        cases part with
        | nil => exact ⟨rfl, h₁⟩
        | cons d part =>
          obtain ⟨rfl, -⟩ := List.cons.inj h₁
          exact absurd (h₂ _ List.mem_cons_self) hc

/-! ## 3. Cuts -/

theorem cutFrom_eq (stop : List Char → Bool) (passed cs : List Char) :
    cutFrom stop passed cs = (passed.reverse ++ (cut stop cs).1, (cut stop cs).2) := by
  have hfst := cutFrom_append stop passed cs
  have hsnd : (cutFrom stop passed cs).2 = (cut stop cs).2 := cutFrom_snd stop passed [] cs
  have hwhole : (cut stop cs).1 ++ (cut stop cs).2 = cs := cut_append stop cs
  rw [hsnd] at hfst
  have hpart : (cutFrom stop passed cs).1 ++ (cut stop cs).2 =
      (passed.reverse ++ (cut stop cs).1) ++ (cut stop cs).2 := by
    rw [hfst, List.append_assoc, hwhole]
  exact Prod.ext (List.append_cancel_right hpart) hsnd

theorem cut_cons (stop : List Char → Bool) (c : Char) (cs : List Char) :
    cut stop (c :: cs) =
      if stop (c :: cs) then ([], c :: cs) else (c :: (cut stop cs).1, (cut stop cs).2) := by
  rw [cut, cutFrom]
  split
  · rfl
  · exact cutFrom_eq stop [c] cs

/-- **A cut is at the first place where the stop test holds, or at the end.** -/
theorem cut_eq_iff {stop : List Char → Bool} {cs part rest : List Char} :
    cut stop cs = (part, rest) ↔
      cs = part ++ rest ∧ (∀ a b, a ++ b = part → b ≠ [] → stop (b ++ rest) = false) ∧
        (rest = [] ∨ stop rest = true) := by
  induction cs generalizing part with
  | nil =>
    refine ⟨?_, ?_⟩
    · intro h
      cases h
      refine ⟨rfl, fun a b hab hb => absurd (List.append_eq_nil_iff.1 hab).2 hb, Or.inl rfl⟩
    · intro h
      obtain ⟨h, -, -⟩ := h
      obtain ⟨rfl, rfl⟩ := List.append_eq_nil_iff.1 h.symm
      rfl
  | cons c cs ih =>
    rw [cut_cons]
    rcases hcut : cut stop cs with ⟨part', rest'⟩
    rw [hcut] at ih
    by_cases hstop : stop (c :: cs) = true
    · rw [if_pos hstop]
      refine ⟨?_, ?_⟩
      · intro h
        cases h
        exact ⟨rfl, fun a b hab hb => absurd (List.append_eq_nil_iff.1 hab).2 hb, Or.inr hstop⟩
      · intro h
        obtain ⟨h₁, h₂, -⟩ := h
        cases part with
        | nil => rw [h₁]; rfl
        | cons d part =>
          have h := h₂ [] (d :: part) rfl (List.cons_ne_nil _ _)
          rw [← h₁, hstop] at h
          cases h
    · rw [if_neg hstop]
      refine ⟨?_, ?_⟩
      · intro h
        obtain ⟨rfl, rfl⟩ := Prod.mk.inj h
        obtain ⟨h₁, h₂, h₃⟩ := ih.1 rfl
        refine ⟨congrArg (c :: ·) h₁, fun a b hab hb => ?_, h₃⟩
        cases a with
        | nil =>
          have hb' : b ++ rest' = c :: cs := by
            rw [h₁, ← List.cons_append, ← hab, List.nil_append]
          rw [hb']
          exact Bool.eq_false_iff.2 hstop
        | cons d a => exact h₂ a b (List.cons.inj hab).2 hb
      · intro h
        obtain ⟨h₁, h₂, h₃⟩ := h
        cases part with
        | nil =>
          rw [List.nil_append] at h₁
          rw [← h₁] at h₃
          rcases h₃ with h₃ | h₃
          · cases h₃
          · exact absurd h₃ hstop
        | cons d part =>
          obtain ⟨rfl, hcs⟩ := List.cons.inj h₁
          have hsame : (part', rest') = (part, rest) :=
            ih.2 ⟨hcs, fun a b hab hb => h₂ (c :: a) b (congrArg (c :: ·) hab) hb, h₃⟩
          cases hsame
          rfl

theorem cut_nextIs_eq_iff {p : Char → Bool} {cs part rest : List Char} :
    cut (nextIs p) cs = (part, rest) ↔
      cs = part ++ rest ∧ (∀ c ∈ part, p c = false) ∧ (rest = [] ∨ nextIs p rest = true) := by
  rw [cut_eq_iff]
  refine and_congr_right fun _ => and_congr_left fun _ => ⟨fun h c hc => ?_, fun h a b hab hb => ?_⟩
  · obtain ⟨a, b, rfl⟩ := List.append_of_mem hc
    exact h a (c :: b) rfl (List.cons_ne_nil _ _)
  · rw [nextIs_append_of_ne_nil p hb]
    cases b with
    | nil => exact absurd rfl hb
    | cons c b => exact h c (by rw [← hab]; exact List.mem_append_right a List.mem_cons_self)

/-- **A mark stands in a text if the text is cut by it.** -/
theorem holds_eq_true_iff {mark : String} (hmark : mark.toList ≠ []) {cs : List Char} :
    holds mark cs = true ↔ mark.toList <:+: cs := by
  rcases hcut : cut (startsWith mark) cs with ⟨part, rest⟩
  obtain ⟨h₁, h₂, h₃⟩ := cut_eq_iff.1 hcut
  rw [holds, hcut, Bool.not_eq_true', List.isEmpty_eq_false_iff]
  refine ⟨?_, ?_⟩
  · intro hrest
    obtain ⟨more, hmore⟩ := Scan.startsWith_iff.1 (h₃.resolve_left hrest)
    exact ⟨part, more, by rw [List.append_assoc, hmore, h₁]⟩
  · rintro ⟨a, b, hab⟩ rfl
    rw [List.append_nil] at h₁
    have hstop := h₂ a (mark.toList ++ b) (by rw [← List.append_assoc, hab, h₁])
      fun h => hmark (List.append_eq_nil_iff.1 h).1
    rw [List.append_assoc] at hstop
    rw [Scan.startsWith_iff.2 (List.prefix_append _ _)] at hstop
    cases hstop

/-! ## 4. End marks -/

/-- A mark whose last character stands nowhere else in it. -/
def EndMark (mark : String) : Prop := ∃ m z, mark.toList = m ++ [z] ∧ z ∉ m

/-- In front of an end mark the mark does not begin earlier than in the text in front of it. -/
theorem EndMark.not_starts {mark : String} (hmark : EndMark mark) {part rest : List Char}
    (hpart : part ≠ []) (h : ¬ mark.toList <:+: part) :
    ¬ mark.toList <+: part ++ (mark.toList ++ rest) := by
  obtain ⟨m, z, hmz, hz⟩ := hmark
  intro hfront
  by_cases hlen : mark.toList.length ≤ part.length
  · exact h (List.prefix_of_prefix_length_le hfront (List.prefix_append _ _) hlen).isInfix
  · -- the last character of the mark would stand inside the mark after `part`
    have hpos : 0 < part.length := List.length_pos_iff.2 hpart
    have hlen' : mark.toList.length = m.length + 1 := by rw [hmz]; simp
    have hlast : mark.toList[m.length]? = some z := by rw [hmz]; simp
    have hinner : (part ++ (mark.toList ++ rest))[m.length]? = m[m.length - part.length]? := by
      rw [List.getElem?_append_right (by omega), hmz, List.append_assoc,
        List.getElem?_append_left (by omega)]
    have hsame : (part ++ (mark.toList ++ rest))[m.length]? = some z := by
      obtain ⟨more, hmore⟩ := hfront
      rw [← hmore, List.getElem?_append_left (by omega), hlast]
    rw [hinner] at hsame
    exact hz (List.mem_of_getElem? hsame)

theorem EndMark.cut_eq_iff {mark : String} (hmark : EndMark mark) {cs part rest : List Char} :
    cut (startsWith mark) cs = (part, mark.toList ++ rest) ↔
      cs = part ++ (mark.toList ++ rest) ∧ ¬ mark.toList <:+: part := by
  rw [TalMarkup.cut_eq_iff]
  refine and_congr_right fun _ => ⟨?_, fun h => ⟨fun a b hab hb => ?_, Or.inr ?_⟩⟩
  · rintro ⟨h, -⟩ ⟨a, b, hab⟩
    have hb : mark.toList ++ b ≠ [] := by
      obtain ⟨m, z, hmz, -⟩ := hmark
      simp [hmz]
    have hstop := h a (mark.toList ++ b) (by rw [← List.append_assoc, hab]) hb
    rw [List.append_assoc, Scan.startsWith_iff.2 (List.prefix_append _ _)] at hstop
    cases hstop
  · refine Bool.eq_false_iff.2 fun hstop => ?_
    have hinfix : ¬ mark.toList <:+: b := fun hin => h (hin.trans ⟨a, [], by simp [hab]⟩)
    exact hmark.not_starts hb hinfix (Scan.startsWith_iff.1 hstop)
  · exact Scan.startsWith_iff.2 (List.prefix_append _ _)

/-- **Whether a mark stands in front is seen up to the next `>`.** -/
theorem startsWith_append {mark : String} (hmark : '>' ∉ mark.toList.dropLast) {cs : List Char}
    (h : '>' ∈ cs) (more : List Char) : startsWith mark (cs ++ more) = startsWith mark cs := by
  rw [Bool.eq_iff_iff, Scan.startsWith_iff, Scan.startsWith_iff]
  refine ⟨fun hfront => ?_, fun hfront => hfront.trans (List.prefix_append cs more)⟩
  by_cases hlen : mark.toList.length ≤ cs.length
  · exact List.prefix_of_prefix_length_le hfront (List.prefix_append cs more) hlen
  · -- a shorter text would be a part of the mark, in front of its last character
    have hpart : cs <+: mark.toList :=
      List.prefix_of_prefix_length_le (List.prefix_append cs more) hfront (by omega)
    have hlength : cs.length ≤ mark.toList.dropLast.length := by
      rw [List.length_dropLast]
      omega
    have hinit : cs <+: mark.toList.dropLast :=
      List.prefix_of_prefix_length_le hpart (List.dropLast_prefix _) hlength
    exact absurd (hinit.subset h) hmark

namespace Scan

/-! ## 5. Scanners -/

theorem span_eq_ok {p : Char → Bool} {cs part rest : List Char} :
    span p cs = .ok (part, rest) ↔
      cs = part ++ rest ∧ (∀ c ∈ part, p c = true) ∧ nextIs p rest = false := by
  rw [← takeWhile_dropWhile_eq_iff, span, Except.ok.injEq, Prod.mk.injEq]

theorem upTo_eq_ok {stop : List Char → Bool} {cs part rest : List Char} :
    upTo stop cs = .ok (part, rest) ↔ cut stop cs = (part, rest) ∧ IsXmlText part := by
  rcases hcut : cut stop cs with ⟨part', rest'⟩
  simp only [upTo, hcut]
  split
  · rename_i hdrop
    have hxml : IsXmlText part' := List.dropWhile_eq_nil_iff.1 hdrop
    rw [Except.ok.injEq]
    exact ⟨fun h => ⟨h, (Prod.mk.inj h).1 ▸ hxml⟩, fun h => h.1⟩
  · rename_i c more hdrop
    refine ⟨fun h => (nomatch h), ?_⟩
    intro h
    obtain ⟨h, hxml⟩ := h
    obtain ⟨rfl, rfl⟩ := Prod.mk.inj h
    have hnil : part'.dropWhile isXmlChar = [] := List.dropWhile_eq_nil_iff.2 hxml
    rw [hnil] at hdrop
    cases hdrop

/-- **The text in front of an end mark is any text of a document that does not hold the mark.** -/
theorem upTo_mark_eq_ok {mark : String} (hmark : EndMark mark) {cs part rest : List Char} :
    (∃ mid u, upTo (startsWith mark) cs = .ok (part, mid) ∧ literal mark mid = .ok (u, rest)) ↔
      cs = part ++ (mark.toList ++ rest) ∧ IsXmlText part ∧ ¬ mark.toList <:+: part := by
  refine ⟨?_, ?_⟩
  · intro h
    obtain ⟨mid, u, h₁, h₂⟩ := h
    obtain ⟨hcut, hxml⟩ := upTo_eq_ok.1 h₁
    rw [literal_eq_ok.1 h₂] at hcut
    obtain ⟨hcs, hnot⟩ := hmark.cut_eq_iff.1 hcut
    exact ⟨hcs, hxml, hnot⟩
  · intro h
    obtain ⟨hcs, hxml, hnot⟩ := h
    exact ⟨mark.toList ++ rest, (), upTo_eq_ok.2 ⟨hmark.cut_eq_iff.2 ⟨hcs, hnot⟩, hxml⟩,
      literal_eq_ok.2 rfl⟩

end Scan

end TalMarkup
