import TalMarkup.Scan.Basic

/-!
# What a scanner leaves unread

Every scanner `Keeps` its input: what it leaves unread is an end of what it was given. One that
moreover `Advances` leaves less than it was given, which is why reading a document comes to an end.
Both pass from the parts of a `do` block to the whole (`keeps_bind`, `advances_bind`).

A scanner that gives a text `Reads` it if this text and what is left make up the input. Of the single
marks `char_eq_ok` and `literal_eq_ok` say exactly when they are read.
-/

namespace TalMarkup

/-! ## 1. Cutting -/

theorem cutFrom_append (stop : List Char → Bool) (passed cs : List Char) :
    (cutFrom stop passed cs).1 ++ (cutFrom stop passed cs).2 = passed.reverse ++ cs := by
  induction cs generalizing passed with
  | nil => simp [cutFrom]
  | cons c cs ih =>
    rw [cutFrom]
    split
    · rfl
    · rw [ih, List.reverse_cons, List.append_assoc]; rfl

/-- **Nothing is lost at a cut.** -/
theorem cut_append (stop : List Char → Bool) (cs : List Char) :
    (cut stop cs).1 ++ (cut stop cs).2 = cs :=
  cutFrom_append stop [] cs

theorem cutFrom_snd (stop : List Char → Bool) (passed passed' cs : List Char) :
    (cutFrom stop passed cs).2 = (cutFrom stop passed' cs).2 := by
  induction cs generalizing passed passed' with
  | nil => rfl
  | cons c cs ih =>
    rw [cutFrom, cutFrom]
    split
    · rfl
    · exact ih _ _

/-- Where `stop` does not hold, the cut comes later. -/
theorem cut_cons_snd {stop : List Char → Bool} {c : Char} {cs : List Char}
    (h : stop (c :: cs) = false) : (cut stop (c :: cs)).2 = (cut stop cs).2 := by
  rw [cut, cutFrom, h]
  exact cutFrom_snd stop _ _ cs

theorem cut_snd_suffix (stop : List Char → Bool) (cs : List Char) : (cut stop cs).2 <:+ cs :=
  ⟨_, cut_append stop cs⟩

namespace Scan

variable {α β : Type}

/-! ## 2. Keeping and advancing -/

/-- The scanner leaves an end of what it was given. -/
def Keeps (s : Scan α) : Prop := ∀ ⦃cs a rest⦄, s cs = .ok (a, rest) → rest <:+ cs

/-- The scanner leaves an end of what it was given, and less than that. -/
def Advances (s : Scan α) : Prop :=
  ∀ ⦃cs a rest⦄, s cs = .ok (a, rest) → rest <:+ cs ∧ rest.length < cs.length

theorem Advances.keeps {s : Scan α} (h : Advances s) : Keeps s := fun _ _ _ e => (h e).1

/-- **A sequence of two scanners succeeds if the first does, and then the second on what it left.** -/
theorem bind_eq_ok {s : Scan α} {f : α → Scan β} {cs : List Char} {b : β} {rest : List Char} :
    (s >>= f) cs = .ok (b, rest) ↔ ∃ a mid, s cs = .ok (a, mid) ∧ f a mid = .ok (b, rest) := by
  show Except.bind (s cs) (fun p => f p.1 p.2) = _ ↔ _
  rcases s cs with cause | ⟨a, mid⟩
  · simp [Except.bind]
  · constructor
    · exact fun h => ⟨a, mid, rfl, h⟩
    · rintro ⟨_, _, ⟨⟩, h⟩; exact h

/-- **A result read by `f` comes from a result.** -/
theorem map_eq_ok {s : Scan α} {f : α → β} {cs : List Char} {b : β} {rest : List Char} :
    (f <$> s) cs = .ok (b, rest) ↔ ∃ a, s cs = .ok (a, rest) ∧ f a = b := by
  rw [map_eq_pure_bind, bind_eq_ok]
  constructor
  · rintro ⟨a, mid, h, ⟨⟩⟩; exact ⟨a, h, rfl⟩
  · rintro ⟨a, h, rfl⟩; exact ⟨a, rest, h, rfl⟩

theorem keeps_pure (a : α) : Keeps (pure a) := by
  intro cs b rest h
  cases h
  exact List.suffix_refl _

theorem keeps_throw (cause : Cause (List Char)) : Keeps (throw cause : Scan α) := by
  intro cs b rest h
  cases h

theorem keeps_get : Keeps (get : Scan (List Char)) := by
  intro cs b rest h
  cases h
  exact List.suffix_refl _

theorem keeps_bind {s : Scan α} {f : α → Scan β} (hs : Keeps s) (hf : ∀ a, Keeps (f a)) :
    Keeps (s >>= f) := by
  intro cs b rest h
  obtain ⟨a, mid, h₁, h₂⟩ := bind_eq_ok.1 h
  exact (hf a h₂).trans (hs h₁)

theorem advances_bind {s : Scan α} {f : α → Scan β} (hs : Advances s) (hf : ∀ a, Keeps (f a)) :
    Advances (s >>= f) := by
  intro cs b rest h
  obtain ⟨a, mid, h₁, h₂⟩ := bind_eq_ok.1 h
  exact ⟨(hf a h₂).trans (hs h₁).1, Nat.lt_of_le_of_lt (hf a h₂).length_le (hs h₁).2⟩

/-- It is enough that the second scanner of two advances. -/
theorem advances_bind_right {s : Scan α} {f : α → Scan β} (hs : Keeps s)
    (hf : ∀ a, Advances (f a)) : Advances (s >>= f) := by
  intro cs b rest h
  obtain ⟨a, mid, h₁, h₂⟩ := bind_eq_ok.1 h
  exact ⟨(hf a h₂).1.trans (hs h₁), Nat.lt_of_lt_of_le (hf a h₂).2 (hs h₁).length_le⟩

theorem advances_map {s : Scan α} (hs : Advances s) (f : α → β) : Advances (f <$> s) := by
  intro cs b rest h
  obtain ⟨a, ha, _⟩ := map_eq_ok.1 h
  exact hs ha

/-! ## 3. The scanners, one by one -/

theorem advances_char (x : Char) : Advances (char x) := by
  intro cs a rest h
  match cs, h with
  | c :: cs, h =>
    by_cases hc : c = x <;> simp [char, hc] at h
    subst h
    exact ⟨List.suffix_cons _ _, by simp⟩

theorem keeps_literal (mark : String) : Keeps (literal mark) := by
  intro cs a rest h
  by_cases hm : startsWith mark cs <;> simp [literal, hm] at h
  subst h
  exact List.drop_suffix _ _

theorem startsWith_iff {mark : String} {cs : List Char} :
    startsWith mark cs = true ↔ mark.toList <+: cs := by
  simp [startsWith]

/-- A mark that is not empty is read off the front. -/
theorem advances_literal {mark : String} (hmark : 0 < mark.length) : Advances (literal mark) := by
  intro cs a rest h
  refine ⟨keeps_literal mark h, ?_⟩
  by_cases hm : startsWith mark cs <;> simp [literal, hm] at h
  subst h
  have h := (startsWith_iff.1 hm).length_le
  rw [String.length_toList] at h
  rw [List.length_drop]
  omega

theorem advances_quote : Advances quote := by
  intro cs a rest h
  match cs, h with
  | c :: cs, h =>
    simp only [quote] at h
    split at h
    · cases h; exact ⟨List.suffix_cons _ _, by simp⟩
    · cases h

theorem keeps_span (p : Char → Bool) : Keeps (span p) := by
  intro cs a rest h
  cases h
  exact List.dropWhile_suffix _

theorem keeps_someSpaces : Keeps someSpaces := by
  intro cs a rest h
  match cs, h with
  | c :: cs, h =>
    simp only [someSpaces] at h
    split at h
    · exact keeps_span _ h
    · cases h

theorem keeps_upTo (stop : List Char → Bool) : Keeps (upTo stop) := by
  intro cs a rest h
  have hcut := cut_append stop cs
  simp only [upTo] at h
  split at h
  · cases h; exact ⟨_, hcut⟩
  · cases h

theorem keeps_equals : Keeps equals :=
  keeps_bind (keeps_span _) fun _ => keeps_bind (advances_char _).keeps fun _ =>
    keeps_bind (keeps_span _) fun _ => keeps_pure _

theorem keeps_quoted : Keeps quoted :=
  keeps_bind advances_quote.keeps fun _ => keeps_bind (keeps_span _) fun _ =>
    (advances_char _).keeps

theorem keeps_optionalName : Keeps optionalName := by
  intro cs a rest h
  match cs, h with
  | [], h => cases h; exact List.suffix_refl _
  | c :: cs, h =>
    simp only [optionalName] at h
    split at h
    · exact keeps_span _ h
    · cases h

theorem keeps_name : Keeps name := by
  intro cs a rest h
  match cs, h with
  | c :: cs, h => exact keeps_optionalName h

theorem keeps_whenNext {mark : String} {s : Scan Unit} (hs : Keeps s) : Keeps (whenNext mark s) := by
  intro cs a rest h
  simp only [whenNext] at h
  split at h
  · exact keeps_bind (keeps_literal mark) (fun _ => hs) h
  · cases h; exact List.suffix_refl _

/-! ## 4. The part read -/

theorem text_eq_ok {s : Scan α} {cs part rest : List Char} :
    text s cs = .ok (part, rest) ↔ (∃ a, s cs = .ok (a, rest)) ∧ part = readPart cs rest := by
  unfold text
  rcases h : s cs with cause | ⟨a, mid⟩
  · simp
  · simp only [Except.ok.injEq, Prod.mk.injEq]
    constructor
    · rintro ⟨rfl, rfl⟩; exact ⟨⟨a, rfl, rfl⟩, rfl⟩
    · rintro ⟨⟨_, _, rfl⟩, rfl⟩; exact ⟨rfl, rfl⟩

/-- **The part a scanner reads and the part it leaves make up its input.** -/
theorem append_of_text {s : Scan α} (hs : Keeps s) {cs part rest : List Char}
    (h : text s cs = .ok (part, rest)) : part ++ rest = cs := by
  obtain ⟨⟨a, ha⟩, rfl⟩ := text_eq_ok.1 h
  exact readPart_append_of_suffix (hs ha)

theorem within_eq_ok {construct : Construct} {s : Scan α} {cs : List Char} {result : α × List Char} :
    within construct s cs = .ok result ↔ s cs = .ok result := by
  unfold within
  rcases s cs with cause | r <;> simp

theorem char_eq_ok {x : Char} {cs : List Char} {u : Unit} {rest : List Char} :
    char x cs = .ok (u, rest) ↔ cs = x :: rest := by
  cases cs with
  | nil => simp [char]
  | cons c cs => by_cases h : c = x <;> simp [char, h]

theorem literal_eq_ok {mark : String} {cs : List Char} {u : Unit} {rest : List Char} :
    literal mark cs = .ok (u, rest) ↔ cs = mark.toList ++ rest := by
  unfold literal
  split
  · rename_i h
    obtain ⟨more, rfl⟩ := startsWith_iff.1 h
    rw [← String.length_toList, List.drop_left]
    simp
  · rename_i h
    simp only [reduceCtorEq, false_iff]
    rintro rfl
    exact h (startsWith_iff.2 (List.prefix_append _ _))

/-- A scanner that gives the text that it reads. -/
def Reads (s : Scan (List Char)) : Prop := ∀ ⦃cs part rest⦄, s cs = .ok (part, rest) → part ++ rest = cs

theorem reads_span (p : Char → Bool) : Reads (span p) := by
  intro cs part rest h
  cases h
  exact List.takeWhile_append_dropWhile

theorem reads_upTo (stop : List Char → Bool) : Reads (upTo stop) := by
  intro cs part rest h
  have hcut := cut_append stop cs
  simp only [upTo] at h
  split at h
  · cases h; exact hcut
  · cases h

theorem reads_optionalName : Reads optionalName := by
  intro cs part rest h
  match cs, h with
  | [], h => cases h; rfl
  | c :: cs, h =>
    simp only [optionalName] at h
    split at h
    · exact reads_span _ h
    · cases h

theorem reads_name : Reads name := by
  intro cs part rest h
  match cs, h with
  | c :: cs, h => exact reads_optionalName h

theorem quote_eq_ok {cs : List Char} {mark : Char} {rest : List Char} :
    quote cs = .ok (mark, rest) ↔ cs = mark :: rest ∧ (mark = '"' ∨ mark = '\x27') := by
  cases cs with
  | nil => simp [quote]
  | cons c cs =>
    by_cases h : c = '"' ∨ c = '\x27'
    · simp only [quote, Bool.or_eq_true, decide_eq_true_eq, h, ↓reduceIte,
        Except.ok.injEq, Prod.mk.injEq, List.cons.injEq]
      exact ⟨fun ⟨hm, hr⟩ => ⟨⟨hm, hr⟩, hm ▸ h⟩, fun ⟨hm, _⟩ => hm⟩
    · simp only [quote, Bool.or_eq_true, decide_eq_true_eq, h, ↓reduceIte,
        reduceCtorEq, List.cons.injEq, false_iff, not_and]
      rintro ⟨rfl, _⟩
      exact h

end Scan

end TalMarkup
