import TalMarkup.Proofs.Continuing
import TalMarkup.Proofs.Spelling

/-!
# What the items of a prolog are

Each item of a prolog is one whole piece of markup, judged with the text behind it present
(`Prolog.Kind.Stands`): a declaration up to its `?>`, a comment or an instruction, a doctype up to the `>` that
ends it. A doctype takes its internal subset with it, so nothing in a subset becomes an item.

* `Scan.EndsBy`: a scanner stops right behind a mark. It passes from the last part of a `do` block to the
  whole (`Scan.endsBy_bind`).
* **`Prolog.standing_of_read`**: the items of a prolog stand in front of the body.
* **`Prolog.ordered_of_read`**: they are a declaration, comments, a doctype and comments, in this order.
-/

namespace TalMarkup

namespace Scan

variable {α β : Type} {mark : List Char} {p : α → Prop}

/-! ## 1. Where scanners stop -/

/-- What the scanner leaves when it gives a result with `p` stands right behind the mark. -/
def EndsBy (mark : List Char) (p : α → Prop) (s : Scan α) : Prop :=
  ∀ ⦃cs a rest⦄, s cs = .ok (a, rest) → p a → mark ++ rest <:+ cs

theorem endsBy_bind {q : β → Prop} {s : Scan α} {f : α → Scan β} (hs : Keeps s)
    (hf : ∀ a, EndsBy mark q (f a)) : EndsBy mark q (s >>= f) := by
  intro cs b rest h hq
  obtain ⟨a, mid, h₁, h₂⟩ := bind_eq_ok.1 h
  exact (hf a h₂ hq).trans (hs h₁)

theorem endsBy_then {s : Scan α} (hs : EndsBy mark (fun _ => True) s) (b : β) (q : β → Prop) :
    EndsBy mark q (s >>= fun _ => pure b) := by
  intro cs b' rest h _
  obtain ⟨a, mid, h₁, h₂⟩ := bind_eq_ok.1 h
  cases h₂
  exact hs h₁ trivial

theorem endsBy_throw (cause : Cause (List Char)) : EndsBy mark p (throw cause) := by
  intro cs a rest h
  cases h

theorem endsBy_char (x : Char) : EndsBy [x] (fun _ => True) (char x) := by
  intro cs a rest h _
  obtain rfl := char_eq_ok.1 h
  exact List.suffix_refl _

theorem endsBy_literal (mark : String) : EndsBy mark.toList (fun _ => True) (literal mark) := by
  intro cs a rest h _
  obtain rfl := literal_eq_ok.1 h
  exact List.suffix_refl _

/-- **A declaration stops behind its `?>`.** -/
theorem endsBy_declaration : EndsBy "?>".toList (fun _ => True) declaration :=
  endsBy_bind (keeps_literal _) fun _ => endsBy_bind (keeps_span _) fun _ =>
    endsBy_bind (keeps_literal _) fun _ => endsBy_bind keeps_equals fun _ =>
      endsBy_bind advances_quote.keeps fun _ => endsBy_bind (keeps_literal _) fun _ =>
        endsBy_bind (keeps_span _) fun _ => endsBy_bind (advances_char _).keeps fun _ =>
          endsBy_bind keeps_declarationGap fun _ =>
            endsBy_bind (keeps_whenNext keeps_encodingValue) fun _ =>
              endsBy_bind (keeps_whenNext keeps_standaloneValue) fun _ =>
                endsBy_bind (keeps_span _) fun _ => endsBy_literal _

theorem endsBy_subsetEnd : EndsBy ['>'] (fun _ => True) subsetEnd :=
  endsBy_bind (advances_char _).keeps fun _ => endsBy_bind (keeps_span _) fun _ => endsBy_char _

/-- A doctype without a subset stops behind its `>`. -/
theorem endsBy_doctypeOpening : EndsBy ['>'] (· = false) doctypeOpening := by
  refine endsBy_bind (keeps_literal _) fun _ => endsBy_bind keeps_someSpaces fun _ =>
    endsBy_bind keeps_name fun _ => endsBy_bind (keeps_span _) fun _ =>
      endsBy_bind keeps_externalId fun _ => endsBy_bind (keeps_span _) fun _ =>
        endsBy_bind keeps_get fun unread => ?_
  split
  · exact endsBy_throw _
  · split
    · intro cs a rest h hfalse
      obtain ⟨_, mid, -, h₂⟩ := bind_eq_ok.1 h
      cases h₂
      cases hfalse
    · split
      · exact endsBy_then (endsBy_char _) false _
      · exact endsBy_throw _

end Scan

theorem Doctype.suffix_of_subset_end {cs rest : List Char} (h : subset cs = .ok (some rest)) :
    ['>'] ++ rest <:+ cs := by
  fun_induction subset cs with
  | case1 => cases h
  | case2 c cs _ ih => exact (ih h).trans (List.suffix_cons _ _)
  | case3 => cases h
  | case4 c cs _ mid hend => cases h; exact Scan.endsBy_subsetEnd (Scan.within_eq_ok.1 hend) trivial
  | case5 => cases h
  | case6 c cs _ _ mid hitem ih => exact (ih h).trans (shorter_of_subsetItem hitem).1

/-- **A doctype stops behind its `>`**, with or without a subset. -/
theorem Doctype.suffix_of_read_end {cs rest : List Char} (h : read cs = .ok (some rest)) :
    ['>'] ++ rest <:+ cs := by
  unfold read at h
  split at h
  · cases h
  · rename_i mid hopening
    exact (suffix_of_subset_end h).trans (Scan.advances_doctypeOpening (Scan.within_eq_ok.1 hopening)).1
  · rename_i mid hopening
    cases h
    exact Scan.endsBy_doctypeOpening (Scan.within_eq_ok.1 hopening) rfl

/-! ## 2. Items -/

namespace Prolog

/-- With `rest` behind it the text is one whole item of this kind. -/
def Kind.Stands (text rest : List Char) : Kind → Prop
  | .declaration => "<?xml ".toList <+: text ∧ "?>".toList <:+ text
  | .comment => (Token.verbatim text).Formed
  | .doctype => "<!DOCTYPE".toList <+: text ∧ ">".toList <:+ text ∧
      Doctype.read (text ++ rest) = .ok (some rest)

/-- A scanner that stops behind a mark gives a text that ends with it. -/
theorem suffix_of_append {mark text rest : List Char} (h : mark ++ rest <:+ text ++ rest) :
    mark <:+ text := by
  obtain ⟨front, hfront⟩ := h
  rw [← List.append_assoc] at hfront
  exact ⟨front, List.append_cancel_right hfront⟩

/-- **What is found at the front is one whole item.** -/
theorem stands_of_next {doctypeSeen : Bool} {kind : Kind} {cs text rest : List Char}
    (h : next doctypeSeen cs = .ok (.item kind text rest)) : kind.Stands text rest := by
  cases kind with
  | comment => exact formed_of_next h
  | declaration => cases next_eq_ok_iff.1 h
  | doctype =>
    obtain ⟨hcs, -⟩ := shorter_of_next h
    cases next_eq_ok_iff.1 h with
    | doctype hmark _ hread =>
      generalize readPart cs rest = text at hcs ⊢
      subst hcs
      have hend : ">".toList <:+ text := suffix_of_append (Doctype.suffix_of_read_end hread)
      have hopen : '>' ∈ text := hend.subset List.mem_cons_self
      rw [startsWith_append (by decide) hopen] at hmark
      exact ⟨Scan.startsWith_iff.1 hmark, hend, hread⟩

theorem stands_of_declaration {text rest : List Char} (hmark : startsWith "<?xml " (text ++ rest) = true)
    (h : Scan.within .declaration (Scan.text Scan.declaration) (text ++ rest) = .ok (text, rest)) :
    Kind.declaration.Stands text rest := by
  obtain ⟨⟨_, hread⟩, -⟩ := Scan.text_eq_ok.1 (Scan.within_eq_ok.1 h)
  have hend : "?>".toList <:+ text := suffix_of_append (Scan.endsBy_declaration hread trivial)
  have hopen : '>' ∈ text := hend.subset (by decide)
  rw [startsWith_append (by decide) hopen] at hmark
  exact ⟨Scan.startsWith_iff.1 hmark, hend⟩

/-- The text `head` in front of the body is these items, with spaces in front of each of them and at the
    end. The gap of the first item is longer by a mark that stands in front of everything. -/
inductive Standing : List Char → List Item → List Char → List Char → Prop
  | nil {mark gap body} (hgap : IsGap gap) : Standing mark [] gap body
  | item {mark gap kind text items head body} (hgap : IsGap gap) (hitem : kind.Stands text (head ++ body))
      (more : Standing [] items head body) :
      Standing mark (⟨mark ++ gap, kind, text⟩ :: items) (gap ++ (text ++ head)) body

theorem standing_of_readItems {doctypeSeen : Bool} {skipped cs : List Char} {prolog : Prolog}
    (h : readItems doctypeSeen skipped cs = .ok prolog) :
    ∃ mark head, (mark = [] ∨ mark = skipped) ∧ skipped ++ cs = mark ++ (head ++ prolog.body) ∧
      Standing mark prolog.items head prolog.body := by
  fun_induction readItems doctypeSeen skipped cs generalizing prolog with
  | case1 => cases h
  | case2 doctypeSeen skipped cs gap unread =>
    cases h
    refine ⟨skipped, cs.takeWhile isSpace, Or.inr rfl, ?_, .nil (isGap_takeWhile cs)⟩
    rw [List.takeWhile_append_dropWhile]
  | case3 =>
    cases h
    exact ⟨[], [], Or.inl rfl, rfl, .nil isGap_nil⟩
  | case4 => cases h
  | case5 =>
    rename_i skipped cs gap unread kind text rest hnext prolog' hread ih
    cases h
    obtain ⟨mark, head, hmark, hrest, hstanding⟩ := ih hread
    obtain rfl : mark = [] := or_self_iff.1 hmark
    obtain rfl : rest = head ++ prolog'.body := hrest
    have hunread : text ++ (head ++ prolog'.body) = cs.dropWhile isSpace := (shorter_of_next hnext).1
    refine ⟨skipped, _, Or.inr rfl, ?_, .item (isGap_takeWhile cs) (stands_of_next hnext) hstanding⟩
    show skipped ++ cs = skipped ++ ((cs.takeWhile isSpace ++ (text ++ head)) ++ prolog'.body)
    rw [List.append_assoc, List.append_assoc, hunread, List.takeWhile_append_dropWhile]

theorem standing_of_readFrom {skipped cs : List Char} {prolog : Prolog}
    (h : readFrom skipped cs = .ok prolog) :
    ∃ mark head, (mark = [] ∨ mark = skipped) ∧ skipped ++ cs = mark ++ (head ++ prolog.body) ∧
      Standing mark prolog.items head prolog.body := by
  unfold readFrom at h
  split at h
  · rename_i hfront
    split at h
    · cases h
    · rename_i text rest htext
      split at h
      · cases h
      · rename_i prolog' hread
        cases h
        obtain ⟨mark, head, hmark, hrest, hstanding⟩ := standing_of_readItems hread
        obtain rfl : mark = [] := or_self_iff.1 hmark
        obtain rfl : rest = head ++ prolog'.body := hrest
        have hcs : text ++ (head ++ prolog'.body) = cs :=
          Scan.append_of_text Scan.advances_declaration.keeps (Scan.within_eq_ok.1 htext)
        rw [← hcs] at hfront htext ⊢
        have hitem : Standing skipped (⟨skipped ++ [], .declaration, text⟩ :: prolog'.items) _ _ :=
          .item isGap_nil (stands_of_declaration hfront htext) hstanding
        rw [List.append_nil, List.nil_append] at hitem
        exact ⟨skipped, text ++ head, Or.inr rfl, by rw [List.append_assoc]; rfl, hitem⟩
  · exact standing_of_readItems h

/-- **The items of a prolog stand in front of the body**, after a byte order mark. -/
theorem standing_of_read {source : List Char} {prolog : Prolog} (h : read source = .ok prolog) :
    ∃ mark head, (mark = [] ∨ mark = [byteOrderMark]) ∧ source = mark ++ (head ++ prolog.body) ∧
      Standing mark prolog.items head prolog.body := by
  unfold read at h
  split at h
  · obtain ⟨mark, head, hmark, hsource, hstanding⟩ := standing_of_readFrom h
    exact ⟨mark, head, Or.inl (or_self_iff.1 hmark), hsource, hstanding⟩
  · split at h
    · rename_i hbom
      subst hbom
      exact standing_of_readFrom h
    · obtain ⟨mark, head, hmark, hsource, hstanding⟩ := standing_of_readFrom h
      exact ⟨mark, head, Or.inl (or_self_iff.1 hmark), hsource, hstanding⟩

/-! ## 3. Their order -/

/-- These items are a declaration, comments, a doctype and comments again; there may be no declaration, and
    no doctype. -/
structure Ordered (declaration comments doctype others : List Item) : Prop where
  declaration_le : declaration.length ≤ 1
  doctype_le : doctype.length ≤ 1
  declaration_kind : ∀ item ∈ declaration, item.kind = .declaration
  comments_kind : ∀ item ∈ comments, item.kind = .comment
  doctype_kind : ∀ item ∈ doctype, item.kind = .doctype
  others_kind : ∀ item ∈ others, item.kind = .comment

/-- Behind a declaration no other is found, and behind a doctype no other. -/
theorem ordered_of_readItems {doctypeSeen : Bool} {skipped cs : List Char} {prolog : Prolog}
    (h : readItems doctypeSeen skipped cs = .ok prolog) :
    ∃ comments doctype others, prolog.items = comments ++ (doctype ++ others) ∧
      Ordered [] comments doctype others ∧ (doctypeSeen = true → doctype = []) := by
  fun_induction readItems doctypeSeen skipped cs generalizing prolog with
  | case1 => cases h
  | case2 => cases h; exact ⟨[], [], [], rfl, by constructor <;> simp, fun _ => rfl⟩
  | case3 => cases h; exact ⟨[], [], [], rfl, by constructor <;> simp, fun _ => rfl⟩
  | case4 => cases h
  | case5 doctypeSeen =>
    rename_i skipped cs gap unread kind text rest hnext prolog' hread ih
    cases h
    obtain ⟨comments, doctype, others, hitems, hordered, hseen⟩ := ih hread
    have hcons : (prolog'.cons ⟨gap, kind, text⟩).items = ⟨gap, kind, text⟩ :: prolog'.items := rfl
    have hfinds := next_eq_ok_iff.1 hnext
    cases kind with
    | declaration => cases hfinds
    | comment =>
      refine ⟨⟨gap, .comment, text⟩ :: comments, doctype, others, ?_, ?_, ?_⟩
      · rw [hcons, hitems, List.cons_append]
      · exact { hordered with comments_kind := List.forall_mem_cons.2 ⟨rfl, hordered.comments_kind⟩ }
      · intro h
        exact hseen (by rw [h]; rfl)
    | doctype =>
      have hfirst : doctypeSeen = false := by
        generalize text = part at hfinds
        cases hfinds with
        | doctype _ hseen _ => exact hseen
      obtain rfl : doctype = [] := hseen (Bool.or_true _)
      refine ⟨[], [⟨gap, .doctype, text⟩], comments ++ others, ?_, ?_, ?_⟩
      · rw [hcons, hitems]
        rfl
      · refine ⟨by simp, by simp, by simp, by simp, by simp, ?_⟩
        exact List.forall_mem_append.2 ⟨hordered.comments_kind, hordered.others_kind⟩
      · rw [hfirst]
        exact fun h => absurd h Bool.false_ne_true

/-- **The items of a prolog are a declaration, comments, a doctype and comments**, in this order. -/
theorem ordered_of_read {source : List Char} {prolog : Prolog} (h : read source = .ok prolog) :
    ∃ declaration comments doctype others,
      prolog.items = declaration ++ (comments ++ (doctype ++ others)) ∧
        Ordered declaration comments doctype others := by
  have hfrom : ∀ {skipped cs}, readFrom skipped cs = .ok prolog →
      ∃ declaration comments doctype others,
        prolog.items = declaration ++ (comments ++ (doctype ++ others)) ∧
          Ordered declaration comments doctype others := by
    intro skipped cs h
    unfold readFrom at h
    split at h
    · split at h
      · cases h
      · rename_i text rest _
        split at h
        · cases h
        · rename_i prolog' hread
          cases h
          obtain ⟨comments, doctype, others, hitems, hordered, -⟩ := ordered_of_readItems hread
          refine ⟨[⟨skipped, .declaration, text⟩], comments, doctype, others, ?_, ?_⟩
          · show _ :: prolog'.items = _
            rw [hitems]
            rfl
          · exact { hordered with declaration_le := Nat.le_refl 1, declaration_kind := by simp }
    · obtain ⟨comments, doctype, others, hitems, hordered, -⟩ := ordered_of_readItems h
      exact ⟨[], comments, doctype, others, hitems, hordered⟩
  unfold read at h
  split at h
  · exact hfrom h
  · split at h <;> exact hfrom h

end Prolog

end TalMarkup
