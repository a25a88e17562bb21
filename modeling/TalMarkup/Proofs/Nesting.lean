import TalMarkup.Proofs.Content

/-!
# Which start tags are open

A closing tag matches a start tag if what stands between them is `Balanced`: every start tag in it is
closed in it again. Names play no part in this. A start tag is open (`IsOpen`) if no tag that matches it
follows, and the innermost of the open ones is the last of them (`Innermost`).

* `Balanced.noneOpen`: nothing is open after balanced tokens.
* **`Balanced.innermost`**: after an opening tag and balanced tokens this tag is the innermost.
* `Innermost.unique`: there is one innermost open tag at most.

Tokens are `Nested` if every closing tag in them carries the name of the tag that is innermost there.
-/

namespace TalMarkup

/-! ## 1. Balanced tokens -/

/-- Every start tag in the tokens is closed again, whatever the names of the closing tags. -/
inductive Balanced : List Token → Prop
  | nil : Balanced []
  | leaf {token leaf tokens} (hleaf : Token.leaf? token = some leaf) (rest : Balanced tokens) :
      Balanced (token :: tokens)
  | single {tag : StartTag} {tokens} (hending : tag.inside.ending = .selfClosing)
      (rest : Balanced tokens) : Balanced (.startTag tag :: tokens)
  | pair {tag : StartTag} {inner close tokens} (hending : tag.inside.ending = .opening)
      (inside : Balanced inner) (rest : Balanced tokens) :
      Balanced (.startTag tag :: (inner ++ .endTag close :: tokens))

/-- Content is balanced. -/
theorem Content.balanced {options : Options} {scope : Scope} {lines stamp next : Nat}
    {tokens : List Token} {nodes : List Node}
    (h : Content options scope lines stamp tokens nodes next) : Balanced tokens := by
  induction h with
  | nil => exact .nil
  | leaf hleaf _ ih => exact .leaf hleaf ih
  | single hending _ _ ih => exact .single hending ih
  | pair hending _ _ _ _ ihInside ihRest => exact .pair hending ihInside ihRest

/-- The number of tokens in front of the closing tag that closes so many start tags and one more. -/
def untilClose : Nat → List Token → Nat
  | _, [] => 0
  | 0, .endTag _ :: _ => 0
  | depth + 1, .endTag _ :: rest => untilClose depth rest + 1
  | depth, .startTag tag :: rest =>
    untilClose (if tag.inside.ending = .opening then depth + 1 else depth) rest + 1
  | depth, .charData _ :: rest => untilClose depth rest + 1
  | depth, .verbatim _ :: rest => untilClose depth rest + 1

namespace Balanced

variable {inner rest : List Token} {close : EndTag}

theorem untilClose_append (h : Balanced inner) (depth : Nat) (rest : List Token) :
    untilClose depth (inner ++ rest) = inner.length + untilClose depth rest := by
  induction h generalizing depth rest with
  | nil => exact (Nat.zero_add _).symm
  | @leaf token leaf tokens hleaf _ ih =>
    have hfirst : untilClose depth (token :: (tokens ++ rest)) = untilClose depth (tokens ++ rest) + 1 := by
      cases token <;> cases hleaf <;> simp only [untilClose]
    rw [List.cons_append, hfirst, ih, List.length_cons]
    omega
  | single hending _ ih =>
    rw [List.cons_append, untilClose, hending, if_neg nofun, ih, List.length_cons]
    omega
  | pair hending _ _ ihInside ihRest =>
    rw [List.cons_append, List.append_assoc, untilClose, if_pos hending, ihInside, List.cons_append,
      untilClose, ihRest, List.length_cons, List.length_append, List.length_cons]
    omega

/-- **Balanced tokens close nothing that is open in front of them.** -/
theorem no_close (h : Balanced (inner ++ .endTag close :: rest)) : ¬ Balanced inner := by
  intro hinner
  have hwhole := h.untilClose_append 0 []
  have hpart := hinner.untilClose_append 0 (.endTag close :: rest)
  rw [List.append_nil, List.length_append, List.length_cons, untilClose] at hwhole
  rw [untilClose] at hpart
  omega

end Balanced

/-! ## 2. Open tags -/

/-- The tokens that follow a start tag close it again. -/
def Closes (after : List Token) : Prop :=
  ∃ inner close rest, after = inner ++ .endTag close :: rest ∧ Balanced inner

/-- The start tag, followed by these tokens, is open. -/
def IsOpen (tag : StartTag) (after : List Token) : Prop :=
  tag.inside.ending = .opening ∧ ¬ Closes after

/-- After the tokens no start tag is open. -/
def NoneOpen (tokens : List Token) : Prop :=
  ∀ front tag after, tokens = front ++ .startTag tag :: after → ¬ IsOpen tag after

/-- The last start tag that is open after the tokens is `tag`, and `before` stands in front of it. -/
def Innermost (tokens before : List Token) (tag : StartTag) : Prop :=
  ∃ after, tokens = before ++ .startTag tag :: after ∧ IsOpen tag after ∧ NoneOpen after

theorem Closes.append {after : List Token} (h : Closes after) (more : List Token) :
    Closes (after ++ more) := by
  obtain ⟨inner, close, rest, rfl, hinner⟩ := h
  exact ⟨inner, close, rest ++ more, by simp, hinner⟩

/-- **After balanced tokens nothing is open.** -/
theorem Balanced.noneOpen {tokens : List Token} (h : Balanced tokens) : NoneOpen tokens := by
  suffices hcloses : ∀ front tag after, tokens = front ++ .startTag tag :: after →
      tag.inside.ending = .opening → Closes after from
    fun front tag after heq hopen => hopen.2 (hcloses front tag after heq hopen.1)
  intro front tag after heq hending
  induction h generalizing front tag after with
  | nil => cases front <;> cases heq
  | leaf hleaf _ ih =>
    cases front with
    | nil =>
      obtain ⟨rfl, -⟩ := List.cons.inj heq
      cases hleaf
    | cons first front => exact ih front tag after (List.cons.inj heq).2 hending
  | single hsingle _ ih =>
    cases front with
    | nil =>
      cases (List.cons.inj heq).1
      rw [hsingle] at hending
      cases hending
    | cons first front => exact ih front tag after (List.cons.inj heq).2 hending
  | @pair _ inner close rest _ inside _ ihInside ihRest =>
    cases front with
    | nil => exact ⟨inner, close, rest, (List.cons.inj heq).2.symm, inside⟩
    | cons first front =>
      -- the start tag stands between the two tags of the pair, or after them
      rcases List.append_eq_append_iff.1 (List.cons.inj heq).2 with ⟨mid, rfl, hmid⟩ | ⟨mid, rfl, hmid⟩
      · cases mid with
        | nil => cases (List.cons.inj hmid).1
        | cons second mid => exact ihRest mid tag after (List.cons.inj hmid).2 hending
      · cases mid with
        | nil => cases (List.cons.inj hmid).1
        | cons second mid =>
          obtain ⟨rfl, rfl⟩ := List.cons.inj hmid
          exact (ihInside front tag mid rfl hending).append _

theorem Balanced.innermost {before inner : List Token} {tag : StartTag}
    (hending : tag.inside.ending = .opening) (h : Balanced inner) :
    Innermost (before ++ .startTag tag :: inner) before tag := by
  refine ⟨inner, rfl, ⟨hending, ?_⟩, h.noneOpen⟩
  intro h
  obtain ⟨closed, close, rest, rfl, hclosed⟩ := h
  exact h.no_close hclosed

theorem NoneOpen.not_innermost {tokens before : List Token} {tag : StartTag} (h : NoneOpen tokens) :
    ¬ Innermost tokens before tag := by
  intro h
  obtain ⟨after, rfl, hopen, -⟩ := h
  exact h before tag after rfl hopen

/-- **There is one innermost open tag at most.** -/
theorem Innermost.unique {tokens before before' : List Token} {tag tag' : StartTag}
    (h : Innermost tokens before tag) (h' : Innermost tokens before' tag') :
    before = before' ∧ tag = tag' := by
  obtain ⟨after, rfl, hopen, hnone⟩ := h
  obtain ⟨after', heq, hopen', hnone'⟩ := h'
  -- of two different ones the first would have the other after it
  rcases List.append_eq_append_iff.1 heq with ⟨mid, rfl, hmid⟩ | ⟨mid, rfl, hmid⟩
  · cases mid with
    | nil =>
      cases (List.cons.inj hmid).1
      exact ⟨(List.append_nil _).symm, rfl⟩
    | cons first mid =>
      exact absurd hopen' (hnone mid tag' after' (List.cons.inj hmid).2)
  · cases mid with
    | nil =>
      cases (List.cons.inj hmid).1
      exact ⟨List.append_nil _, rfl⟩
    | cons first mid =>
      exact absurd hopen (hnone' mid tag after (List.cons.inj hmid).2)

/-! ## 3. Closing tags that fit -/

/-- A closing tag after these tokens carries the name of the innermost open tag. -/
def Fits (tokens : List Token) (close : EndTag) : Prop :=
  ∃ before tag, Innermost tokens before tag ∧ tag.name.recorded = close.name.recorded

/-- Every closing tag carries the name of the tag that is innermost there. -/
def Nested (tokens : List Token) : Prop :=
  ∀ front close back, tokens = front ++ .endTag close :: back → Fits front close

theorem Nested.of_append {front back : List Token} (h : Nested (front ++ back)) : Nested front := by
  rintro front' close back' rfl
  exact h front' close (back' ++ back) (by simp)

end TalMarkup
