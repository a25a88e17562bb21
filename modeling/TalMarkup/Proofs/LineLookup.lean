import Mathlib.Data.String.Basic
import TalMarkup.Text.LineIndex
import TalMarkup.Text.Position

/-!
# Lines found by offset

A line index answers with a binary search among its line starts. It finds as many starts up to an offset
as there are (`LineIndex.lineOf_eq`). So at the offset of a place of the source it finds the line of that
place, one more than the line feeds in front of it (**`LineIndex.lineOf_of_append`**).
-/

namespace TalMarkup

/-! ## 1. Line starts -/

theorem offsetsAfterNewlines_append (offset : Nat) (a b : List Char) :
    offsetsAfterNewlines offset (a ++ b) =
      offsetsAfterNewlines offset a ++ offsetsAfterNewlines (offset + String.utf8Len a) b := by
  induction a generalizing offset with
  | nil => rfl
  | cons c a ih =>
    have hrest : offset + c.utf8Size + String.utf8Len a = offset + String.utf8Len (c :: a) := by
      rw [String.utf8Len_cons]
      omega
    rw [List.cons_append, offsetsAfterNewlines, offsetsAfterNewlines, ih, hrest]
    split <;> rfl

theorem length_offsetsAfterNewlines (offset : Nat) (text : List Char) :
    (offsetsAfterNewlines offset text).length = newlines text := by
  induction text generalizing offset with
  | nil => rfl
  | cons c text ih =>
    rw [offsetsAfterNewlines]
    by_cases hc : c = '\n'
    · rw [if_pos hc, List.length_cons, ih, newlines, newlines, hc, List.count_cons_self]
    · rw [if_neg hc, ih, newlines, newlines, List.count_cons_of_ne hc]

/-- A line starts behind the offset that the text starts at, and not behind the text's end. -/
theorem bounds_of_mem_offsetsAfterNewlines {offset start : Nat} {text : List Char}
    (h : start ∈ offsetsAfterNewlines offset text) :
    offset < start ∧ start ≤ offset + String.utf8Len text := by
  induction text generalizing offset with
  | nil => cases h
  | cons c text ih =>
    have hsize := c.utf8Size_pos
    have hlength : String.utf8Len (c :: text) = String.utf8Len text + c.utf8Size := rfl
    have hrest : start ∈ offsetsAfterNewlines (offset + c.utf8Size) text →
        offset < start ∧ start ≤ offset + String.utf8Len (c :: text) := by
      intro hmem
      have hbounds := ih hmem
      omega
    rw [offsetsAfterNewlines] at h
    split at h
    · rcases List.mem_cons.1 h with rfl | hmem
      · omega
      · exact hrest hmem
    · exact hrest h

/-- Line starts come in order. -/
theorem pairwise_offsetsAfterNewlines (offset : Nat) (text : List Char) :
    (offsetsAfterNewlines offset text).Pairwise (· < ·) := by
  induction text generalizing offset with
  | nil => exact List.Pairwise.nil
  | cons c text ih =>
    rw [offsetsAfterNewlines]
    split
    · exact List.pairwise_cons.2 ⟨fun _ hmem => (bounds_of_mem_offsetsAfterNewlines hmem).1, ih _⟩
    · exact ih _

namespace LineIndex

/-! ## 2. The search -/

variable {starts : Array Nat} {offset low high : Nat} {inside : high ≤ starts.size}

/-- **The search stops where the starts up to the offset end**, if it begins around that place. -/
theorem search_spec (hsorted : starts.toList.Pairwise (· < ·)) (hlow : low ≤ high)
    (hbelow : ∀ i (hi : i < starts.size), i < low → starts[i] ≤ offset)
    (habove : ∀ i (hi : i < starts.size), high ≤ i → offset < starts[i]) :
    search starts offset low high inside ≤ starts.size ∧
      (∀ i (hi : i < starts.size), i < search starts offset low high inside → starts[i] ≤ offset) ∧
      ∀ i (hi : i < starts.size), search starts offset low high inside ≤ i → offset < starts[i] := by
  have horder : ∀ i j (hi : i < starts.size) (hj : j < starts.size), i < j → starts[i] < starts[j] :=
    fun i j hi hj hij => by simpa using List.pairwise_iff_getElem.1 hsorted i j hi hj hij
  fun_induction search starts offset low high inside with
  | case1 low high inside order middle below hmiddle ih =>
    have hmid : low ≤ middle := Nat.le_add_right _ _
    refine ih below (fun i hi hlt => ?_) habove
    -- up to the middle all starts are at most the one there
    rcases Nat.lt_or_eq_of_le (Nat.le_of_lt_succ hlt) with hlt | rfl
    · exact Nat.le_trans (Nat.le_of_lt (horder i middle hi (by omega) hlt)) hmiddle
    · exact hmiddle
  | case2 low high inside order middle below hmiddle ih =>
    have hmid : low ≤ middle := Nat.le_add_right _ _
    refine ih hmid hbelow fun i hi hle => ?_
    rcases Nat.lt_or_eq_of_le hle with hlt | rfl
    · exact Nat.lt_trans (Nat.not_le.1 hmiddle) (horder middle i (by omega) hi hlt)
    · exact Nat.not_le.1 hmiddle
  | case3 low high inside order =>
    obtain rfl : low = high := by omega
    exact ⟨inside, hbelow, habove⟩

/-- **The search counts the starts up to the offset.** -/
theorem search_eq_countP (hsorted : starts.toList.Pairwise (· < ·)) (offset : Nat) :
    search starts offset 0 starts.size (Nat.le_refl _) = starts.toList.countP (· ≤ offset) := by
  obtain ⟨hsize, hbelow, habove⟩ := @search_spec starts offset 0 starts.size (Nat.le_refl _) hsorted
    (Nat.zero_le _) (fun i _ hi => absurd hi (Nat.not_lt_zero i))
    (fun i hi hle => absurd hi (Nat.not_lt.2 hle))
  generalize search starts offset 0 starts.size (Nat.le_refl _) = place at hsize hbelow habove
  have hfront : (starts.toList.take place).countP (· ≤ offset) = place := by
    rw [List.countP_eq_length.2, List.length_take, Array.length_toList, Nat.min_eq_left hsize]
    intro start hmem
    obtain ⟨i, hi, rfl⟩ := List.mem_take_iff_getElem.1 hmem
    simpa using hbelow i (by simp at hi; omega) (by simp at hi; omega)
  have hback : (starts.toList.drop place).countP (· ≤ offset) = 0 := by
    rw [List.countP_eq_zero]
    intro start hmem
    obtain ⟨i, hi, rfl⟩ := List.mem_drop_iff_getElem.1 hmem
    simpa using habove (place + i) (by simp at hi; omega) (by omega)
  rw [← List.take_append_drop place starts.toList, List.countP_append, hfront, hback, Nat.add_zero]

/-! ## 3. Lines -/

/-- The line of an offset is one more than the line starts up to it, behind the first. -/
theorem lineOf_eq (source : String) (offset : Nat) :
    (ofSource source).lineOf offset =
      (offsetsAfterNewlines 0 source.toList).countP (· ≤ offset) + 1 := by
  have hsorted : (ofSource source).starts.toList.Pairwise (· < ·) :=
    List.pairwise_cons.2 ⟨fun _ hmem => (bounds_of_mem_offsetsAfterNewlines hmem).1,
      pairwise_offsetsAfterNewlines _ _⟩
  rw [lineOf, search_eq_countP hsorted]
  exact List.countP_cons_of_pos (by simp)

/-- **At a place of the source, the line is one more than the line feeds in front of it.** -/
theorem lineOf_of_append {source : String} {before after : List Char}
    (h : source.toList = before ++ after) :
    (ofSource source).lineOf (String.ofList before).utf8ByteSize = newlines before + 1 := by
  have hfront : (offsetsAfterNewlines 0 before).countP (· ≤ String.utf8Len before) = newlines before := by
    rw [← length_offsetsAfterNewlines 0, List.countP_eq_length]
    intro start hmem
    have hbounds := bounds_of_mem_offsetsAfterNewlines hmem
    exact decide_eq_true (by omega)
  have hback :
      (offsetsAfterNewlines (0 + String.utf8Len before) after).countP (· ≤ String.utf8Len before) = 0 := by
    rw [List.countP_eq_zero]
    intro start hmem
    have hbounds := bounds_of_mem_offsetsAfterNewlines hmem
    rw [decide_eq_true_eq]
    omega
  rw [lineOf_eq, String.utf8ByteSize_ofList, h, offsetsAfterNewlines_append, List.countP_append, hfront, hback,
    Nat.add_zero]

theorem lineCount_ofSource (source : String) :
    (ofSource source).lineCount = newlines source.toList + 1 := by
  rw [lineCount, ofSource, List.size_toArray, List.length_cons, length_offsetsAfterNewlines]

end LineIndex

end TalMarkup
