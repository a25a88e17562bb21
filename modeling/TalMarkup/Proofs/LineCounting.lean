import TalMarkup.Proofs.LineLookup
import TalMarkup.Proofs.Utf8

/-!
# Lines counted by bytes

The line of an offset is found among the line starts. Here it is counted: it is one more than the line feed bytes
in front of the offset (`countP_offsetsAfterNewlines`), wherever the offset lies, be it in the middle of a
character or behind the end. So the line grows behind a line feed byte and nowhere else, and the byte itself
belongs to the line that it ends.

**`LineIndex.countsLines_ofSource`** says this of the index of every source.
-/

namespace TalMarkup

open Utf8 (newline)

/-- **The line starts up to an offset are as many as the line feed bytes in front of it.** The text begins at the
    offset `start`. -/
theorem countP_offsetsAfterNewlines (start offset : Nat) (text : List Char) :
    (offsetsAfterNewlines start text).countP (· ≤ offset) =
      ((text.flatMap String.utf8EncodeChar).take (offset - start)).count newline := by
  induction text generalizing start with
  | nil => simp [offsetsAfterNewlines]
  | cons c text ih =>
    rw [offsetsAfterNewlines, List.flatMap_cons, List.take_append, List.count_append,
      String.length_utf8EncodeChar, Nat.sub_sub, ← ih]
    by_cases hc : c = '\n'
    · subst hc
      have hbytes : String.utf8EncodeChar '\n' = [newline] := rfl
      have hsize : '\n'.utf8Size = 1 := rfl
      rw [if_pos rfl, List.countP_cons, hbytes, hsize, Nat.add_comm]
      by_cases hoffset : start + 1 ≤ offset
      · rw [if_pos (decide_eq_true hoffset), List.take_of_length_le (by rw [List.length_singleton]; omega)]
        rfl
      · rw [if_neg (by simpa using hoffset), Nat.sub_eq_zero_of_le (by omega)]
        rfl
    · have hfront : ((String.utf8EncodeChar c).take (offset - start)).count newline = 0 := by
        rw [List.count_eq_zero]
        have hnone := (Utf8.count_newline c).trans (if_neg hc)
        exact fun hmem => List.count_eq_zero.1 hnone (List.mem_of_mem_take hmem)
      rw [if_neg hc, hfront, Nat.zero_add]

/-- A text has as many line feed bytes as line feeds. -/
theorem count_newline_flatMap (text : List Char) :
    (text.flatMap String.utf8EncodeChar).count newline = newlines text := by
  induction text with
  | nil => rfl
  | cons c text ih =>
    rw [List.flatMap_cons, List.count_append, Utf8.count_newline, ih, newlines, newlines, List.count_cons,
      Nat.add_comm]
    simp only [beq_iff_eq]

/-- The index finds the line of every offset by counting the line feed bytes of the source. -/
structure CountsLines (source : String) (index : LineIndex) : Prop where
  lineOf_eq : ∀ offset, index.lineOf offset = 1 + ((utf8Bytes source).take offset).count newline
  lineCount_eq : index.lineCount = 1 + (utf8Bytes source).count newline
  mono : ∀ offset offset', offset ≤ offset' → index.lineOf offset ≤ index.lineOf offset'
  one_le : ∀ offset, 1 ≤ index.lineOf offset
  le_lineCount : ∀ offset, index.lineOf offset ≤ index.lineCount
  /-- Offsets at the end of the source or past it belong to the last line. -/
  lineOf_end : ∀ offset, source.utf8ByteSize ≤ offset → index.lineOf offset = index.lineCount
  /-- The next line begins right behind a line feed byte, so this byte still belongs to the line it ends. -/
  lineOf_succ : ∀ offset, index.lineOf (offset + 1) =
    if (utf8Bytes source)[offset]? = some newline then index.lineOf offset + 1 else index.lineOf offset

namespace LineIndex

/-- **The index of a source counts its lines.** -/
theorem countsLines_ofSource (source : String) : CountsLines source (ofSource source) := by
  have hlineOf : ∀ offset,
      (ofSource source).lineOf offset = 1 + ((utf8Bytes source).take offset).count newline := by
    intro offset
    rw [lineOf_eq, countP_offsetsAfterNewlines, Nat.sub_zero, utf8Bytes_eq, Nat.add_comm]
  have hlineCount : (ofSource source).lineCount = 1 + (utf8Bytes source).count newline := by
    rw [lineCount_ofSource, utf8Bytes_eq, count_newline_flatMap, Nat.add_comm]
  constructor
  case lineOf_eq => exact hlineOf
  case lineCount_eq => exact hlineCount
  case mono =>
    intro offset offset' hle
    rw [hlineOf, hlineOf]
    exact Nat.add_le_add_left ((List.take_sublist_take_left hle).count_le _) 1
  case one_le =>
    intro offset
    rw [hlineOf]
    exact Nat.le_add_right 1 _
  case le_lineCount =>
    intro offset
    rw [hlineOf, hlineCount]
    exact Nat.add_le_add_left ((List.take_sublist _ _).count_le _) 1
  case lineOf_end =>
    intro offset hend
    rw [hlineOf, hlineCount, List.take_of_length_le ((length_utf8Bytes source).trans_le hend)]
  case lineOf_succ =>
    intro offset
    rw [hlineOf, hlineOf, List.take_add_one, List.count_append]
    by_cases hbyte : (utf8Bytes source)[offset]? = some newline
    · rw [if_pos hbyte, hbyte]
      rfl
    · rw [if_neg hbyte, List.count_eq_zero.2 fun hmem => hbyte (Option.mem_toList.1 hmem)]
      rfl

end LineIndex

end TalMarkup
