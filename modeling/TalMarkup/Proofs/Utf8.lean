import Mathlib.Data.List.Basic

/-!
# Texts as bytes

A text is written in UTF-8 as the bytes of its characters, one after the other (`utf8Bytes_eq`). Which bytes are
those of a text is said here without characters: they are cut into pieces of one to four bytes, each of which
has one of four shapes (`Utf8.IsChar`). The shapes leave out what is cut short, what is written longer than it
need be, the surrogates, and what lies above U+10FFFF.

**`Utf8.wellFormed_iff`**: bytes are well formed in this sense exactly if they are those of a text.
-/

namespace TalMarkup

/-- The bytes of a text in UTF-8. -/
def utf8Bytes (text : String) : List UInt8 := text.toUTF8.data.toList

theorem utf8Bytes_eq (text : String) : utf8Bytes text = text.toList.flatMap String.utf8EncodeChar := by
  rw [utf8Bytes, String.toUTF8_eq_toByteArray, ← String.utf8Encode_toList, List.utf8Encode]
  exact List.toList_data_toByteArray

theorem length_utf8Bytes (text : String) : (utf8Bytes text).length = text.utf8ByteSize := rfl

namespace Utf8

/-! ## 1. The bytes of one character -/

/-- A byte that goes on with a character. -/
def IsTail (byte : UInt8) : Prop := 0x80 ≤ byte ∧ byte ≤ 0xBF

/-- The bytes are those of one character. -/
inductive IsChar : List UInt8 → Prop
  | one {a : UInt8} (ha : a ≤ 0x7F) : IsChar [a]
  /-- A character below U+0080 is not written with two bytes. -/
  | two {a b : UInt8} (ha : 0xC2 ≤ a ∧ a ≤ 0xDF) (hb : IsTail b) : IsChar [a, b]
  /-- A character below U+0800 is not written with three bytes, and U+D800 to U+DFFF are no characters. -/
  | three {a b c : UInt8} (ha : 0xE0 ≤ a ∧ a ≤ 0xEF) (hb : IsTail b) (hc : IsTail c)
      (hlong : a = 0xE0 → 0xA0 ≤ b) (hsurrogate : a = 0xED → b ≤ 0x9F) : IsChar [a, b, c]
  /-- A character below U+10000 is not written with four bytes, and there is none above U+10FFFF. -/
  | four {a b c d : UInt8} (ha : 0xF0 ≤ a ∧ a ≤ 0xF4) (hb : IsTail b) (hc : IsTail c) (hd : IsTail d)
      (hlong : a = 0xF0 → 0x90 ≤ b) (hlast : a = 0xF4 → b ≤ 0x8F) : IsChar [a, b, c, d]

theorem isChar_utf8EncodeChar (c : Char) : IsChar (String.utf8EncodeChar c) := by
  have hvalid : c.val.toNat < 0xD800 ∨ 0xDFFF < c.val.toNat ∧ c.val.toNat < 0x110000 := c.valid
  rw [String.utf8EncodeChar]
  generalize c.val.toNat = code at hvalid
  -- the code decides how many bytes there are, and how large the first two are
  split
  · exact .one (by simp [UInt8.le_iff_toNat_le]; omega)
  · split
    · refine .two ?_ ?_ <;> simp [IsTail, UInt8.le_iff_toNat_le] <;> omega
    · split
      · refine .three ?_ ?_ ?_ ?_ ?_ <;> simp [IsTail, UInt8.le_iff_toNat_le, ← UInt8.toNat_inj] <;> omega
      · refine .four ?_ ?_ ?_ ?_ ?_ ?_ <;> simp [IsTail, UInt8.le_iff_toNat_le, ← UInt8.toNat_inj] <;> omega

theorem exists_char_of_code (code : Nat) (h : code < 0xD800 ∨ 0xDFFF < code ∧ code < 0x110000) :
    ∃ c : Char, c.val.toNat = code := ⟨Char.ofNatAux code h, rfl⟩

/-- **Each of the shapes is that of a character.** Its code is put together from what the bytes hold. -/
theorem IsChar.exists_char {bytes : List UInt8} (h : IsChar bytes) :
    ∃ c : Char, String.utf8EncodeChar c = bytes := by
  cases h with
  | @one a ha =>
    simp only [UInt8.le_iff_toNat_le, UInt8.reduceToNat] at ha
    obtain ⟨c, hcode⟩ := exists_char_of_code a.toNat (by omega)
    refine ⟨c, ?_⟩
    rw [String.utf8EncodeChar, hcode, if_pos ha, UInt8.ofNat_toNat]
  | @two a b ha hb =>
    simp only [IsTail, UInt8.le_iff_toNat_le, UInt8.reduceToNat] at ha hb
    obtain ⟨c, hcode⟩ := exists_char_of_code
      ((a.toNat - 0xC0) * 64 + (b.toNat - 0x80)) (by omega)
    refine ⟨c, ?_⟩
    rw [String.utf8EncodeChar, hcode, if_neg (by omega), if_pos (by omega)]
    simp only [List.cons.injEq, ← UInt8.toNat_inj, UInt8.toNat_ofNat', and_true]
    omega
  | @three a b c ha hb hc hlong hsurrogate =>
    simp only [IsTail, UInt8.le_iff_toNat_le, ← UInt8.toNat_inj, UInt8.reduceToNat] at ha hb hc hlong hsurrogate
    obtain ⟨c, hcode⟩ := exists_char_of_code
      ((a.toNat - 0xE0) * 4096 + (b.toNat - 0x80) * 64 + (c.toNat - 0x80)) (by omega)
    refine ⟨c, ?_⟩
    rw [String.utf8EncodeChar, hcode, if_neg (by omega), if_neg (by omega), if_pos (by omega)]
    simp only [List.cons.injEq, ← UInt8.toNat_inj, UInt8.toNat_ofNat', and_true]
    omega
  | @four a b c d ha hb hc hd hlong hlast =>
    simp only [IsTail, UInt8.le_iff_toNat_le, ← UInt8.toNat_inj, UInt8.reduceToNat] at ha hb hc hd hlong hlast
    obtain ⟨c, hcode⟩ := exists_char_of_code
      ((a.toNat - 0xF0) * 262144 + (b.toNat - 0x80) * 4096 + (c.toNat - 0x80) * 64 + (d.toNat - 0x80))
      (by omega)
    refine ⟨c, ?_⟩
    rw [String.utf8EncodeChar, hcode, if_neg (by omega), if_neg (by omega), if_neg (by omega)]
    simp only [List.cons.injEq, ← UInt8.toNat_inj, UInt8.toNat_ofNat', and_true]
    omega

/-! ## 2. The bytes of a text -/

/-- The bytes are those of characters, one after the other. -/
inductive WellFormed : List UInt8 → Prop
  | nil : WellFormed []
  | cons {front rest : List UInt8} (hfront : IsChar front) (hrest : WellFormed rest) :
      WellFormed (front ++ rest)

/-- **Bytes are well formed exactly if they are those of a text.** -/
theorem wellFormed_iff {bytes : List UInt8} : WellFormed bytes ↔ ∃ text : String, utf8Bytes text = bytes := by
  constructor
  · intro h
    induction h with
    | nil => exact ⟨"", rfl⟩
    | cons hfront _ ih =>
      obtain ⟨c, rfl⟩ := hfront.exists_char
      obtain ⟨text, rfl⟩ := ih
      refine ⟨String.ofList (c :: text.toList), ?_⟩
      rw [utf8Bytes_eq, utf8Bytes_eq, String.toList_ofList, List.flatMap_cons]
  · rintro ⟨text, rfl⟩
    rw [utf8Bytes_eq]
    induction text.toList with
    | nil => exact .nil
    | cons c chars ih => exact .cons (isChar_utf8EncodeChar c) ih

/-! ## 3. Line feeds -/

/-- The byte of a line feed. -/
def newline : UInt8 := 0x0A

/-- **A line feed is one byte, and this byte stands for nothing else.** -/
theorem count_newline (c : Char) :
    (String.utf8EncodeChar c).count newline = if c = '\n' then 1 else 0 := by
  by_cases h : c = '\n'
  · subst h
    rfl
  · rw [if_neg h, List.count_eq_zero]
    have hcode : c.val.toNat ≠ 0x0A := fun heq => h (Char.ext (UInt32.toNat_inj.1 heq))
    rw [String.utf8EncodeChar, newline]
    generalize c.val.toNat = code at hcode
    split
    · simp [← UInt8.toNat_inj]; omega
    · split
      · simp [← UInt8.toNat_inj]; omega
      · split <;> simp [← UInt8.toNat_inj] <;> omega

end Utf8

end TalMarkup
