import TableHistory.Proofs.Text.Spelling

namespace TableHistory.Text.Quoted

-- A byte stands for itself, or is escaped by a letter or by its number.
theorem writeByte_cases (byte : UInt8) :
    (writeByte byte = [byte] ∧ byte ≠ quote ∧ byte ≠ backslash ∧ ¬ byte < 0x20) ∨
    (∃ letter, writeByte byte = [backslash, letter] ∧ (letter, byte) ∈ escapes) ∨
    (byte < 0x20 ∧ writeByte byte = [backslash, ascii 'u', ascii '0', ascii '0',
      hexDigit (byte.toNat / 16), hexDigit (byte.toNat % 16)]) := by
  by_cases hself : byte = quote ∨ byte = backslash
  · right
    left
    refine ⟨byte, if_pos hself, ?_⟩
    rcases hself with rfl | rfl <;> decide
  · by_cases hletter : byte = 8 ∨ byte = 12 ∨ byte = 10 ∨ byte = 13 ∨ byte = 9
    · right
      left
      rcases hletter with rfl | rfl | rfl | rfl | rfl
      · exact ⟨ascii 'b', by decide⟩
      · exact ⟨ascii 'f', by decide⟩
      · exact ⟨ascii 'n', by decide⟩
      · exact ⟨ascii 'r', by decide⟩
      · exact ⟨ascii 't', by decide⟩
    · simp only [not_or] at hself hletter
      by_cases hcontrol : byte < 0x20
      · exact .inr (.inr ⟨hcontrol, by simp [writeByte, hself, hletter, hcontrol]⟩)
      · exact .inl ⟨by simp [writeByte, hself, hletter, hcontrol], hself.1, hself.2, hcontrol⟩

theorem toNat_ofNat : ∀ number < 32, (Char.ofNat number).toNat = number := by decide

-- The writer spells a text byte by byte.
theorem character_writeByte (byte : UInt8) : Character [byte] (writeByte byte) := by
  rcases writeByte_cases byte with ⟨hw, hquote, hbackslash, hcontrol⟩ | ⟨letter, hw, hletter⟩ |
    ⟨hcontrol, hw⟩
  · rw [hw]
    exact .plain hquote hbackslash hcontrol
  · rw [hw]
    exact .letter hletter
  · have hn : byte.toNat < 32 := hcontrol
    have hchar := toNat_ofNat byte.toNat hn
    have hbytes : String.utf8EncodeChar (Char.ofNat byte.toNat) = [byte] := by
      rw [← codePoint_toNat, hchar, codePoint, if_pos (by omega), UInt8.ofNat_toNat]
    have hdigits : Hex (((0 * 16 + 0) * 16 + byte.toNat / 16) * 16 + byte.toNat % 16)
        [ascii '0', ascii '0', hexDigit (byte.toNat / 16), hexDigit (byte.toNat % 16)] :=
      .digits ⟨by decide, .inl rfl⟩ ⟨by decide, .inl rfl⟩ ⟨by omega, .inl rfl⟩ ⟨by omega, .inl rfl⟩
    have hvalue : ((0 * 16 + 0) * 16 + byte.toNat / 16) * 16 + byte.toNat % 16 =
        (Char.ofNat byte.toNat).toNat := by omega
    rw [hvalue] at hdigits
    rw [hw, ← hbytes]
    exact .unit hdigits

theorem spells_flatMap (text : Bytes) : Spells text (text.flatMap writeByte ++ [quote]) := by
  induction text with
  | nil => exact .close
  | cons byte text ih =>
      have hspells := Spells.cons (character_writeByte byte) ih
      rwa [← List.append_assoc] at hspells

-- What is written behind the opening quote.
def behindQuote (text : String) : Bytes := (Utf8.encode text).flatMap writeByte ++ [quote]

theorem write_eq (text : String) : write text = quote :: behindQuote text := rfl

theorem spells_behindQuote (text : String) : Spells (Utf8.encode text) (behindQuote text) :=
  spells_flatMap (Utf8.encode text)

theorem readText_write (text : String) (rest : Bytes) :
    readText (behindQuote text ++ rest) = .ok (text, rest) :=
  (spells_behindQuote text).readText rest

end TableHistory.Text.Quoted
