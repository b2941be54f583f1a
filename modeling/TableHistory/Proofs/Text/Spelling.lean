import TableHistory.Proofs.Result
import TableHistory.Text.Quoted

namespace TableHistory.Text

-- A strict front of two parts is a strict front of the first one, or reaches into the second one.
theorem cut_append {front behind cut more : Bytes} (h : front ++ behind = cut ++ more) :
    (∃ left, left ≠ [] ∧ front = cut ++ left) ∨
      ∃ left, cut = front ++ left ∧ behind = left ++ more := by
  rcases List.append_eq_append_iff.mp h with ⟨left, rfl, rfl⟩ | ⟨left, rfl, rfl⟩
  · exact .inr ⟨left, rfl, rfl⟩
  · cases left with
    | nil => exact .inr ⟨[], by simp, rfl⟩
    | cons byte left => exact .inl ⟨byte :: left, List.cons_ne_nil _ _, rfl⟩

-- The first byte is cut off, or the cut is behind it.
theorem cut_cons {byte : UInt8} {rest cut more : Bytes} (h : byte :: rest = cut ++ more) :
    cut = [] ∨ ∃ left, cut = byte :: left ∧ rest = left ++ more := by
  cases cut with
  | nil => exact .inl rfl
  | cons first left =>
      obtain ⟨rfl, hrest⟩ := List.cons_eq_cons.mp h
      exact .inr ⟨left, rfl, hrest⟩

namespace Quoted

theorem backslash_ne_quote : backslash ≠ quote := by decide

-- A hexadecimal digit in either case.
def IsHexDigit (value : Nat) (byte : UInt8) : Prop :=
  value < 16 ∧ (byte = ascii value.digitChar ∨ byte = ascii value.digitChar.toUpper)

-- Four hexadecimal digits, the highest first.
inductive Hex : Nat → Bytes → Prop
  | digits {a b c d : Nat} {first second third fourth : UInt8} (ha : IsHexDigit a first)
      (hb : IsHexDigit b second) (hc : IsHexDigit c third) (hd : IsHexDigit d fourth) :
      Hex (((a * 16 + b) * 16 + c) * 16 + d) [first, second, third, fourth]

-- The letters that escape a byte, each with the byte.
def escapes : List (UInt8 × UInt8) :=
  [(quote, quote), (backslash, backslash), (ascii '/', ascii '/'), (ascii 'b', 8), (ascii 'f', 12),
    (ascii 'n', 10), (ascii 'r', 13), (ascii 't', 9)]

-- The bytes of a character, and one of the ways to spell it.
inductive Character : Bytes → Bytes → Prop
  | plain {byte : UInt8} (hquote : byte ≠ quote) (hbackslash : byte ≠ backslash)
      (hcontrol : ¬ byte < 0x20) : Character [byte] [byte]
  | letter {letter byte : UInt8} (h : (letter, byte) ∈ escapes) :
      Character [byte] [backslash, letter]
  | unit {char : Char} {digits : Bytes} (h : Hex char.toNat digits) :
      Character (String.utf8EncodeChar char) (backslash :: ascii 'u' :: digits)
  | pair {char : Char} {high low : Bytes} (hchar : 0x10000 ≤ char.toNat)
      (hhigh : Hex (0xd800 + (char.toNat - 0x10000) / 1024) high)
      (hlow : Hex (0xdc00 + (char.toNat - 0x10000) % 1024) low) :
      Character (String.utf8EncodeChar char)
        (backslash :: ascii 'u' :: (high ++ backslash :: ascii 'u' :: low))

-- The bytes of a text, and one of the ways to spell it up to the closing quote.
inductive Spells : Bytes → Bytes → Prop
  | close : Spells [] [quote]
  | cons {text spelled char piece : Bytes} (hchar : Character char piece)
      (hrest : Spells text spelled) : Spells (char ++ text) (piece ++ spelled)

theorem hexValue?_digitChar : ∀ value < 16, hexValue? (ascii value.digitChar) = some value ∧
    hexValue? (ascii value.digitChar.toUpper) = some value := by decide

theorem IsHexDigit.hexValue? {value : Nat} {byte : UInt8} (h : IsHexDigit value byte) :
    hexValue? byte = some value := by
  obtain ⟨hvalue, rfl | rfl⟩ := h
  · exact (hexValue?_digitChar value hvalue).1
  · exact (hexValue?_digitChar value hvalue).2

theorem Hex.length {unit : Nat} {digits : Bytes} (h : Hex unit digits) : digits.length = 4 := by
  cases h
  rfl

theorem Hex.readHex {unit : Nat} {digits : Bytes} (h : Hex unit digits) (rest : Bytes) :
    readHex (digits ++ rest) = .ok (unit, rest) := by
  cases h with
  | digits ha hb hc hd =>
      have hdigits : ∀ {a b c d : UInt8} {w x y z : Nat}, hexValue? a = some w →
          hexValue? b = some x → hexValue? c = some y → hexValue? d = some z →
          [a, b, c, d].mapM hexValue? = some [w, x, y, z] := by
        intro a b c d w x y z ha hb hc hd
        simp [List.mapM_cons, ha, hb, hc, hd]
      have hread := hdigits ha.hexValue? hb.hexValue? hc.hexValue? hd.hexValue?
      simp only [List.cons_append, List.nil_append, Quoted.readHex, hread, List.foldl_cons,
        List.foldl_nil, Nat.zero_mul, Nat.zero_add]

theorem readHex_short {digits : Bytes} (h : digits.length < 4) :
    readHex digits = .error .ended := by
  unfold readHex
  split
  · simp at h
    omega
  · rfl

theorem Hex.readHex_cut {unit : Nat} {digits cut more : Bytes} (h : Hex unit digits)
    (he : digits = cut ++ more) (hmore : more ≠ []) : Quoted.readHex cut = .error .ended := by
  have hlength := h.length
  have hpos := List.length_pos_iff.mpr hmore
  rw [he, List.length_append] at hlength
  exact readHex_short (by omega)

theorem escaped?_of_mem {letter byte : UInt8} (h : (letter, byte) ∈ escapes) :
    escaped? letter = some byte ∧ letter ≠ ascii 'u' := by
  simp only [escapes, List.mem_cons, Prod.mk.injEq, List.not_mem_nil, or_false] at h
  rcases h with ⟨rfl, rfl⟩ | ⟨rfl, rfl⟩ | ⟨rfl, rfl⟩ | ⟨rfl, rfl⟩ | ⟨rfl, rfl⟩ | ⟨rfl, rfl⟩ |
    ⟨rfl, rfl⟩ | ⟨rfl, rfl⟩ <;> decide

theorem toNat_lt (char : Char) : char.toNat < 0x110000 := by
  rcases char.valid with h | h
  · have hlow : char.toNat < 0xd800 := h
    omega
  · exact h.2

-- The bytes that an escaped number stands for are those of its character.
theorem codePoint_toNat (char : Char) : codePoint char.toNat = String.utf8EncodeChar char := by
  have hvalue : char.val.toNat = char.toNat := rfl
  have hvalid := toNat_lt char
  unfold codePoint String.utf8EncodeChar
  simp only [hvalue]
  generalize char.toNat = number at *
  have hone : (number ≤ 127) = (number < 0x80) := propext (by omega)
  have htwo : (number ≤ 2047) = (number < 0x800) := propext (by omega)
  have hthree : (number ≤ 65535) = (number < 0x10000) := propext (by omega)
  simp only [hone, htwo, hthree]
  split
  · rfl
  · split
    · have htop : number / 64 % 32 = number / 64 := Nat.mod_eq_of_lt (by omega)
      simp only [htop, Nat.add_comm]
    · split
      · have htop : number / 4096 % 16 = number / 4096 := Nat.mod_eq_of_lt (by omega)
        simp only [htop, Nat.add_comm]
      · have htop : number / 262144 % 8 = number / 262144 := Nat.mod_eq_of_lt (by omega)
        simp only [htop, Nat.add_comm]

theorem not_surrogate (char : Char) :
    isLeading char.toNat = false ∧ isTrailing char.toNat = false := by
  have hvalid : char.toNat < 0xd800 ∨ 0xdfff < char.toNat := by
    rcases char.valid with h | h
    · exact .inl h
    · exact .inr h.1
  simp only [isLeading, isTrailing, Bool.and_eq_false_iff, decide_eq_false_iff_not]
  omega

theorem readTrailing_hex {unit : Nat} {digits : Bytes} (h : Hex unit digits) (rest : Bytes) :
    readTrailing (backslash :: ascii 'u' :: (digits ++ rest)) = .ok (unit, rest) := by
  simp only [readTrailing, if_true, h.readHex]

theorem readEscape_unit {char : Char} {digits : Bytes} (h : Hex char.toNat digits) (rest : Bytes) :
    readEscape true (ascii 'u' :: (digits ++ rest)) = .ok (String.utf8EncodeChar char, rest) := by
  obtain ⟨hleading, htrailing⟩ := not_surrogate char
  simp only [readEscape, if_true, h.readHex, ok_bind, hleading, htrailing, codePoint_toNat,
    Bool.false_eq_true, if_false, false_and, pure_eq_ok]

theorem readEscape_pair {leading trailing : Nat} {high low : Bytes}
    (hleading : isLeading leading = true) (htrailing : isTrailing trailing = true)
    (hhigh : Hex leading high) (hlow : Hex trailing low) (rest : Bytes) :
    readEscape true (ascii 'u' :: (high ++ backslash :: ascii 'u' :: (low ++ rest))) =
      .ok (codePoint (pair leading trailing), rest) := by
  simp only [readEscape, if_true, hhigh.readHex, ok_bind, hleading, readTrailing_hex hlow,
    htrailing, pure_eq_ok]

-- The surrogates of a number of more than sixteen bits.
theorem pair_surrogates {number : Nat} (hlow : 0x10000 ≤ number) (htop : number < 0x110000) :
    isLeading (0xd800 + (number - 0x10000) / 1024) = true ∧
      isTrailing (0xdc00 + (number - 0x10000) % 1024) = true ∧
      pair (0xd800 + (number - 0x10000) / 1024) (0xdc00 + (number - 0x10000) % 1024) = number := by
  refine ⟨?_, ?_, ?_⟩
  · simp only [isLeading, Bool.and_eq_true, decide_eq_true_eq]
    omega
  · simp only [isTrailing, Bool.and_eq_true, decide_eq_true_eq]
    omega
  · unfold pair
    omega

-- A character is one step of reading a string.
theorem Character.readBody {char piece : Bytes} (h : Character char piece) (count : Nat)
    (rest : Bytes) :
    readBody true (count + 1) (piece ++ rest) =
      (do let (more, rest) ← readBody true count rest; return (char ++ more, rest)) := by
  cases h with
  | plain hquote hbackslash hcontrol =>
      simp only [List.cons_append, List.nil_append, Quoted.readBody, hquote, hbackslash, hcontrol,
        if_false, and_false]
  | letter h =>
      obtain ⟨hescaped, hunit⟩ := escaped?_of_mem h
      simp only [List.cons_append, List.nil_append, Quoted.readBody, readEscape, backslash_ne_quote,
        hunit, hescaped, if_false, if_true, pure_eq_ok, ok_bind]
  | unit h =>
      have hread := readEscape_unit h rest
      simp only [List.cons_append, Quoted.readBody, hread, ok_bind, if_true, backslash_ne_quote,
        if_false]
  | @pair char high low hchar hhigh hlow =>
      obtain ⟨hleading, htrailing, hpair⟩ := pair_surrogates hchar (toNat_lt char)
      have hread := readEscape_pair hleading htrailing hhigh hlow rest
      rw [hpair, codePoint_toNat] at hread
      simp only [List.cons_append, List.append_assoc, Quoted.readBody, hread, ok_bind, if_true,
        backslash_ne_quote, if_false]

theorem Character.ne_nil {char piece : Bytes} (h : Character char piece) : piece ≠ [] := by
  cases h <;> exact List.cons_ne_nil _ _

theorem Spells.readBody {text spelled : Bytes} (h : Spells text spelled) (rest : Bytes)
    (count : Nat) (hc : spelled.length ≤ count) :
    readBody true count (spelled ++ rest) = .ok (text, rest) := by
  induction h generalizing count with
  | close =>
      obtain ⟨count, rfl⟩ : ∃ n, count = n + 1 := ⟨count - 1, by simp at hc; omega⟩
      simp only [List.cons_append, List.nil_append, Quoted.readBody, if_true]
  | @cons text spelled char piece hchar _ ih =>
      have hpiece := List.length_pos_iff.mpr hchar.ne_nil
      rw [List.length_append] at hc
      obtain ⟨count, rfl⟩ : ∃ n, count = n + 1 := ⟨count - 1, by omega⟩
      simp only [List.append_assoc, hchar.readBody, ih count (by omega), ok_bind, pure_eq_ok]

-- Whatever the spelling of a text is, it is read as the text.
theorem Spells.readText {text : String} {spelled : Bytes} (h : Spells (Utf8.encode text) spelled)
    (rest : Bytes) : readText (spelled ++ rest) = .ok (text, rest) := by
  have hle : spelled.length ≤ (spelled ++ rest).length := by
    rw [List.length_append]
    omega
  simp only [Quoted.readText, h.readBody rest _ hle, ok_bind, Utf8.decode?_encode, pure_eq_ok]

theorem readBody_nil (count : Nat) : readBody true count [] = .error .ended := by
  cases count <;> rfl

theorem readTrailing_cut {unit : Nat} {digits cut more : Bytes} (h : Hex unit digits)
    (he : backslash :: ascii 'u' :: digits = cut ++ more) (hmore : more ≠ []) :
    readTrailing cut = .error .ended := by
  rcases cut_cons he with rfl | ⟨left, rfl, hletter⟩
  · rfl
  · rcases cut_cons hletter with rfl | ⟨left, rfl, hdigits⟩
    · rfl
    · simp only [readTrailing, if_true, h.readHex_cut hdigits hmore]

theorem readEscape_unit_cut {unit : Nat} {digits cut more : Bytes} (h : Hex unit digits)
    (he : ascii 'u' :: digits = cut ++ more) (hmore : more ≠ []) :
    readEscape true cut = .error .ended := by
  rcases cut_cons he with rfl | ⟨left, rfl, hdigits⟩
  · rfl
  · simp only [readEscape, if_true, h.readHex_cut hdigits hmore, error_bind]

theorem readEscape_pair_cut {leading trailing : Nat} {high low cut more : Bytes}
    (hleading : isLeading leading = true) (hhigh : Hex leading high) (hlow : Hex trailing low)
    (he : ascii 'u' :: (high ++ backslash :: ascii 'u' :: low) = cut ++ more) (hmore : more ≠ []) :
    readEscape true cut = .error .ended := by
  rw [← List.cons_append] at he
  rcases cut_append he with ⟨left, hleft, hunit⟩ | ⟨left, rfl, htrailing⟩
  · exact readEscape_unit_cut hhigh hunit hleft
  · have hcut := readTrailing_cut hlow htrailing hmore
    simp only [List.cons_append, readEscape, if_true, hhigh.readHex, ok_bind, hleading, hcut]

-- An escape that is cut off behind its backslash.
theorem Character.readEscape_cut {char rest cut more : Bytes}
    (h : Character char (backslash :: rest)) (he : rest = cut ++ more) (hmore : more ≠ []) :
    readEscape true cut = .error .ended := by
  cases h with
  | plain _ hbackslash => exact absurd rfl hbackslash
  | letter h =>
      rcases cut_cons he with rfl | ⟨left, rfl, hrest⟩
      · rfl
      · exact absurd (List.append_eq_nil_iff.mp hrest.symm).2 hmore
  | unit h => exact readEscape_unit_cut h he hmore
  | @pair char high low hchar hhigh hlow =>
      exact readEscape_pair_cut (pair_surrogates hchar (toNat_lt char)).1 hhigh hlow he hmore

theorem Character.readBody_cut {char piece cut more : Bytes} (h : Character char piece)
    (he : piece = cut ++ more) (hmore : more ≠ []) (count : Nat) :
    Quoted.readBody true count cut = .error .ended := by
  obtain ⟨first, rest, rfl⟩ := List.exists_cons_of_ne_nil h.ne_nil
  rcases cut_cons he with rfl | ⟨left, rfl, hrest⟩
  · exact readBody_nil count
  · cases count with
    | zero => rfl
    | succ count =>
        -- Only an escape has anything behind its first byte.
        have hfirst : first = backslash := by
          cases h with
          | plain => exact absurd (List.append_eq_nil_iff.mp hrest.symm).2 hmore
          | letter | unit | pair => rfl
        rw [hfirst] at h
        have hescape := h.readEscape_cut hrest hmore
        simp only [Quoted.readBody, hfirst, backslash_ne_quote, if_false, if_true, hescape,
          error_bind]

-- A string that is cut off in front of its closing quote runs out of bytes.
theorem Spells.readBody_cut {text spelled cut more : Bytes} (h : Spells text spelled)
    (he : spelled = cut ++ more) (hmore : more ≠ []) (count : Nat) :
    Quoted.readBody true count cut = .error .ended := by
  induction h generalizing cut count with
  | close =>
      rcases cut_cons he with rfl | ⟨left, rfl, hrest⟩
      · exact readBody_nil count
      · exact absurd (List.append_eq_nil_iff.mp hrest.symm).2 hmore
  | cons hchar _ ih =>
      rcases cut_append he with ⟨left, hleft, hpiece⟩ | ⟨left, rfl, hrest⟩
      · exact hchar.readBody_cut hpiece hleft count
      · cases count with
        | zero => rfl
        | succ count => rw [hchar.readBody, ih hrest, error_bind]

theorem Spells.readText_cut {text spelled cut more : Bytes} (h : Spells text spelled)
    (he : spelled = cut ++ more) (hmore : more ≠ []) : Quoted.readText cut = .error .ended := by
  simp only [Quoted.readText, h.readBody_cut he hmore, error_bind]

-- A character of a string that is not kept, which need not be one of any text.
inductive RawCharacter : Bytes → Prop
  | plain {byte : UInt8} (hquote : byte ≠ quote) (hbackslash : byte ≠ backslash)
      (hcontrol : ¬ byte < 0x20) : RawCharacter [byte]
  | letter {letter byte : UInt8} (h : (letter, byte) ∈ escapes) : RawCharacter [backslash, letter]
  | unit {unit : Nat} {digits : Bytes} (h : Hex unit digits) :
      RawCharacter (backslash :: ascii 'u' :: digits)

-- A string of such characters up to its closing quote.
inductive Raw : Bytes → Prop
  | close : Raw [quote]
  | cons {piece spelled : Bytes} (hchar : RawCharacter piece) (hrest : Raw spelled) :
      Raw (piece ++ spelled)

theorem Raw.char {char piece spelled : Bytes} (hrest : Raw spelled) (h : Character char piece) :
    Raw (piece ++ spelled) := by
  cases h with
  | plain hquote hbackslash hcontrol => exact .cons (.plain hquote hbackslash hcontrol) hrest
  | letter h => exact .cons (.letter h) hrest
  | unit h => exact .cons (.unit h) hrest
  | pair hchar hhigh hlow =>
      rw [← List.cons_append, ← List.cons_append, List.append_assoc]
      exact .cons (.unit hhigh) (.cons (.unit hlow) hrest)

theorem Spells.raw {text spelled : Bytes} (h : Spells text spelled) : Raw spelled := by
  induction h with
  | close => exact .close
  | cons hchar _ ih => exact ih.char hchar

theorem RawCharacter.ne_nil {piece : Bytes} (h : RawCharacter piece) : piece ≠ [] := by
  cases h <;> exact List.cons_ne_nil _ _

theorem RawCharacter.skipBody {piece : Bytes} (h : RawCharacter piece) (count : Nat)
    (rest : Bytes) : skipBody (count + 1) (piece ++ rest) = skipBody count rest := by
  cases h with
  | plain hquote hbackslash hcontrol =>
      simp only [List.cons_append, List.nil_append, Quoted.skipBody, hquote, hbackslash, hcontrol,
        if_false]
  | letter h =>
      obtain ⟨hescaped, hunit⟩ := escaped?_of_mem h
      simp only [List.cons_append, List.nil_append, Quoted.skipBody, backslash_ne_quote, hunit,
        hescaped, Option.isSome_some, if_false, if_true]
  | unit h =>
      simp only [List.cons_append, Quoted.skipBody, h.readHex, ok_bind, backslash_ne_quote,
        if_false, if_true]

theorem Raw.skipBody {spelled : Bytes} (h : Raw spelled) (rest : Bytes) (count : Nat)
    (hc : spelled.length ≤ count) : skipBody count (spelled ++ rest) = .ok rest := by
  induction h generalizing count with
  | close =>
      obtain ⟨count, rfl⟩ : ∃ n, count = n + 1 := ⟨count - 1, by simp at hc; omega⟩
      simp only [List.cons_append, List.nil_append, Quoted.skipBody, if_true]
  | cons hchar _ ih =>
      have hpiece := List.length_pos_iff.mpr hchar.ne_nil
      rw [List.length_append] at hc
      obtain ⟨count, rfl⟩ : ∃ n, count = n + 1 := ⟨count - 1, by omega⟩
      rw [List.append_assoc, hchar.skipBody, ih count (by omega)]

theorem Raw.skip {spelled : Bytes} (h : Raw spelled) (rest : Bytes) :
    skip (spelled ++ rest) = .ok rest := by
  apply h.skipBody
  rw [List.length_append]
  omega

theorem skipBody_nil (count : Nat) : skipBody count [] = .error .ended := by
  cases count <;> rfl

theorem RawCharacter.skipBody_cut {piece cut more : Bytes} (h : RawCharacter piece)
    (he : piece = cut ++ more) (hmore : more ≠ []) (count : Nat) :
    Quoted.skipBody count cut = .error .ended := by
  cases count with
  | zero => rfl
  | succ count =>
      cases h with
      | plain =>
          rcases cut_cons he with rfl | ⟨left, rfl, hrest⟩
          · rfl
          · exact absurd (List.append_eq_nil_iff.mp hrest.symm).2 hmore
      | letter =>
          rcases cut_cons he with rfl | ⟨left, rfl, hletter⟩
          · rfl
          · rcases cut_cons hletter with rfl | ⟨left, rfl, hrest⟩
            · rfl
            · exact absurd (List.append_eq_nil_iff.mp hrest.symm).2 hmore
      | unit h =>
          rcases cut_cons he with rfl | ⟨left, rfl, hletter⟩
          · rfl
          · rcases cut_cons hletter with rfl | ⟨left, rfl, hdigits⟩
            · rfl
            · simp only [Quoted.skipBody, backslash_ne_quote, if_false, if_true,
                h.readHex_cut hdigits hmore, error_bind]

theorem Raw.skip_cut {spelled cut more : Bytes} (h : Raw spelled) (he : spelled = cut ++ more)
    (hmore : more ≠ []) : Quoted.skip cut = .error .ended := by
  suffices hall : ∀ count, Quoted.skipBody count cut = .error .ended from hall cut.length
  induction h generalizing cut with
  | close =>
      rcases cut_cons he with rfl | ⟨left, rfl, hrest⟩
      · exact skipBody_nil
      · exact absurd (List.append_eq_nil_iff.mp hrest.symm).2 hmore
  | cons hchar _ ih =>
      intro count
      rcases cut_append he with ⟨left, hleft, hpiece⟩ | ⟨left, rfl, hrest⟩
      · exact hchar.skipBody_cut hpiece hleft count
      · cases count with
        | zero => rfl
        | succ count => rw [hchar.skipBody, ih hrest]

end Quoted

end TableHistory.Text
