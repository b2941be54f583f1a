import TableHistory.Proofs.Text.Skip

namespace TableHistory.Text

namespace Number

def Digits (bytes : Bytes) : Prop := bytes ≠ [] ∧ ∀ byte ∈ bytes, isDigit byte = true

-- The whole part of a number, which zeros do not lead.
inductive WholePart : Bytes → Prop
  | zero : WholePart [ascii '0']
  | digits {byte : UInt8} {rest : Bytes} (hz : byte ≠ ascii '0') (h : Digits (byte :: rest)) :
      WholePart (byte :: rest)

-- The decimals with the point in front of them, if there are any.
inductive Decimals : Bytes → Prop
  | none : Decimals []
  | digits {decimals : Bytes} (h : Digits decimals) : Decimals (point :: decimals)

-- The exponent with its letter and sign, if there is one.
inductive Exponent : Bytes → Prop
  | none : Exponent []
  | plain {letter : UInt8} {exponent : Bytes} (hl : isExponentLetter letter = true)
      (h : Digits exponent) : Exponent (letter :: exponent)
  | signed {letter sign : UInt8} {exponent : Bytes} (hl : isExponentLetter letter = true)
      (hs : sign = ascii '+' ∨ sign = minus) (h : Digits exponent) :
      Exponent (letter :: sign :: exponent)

inductive IsNumber : Bytes → Prop
  | positive {whole decimals exponent : Bytes} (hw : WholePart whole) (hd : Decimals decimals)
      (he : Exponent exponent) : IsNumber (whole ++ (decimals ++ exponent))
  | negative {whole decimals exponent : Bytes} (hw : WholePart whole) (hd : Decimals decimals)
      (he : Exponent exponent) : IsNumber (minus :: (whole ++ (decimals ++ exponent)))

theorem Digits.skip {digits : Bytes} (h : Digits digits) {rest : Bytes}
    (hr : startsWithDigit rest = false) : skipDigits (digits ++ rest) = .ok rest := by
  obtain ⟨hne, hdigits⟩ := h
  obtain ⟨byte, more, rfl⟩ := List.exists_cons_of_ne_nil hne
  have hstarts : startsWithDigit (byte :: more ++ rest) = true := hdigits byte List.mem_cons_self
  have hdrop : (byte :: more ++ rest).dropWhile isDigit = rest := by
    rw [List.dropWhile_append_of_pos hdigits]
    cases rest with
    | nil => rfl
    | cons next rest =>
        have hnext : isDigit next = false := hr
        simp [hnext]
  unfold skipDigits
  rw [if_pos hstarts, hdrop]

section Behind

variable {decimals exponent rest : Bytes}

theorem isDigit_of_isExponentLetter {letter : UInt8} (h : isExponentLetter letter = true) :
    isDigit letter = false ∧ letter ≠ point := by
  simp only [isExponentLetter, Bool.or_eq_true, decide_eq_true_eq] at h
  rcases h with rfl | rfl <;> decide

-- The exponent does not go on with the digits in front of it.
theorem Exponent.not_digits (h : Exponent exponent) (hr : Ended rest) :
    startsWithDigit (exponent ++ rest) = false := by
  cases h with
  | none => exact hr.startsWithDigit
  | plain hl | signed hl => exact (isDigit_of_isExponentLetter hl).1

theorem Exponent.skip (h : Exponent exponent) (hr : Ended rest) :
    skipExponent (exponent ++ rest) = .ok rest := by
  cases h with
  | none =>
      cases rest with
      | nil => rfl
      | cons byte rest =>
          have hletter : isExponentLetter byte = false := (hr byte (by simp)).2.2
          simp only [List.nil_append, skipExponent, hletter, Bool.false_eq_true, if_false]
  | @plain letter exponent hl h =>
      have hskip := h.skip hr.startsWithDigit
      obtain ⟨first, more, rfl⟩ := List.exists_cons_of_ne_nil h.1
      have hfirst : isDigit first = true := h.2 first List.mem_cons_self
      have hsign : ¬ (first = ascii '+' ∨ first = minus) := by
        rintro (rfl | rfl) <;> exact absurd hfirst (by decide)
      rw [List.cons_append] at hskip
      simp only [List.cons_append, skipExponent, hl, if_true, hsign, if_false, hskip]
  | signed hl hs h =>
      simp only [List.cons_append, skipExponent, hl, if_true, hs, h.skip hr.startsWithDigit]

theorem Decimals.not_digits (hd : Decimals decimals) (he : Exponent exponent) (hr : Ended rest) :
    startsWithDigit (decimals ++ (exponent ++ rest)) = false := by
  cases hd with
  | none => exact he.not_digits hr
  | digits => rfl

end Behind

-- The three parts of skipping a number.
def unsigned (bytes : Bytes) : Bytes :=
  match bytes with
  | byte :: rest => if byte = minus then rest else bytes
  | [] => bytes

def skipWhole (bytes : Bytes) : Except Fault Bytes :=
  match bytes with
  | byte :: rest =>
    if byte = ascii '0' then if startsWithDigit rest then .error .malformed else .ok rest
    else skipDigits bytes
  | [] => .error .malformed

def skipBehind (bytes : Bytes) : Except Fault Bytes :=
  match bytes with
  | byte :: decimals =>
    if byte = point then do
      let rest ← skipDigits decimals
      skipExponent rest
    else skipExponent bytes
  | [] => .ok bytes

theorem skip_eq (bytes : Bytes) :
    skip bytes = (do let rest ← skipWhole (unsigned bytes); skipBehind rest) := by
  have hparts : skip bytes = (match unsigned bytes with
      | byte :: rest =>
        if byte = ascii '0' then
          if startsWithDigit rest then Except.error .malformed >>= skipBehind
          else Except.ok rest >>= skipBehind
        else skipDigits (unsigned bytes) >>= skipBehind
      | [] => Except.error .malformed >>= skipBehind) := rfl
  rw [hparts]
  cases unsigned bytes with
  | nil => rfl
  | cons byte rest =>
      simp only [skipWhole]
      split
      · split <;> rfl
      · rfl

theorem WholePart.skip {whole rest : Bytes} (h : WholePart whole)
    (hr : startsWithDigit rest = false) : skipWhole (whole ++ rest) = .ok rest := by
  cases h with
  | zero => simp only [List.cons_append, List.nil_append, skipWhole, if_true, hr,
      Bool.false_eq_true, if_false]
  | digits hz h =>
      have hskip := h.skip hr
      rw [List.cons_append] at hskip
      simp only [List.cons_append, skipWhole, hz, if_false, hskip]

-- A whole part begins with a digit.
theorem WholePart.head {whole : Bytes} (h : WholePart whole) :
    ∃ byte rest, whole = byte :: rest ∧ isDigit byte = true := by
  cases h with
  | zero => exact ⟨ascii '0', [], rfl, by decide⟩
  | digits _ h => exact ⟨_, _, rfl, h.2 _ List.mem_cons_self⟩

theorem Decimals.skip {decimals exponent rest : Bytes} (hd : Decimals decimals)
    (he : Exponent exponent) (hr : Ended rest) :
    skipBehind (decimals ++ (exponent ++ rest)) = .ok rest := by
  have hexponent := he.skip hr
  cases hd with
  | none =>
      rw [List.nil_append]
      cases hbytes : exponent ++ rest with
      | nil =>
          rw [hbytes] at hexponent
          exact hexponent
      | cons byte behind =>
          rw [hbytes] at hexponent
          have hpoint : byte ≠ point := by
            cases he with
            | none =>
                rw [List.nil_append] at hbytes
                exact (hr byte (by simp [hbytes])).2.1
            | plain hl | signed hl =>
                obtain ⟨rfl, _⟩ := List.cons_eq_cons.mp hbytes
                exact (isDigit_of_isExponentLetter hl).2
          simp only [skipBehind, hpoint, if_false, hexponent]
  | digits h =>
      have hskip := h.skip (he.not_digits hr)
      simp only [List.cons_append, skipBehind, if_true, hskip, ok_bind, hexponent]

theorem IsNumber.skip {bytes rest : Bytes} (h : IsNumber bytes) (hr : Ended rest) :
    skip (bytes ++ rest) = .ok rest := by
  cases h with
  | @positive whole decimals exponent hw hd he =>
      obtain ⟨byte, more, hwhole, hdigit⟩ := hw.head
      have hunsigned : unsigned (whole ++ (decimals ++ (exponent ++ rest))) =
          whole ++ (decimals ++ (exponent ++ rest)) := by
        rw [hwhole]
        simp only [List.cons_append, unsigned, not_minus_of_isDigit hdigit, if_false]
      rw [skip_eq, List.append_assoc, List.append_assoc, hunsigned,
        hw.skip (hd.not_digits he hr), ok_bind, hd.skip he hr]
  | @negative whole decimals exponent hw hd he =>
      have hunsigned : unsigned (minus :: (whole ++ (decimals ++ exponent)) ++ rest) =
          whole ++ (decimals ++ (exponent ++ rest)) := by
        simp only [List.cons_append, List.append_assoc, unsigned, if_true]
      rw [skip_eq, hunsigned, hw.skip (hd.not_digits he hr), ok_bind, hd.skip he hr]

theorem IsNumber.head {bytes : Bytes} (h : IsNumber bytes) :
    ∃ byte rest, bytes = byte :: rest ∧ startsNumber byte = true := by
  cases h with
  | positive hw =>
      obtain ⟨byte, rest, rfl, hdigit⟩ := hw.head
      exact ⟨byte, _, rfl, by simp [startsNumber, hdigit]⟩
  | negative => exact ⟨minus, _, rfl, by decide⟩

end Number

-- Any value, whatever its depth. A string may hold any escapes, and one name may be there more than
-- once.
inductive IsValue : Bytes → Prop
  | null : IsValue nullWord
  | bool (value : Bool) : IsValue (if value then trueWord else falseWord)
  | number {bytes : Bytes} (h : Number.IsNumber bytes) : IsValue bytes
  | text {spelling : Bytes} (h : Quoted.Raw spelling) : IsValue (quote :: spelling)
  | list {items : List Bytes} {bytes : Bytes} (hs : Spread .list items bytes)
      (h : ∀ item ∈ items, IsValue item) : IsValue (openList :: bytes)
  | object {members : List Spaced} {bytes : Bytes}
      (hs : Spread .object (members.map Spaced.bytes) bytes)
      (hraw : ∀ member ∈ members, Quoted.Raw member.spelling)
      (h : ∀ member ∈ members, IsValue member.value) : IsValue (openObject :: bytes)

theorem skippable_word {fits : Bytes → Prop} {byte : UInt8} {word : Bytes}
    (hb : isBlank byte = false ∧ byte ≠ closeList) (hopen : byte ≠ openList ∧ byte ≠ openObject)
    (h : ∀ rest, skipScalar (byte :: (word ++ rest)) =
      readWord (byte :: word) (byte :: (word ++ rest))) : Skippable fits (byte :: word) :=
  skippable_scalar hb hopen fun rest _ => (h rest).trans (readWord_append (byte :: word) rest)

theorem skipScalar_number {byte : UInt8} (h : Number.startsNumber byte = true) (bytes : Bytes) :
    skipScalar (byte :: bytes) = Number.skip (byte :: bytes) := by
  have hne : ∀ other, Number.startsNumber other = false → byte ≠ other := by
    rintro other ho rfl
    exact absurd h (by simp [ho])
  have hnull := hne (ascii 'n') (by decide)
  have htrue := hne (ascii 't') (by decide)
  have hfalse := hne (ascii 'f') (by decide)
  have hquote := hne quote (by decide)
  simp only [skipScalar, hnull, htrue, hfalse, hquote, h, if_false, if_true]

theorem skippable_number {bytes : Bytes} (h : Number.IsNumber bytes) :
    Skippable Number.Ended bytes := by
  obtain ⟨byte, rest, rfl, hstarts⟩ := h.head
  obtain ⟨hblank, hclose, _⟩ := Number.startsNumber_ne hstarts
  have hopen : byte ≠ openList ∧ byte ≠ openObject := by
    constructor <;> rintro rfl <;> exact absurd hstarts (by decide)
  refine skippable_scalar ⟨hblank, hclose⟩ hopen fun behind hr => ?_
  rw [skipScalar_number hstarts]
  exact h.skip hr

-- A value is skipped to its end.
theorem IsValue.skippable {bytes : Bytes} (h : IsValue bytes) : Skippable Number.Ended bytes := by
  induction h with
  | null => exact skippable_word (by decide) (by decide) fun _ => rfl
  | bool value =>
      cases value with
      | false => exact skippable_word (by decide) (by decide) fun _ => rfl
      | true => exact skippable_word (by decide) (by decide) fun _ => rfl
  | number h => exact skippable_number h
  | text h => exact skippable_text h
  | list hs _ ih => exact skippable_list hs ih
  | object hs hraw _ ih => exact skippable_object hs fun member hm => ⟨hraw member hm, ih member hm⟩

end TableHistory.Text
