import TableHistory.Proofs.Result
import TableHistory.Proofs.Text.Spelling
import TableHistory.Text.Number

namespace TableHistory.Text.Number

-- What stands behind a number that is over.
def Ended (bytes : Bytes) : Prop :=
  ∀ byte ∈ bytes.head?, isDigit byte = false ∧ byte ≠ point ∧ isExponentLetter byte = false

theorem ended_nil : Ended [] := by simp [Ended]

theorem ended_cons {byte : UInt8} (rest : Bytes) (h : isDigit byte = false ∧ byte ≠ point ∧
    isExponentLetter byte = false) : Ended (byte :: rest) := by
  simpa [Ended] using h

theorem Ended.startsWithDigit {bytes : Bytes} (h : Ended bytes) :
    startsWithDigit bytes = false := by
  cases bytes with
  | nil => rfl
  | cons byte rest => simpa [Text.startsWithDigit] using (h byte (by simp)).1

def digits (number : Nat) : Bytes := (Nat.toDigits 10 number).map ascii

-- Puts one more digit behind a number.
def push (number : Nat) (byte : UInt8) : Nat := number * 10 + digitValue byte

theorem digitChar_spec : ∀ digit < 10, isDigit (ascii digit.digitChar) = true ∧
    digitValue (ascii digit.digitChar) = digit ∧
    (0 < digit → ascii digit.digitChar ≠ ascii '0') := by decide

-- A positive number begins with a digit that is not zero, and its digits add up to it.
theorem digits_spec (number : Nat) (h : 0 < number) :
    ∃ byte rest, digits number = byte :: rest ∧ isDigit byte = true ∧ byte ≠ ascii '0' ∧
      (∀ other ∈ rest, isDigit other = true) ∧ rest.foldl push (digitValue byte) = number := by
  induction number using Nat.strongRecOn with
  | ind number ih =>
      by_cases hs : number < 10
      · obtain ⟨hd, hv, hz⟩ := digitChar_spec number hs
        refine ⟨ascii number.digitChar, [], ?_, hd, hz h, by simp, hv⟩
        rw [digits, Nat.toDigits_of_lt_base hs]
        rfl
      · obtain ⟨byte, rest, he, hd, hz, hr, hv⟩ := ih (number / 10) (by omega) (by omega)
        obtain ⟨hlast, hlastv, _⟩ := digitChar_spec (number % 10) (by omega)
        refine ⟨byte, rest ++ [ascii (number % 10).digitChar], ?_, hd, hz, ?_, ?_⟩
        · rw [digits] at he ⊢
          rw [Nat.toDigits_of_base_le (by decide) (by omega), List.map_append, he]
          rfl
        · intro other ho
          rcases List.mem_append.mp ho with ho | ho
          · exact hr other ho
          · rw [List.mem_singleton.mp ho]
            exact hlast
        · rw [List.foldl_append, hv]
          simp only [List.foldl_cons, List.foldl_nil, push, hlastv]
          omega

theorem le_foldl_push (rest : Bytes) (number : Nat) : number ≤ rest.foldl push number := by
  induction rest generalizing number with
  | nil => exact Nat.le_refl _
  | cons byte rest ih =>
      have hstep : number ≤ push number byte := by unfold push; omega
      exact Nat.le_trans hstep (ih _)

theorem takeDigits_append (more rest : Bytes) (number count : Nat)
    (hd : ∀ byte ∈ more, isDigit byte = true) (hf : more.foldl push number < 2 ^ 64)
    (hr : startsWithDigit rest = false) :
    takeDigits number count (more ++ rest) =
      (more.foldl push number, count + more.length, rest) := by
  induction more generalizing number count with
  | nil =>
      cases rest with
      | nil => rfl
      | cons byte rest =>
          have hb : isDigit byte = false := by simpa [startsWithDigit] using hr
          simp [takeDigits, hb]
  | cons byte more ih =>
      have hlong : number * 10 + digitValue byte < 2 ^ 64 :=
        Nat.lt_of_le_of_lt (le_foldl_push more _) hf
      have hnext := ih (push number byte) (count + 1)
        (fun other ho => hd other (List.mem_cons_of_mem _ ho)) hf
      simp only [List.cons_append, takeDigits, hd byte (by simp), hlong, and_self, if_true,
        List.foldl_cons, List.length_cons]
      rw [show number * 10 + digitValue byte = push number byte from rfl, hnext]
      congr 2
      omega

theorem readTail_ended (negative : Bool) (number : Nat) {rest : Bytes} (h : Ended rest) :
    readTail negative number rest = .ok (ofDigits negative number, rest) := by
  cases rest with
  | nil => rfl
  | cons byte rest =>
      obtain ⟨_, hp, he⟩ := h byte (by simp)
      simp [readTail, hp, he]

theorem readUnsigned_digits (negative : Bool) (number : Nat) (hf : number < 2 ^ 64) {rest : Bytes}
    (h : Ended rest) :
    readUnsigned negative (digits number ++ rest) = .ok (ofDigits negative number, rest) := by
  rcases Nat.eq_zero_or_pos number with rfl | hpos
  · rw [show digits 0 = [ascii '0'] from rfl]
    simp only [List.cons_append, List.nil_append, readUnsigned, if_true, h.startsWithDigit,
      Bool.false_eq_true, if_false, readTail_ended negative 0 h]
  · obtain ⟨byte, more, he, hd, hz, hr, hv⟩ := digits_spec number hpos
    have htake := takeDigits_append more rest (digitValue byte) 0 hr (by rwa [hv])
      h.startsWithDigit
    simp only [he, List.cons_append, readUnsigned, hz, if_false, hd, if_true, htake, hv,
      h.startsWithDigit, Bool.false_eq_true, readTail_ended negative number h]

theorem digits_head (number : Nat) :
    ∃ byte rest, digits number = byte :: rest ∧ isDigit byte = true := by
  rcases Nat.eq_zero_or_pos number with rfl | hpos
  · exact ⟨ascii '0', [], rfl, by decide⟩
  · obtain ⟨byte, rest, he, hd, _⟩ := digits_spec number hpos
    exact ⟨byte, rest, he, hd⟩

theorem not_minus_of_isDigit {byte : UInt8} (h : isDigit byte = true) : byte ≠ minus := by
  rintro rfl
  exact absurd h (by decide)

theorem read_write (value : Int) (hl : -2 ^ 63 ≤ value) (hu : value < 2 ^ 64) {rest : Bytes}
    (h : Ended rest) : read (write value ++ rest) = .ok (whole value, rest) := by
  have hfit : value.natAbs < 2 ^ 64 := by omega
  unfold write
  by_cases hn : value < 0
  · have hvalue : ofDigits true value.natAbs = whole value := by
      have hsmall : ¬ (value.natAbs = 0 ∨ 2 ^ 63 < value.natAbs) := by omega
      have habs : -(value.natAbs : Int) = value := by omega
      simp only [ofDigits, if_true, if_neg hsmall, habs]
    have hread := readUnsigned_digits true value.natAbs hfit h
    simp only [hn, if_true, List.cons_append, read]
    rw [← hvalue, ← hread]
    rfl
  · have hvalue : ofDigits false value.natAbs = whole value := by
      have habs : (value.natAbs : Int) = value := by omega
      simp [ofDigits, habs]
    have hread := readUnsigned_digits false value.natAbs hfit h
    obtain ⟨byte, more, he, hd⟩ := digits_head value.natAbs
    rw [he] at hread
    simp only [hn, if_false]
    rw [show (Nat.toDigits 10 value.natAbs).map ascii = byte :: more from he, ← hvalue, ← hread]
    simp only [List.cons_append, read, not_minus_of_isDigit hd, if_false]

theorem digitValue_pos {byte : UInt8} (hd : isDigit byte = true) (hz : byte ≠ ascii '0') :
    0 < digitValue byte := by
  simp only [isDigit, Bool.and_eq_true, decide_eq_true_eq, UInt8.le_iff_toNat_le] at hd
  have hne : byte.toNat ≠ (ascii '0').toNat := fun he => hz (UInt8.toNat_inj.mp he)
  unfold digitValue
  omega

-- The first digits of a number are those of a lower one.
theorem readUnsigned_cut (negative : Bool) {number : Nat} (hf : number < 2 ^ 64)
    {cut more : Bytes} (he : digits number = cut ++ more) (hmore : more ≠ []) :
    readUnsigned negative cut = .error .ended ∨ ∃ lower, 0 < lower ∧ lower ≤ number ∧
      readUnsigned negative cut = .ok (ofDigits negative lower, []) := by
  cases cut with
  | nil => exact .inl rfl
  | cons byte cut =>
      rcases Nat.eq_zero_or_pos number with rfl | hpos
      · have hlength := congrArg List.length he
        have hmore := List.length_pos_iff.mpr hmore
        have hone : (digits 0).length = 1 := rfl
        rw [hone, List.length_append, List.length_cons] at hlength
        omega
      · obtain ⟨first, rest, hdigits, hd, hz, hr, hv⟩ := digits_spec number hpos
        rw [List.cons_append] at he
        obtain ⟨rfl, rfl⟩ := List.cons_eq_cons.mp (hdigits.symm.trans he)
        rw [List.foldl_append] at hv
        have hle : cut.foldl push (digitValue first) ≤ number := hv ▸ le_foldl_push more _
        have hfirst : digitValue first ≤ cut.foldl push (digitValue first) := le_foldl_push cut _
        have hlow := digitValue_pos hd hz
        have htake := takeDigits_append cut [] (digitValue first) 0
          (fun other ho => hr other (List.mem_append_left _ ho)) (by omega) rfl
        rw [List.append_nil] at htake
        refine .inr ⟨cut.foldl push (digitValue first), by omega, hle, ?_⟩
        simp only [readUnsigned, hz, if_false, hd, if_true, htake, ended_nil.startsWithDigit,
          Bool.false_eq_true, readTail_ended negative _ ended_nil]

-- A number that is cut off is a number nearer to zero, unless nothing of it is left.
theorem read_cut {value : Int} (hl : -2 ^ 63 ≤ value) (hu : value < 2 ^ 64) {cut more : Bytes}
    (he : write value = cut ++ more) (hmore : more ≠ []) :
    read cut = .error .ended ∨ ∃ nearer, read cut = .ok (whole nearer, []) ∧
      (0 ≤ nearer ∧ nearer ≤ value ∨ value ≤ nearer ∧ nearer ≤ 0) := by
  have hfit : value.natAbs < 2 ^ 64 := by omega
  unfold write at he
  by_cases hn : value < 0
  · simp only [hn, if_true] at he
    rcases cut_cons he with rfl | ⟨left, rfl, hdigits⟩
    · exact .inl rfl
    · have hread : read (minus :: left) = readUnsigned true left := rfl
      rw [hread]
      refine (readUnsigned_cut true hfit hdigits hmore).imp_right ?_
      rintro ⟨lower, hpos, hle, hlower⟩
      have hsmall : ¬ (lower = 0 ∨ 2 ^ 63 < lower) := by omega
      refine ⟨-lower, ?_, by omega⟩
      simp only [hlower, ofDigits, if_true, if_neg hsmall]
  · simp only [hn, if_false] at he
    cases cut with
    | nil => exact .inl rfl
    | cons byte left =>
        obtain ⟨first, rest, hdigits, hd⟩ := digits_head value.natAbs
        obtain ⟨rfl, _⟩ := List.cons_eq_cons.mp (hdigits.symm.trans he)
        have hread : read (first :: left) = readUnsigned false (first :: left) := by
          simp only [read, not_minus_of_isDigit hd, if_false]
        rw [hread]
        refine (readUnsigned_cut false hfit he hmore).imp_right ?_
        rintro ⟨lower, hpos, hle, hlower⟩
        refine ⟨lower, ?_, by omega⟩
        rw [hlower]
        rfl

-- A written number begins like one.
theorem write_head (value : Int) :
    ∃ byte rest, write value = byte :: rest ∧ startsNumber byte = true := by
  unfold write
  by_cases hn : value < 0
  · simp only [hn, if_true]
    exact ⟨minus, _, rfl, by decide⟩
  · obtain ⟨byte, more, he, hd⟩ := digits_head value.natAbs
    simp only [hn, if_false]
    exact ⟨byte, more, he, by simp [startsNumber, hd]⟩

end TableHistory.Text.Number
