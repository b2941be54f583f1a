import TableHistory.Proofs.Entry.Missing
import TableHistory.Proofs.Entry.Upgrades

namespace TableHistory

namespace TableVersion

section Trimming

variable {characters core : List Char}

-- Nothing but blanks.
def Blank (characters : List Char) : Prop := ∀ c ∈ characters, isSpace c = true

theorem Blank.reverse (h : Blank characters) : Blank characters.reverse := by
  intro c hc
  exact h c (List.mem_reverse.mp hc)

-- What is left of characters without the blanks in front of them and behind them.
structure Trims (characters core : List Char) : Prop where
  around : ∃ left right, characters = left ++ core ++ right ∧ Blank left ∧ Blank right
  first : ∀ c ∈ core.head?, isSpace c = false
  last : ∀ c ∈ core.getLast?, isSpace c = false

theorem dropWhile_isSpace_iff :
    characters.dropWhile isSpace = core ↔
      ∃ left, characters = left ++ core ∧ Blank left ∧ ∀ c ∈ core.head?, isSpace c = false := by
  constructor
  · rintro rfl
    refine ⟨characters.takeWhile isSpace, List.takeWhile_append_dropWhile.symm,
      List.all_eq_true.mp List.all_takeWhile, ?_⟩
    intro c hc
    have hfirst := List.head?_dropWhile_not isSpace characters
    rw [Option.mem_def.mp hc] at hfirst
    exact hfirst
  · rintro ⟨left, rfl, hblank, hfirst⟩
    rw [List.dropWhile_append_of_pos hblank]
    cases core with
    | nil => rfl
    | cons c rest => exact List.dropWhile_cons_of_neg (by simp [hfirst c rfl])

-- The blanks behind the core are those in front of it when the characters are reversed.
theorem trim_eq_iff : trim characters = core ↔ Trims characters core := by
  have htrim : trim characters = core ↔
      (characters.dropWhile isSpace).reverse.dropWhile isSpace = core.reverse :=
    List.reverse_eq_iff
  rw [htrim, dropWhile_isSpace_iff, List.head?_reverse]
  constructor
  · rintro ⟨right, hbehind, hright, hlast⟩
    have hrest : characters.dropWhile isSpace = core ++ right.reverse := by
      have hreversed := congrArg List.reverse hbehind
      simpa only [List.reverse_reverse, List.reverse_append] using hreversed
    obtain ⟨left, rfl, hleft, hfirst⟩ := dropWhile_isSpace_iff.mp hrest
    refine ⟨⟨left, right.reverse, (List.append_assoc ..).symm, hleft, hright.reverse⟩, ?_, hlast⟩
    intro c hc
    apply hfirst
    rw [List.head?_append, Option.mem_def.mp hc]
    rfl
  · rintro ⟨⟨left, right, rfl, hleft, hright⟩, hfirst, hlast⟩
    cases core with
    | nil =>
        -- With nothing between them, the blanks of both ends are dropped from the front.
        have hdropped : (left ++ [] ++ right).dropWhile isSpace = [] := by
          rw [List.append_nil, List.dropWhile_append_of_pos hleft]
          exact dropWhile_isSpace_iff.mpr ⟨right, (List.append_nil _).symm, hright, nofun⟩
        exact ⟨[], by rw [hdropped]; rfl, nofun, hlast⟩
    | cons c rest =>
        have hrest : (left ++ c :: rest ++ right).dropWhile isSpace = c :: rest ++ right :=
          dropWhile_isSpace_iff.mpr ⟨left, List.append_assoc .., hleft, hfirst⟩
        refine ⟨right.reverse, ?_, hright.reverse, hlast⟩
        rw [hrest, List.reverse_append]

end Trimming

section Numerals

-- A number in decimal digits, which zeros may lead and a plus may stand before.
inductive Numeral : List Char → Nat → Prop
  | plain {digits : List Char} (hne : digits ≠ []) (hd : ∀ c ∈ digits, c.isDigit = true) :
      Numeral digits (Nat.ofDigitChars 10 digits 0)
  | signed {digits : List Char} (hne : digits ≠ []) (hd : ∀ c ∈ digits, c.isDigit = true) :
      Numeral ('+' :: digits) (Nat.ofDigitChars 10 digits 0)

variable {characters digits : List Char} {number value : Nat}

-- More digits never make a number smaller.
theorem le_ofDigitChars (digits : List Char) (number : Nat) :
    number ≤ Nat.ofDigitChars 10 digits number := by
  rw [Nat.ofDigitChars_eq_ofDigitChars_zero]
  refine Nat.le_trans ?_ (Nat.le_add_right _ _)
  exact Nat.le_mul_of_pos_left number (Nat.pow_pos (by decide))

-- The bound on the number so far is no other than the one on the number in the end.
theorem addDigits_eq_ok_iff (h : number < 2 ^ 32) :
    addDigits number digits = .ok value ↔
      (∀ c ∈ digits, c.isDigit = true) ∧ Nat.ofDigitChars 10 digits number = value ∧
        value < 2 ^ 32 := by
  induction digits generalizing number with
  | nil =>
      constructor
      · intro hok
        obtain rfl : number = value := Except.ok.inj hok
        exact ⟨nofun, rfl, h⟩
      · rintro ⟨_, rfl, _⟩
        rfl
  | cons c rest ih =>
      have hle := le_ofDigitChars rest (10 * number + (c.toNat - '0'.toNat))
      simp only [addDigits, Nat.ofDigitChars_cons, List.forall_mem_cons, Nat.mul_comm number 10]
      by_cases hdigit : c.isDigit = true
      · by_cases hfits : 10 * number + (c.toNat - '0'.toNat) < 2 ^ 32
        · simp only [hdigit, if_true, hfits, ih hfits, true_and]
        · simp only [hdigit, if_true, hfits, if_false, reduceCtorEq, false_iff]
          rintro ⟨_, rfl, hvalue⟩
          exact hfits (Nat.lt_of_le_of_lt hle hvalue)
      · simp [hdigit]

theorem plus_not_digits : ¬ ∀ c ∈ '+' :: digits, c.isDigit = true := by
  intro h
  exact absurd (h '+' List.mem_cons_self) (by decide)

theorem readNumber_digits (hne : digits ≠ []) (hd : ∀ c ∈ digits, c.isDigit = true) :
    readNumber digits = addDigits 0 digits := by
  unfold readNumber
  split
  · exact absurd rfl hne
  · exact absurd hd plus_not_digits
  · exact absurd hd plus_not_digits
  · rfl

theorem readNumber_signed (hne : digits ≠ []) :
    readNumber ('+' :: digits) = addDigits 0 digits := by
  obtain ⟨c, rest, rfl⟩ := List.exists_cons_of_ne_nil hne
  rfl

theorem readNumber_eq_ok_iff :
    readNumber characters = .ok value ↔ Numeral characters value ∧ value < 2 ^ 32 := by
  have hdigits : ∀ {digits : List Char}, addDigits 0 digits = .ok value ↔
      (∀ c ∈ digits, c.isDigit = true) ∧ Nat.ofDigitChars 10 digits 0 = value ∧ value < 2 ^ 32 :=
    addDigits_eq_ok_iff (by decide)
  constructor
  · intro hok
    unfold readNumber at hok
    split at hok
    · cases hok
    · cases hok
    · rename_i digits hne
      obtain ⟨hd, rfl, hvalue⟩ := hdigits.mp hok
      exact ⟨.signed hne hd, hvalue⟩
    · rename_i hne _ _
      obtain ⟨hd, rfl, hvalue⟩ := hdigits.mp hok
      exact ⟨.plain hne hd, hvalue⟩
  · rintro ⟨hnumeral, hvalue⟩
    cases hnumeral with
    | plain hne hd =>
        rw [readNumber_digits hne hd]
        exact hdigits.mpr ⟨hd, rfl, hvalue⟩
    | signed hne hd =>
        rw [readNumber_signed hne]
        exact hdigits.mpr ⟨hd, rfl, hvalue⟩

-- Characters are one number at most.
theorem Numeral.unique (h : Numeral characters number) (hother : Numeral characters value) :
    number = value := by
  cases h with
  | plain _ hd =>
      cases hother with
      | plain => rfl
      | signed => exact absurd hd plus_not_digits
  | signed =>
      cases hother with
      | plain _ hd => exact absurd hd plus_not_digits
      | signed => rfl

theorem isSpace_of_isDigit {c : Char} (h : c.isDigit = true) : isSpace c = false := by
  have hbounds : 48 ≤ c.toNat ∧ c.toNat ≤ 57 := Char.isDigit_iff_toNat.mp h
  simp only [isSpace, Bool.or_eq_false_iff, Bool.and_eq_false_iff, decide_eq_false_iff_not]
  omega

end Numerals

-- What a text says a version is.
def Writes (text : String) (number : Nat) : Prop :=
  ∃ core, Trims text.toList core ∧ Numeral core number

section Parsing

variable {text : String} {number : Nat} {version : TableVersion}

theorem Writes.unique {other : Nat} (h : Writes text number) (hother : Writes text other) :
    number = other := by
  obtain ⟨core, htrims, hnumeral⟩ := h
  obtain ⟨again, hagain, hsame⟩ := hother
  obtain rfl : core = again := (trim_eq_iff.mpr htrims).symm.trans (trim_eq_iff.mpr hagain)
  exact hnumeral.unique hsame

theorem parse_eq_ok_iff : parse text = .ok version ↔ Writes text version.number.toNat := by
  obtain ⟨word⟩ := version
  have hread : parse text = .ok ⟨word⟩ ↔ readNumber (trim text.toList) = .ok word.toNat := by
    unfold parse
    cases hnumber : readNumber (trim text.toList) with
    | error fault => simp only [hnumber, reduceCtorEq]
    | ok number =>
        have hfits : number < UInt32.size := (readNumber_eq_ok_iff.mp hnumber).2
        simp only [hnumber, Except.ok.injEq, mk.injEq]
        rw [← UInt32.toNat_inj, UInt32.toNat_ofNat_of_lt' hfits]
  rw [hread, readNumber_eq_ok_iff]
  constructor
  · rintro ⟨hnumeral, _⟩
    exact ⟨_, trim_eq_iff.mp rfl, hnumeral⟩
  · rintro ⟨core, htrims, hnumeral⟩
    rw [trim_eq_iff.mpr htrims]
    exact ⟨hnumeral, word.toNat_lt⟩

-- The digits of a number stand for it, and hold no blanks.
theorem writes_describe {left right : String} (hleft : Blank left.toList)
    (hright : Blank right.toList) :
    Writes (left ++ version.describe ++ right) version.number.toNat := by
  have hdigits : version.describe.toList = Nat.toDigits 10 version.number.toNat := by
    rw [describe, Nat.toString_eq_repr, Nat.toList_repr]
  have hdigit : ∀ c ∈ Nat.toDigits 10 version.number.toNat, c.isDigit = true :=
    fun c hc => Nat.isDigit_of_mem_toDigits (by decide) (by decide) hc
  refine ⟨Nat.toDigits 10 version.number.toNat, ⟨⟨left.toList, right.toList, ?_, hleft, hright⟩,
    ?_, ?_⟩, ?_⟩
  · rw [String.toList_append, String.toList_append, hdigits]
  · intro c hc
    exact isSpace_of_isDigit (hdigit c (List.mem_of_mem_head? hc))
  · intro c hc
    exact isSpace_of_isDigit (hdigit c (List.mem_of_mem_getLast? hc))
  · have hnumeral := Numeral.plain Nat.toDigits_ne_nil hdigit
    rwa [Nat.ofDigitChars_ten_toDigits] at hnumeral

end Parsing

end TableVersion

theorem TableVersion.number_lt_eight_iff (version : TableVersion) :
    version.number < 8 ↔ version.number.toNat < 8 :=
  UInt32.lt_iff_toNat_lt

theorem Era.ofVersion_eq_ite (version : TableVersion) :
    ofVersion version = if version.number.toNat < 8 then text else structured := by
  by_cases hold : version.number < 8
  · rw [if_pos (version.number_lt_eight_iff.mp hold), ofVersion_of_lt hold]
  · rw [if_neg (mt version.number_lt_eight_iff.mpr hold), ofVersion_of_not_lt hold]

namespace Entry

variable {config : ArchiveConfig} {version required : TableVersion}

-- Filling knows nothing of versions.
theorem fill_not_tooOld {entry : Entry} {source : BodySource} {rule : Option SlotRule}
    {body : Bytes} :
    (entry.fill source rule body).result ≠ .error (.versionTooOld version required) := by
  intro h
  obtain ⟨⟨slot, presence⟩, hrule, hunread | ⟨hpresence, hbody⟩⟩ := fill_error h
  · rcases hunread with ⟨cause, hcause⟩ | ⟨cause, hcause⟩
    · cases hcause
    · cases hcause
  · cases hrule
    cases hpresence
    cases hbody
    cases h

-- Versions below 8 are refused for their age, and no others are.
theorem ofFolded_tooOld_iff (folded : FoldedOperation) :
    (ofFolded config folded).result = .error (.versionTooOld config.tableVersion foldedFrom) ↔
      config.tableVersion.number.toNat < 8 := by
  rw [← TableVersion.number_lt_eight_iff]
  constructor
  · intro h
    rcases ofFolded_fault h with ⟨hold, _⟩ | hunknown | ⟨_, _, _, ⟨_, hmetadata⟩ | hplan⟩
    · apply UInt32.not_le.mp
      intro hnew
      have hversion : config.tableVersion.atLeast foldedFrom = true :=
        TableVersion.atLeast_iff.mpr hnew
      exact absurd hold (by simp [hversion])
    · cases hunknown
    · exact absurd hmetadata fill_not_tooOld
    · exact absurd hplan fill_not_tooOld
  · intro hold
    rw [ofFolded_tooOld hold]
    rfl

end Entry

namespace TableVersion

-- The numbers below 2 ^ 32 are read, however they are written, and nothing else is. The era of the
-- table and whether its folded operations are refused follow the number that was written. So the
-- description of a version, with blanks around it, is read as that version.
theorem parse_follows_number :
    (∀ text, (∃ version, parse text = .ok version) ↔ ∃ number < 2 ^ 32, Writes text number) ∧
    (∀ text version number, parse text = .ok version → Writes text number →
      version.number.toNat = number ∧
      Era.ofVersion version = (if number < 8 then .text else .structured) ∧
      ∀ folded, (Entry.ofFolded ⟨version⟩ folded).result = .error (.versionTooOld version ⟨8⟩) ↔
        number < 8) ∧
    ∀ version left right, Blank left.toList → Blank right.toList →
      parse (left ++ version.describe ++ right) = .ok version := by
  refine ⟨?_, ?_, ?_⟩
  · intro text
    constructor
    · rintro ⟨version, hparse⟩
      exact ⟨_, version.number.toNat_lt, parse_eq_ok_iff.mp hparse⟩
    · rintro ⟨number, hfits, hwrites⟩
      refine ⟨⟨UInt32.ofNat number⟩, parse_eq_ok_iff.mpr ?_⟩
      rwa [UInt32.toNat_ofNat_of_lt' hfits]
  · intro text version number hparse hwrites
    obtain rfl : version.number.toNat = number := (parse_eq_ok_iff.mp hparse).unique hwrites
    exact ⟨rfl, Era.ofVersion_eq_ite version, Entry.ofFolded_tooOld_iff⟩
  · intro version left right hleft hright
    exact parse_eq_ok_iff.mpr (writes_describe hleft hright)

-- The last version with text only, behind a plus and zeros, between blanks beyond ASCII.
def padded : String := "\u3000+0007\u00a0\n"

theorem parse_follows_number_padded :
    (Writes padded 7 ∧ parse padded = .ok ⟨7⟩ ∧ Era.ofVersion ⟨7⟩ = .text ∧
      ∀ folded, (Entry.ofFolded ⟨⟨7⟩⟩ folded).result = .error (.versionTooOld ⟨7⟩ ⟨8⟩)) ∧
    Blank "\t".toList ∧ Blank "\u2009\n".toList ∧
      parse ("\t" ++ describe ⟨4294967295⟩ ++ "\u2009\n") = .ok ⟨4294967295⟩ := by
  obtain ⟨_, hfollows, hdescribe⟩ := parse_follows_number
  have hwrites : Writes padded 7 :=
    ⟨['+', '0', '0', '0', '7'], trim_eq_iff.mp rfl, .signed nofun (List.all_eq_true.mp rfl)⟩
  have hleft : Blank "\t".toList := List.all_eq_true.mp rfl
  have hright : Blank "\u2009\n".toList := List.all_eq_true.mp rfl
  have hparse : parse padded = .ok ⟨7⟩ := rfl
  obtain ⟨_, hera, hfolded⟩ := hfollows padded ⟨7⟩ 7 hparse hwrites
  exact ⟨⟨hwrites, hparse, hera, fun folded => (hfolded folded).mpr (by decide)⟩,
    hleft, hright, hdescribe ⟨4294967295⟩ "\t" "\u2009\n" hleft hright⟩

example : parse "4294967296" = .error ⟨"4294967296", .tooLarge⟩ := by decide

end TableVersion

end TableHistory
