import Mathlib.Data.List.DropRight
import TableHistory.Proofs.Text.Skip

namespace TableHistory.Text

variable {α β σ : Type}

namespace Quoted

-- The string behind a quote ends in front of the given bytes.
def SkipsTo (bytes last : Bytes) : Prop :=
  last.length < bytes.length ∧ ∀ count, bytes.length ≤ count → skipBody count bytes = .ok last

variable {bytes rest last : Bytes}

theorem SkipsTo.skip (h : SkipsTo bytes last) : skip bytes = .ok last :=
  h.2 bytes.length (Nat.le_refl _)

theorem skipsTo_quote (last : Bytes) : SkipsTo (quote :: last) last := by
  refine ⟨Nat.lt_succ_self _, ?_⟩
  intro count hcount
  obtain ⟨count, rfl⟩ : ∃ n, count = n + 1 := ⟨count - 1, by simp at hcount; omega⟩
  simp only [skipBody, if_true]

-- A character of the string in front of another place in it.
theorem SkipsTo.step (h : SkipsTo rest last) (hless : rest.length < bytes.length)
    (hstep : ∀ count, skipBody (count + 1) bytes = skipBody count rest) : SkipsTo bytes last := by
  obtain ⟨hlast, hskip⟩ := h
  refine ⟨Nat.lt_trans hlast hless, ?_⟩
  intro count hcount
  obtain ⟨count, rfl⟩ : ∃ n, count = n + 1 := ⟨count - 1, by omega⟩
  rw [hstep]
  exact hskip count (by omega)

theorem SkipsTo.cons {byte : UInt8} (h : SkipsTo rest last) (hquote : byte ≠ quote)
    (hbackslash : byte ≠ backslash) (hcontrol : ¬ byte < 0x20) : SkipsTo (byte :: rest) last := by
  apply h.step (Nat.lt_succ_self _)
  intro count
  simp only [skipBody, hquote, hbackslash, hcontrol, if_false]

theorem SkipsTo.letter {letter byte : UInt8} (h : SkipsTo rest last) (hletter : letter ≠ ascii 'u')
    (hescaped : escaped? letter = some byte) : SkipsTo (backslash :: letter :: rest) last := by
  apply h.step (Nat.lt_succ_of_lt (Nat.lt_succ_self _))
  intro count
  simp only [skipBody, backslash_ne_quote, hletter, hescaped, Option.isSome_some, if_false, if_true]

theorem length_lt_of_readHex {unit : Nat} (h : readHex bytes = .ok (unit, rest)) :
    rest.length < bytes.length := by
  unfold readHex at h
  split at h
  · split at h
    · cases h
      simp only [List.length_cons]
      omega
    · cases h
  · cases h

theorem SkipsTo.hex {unit : Nat} {behind : Bytes} (h : SkipsTo rest last)
    (hread : readHex behind = .ok (unit, rest)) :
    SkipsTo (backslash :: ascii 'u' :: behind) last := by
  apply h.step
  · exact Nat.lt_succ_of_lt (Nat.lt_succ_of_lt (length_lt_of_readHex hread))
  · intro count
    simp only [skipBody, backslash_ne_quote, if_false, if_true, hread, ok_bind]

theorem readTrailing_eq_ok {unit : Nat} (h : readTrailing bytes = .ok (unit, rest)) :
    ∃ behind, bytes = backslash :: ascii 'u' :: behind ∧ readHex behind = .ok (unit, rest) := by
  unfold readTrailing at h
  split at h
  · cases h
  · rename_i byte behind
    by_cases hbyte : byte = backslash
    · rw [if_pos hbyte] at h
      split at h
      · cases h
      · rename_i letter behind
        by_cases hletter : letter = ascii 'u'
        · rw [if_pos hletter] at h
          exact ⟨behind, by rw [hbyte, hletter], h⟩
        · rw [if_neg hletter] at h
          cases h
    · rw [if_neg hbyte] at h
      cases h

-- A pair of surrogates is read as one escape, and skipped as two.
theorem SkipsTo.escape {piece : Bytes} (h : SkipsTo rest last)
    (hread : readEscape true bytes = .ok (piece, rest)) : SkipsTo (backslash :: bytes) last := by
  unfold readEscape at hread
  split at hread
  · cases hread
  · rename_i byte behind
    by_cases hletter : byte = ascii 'u'
    · rw [if_pos hletter] at hread
      obtain ⟨⟨unit, middle⟩, hhex, hread⟩ := bind_eq_ok.mp hread
      dsimp only at hread
      rw [hletter]
      by_cases hleading : isLeading unit = true
      · rw [if_pos hleading] at hread
        split at hread
        · rename_i next after htrailing
          obtain ⟨pair, rfl, hpair⟩ := readTrailing_eq_ok htrailing
          split at hread
          · obtain ⟨-, rfl⟩ := Prod.mk.inj (Except.ok.inj hread)
            exact (h.hex hpair).hex hhex
          · cases hread
        · cases hread
      · rw [if_neg hleading] at hread
        split at hread
        · cases hread
        · obtain ⟨-, rfl⟩ := Prod.mk.inj (Except.ok.inj hread)
          exact h.hex hhex
    · rw [if_neg hletter] at hread
      split at hread
      · rename_i escaped hescaped
        cases hread
        exact h.letter hletter hescaped
      · cases hread

theorem skipsTo_of_readBody {count : Nat} {value : Bytes}
    (h : readBody true count bytes = .ok (value, last)) : SkipsTo bytes last := by
  induction count generalizing bytes value with
  | zero => cases h
  | succ count ih =>
      cases bytes with
      | nil => cases h
      | cons byte behind =>
          simp only [readBody] at h
          by_cases hquote : byte = quote
          · rw [if_pos hquote] at h
            cases h
            rw [hquote]
            exact skipsTo_quote last
          · rw [if_neg hquote] at h
            by_cases hbackslash : byte = backslash
            · rw [if_pos hbackslash] at h
              obtain ⟨⟨piece, middle⟩, hescape, h⟩ := bind_eq_ok.mp h
              obtain ⟨⟨more, after⟩, hmore, h⟩ := bind_eq_ok.mp h
              cases h
              rw [hbackslash]
              exact (ih hmore).escape hescape
            · rw [if_neg hbackslash] at h
              by_cases hcontrol : byte < 0x20
              · rw [if_pos ⟨trivial, hcontrol⟩] at h
                cases h
              · rw [if_neg fun hc => hcontrol hc.2] at h
                obtain ⟨⟨more, after⟩, hmore, h⟩ := bind_eq_ok.mp h
                cases h
                exact (ih hmore).cons hquote hbackslash hcontrol

theorem skipsTo_of_readText {value : String} (h : readText bytes = .ok (value, last)) :
    SkipsTo bytes last := by
  obtain ⟨⟨body, rest⟩, hbody, h⟩ := bind_eq_ok.mp h
  dsimp only at h
  split at h
  · cases h
    exact skipsTo_of_readBody hbody
  · cases h

end Quoted

theorem readWord_eq_ok {word bytes rest : Bytes} (h : readWord word bytes = .ok rest) :
    bytes = word ++ rest := by
  induction word generalizing bytes with
  | nil =>
      cases h
      rfl
  | cons expected word ih =>
      cases bytes with
      | nil => cases h
      | cons byte bytes =>
          simp only [readWord] at h
          by_cases hbyte : byte = expected
          · rw [if_pos hbyte] at h
            rw [hbyte, ih h, List.cons_append]
          · rw [if_neg hbyte] at h
            cases h

theorem skipBlank_skipBlank (bytes : Bytes) : skipBlank (skipBlank bytes) = skipBlank bytes :=
  List.dropWhile_idempotent isBlank bytes

theorem length_skipBlank_le (bytes : Bytes) : (skipBlank bytes).length ≤ bytes.length :=
  (List.dropWhile_suffix _).length_le

theorem length_behind_lt {bytes behind : Bytes} {byte : UInt8}
    (h : skipBlank bytes = byte :: behind) : behind.length < bytes.length := by
  have hle := length_skipBlank_le bytes
  rwa [h] at hle

theorem skipValueIn_skipBlank (count : Nat) (around : List Bracket) (bytes : Bytes) :
    skipValueIn count around (skipBlank bytes) = skipValueIn count around bytes := by
  cases count with
  | zero => simp only [skipValueIn]
  | succ count => simp only [skipValueIn, skipBlank_skipBlank]

-- Skipping a value leads to the given rest, whatever brackets are open around it, and costs no more
-- than the bytes in front of that.
def Passed (bytes rest : Bytes) : Prop :=
  ∃ cost, cost + rest.length ≤ bytes.length ∧ ∀ count around,
    skipValueIn (count + cost) around bytes = skipRestOf count around rest

-- The same for what is left of a list or an object.
def Closed (bracket : Bracket) (bytes rest : Bytes) : Prop :=
  ∃ cost, cost + rest.length ≤ bytes.length ∧ ∀ count around,
    skipRestOf (count + cost) (bracket :: around) bytes = skipRestOf count around rest

-- What the reader takes as a value is passed by skipping it.
def Passes (read : Reader α) : Prop :=
  ∀ ⦃bytes value rest⦄, read bytes = .ok (value, rest) → Passed bytes rest

section Passed

variable {bytes behind rest : Bytes} {byte : UInt8}

theorem Passed.skipValue (h : Passed bytes rest) : skipValue bytes = .ok rest := by
  obtain ⟨cost, hcost, hskip⟩ := h
  have hcount : bytes.length + 1 = bytes.length + 1 - cost + cost := by omega
  rw [Text.skipValue, hcount, hskip, skipRestOf]

theorem Passed.of_skipBlank (h : Passed (skipBlank bytes) rest) : Passed bytes rest := by
  obtain ⟨cost, hcost, hskip⟩ := h
  refine ⟨cost, Nat.le_trans hcost (length_skipBlank_le bytes), ?_⟩
  intro count around
  rw [← skipValueIn_skipBlank, hskip]

theorem passed_scalar (hb : skipBlank bytes = byte :: behind) (hlist : byte ≠ openList)
    (hobject : byte ≠ openObject) (hscalar : skipScalar (byte :: behind) = .ok rest)
    (hle : rest.length ≤ behind.length) : Passed bytes rest := by
  have hbehind := length_behind_lt hb
  refine ⟨1, by omega, ?_⟩
  intro count around
  simp only [skipValueIn, hb, hlist, hobject, if_false, hscalar, ok_bind]

theorem passed_null (hb : skipBlank bytes = ascii 'n' :: behind)
    (hword : readWord nullWord (ascii 'n' :: behind) = .ok rest) : Passed bytes rest := by
  refine passed_scalar hb (by decide) (by decide) hword ?_
  have hbytes := congrArg List.length (readWord_eq_ok hword)
  have hnull : nullWord.length = 4 := rfl
  simp only [List.length_cons, List.length_append] at hbytes
  omega

theorem passed_text (hb : skipBlank bytes = quote :: behind) (hskip : Quoted.SkipsTo behind rest) :
    Passed bytes rest :=
  passed_scalar hb (by decide) (by decide) hskip.skip (Nat.le_of_lt hskip.1)

end Passed

section Closed

variable {bracket : Bracket} {bytes behind rest : Bytes}

theorem closeBracket_eq_ok (h : closeBracket bracket bytes = .ok rest) :
    skipBlank bytes = bracket.closing :: rest := by
  unfold closeBracket at h
  split at h
  · cases h
  · rename_i byte behind hb
    by_cases hclose : byte = bracket.closing
    · rw [if_pos hclose] at h
      cases h
      rw [hb, hclose]
    · rw [if_neg hclose] at h
      cases h

theorem closed_of_closeBracket (h : closeBracket bracket bytes = .ok rest) :
    Closed bracket bytes rest := by
  have hb := closeBracket_eq_ok h
  have hless := length_behind_lt hb
  refine ⟨1, by omega, ?_⟩
  intro count around
  exact skipRestOf_closing count bracket around hb

-- The next element of a list, and what is left of the list behind it.
theorem Closed.element {middle : Bytes} (hb : skipBlank bytes = comma :: behind)
    (hvalue : Passed (skipBlank behind) middle) (hclosed : Closed .list middle rest) :
    Closed .list bytes rest := by
  obtain ⟨cost, hcost, hskip⟩ := hvalue.of_skipBlank
  obtain ⟨more, hmore, hskips⟩ := hclosed
  have hbehind := length_behind_lt hb
  refine ⟨more + cost + 1, by omega, ?_⟩
  intro count around
  have hcount : count + (more + cost + 1) = count + more + cost + 1 := by omega
  rw [hcount, ← hskips, ← hskip]
  simp only [skipRestOf, hb, if_true]

-- The next member of an object likewise, whose name is skipped in front of its value.
theorem Closed.member {value middle : Bytes} (hb : skipBlank bytes = comma :: behind)
    (hname : skipName behind = .ok value) (hless : value.length < behind.length)
    (hvalue : Passed value middle) (hclosed : Closed .object middle rest) :
    Closed .object bytes rest := by
  obtain ⟨cost, hcost, hskip⟩ := hvalue
  obtain ⟨more, hmore, hskips⟩ := hclosed
  have hbehind := length_behind_lt hb
  refine ⟨more + cost + 1, by omega, ?_⟩
  intro count around
  have hcount : count + (more + cost + 1) = count + more + cost + 1 := by omega
  rw [hcount, ← hskips, ← hskip]
  simp only [skipRestOf, hb, if_true, hname, ok_bind]

end Closed

section Sequence

variable {bytes next rest : Bytes}

theorem nextElement_first_eq_ok (h : nextElement true bytes = .ok (some next)) :
    ∃ byte behind, skipBlank bytes = next ∧ next = byte :: behind ∧ byte ≠ closeList := by
  unfold nextElement at h
  split at h
  · cases h
  · rename_i byte behind hb
    by_cases hclose : byte = closeList
    · rw [if_pos hclose] at h
      cases h
    · rw [if_neg hclose, if_pos rfl] at h
      cases h
      exact ⟨byte, behind, hb, rfl, hclose⟩

theorem nextElement_next_eq_ok (h : nextElement false bytes = .ok (some next)) :
    ∃ behind, skipBlank bytes = comma :: behind ∧ skipBlank behind = next := by
  unfold nextElement at h
  split at h
  · cases h
  · rename_i byte behind hb
    by_cases hclose : byte = closeList
    · rw [if_pos hclose] at h
      cases h
    · rw [if_neg hclose, if_neg Bool.false_ne_true] at h
      by_cases hcomma : byte = comma
      · rw [if_pos hcomma] at h
        rw [hcomma] at hb
        split at h
        · cases h
        · rename_i other after ha
          split at h
          · cases h
          · cases h
            exact ⟨behind, hb, ha⟩
      · rw [if_neg hcomma] at h
        cases h

theorem nextName_first_eq_ok (h : nextName true bytes = .ok (some next)) :
    skipBlank bytes = quote :: next := by
  unfold nextName at h
  split at h
  · cases h
  · rename_i byte behind hb
    by_cases hclose : byte = closeObject
    · rw [if_pos hclose] at h
      cases h
    · rw [if_neg hclose, if_pos rfl] at h
      by_cases hquote : byte = quote
      · rw [if_pos hquote] at h
        cases h
        rw [hb, hquote]
      · rw [if_neg hquote] at h
        cases h

theorem nextName_next_eq_ok (h : nextName false bytes = .ok (some next)) :
    ∃ behind, skipBlank bytes = comma :: behind ∧ skipBlank behind = quote :: next := by
  unfold nextName at h
  split at h
  · cases h
  · rename_i byte behind hb
    by_cases hclose : byte = closeObject
    · rw [if_pos hclose] at h
      cases h
    · rw [if_neg hclose, if_neg Bool.false_ne_true] at h
      by_cases hcomma : byte = comma
      · rw [if_pos hcomma] at h
        rw [hcomma] at hb
        split at h
        · cases h
        · rename_i other after ha
          by_cases hquote : other = quote
          · rw [if_pos hquote] at h
            cases h
            rw [hquote] at ha
            exact ⟨behind, hb, ha⟩
          · rw [if_neg hquote] at h
            cases h
      · rw [if_neg hcomma] at h
        cases h

theorem length_readColon (h : readColon bytes = .ok rest) : rest.length < bytes.length := by
  unfold readColon at h
  split at h
  · cases h
  · rename_i byte behind hb
    split at h
    · cases h
      exact length_behind_lt hb
    · cases h

-- A name that was read up to the colon behind it is skipped up to there.
theorem skipName_of_readText {behind value : Bytes} {name : String}
    (hb : skipBlank bytes = quote :: behind) (hname : Quoted.readText behind = .ok (name, rest))
    (hcolon : readColon rest = .ok value) :
    skipName bytes = .ok value ∧ value.length < bytes.length := by
  have hskip := Quoted.skipsTo_of_readText hname
  have hbehind := length_behind_lt hb
  have hless := hskip.1
  have hvalue := length_readColon hcolon
  constructor
  · simp only [skipName, hb, if_true, hskip.skip, ok_bind, hcolon]
  · omega

variable {element : σ → Reader σ} {count : Nat} {state last : σ}

-- The elements behind the first one, up to the end of the list.
theorem closed_of_readElementsFrom (h : ∀ state, Passes (element state))
    (hread : readElementsFrom element count false state bytes = .ok (last, rest)) :
    Closed .list bytes rest := by
  induction count generalizing state bytes with
  | zero => cases hread
  | succ count ih =>
      obtain ⟨found, hnext, hread⟩ := bind_eq_ok.mp hread
      cases found with
      | none =>
          obtain ⟨behind, hclose, hread⟩ := bind_eq_ok.mp hread
          cases hread
          exact closed_of_closeBracket hclose
      | some next =>
          obtain ⟨⟨state, middle⟩, helement, hrest⟩ := bind_eq_ok.mp hread
          obtain ⟨behind, hb, rfl⟩ := nextElement_next_eq_ok hnext
          exact (ih hrest).element hb (h _ helement)

-- What reads a member passes its value, from the colon on.
def PassesMember (member : String → σ → Reader σ) : Prop :=
  ∀ ⦃name state bytes next rest⦄, member name state bytes = .ok (next, rest) →
    ∃ value, readColon bytes = .ok value ∧ Passed value rest

theorem closed_of_readMembersFrom {member : String → σ → Reader σ} (h : PassesMember member)
    (hread : readMembersFrom member count false state bytes = .ok (last, rest)) :
    Closed .object bytes rest := by
  induction count generalizing state bytes with
  | zero => cases hread
  | succ count ih =>
      obtain ⟨found, hnext, hread⟩ := bind_eq_ok.mp hread
      cases found with
      | none =>
          obtain ⟨behind, hclose, hread⟩ := bind_eq_ok.mp hread
          cases hread
          exact closed_of_closeBracket hclose
      | some next =>
          obtain ⟨⟨name, colon⟩, hname, hread⟩ := bind_eq_ok.mp hread
          obtain ⟨⟨state, middle⟩, hmember, hrest⟩ := bind_eq_ok.mp hread
          obtain ⟨behind, hb, hquote⟩ := nextName_next_eq_ok hnext
          obtain ⟨value, hcolon, hvalue⟩ := h hmember
          obtain ⟨hskip, hless⟩ := skipName_of_readText hquote hname hcolon
          exact (ih hrest).member hb hskip hless hvalue

theorem passed_of_readElements (h : ∀ state, Passes (element state)) {behind : Bytes}
    (hb : skipBlank bytes = openList :: behind)
    (hread : readElements element state behind = .ok (last, rest)) : Passed bytes rest := by
  have hbehind := length_behind_lt hb
  obtain ⟨found, hnext, hread⟩ := bind_eq_ok.mp hread
  cases found with
  | none =>
      obtain ⟨after, hclose, hread⟩ := bind_eq_ok.mp hread
      cases hread
      have hend := closeBracket_eq_ok hclose
      have hless := length_behind_lt hend
      refine ⟨1, by omega, ?_⟩
      intro count around
      rw [skipValueIn_list count around hb hend]
      exact if_pos rfl
  | some next =>
      obtain ⟨⟨state, middle⟩, helement, hrest⟩ := bind_eq_ok.mp hread
      obtain ⟨byte, body, hbody, rfl, hclose⟩ := nextElement_first_eq_ok hnext
      have hvalue := h _ helement
      rw [← hbody] at hvalue
      obtain ⟨cost, hcost, hskip⟩ := hvalue.of_skipBlank
      obtain ⟨more, hmore, hskips⟩ := closed_of_readElementsFrom h hrest
      refine ⟨more + cost + 1, by omega, ?_⟩
      intro count around
      have hcount : count + (more + cost + 1) = count + more + cost + 1 := by omega
      rw [hcount, skipValueIn_list _ around hb hbody, if_neg hclose, hskip, hskips]

theorem passed_of_readMembers {member : String → σ → Reader σ} (h : PassesMember member)
    {behind : Bytes} (hb : skipBlank bytes = openObject :: behind)
    (hread : readMembers member state behind = .ok (last, rest)) : Passed bytes rest := by
  have hbehind := length_behind_lt hb
  obtain ⟨found, hnext, hread⟩ := bind_eq_ok.mp hread
  cases found with
  | none =>
      obtain ⟨after, hclose, hread⟩ := bind_eq_ok.mp hread
      cases hread
      have hend : skipBlank behind = closeObject :: rest := closeBracket_eq_ok hclose
      have hless := length_behind_lt hend
      refine ⟨1, by omega, ?_⟩
      intro count around
      simp only [skipValueIn, hb, hend, openObject_ne_openList, if_false, if_true]
  | some next =>
      obtain ⟨⟨name, colon⟩, hname, hread⟩ := bind_eq_ok.mp hread
      obtain ⟨⟨state, middle⟩, hmember, hrest⟩ := bind_eq_ok.mp hread
      have hquote := nextName_first_eq_ok hnext
      obtain ⟨value, hcolon, cost, hcost, hskip⟩ := h hmember
      obtain ⟨hskipName, hless⟩ := skipName_of_readText hquote hname hcolon
      obtain ⟨more, hmore, hskips⟩ := closed_of_readMembersFrom h hrest
      refine ⟨more + cost + 1, by omega, ?_⟩
      intro count around
      have hcount : count + (more + cost + 1) = count + more + cost + 1 := by omega
      rw [hcount, ← hskips, ← hskip]
      simp only [skipValueIn, hb, hquote, openObject_ne_openList, quote_ne_closeObject, if_false,
        if_true, hskipName, ok_bind]

end Sequence

theorem readBy_eq_ok {choose : UInt8 → Option (Reader α)} {bytes rest : Bytes} {value : α}
    (h : readBy choose bytes = .ok (value, rest)) :
    ∃ byte behind read, skipBlank bytes = byte :: behind ∧ choose byte = some read ∧
      read (byte :: behind) = .ok (value, rest) := by
  unfold readBy at h
  split at h
  · cases h
  · rename_i byte behind hb
    cases hchoose : choose byte with
    | none =>
        rw [hchoose] at h
        cases h
    | some read =>
        rw [hchoose] at h
        exact ⟨byte, behind, read, hb, hchoose, h⟩

-- The same bytes, read as another value.
theorem Passes.map {read : Reader α} (h : Passes read) (change : α → β) :
    Passes fun bytes => (read bytes).map fun result => (change result.1, result.2) := by
  intro bytes value rest hread
  obtain ⟨⟨first, behind⟩, hfirst, hvalue⟩ := map_eq_ok.mp hread
  cases hvalue
  exact h hfirst

namespace Form

theorem text_passes : Passes text.read := by
  intro bytes value rest h
  obtain ⟨byte, behind, read, hb, hchoose, hread⟩ := readBy_eq_ok h
  by_cases hquote : byte = quote
  · rw [if_pos hquote] at hchoose
    cases hchoose
    rw [hquote] at hb
    exact passed_text hb (Quoted.skipsTo_of_readText hread)
  · rw [if_neg hquote] at hchoose
    cases hchoose

variable {form : Form α}

theorem listOf_passes (h : Passes form.read) : Passes (listOf form).read := by
  intro bytes value rest hlist
  obtain ⟨byte, behind, read, hb, hchoose, hread⟩ := readBy_eq_ok hlist
  by_cases hopen : byte = openList
  · rw [if_pos hopen] at hchoose
    cases hchoose
    rw [hopen] at hb
    obtain ⟨⟨values, after⟩, helements, hvalue⟩ := bind_eq_ok.mp hread
    cases hvalue
    refine passed_of_readElements ?_ hb helements
    intro state bytes next rest helement
    obtain ⟨⟨first, middle⟩, hfirst, hnext⟩ := bind_eq_ok.mp helement
    cases hnext
    exact h hfirst
  · rw [if_neg hopen] at hchoose
    cases hchoose

theorem mapOf_passes (h : Passes form.read) : Passes (mapOf form).read := by
  intro bytes value rest hmap
  obtain ⟨byte, behind, read, hb, hchoose, hread⟩ := readBy_eq_ok hmap
  by_cases hopen : byte = openObject
  · rw [if_pos hopen] at hchoose
    cases hchoose
    rw [hopen] at hb
    refine passed_of_readMembers ?_ hb hread
    intro name state bytes next rest hmember
    obtain ⟨value, hcolon, hmember⟩ := bind_eq_ok.mp hmember
    obtain ⟨⟨first, middle⟩, hfirst, hnext⟩ := bind_eq_ok.mp hmember
    cases hnext
    exact ⟨value, hcolon, h hfirst⟩
  · rw [if_neg hopen] at hchoose
    cases hchoose

theorem optional_passes (h : Passes form.read) : Passes (optional form).read := by
  intro bytes value rest hoptional
  unfold optional at hoptional
  dsimp only at hoptional
  split at hoptional
  · cases hoptional
  · rename_i byte behind hb
    by_cases hnull : byte = ascii 'n'
    · rw [if_pos hnull] at hoptional
      obtain ⟨after, hword, hvalue⟩ := map_eq_ok.mp hoptional
      cases hvalue
      rw [hnull] at hb hword
      exact passed_null hb hword
    · rw [if_neg hnull] at hoptional
      have hpassed := h.map some hoptional
      rw [← hb] at hpassed
      exact hpassed.of_skipBlank

theorem nullAs_passes (h : Passes form.read) (value : α) : Passes (nullAs value form).read :=
  (optional_passes h).map fun result => result.getD value

end Form

end TableHistory.Text
