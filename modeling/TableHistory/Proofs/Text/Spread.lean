import TableHistory.Proofs.Run
import TableHistory.Proofs.Text.Number
import TableHistory.Proofs.Text.Spelling
import TableHistory.Text.Sequence

namespace TableHistory.Text

variable {α σ : Type}

theorem skipBlank_cons {byte : UInt8} (h : isBlank byte = false) (rest : Bytes) :
    skipBlank (byte :: rest) = byte :: rest := by
  simp [skipBlank, h]

theorem skipBlank_quote (rest : Bytes) : skipBlank (quote :: rest) = quote :: rest :=
  skipBlank_cons (by decide) rest

theorem skipBlank_comma (rest : Bytes) : skipBlank (comma :: rest) = comma :: rest :=
  skipBlank_cons (by decide) rest

theorem skipBlank_colon (rest : Bytes) : skipBlank (colon :: rest) = colon :: rest :=
  skipBlank_cons (by decide) rest

theorem skipBlank_close (bracket : Bracket) (rest : Bytes) :
    skipBlank (bracket.closing :: rest) = bracket.closing :: rest := by
  cases bracket with
  | list => exact skipBlank_cons (by decide) rest
  | object => exact skipBlank_cons (by decide) rest

theorem comma_ne_closing (bracket : Bracket) : comma ≠ bracket.closing := by
  cases bracket <;> decide

theorem quote_ne_closeObject : quote ≠ closeObject := by decide

def Blank (bytes : Bytes) : Prop := ∀ byte ∈ bytes, isBlank byte = true

instance (bytes : Bytes) : Decidable (Blank bytes) :=
  decidable_of_iff (bytes.all isBlank = true) List.all_eq_true

namespace Blank

variable {blanks : Bytes}

theorem nil : Blank [] := nofun

theorem skipBlank (h : Blank blanks) (rest : Bytes) :
    skipBlank (blanks ++ rest) = Text.skipBlank rest :=
  List.dropWhile_append_of_pos h

theorem skipBlank_self (h : Blank blanks) : Text.skipBlank blanks = [] := by
  have hskip := h.skipBlank []
  rwa [List.append_nil] at hskip

theorem left {more : Bytes} (h : Blank (blanks ++ more)) : Blank blanks :=
  fun byte hb => h byte (List.mem_append_left _ hb)

theorem skipBlank_close (h : Blank blanks) (bracket : Bracket) (rest : Bytes) :
    Text.skipBlank (blanks ++ [bracket.closing] ++ rest) = bracket.closing :: rest := by
  rw [List.append_assoc, h.skipBlank]
  exact Text.skipBlank_close bracket rest

theorem skipBlank_comma (h : Blank blanks) (behind : Bytes) :
    Text.skipBlank (blanks ++ comma :: behind) = comma :: behind := by
  rw [h.skipBlank, Text.skipBlank_comma]

-- The comma in front of the next item.
theorem skipBlank_next (h : Blank blanks) (after item behind rest : Bytes) :
    Text.skipBlank (blanks ++ comma :: (after ++ (item ++ behind)) ++ rest) =
      comma :: (after ++ (item ++ (behind ++ rest))) := by
  rw [List.append_assoc, List.cons_append, h.skipBlank_comma, List.append_assoc, List.append_assoc]

-- A number ends in front of blanks as in front of what is behind them.
theorem ended (h : Blank blanks) {rest : Bytes} (hr : Number.Ended rest) :
    Number.Ended (blanks ++ rest) := by
  cases blanks with
  | nil => exact hr
  | cons byte blanks =>
      have hblank := h byte List.mem_cons_self
      apply Number.ended_cons
      simp only [isBlank, Bool.or_eq_true, decide_eq_true_eq] at hblank
      rcases hblank with ((rfl | rfl) | rfl) | rfl <;> decide

end Blank

theorem ended_comma (rest : Bytes) : Number.Ended (comma :: rest) :=
  Number.ended_cons _ (by decide)

theorem ended_close (bracket : Bracket) (rest : Bytes) :
    Number.Ended (bracket.closing :: rest) := by
  cases bracket with
  | list => exact Number.ended_cons _ (by decide)
  | object => exact Number.ended_cons _ (by decide)

-- Bytes that begin like a value, with neither a blank nor the end of a list.
def Begins (bytes : Bytes) : Prop :=
  ∃ byte rest, bytes = byte :: rest ∧ isBlank byte = false ∧ byte ≠ closeList

theorem Begins.skipBlank {bytes : Bytes} (h : Begins bytes) (rest : Bytes) :
    skipBlank (bytes ++ rest) = bytes ++ rest := by
  obtain ⟨byte, more, rfl, hb, _⟩ := h
  exact skipBlank_cons hb (more ++ rest)

theorem Begins.ne_nil {bytes : Bytes} (h : Begins bytes) : bytes ≠ [] := by
  obtain ⟨byte, rest, rfl, _⟩ := h
  exact List.cons_ne_nil byte rest

-- The reader takes the bytes as the value, behind any blanks and in front of anything that does not
-- go on with a number.
structure Takes (read : Reader α) (bytes : Bytes) (value : α) : Prop where
  begins : Begins bytes
  takes : ∀ text rest, skipBlank text = bytes ++ rest → Number.Ended rest →
    read text = .ok (value, rest)

theorem Takes.behind {read : Reader α} {bytes blanks : Bytes} {value : α}
    (h : Takes read bytes value) (hb : Blank blanks) {rest : Bytes} (hr : Number.Ended rest) :
    read (blanks ++ (bytes ++ rest)) = .ok (value, rest) := by
  apply h.takes _ rest _ hr
  rw [hb.skipBlank, h.begins.skipBlank]

theorem Takes.front {read : Reader α} {bytes : Bytes} {value : α} (h : Takes read bytes value)
    {rest : Bytes} (hr : Number.Ended rest) : read (bytes ++ rest) = .ok (value, rest) :=
  h.takes _ rest (h.begins.skipBlank rest) hr

-- What stands behind an item of a list or an object: the other items, a comma in front of each, and
-- the closing bracket.
inductive Behind (bracket : Bracket) : List Bytes → Bytes → Prop
  | close {blanks : Bytes} (hb : Blank blanks) : Behind bracket [] (blanks ++ [bracket.closing])
  | next {before after item rest : Bytes} {items : List Bytes} (hb : Blank before)
      (ha : Blank after) (hrest : Behind bracket items rest) :
      Behind bracket (item :: items) (before ++ comma :: (after ++ (item ++ rest)))

-- What stands behind the opening bracket.
inductive Spread (bracket : Bracket) : List Bytes → Bytes → Prop
  | empty {blanks : Bytes} (hb : Blank blanks) : Spread bracket [] (blanks ++ [bracket.closing])
  | first {blanks item rest : Bytes} {items : List Bytes} (hb : Blank blanks)
      (hrest : Behind bracket items rest) :
      Spread bracket (item :: items) (blanks ++ (item ++ rest))

namespace Behind

variable {bracket : Bracket} {items : List Bytes} {bytes : Bytes}

theorem ended (h : Behind bracket items bytes) (rest : Bytes) : Number.Ended (bytes ++ rest) := by
  cases h with
  | close hb =>
      rw [List.append_assoc]
      exact hb.ended (ended_close bracket rest)
  | next hb =>
      rw [List.append_assoc]
      exact hb.ended (ended_comma _)

theorem length_lt (h : Behind bracket items bytes) : items.length < bytes.length := by
  induction h with
  | close => simp
  | next _ _ _ ih =>
      simp only [List.length_cons, List.length_append]
      omega

end Behind

theorem nextElement_end {bytes rest : Bytes} (first : Bool)
    (h : skipBlank bytes = closeList :: rest) : nextElement first bytes = .ok none := by
  simp only [nextElement, h, if_true]

theorem nextElement_first {bytes item rest : Bytes} (h : Begins item)
    (hb : skipBlank bytes = item ++ rest) :
    nextElement true bytes = .ok (some (item ++ rest)) := by
  obtain ⟨byte, more, rfl, _, hclose⟩ := h
  rw [List.cons_append] at hb
  simp only [nextElement, hb, List.cons_append, hclose, if_false, if_true]

theorem nextElement_next {bytes behind item rest : Bytes} (h : Begins item)
    (hcomma : skipBlank bytes = comma :: behind) (hb : skipBlank behind = item ++ rest) :
    nextElement false bytes = .ok (some (item ++ rest)) := by
  obtain ⟨byte, more, rfl, _, hclose⟩ := h
  have hne : comma ≠ closeList := comma_ne_closing .list
  rw [List.cons_append] at hb
  simp only [nextElement, hcomma, hb, List.cons_append, hclose, hne, if_false, if_true,
    Bool.false_eq_true]

theorem closeBracket_end {bracket : Bracket} {bytes rest : Bytes}
    (h : skipBlank bytes = bracket.closing :: rest) : closeBracket bracket bytes = .ok rest := by
  simp only [closeBracket, h, if_true]

-- What an element does to the state.
def ItemStep (element : σ → Reader σ) (item : Bytes) (old new : σ) : Prop :=
  Takes (element old) item new

section Elements

variable {element : σ → Reader σ} {items : List Bytes} {bytes : Bytes} {old new : σ}

theorem readElementsFrom_behind (hs : Behind .list items bytes)
    (h : Run (ItemStep element) items old new) (rest : Bytes) (count : Nat)
    (hc : items.length < count) :
    readElementsFrom element count false old (bytes ++ rest) = .ok (new, rest) := by
  induction hs generalizing old count with
  | @close blanks hb =>
      obtain ⟨count, rfl⟩ : ∃ n, count = n + 1 := ⟨count - 1, by omega⟩
      cases Run.nil_iff.mp h
      have hblank := hb.skipBlank_close .list rest
      have hend := nextElement_end false hblank
      have hclose := closeBracket_end hblank
      simp only [readElementsFrom, hend, ok_bind, hclose, pure_eq_ok]
  | @next before after item behind items hb ha hbehind ih =>
      obtain ⟨count, rfl⟩ : ∃ n, count = n + 1 := ⟨count - 1, by omega⟩
      cases h with
      | cons hstep hrest =>
          have hshort : items.length < count := by simpa using hc
          have hcomma := hb.skipBlank_next after item behind rest
          have hitem : skipBlank (after ++ (item ++ (behind ++ rest))) =
              item ++ (behind ++ rest) := by
            rw [ha.skipBlank, hstep.begins.skipBlank]
          have hread := hstep.front (hbehind.ended rest)
          simp only [readElementsFrom, nextElement_next hstep.begins hcomma hitem, ok_bind, hread,
            ih hrest count hshort]

-- A list is read as the run along its elements says.
theorem readElements_spread (hs : Spread .list items bytes)
    (h : Run (ItemStep element) items old new) (rest : Bytes) :
    readElements element old (bytes ++ rest) = .ok (new, rest) := by
  cases hs with
  | @empty blanks hb =>
      cases Run.nil_iff.mp h
      have hblank := hb.skipBlank_close .list rest
      have hend := nextElement_end true hblank
      have hclose := closeBracket_end hblank
      simp only [readElements, readElementsFrom, hend, ok_bind, hclose, pure_eq_ok]
  | @first blanks item behind items hb hbehind =>
      cases h with
      | cons hstep hrest =>
          have hitem : skipBlank (blanks ++ (item ++ behind) ++ rest) =
              item ++ (behind ++ rest) := by
            rw [List.append_assoc, hb.skipBlank, List.append_assoc, hstep.begins.skipBlank]
          have hread := hstep.front (hbehind.ended rest)
          have hlength := hbehind.length_lt
          have hcount : items.length < (blanks ++ (item ++ behind) ++ rest).length := by
            simp only [List.length_append]
            omega
          simp only [readElements, readElementsFrom, nextElement_first hstep.begins hitem, ok_bind,
            hread, readElementsFrom_behind hbehind hrest rest _ hcount]

end Elements

-- A member of an object: how its name is spelled behind the opening quote, and its value, with
-- blanks on both sides of the colon.
structure Spaced where
  spelling : Bytes
  gap : Bytes
  gap_blank : Blank gap
  margin : Bytes
  margin_blank : Blank margin
  value : Bytes

namespace Spaced

def behindName (member : Spaced) : Bytes :=
  member.gap ++ colon :: (member.margin ++ member.value)

def bytes (member : Spaced) : Bytes := quote :: (member.spelling ++ member.behindName)

variable (member : Spaced)

theorem length_value_lt : member.value.length < member.bytes.length := by
  simp only [bytes, behindName, List.length_cons, List.length_append]
  omega

theorem skipBlank_bytes {blanks : Bytes} (h : Blank blanks) (rest : Bytes) :
    skipBlank (blanks ++ (member.bytes ++ rest)) = quote :: (member.spelling ++
      (member.gap ++ colon :: (member.margin ++ (member.value ++ rest)))) := by
  rw [h.skipBlank, bytes, behindName, List.cons_append, skipBlank_quote]
  simp only [List.append_assoc, List.cons_append]

theorem skipBlank_value (h : Begins member.value) (rest : Bytes) :
    skipBlank (member.margin ++ (member.value ++ rest)) = member.value ++ rest := by
  rw [member.margin_blank.skipBlank, h.skipBlank]

end Spaced

-- A member with the name that its spelling stands for.
structure Named extends Spaced where
  name : String
  spells : Quoted.Spells (Utf8.encode name) spelling

namespace Named

def bytes (member : Named) : Bytes := member.toSpaced.bytes

def behindName (member : Named) : Bytes := member.toSpaced.behindName

theorem bytes_eq (member : Named) :
    member.bytes = quote :: (member.spelling ++ member.behindName) := rfl

end Named

theorem Spread.spaced {bracket : Bracket} {members : List Named} {bytes : Bytes}
    (h : Spread bracket (members.map Named.bytes) bytes) :
    Spread bracket ((members.map Named.toSpaced).map Spaced.bytes) bytes := by
  rw [List.map_map]
  exact h

theorem readColon_behind {gap : Bytes} (h : Blank gap) (rest : Bytes) :
    readColon (gap ++ colon :: rest) = .ok rest := by
  have hcolon : skipBlank (gap ++ colon :: rest) = colon :: rest := by
    rw [h.skipBlank, skipBlank_colon]
  unfold readColon
  simp only [hcolon, if_true]

theorem nextName_end {bytes rest : Bytes} (first : Bool)
    (h : skipBlank bytes = closeObject :: rest) : nextName first bytes = .ok none := by
  simp only [nextName, h, if_true]

theorem nextName_first {bytes rest : Bytes} (h : skipBlank bytes = quote :: rest) :
    nextName true bytes = .ok (some rest) := by
  simp only [nextName, h, quote_ne_closeObject, if_false, if_true]

theorem nextName_next {bytes behind rest : Bytes} (hcomma : skipBlank bytes = comma :: behind)
    (h : skipBlank behind = quote :: rest) : nextName false bytes = .ok (some rest) := by
  have hne : comma ≠ closeObject := comma_ne_closing .object
  simp only [nextName, hcomma, h, hne, if_false, if_true, Bool.false_eq_true]

-- What a member does to the state, from behind its name on.
def NamedStep (member : String → σ → Reader σ) (item : Named) (old new : σ) : Prop :=
  ∀ rest, Number.Ended rest → member item.name old (item.behindName ++ rest) = .ok (new, rest)

section Members

variable {member : String → σ → Reader σ} {items : List Named} {bytes : Bytes} {old new : σ}

theorem readMembersFrom_behind (hs : Behind .object (items.map Named.bytes) bytes)
    (h : Run (NamedStep member) items old new) (rest : Bytes) (count : Nat)
    (hc : items.length < count) :
    readMembersFrom member count false old (bytes ++ rest) = .ok (new, rest) := by
  induction h generalizing bytes count with
  | nil state =>
      obtain ⟨count, rfl⟩ : ∃ n, count = n + 1 := ⟨count - 1, by omega⟩
      cases hs with
      | @close blanks hb =>
          have hblank := hb.skipBlank_close .object rest
          have hend := nextName_end false hblank
          have hclose := closeBracket_end hblank
          simp only [readMembersFrom, hend, ok_bind, hclose, pure_eq_ok]
  | @cons item items old middle new hstep _ ih =>
      obtain ⟨count, rfl⟩ : ∃ n, count = n + 1 := ⟨count - 1, by omega⟩
      have hshort : items.length < count := by simpa using hc
      cases hs with
      | @next before after _ behind _ hb ha hbehind =>
          have hcomma := hb.skipBlank_next after item.bytes behind rest
          have hname : skipBlank (after ++ (item.bytes ++ (behind ++ rest))) =
              quote :: (item.spelling ++ (item.behindName ++ (behind ++ rest))) := by
            rw [ha.skipBlank, item.bytes_eq, List.cons_append, skipBlank_quote, List.append_assoc]
          have hread := hstep (behind ++ rest) (hbehind.ended rest)
          simp only [readMembersFrom, nextName_next hcomma hname, ok_bind, item.spells.readText,
            hread, ih hbehind count hshort]

-- An object is read as the run along its members says.
theorem readMembers_spread (hs : Spread .object (items.map Named.bytes) bytes)
    (h : Run (NamedStep member) items old new) (rest : Bytes) :
    readMembers member old (bytes ++ rest) = .ok (new, rest) := by
  cases h with
  | nil state =>
      cases hs with
      | @empty blanks hb =>
          have hblank := hb.skipBlank_close .object rest
          have hend := nextName_end true hblank
          have hclose := closeBracket_end hblank
          simp only [readMembers, readMembersFrom, hend, ok_bind, hclose, pure_eq_ok]
  | @cons item items old middle new hstep hrest =>
      cases hs with
      | @first blanks _ behind _ hb hbehind =>
          have hname : skipBlank (blanks ++ (item.bytes ++ behind) ++ rest) =
              quote :: (item.spelling ++ (item.behindName ++ (behind ++ rest))) := by
            rw [List.append_assoc, hb.skipBlank, item.bytes_eq, List.cons_append, List.cons_append,
              skipBlank_quote]
            simp only [List.append_assoc]
          have hread := hstep (behind ++ rest) (hbehind.ended rest)
          have hlength := hbehind.length_lt
          have hcount : items.length < (blanks ++ (item.bytes ++ behind) ++ rest).length := by
            rw [List.length_map] at hlength
            simp only [List.length_append]
            omega
          simp only [readMembers, readMembersFrom, nextName_first hname, ok_bind,
            item.spells.readText, hread, readMembersFrom_behind hbehind hrest rest _ hcount]

end Members

end TableHistory.Text
