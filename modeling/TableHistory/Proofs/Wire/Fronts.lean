import TableHistory.Proofs.Wire.Reading

namespace TableHistory.Wire

variable {α β σ : Type}

-- The reader takes the value off the front, whatever stands behind it.
def Takes (read : Reader α) (front : Bytes) (value : α) : Prop :=
  ∀ rest, read (front ++ rest) = .ok (value, rest)

-- All values that the reader can give it takes off a front.
def TakesFront (read : Reader α) : Prop :=
  ∀ ⦃bytes value rest⦄, read bytes = .ok (value, rest) →
    ∃ front, bytes = front ++ rest ∧ Takes read front value

-- The same for what only skips.
def Drops (skip : Bytes → Except Fault Bytes) (front : Bytes) : Prop :=
  ∀ rest, skip (front ++ rest) = .ok rest

def DropsFront (skip : Bytes → Except Fault Bytes) : Prop :=
  ∀ ⦃bytes rest⦄, skip bytes = .ok rest → ∃ front, bytes = front ++ rest ∧ Drops skip front

namespace TakesFront

theorem pure (value : α) : TakesFront fun bytes => .ok (value, bytes) := by
  intro bytes result rest h
  cases h
  exact ⟨[], rfl, fun _ => rfl⟩

theorem fail (cause : Cause) : TakesFront fun _ => (Wire.fail cause : Except Fault (α × Bytes)) :=
  nofun

theorem bind {read : Reader α} {next : α → Reader β} (h : TakesFront read)
    (hn : ∀ value, TakesFront (next value)) :
    TakesFront (fun bytes => do
      let (value, rest) ← read bytes
      next value rest) := by
  intro bytes result rest hr
  obtain ⟨⟨value, middle⟩, hread, hnext⟩ := bind_eq_ok.mp hr
  obtain ⟨front, rfl, hfront⟩ := h hread
  obtain ⟨behind, rfl, hbehind⟩ := hn value hnext
  refine ⟨front ++ behind, (List.append_assoc ..).symm, ?_⟩
  intro more
  simp only [List.append_assoc, hfront (behind ++ more), ok_bind, hbehind more]

theorem skip {read : Reader α} {skip : α → Bytes → Except Fault Bytes} (h : TakesFront read)
    (hs : ∀ value, DropsFront (skip value)) :
    DropsFront (fun bytes => do
      let (value, rest) ← read bytes
      skip value rest) := by
  intro bytes rest hr
  obtain ⟨⟨value, middle⟩, hread, hskip⟩ := bind_eq_ok.mp hr
  obtain ⟨front, rfl, hfront⟩ := h hread
  obtain ⟨behind, rfl, hbehind⟩ := hs value hskip
  refine ⟨front ++ behind, (List.append_assoc ..).symm, ?_⟩
  intro more
  simp only [List.append_assoc, hfront (behind ++ more), ok_bind, hbehind more]

end TakesFront

theorem DropsFront.give {skip : Bytes → Except Fault Bytes} (h : DropsFront skip) (value : α) :
    TakesFront fun bytes => do return (value, ← skip bytes) := by
  intro bytes result rest hr
  obtain ⟨middle, hskip, hresult⟩ := bind_eq_ok.mp hr
  cases hresult
  obtain ⟨front, rfl, hfront⟩ := h hskip
  refine ⟨front, rfl, ?_⟩
  intro more
  simp only [hfront more, ok_bind, pure_eq_ok]

-- Nothing is taken where there is nothing to take.
theorem Takes.front_ne_nil {read : Reader α} {front : Bytes} {value : α}
    (h : Takes read front value) (hnil : ∀ result, read [] ≠ .ok result) : front ≠ [] := by
  rintro rfl
  exact hnil _ (h [])

namespace Varint

theorem decode?_front {places : Nat} {bytes rest : Bytes} {number : Nat}
    (h : decode? places bytes = some (number, rest)) :
    ∃ front, bytes = front ++ rest ∧
      ∀ more, decode? places (front ++ more) = some (number, more) := by
  fun_induction decode? places bytes generalizing number with
  | case1 => cases h
  | case2 => cases h
  | case3 byte behind hlast =>
      cases h
      refine ⟨[byte], rfl, ?_⟩
      intro more
      simp only [List.singleton_append, decode?, hlast, if_true]
  | case4 => cases h
  | case5 places byte behind hlow =>
      cases h
      refine ⟨[byte], rfl, ?_⟩
      intro more
      simp only [List.singleton_append, decode?, hlow, if_true]
  | case6 places byte behind hhigh ih =>
      obtain ⟨⟨high, middle⟩, hd, he⟩ := Option.map_eq_some_iff.mp h
      cases he
      obtain ⟨front, rfl, hfront⟩ := ih hd
      refine ⟨byte :: front, rfl, ?_⟩
      intro more
      simp only [List.cons_append, decode?, hhigh, if_false, hfront more, Option.map_some]

theorem read_front : TakesFront read := by
  intro bytes number rest h
  unfold read at h
  split at h
  · rename_i result hd
    cases h
    obtain ⟨front, rfl, hfront⟩ := decode?_front hd
    refine ⟨front, rfl, ?_⟩
    intro more
    simp only [read, hfront more]
  · cases h

end Varint

namespace Key

theorem read_front : TakesFront read := by
  have hcode : ∀ code, TakesFront (fun rest => do return (← ofCode code, rest)) := by
    intro code
    cases ofCode code with
    | error fault => exact nofun
    | ok key => exact .pure key
  exact Varint.read_front.bind hcode

theorem read_nil (result : Key × Bytes) : read [] ≠ .ok result := nofun

end Key

theorem dropExact_front (count : Nat) : DropsFront (dropExact count) := by
  intro bytes rest h
  unfold dropExact at h
  split at h
  · cases h
  · rename_i hlong
    cases h
    have htake : (bytes.take count).length = count := List.length_take_of_le (by omega)
    refine ⟨bytes.take count, (List.take_append_drop ..).symm, ?_⟩
    intro more
    have henough : ¬ (bytes.take count ++ more).length < count := by
      rw [List.length_append]
      omega
    simp only [dropExact, henough, if_false, List.drop_left' htake]

-- Every field of a group begins with a key, so no more of them are read than there are bytes, and
-- any bound from there on will do.
theorem skipGroup_front {skipField : Key → Bytes → Except Fault Bytes}
    (h : ∀ key, DropsFront (skipField key)) {tag count : Nat} {bytes rest : Bytes}
    (hs : skipGroup skipField tag count bytes = .ok rest) :
    ∃ front, bytes = front ++ rest ∧ ∀ bound more, front.length ≤ bound →
      skipGroup skipField tag bound (front ++ more) = .ok more := by
  induction count generalizing bytes with
  | zero => cases hs
  | succ count ih =>
      obtain ⟨⟨key, behind⟩, hkey, hbehind⟩ := bind_eq_ok.mp hs
      dsimp only at hbehind
      obtain ⟨front, rfl, hfront⟩ := Key.read_front hkey
      have hpos := List.length_pos_iff.mpr (hfront.front_ne_nil Key.read_nil)
      by_cases hend : key.type = .endGroup
      · simp only [hend, if_true] at hbehind
        by_cases htag : key.tag = tag
        · simp only [htag, if_true, pure_eq_ok] at hbehind
          cases hbehind
          refine ⟨front, rfl, ?_⟩
          intro bound more hb
          obtain ⟨bound, rfl⟩ : ∃ n, bound = n + 1 := ⟨bound - 1, by omega⟩
          simp only [skipGroup, hfront more, ok_bind, hend, htag, if_true, pure_eq_ok]
        · simp only [htag, if_false] at hbehind
          cases hbehind
      · simp only [hend, if_false] at hbehind
        obtain ⟨middle, hfield, hgroup⟩ := bind_eq_ok.mp hbehind
        obtain ⟨value, rfl, hvalue⟩ := h key hfield
        obtain ⟨others, rfl, hothers⟩ := ih hgroup
        refine ⟨front ++ (value ++ others), by simp only [List.append_assoc], ?_⟩
        intro bound more hb
        simp only [List.length_append] at hb
        obtain ⟨bound, rfl⟩ : ∃ n, bound = n + 1 := ⟨bound - 1, by omega⟩
        have hrest := hothers bound more (by omega)
        simp only [List.append_assoc, skipGroup, hfront (value ++ (others ++ more)), ok_bind, hend,
          if_false, hvalue (others ++ more), hrest]

theorem skip_front (levels : Nat) (key : Key) : DropsFront (skip levels key) := by
  -- The fields of a group are one level further down.
  induction levels generalizing key with
  | zero =>
      intro bytes rest h
      cases h
  | succ levels ih =>
      obtain ⟨tag, type⟩ := key
      cases type with
      | varint =>
          intro bytes rest h
          obtain ⟨⟨number, behind⟩, hread, hrest⟩ := bind_eq_ok.mp h
          cases hrest
          obtain ⟨front, rfl, hfront⟩ := Varint.read_front hread
          refine ⟨front, rfl, ?_⟩
          intro more
          simp only [skip, hfront more, ok_bind, pure_eq_ok]
      | fixed64 => exact dropExact_front 8
      | fixed32 => exact dropExact_front 4
      | delimited => exact Varint.read_front.skip dropExact_front
      | startGroup =>
          intro bytes rest h
          obtain ⟨front, rfl, hfront⟩ := skipGroup_front ih h
          refine ⟨front, rfl, ?_⟩
          intro more
          apply hfront
          rw [List.length_append]
          omega
      | endGroup =>
          intro bytes rest h
          cases h

-- A field reader that takes at least a byte off the front, or fails.
def Advances (field : σ → Reader σ) : Prop :=
  ∀ ⦃bytes first next rest⦄, field first bytes = .ok (next, rest) →
    ∃ piece, bytes = piece ++ rest ∧ Consumes field piece first next

theorem advances_of_takesFront {field : σ → Reader σ} (h : ∀ state, TakesFront (field state))
    (hnil : ∀ state result, field state [] ≠ .ok result) : Advances field := by
  intro bytes first next rest hr
  obtain ⟨piece, rfl, htakes⟩ := h first hr
  exact ⟨piece, rfl, htakes.front_ne_nil (hnil first), htakes⟩

variable {field : σ → Reader σ} {first last : σ} {bytes rest : Bytes}

-- Fields are read along a run, which comes to the end if as many fields are allowed as there are
-- bytes in front of it.
theorem run_of_readFields (hf : Advances field) {left count : Nat}
    (h : readFields field left count first bytes = .ok (last, rest)) :
    ∃ pieces, bytes = pieces.flatten ++ rest ∧ Run (Consumes field) pieces first last ∧
      (bytes.length ≤ left + count → rest.length ≤ left) := by
  induction count generalizing first bytes with
  | zero =>
      cases h
      exact ⟨[], rfl, .nil _, fun hl => hl⟩
  | succ count ih =>
      unfold readFields at h
      by_cases hleft : bytes.length ≤ left
      · rw [if_pos hleft] at h
        cases h
        exact ⟨[], rfl, .nil _, fun _ => hleft⟩
      · rw [if_neg hleft] at h
        obtain ⟨⟨next, behind⟩, hfield, hrest⟩ := bind_eq_ok.mp h
        obtain ⟨piece, rfl, hpiece⟩ := hf hfield
        obtain ⟨pieces, rfl, hrun, hend⟩ := ih hrest
        have hpos := List.length_pos_iff.mpr hpiece.1
        refine ⟨piece :: pieces, by simp only [List.flatten_cons, List.append_assoc],
          .cons hpiece hrun, ?_⟩
        intro hl
        apply hend
        rw [List.length_append] at hl
        omega

-- A length and fields are read exactly if the fields fill the length.
theorem readDelimited_iff (hf : Advances field) :
    readDelimited field first bytes = .ok (last, rest) ↔
      ∃ pieces, Varint.read bytes = .ok (pieces.flatten.length, pieces.flatten ++ rest) ∧
        Run (Consumes field) pieces first last := by
  constructor
  · intro h
    obtain ⟨⟨length, behind⟩, hlength, h⟩ := bind_eq_ok.mp h
    dsimp only at h
    by_cases hshort : behind.length < length
    · rw [if_pos hshort] at h
      cases h
    · rw [if_neg hshort] at h
      obtain ⟨⟨state, left⟩, hfields, h⟩ := bind_eq_ok.mp h
      dsimp only at h
      by_cases hend : left.length = behind.length - length
      · rw [if_pos hend] at h
        cases h
        obtain ⟨pieces, rfl, hrun, _⟩ := run_of_readFields hf hfields
        rw [List.length_append] at hend hshort
        have hfill : length = pieces.flatten.length := by omega
        exact ⟨pieces, hfill ▸ hlength, hrun⟩
      · rw [if_neg hend] at h
        cases h
  · rintro ⟨pieces, hlength, hrun⟩
    exact readDelimited_of_length hrun hlength

theorem readDelimited_writeDelimited_iff {body behind : Bytes} (hf : Advances field)
    (hs : body.length < sizeLimit) :
    readDelimited field first (writeDelimited body ++ rest) = .ok (last, behind) ↔
      behind = rest ∧ ∃ pieces, body = pieces.flatten ∧ Run (Consumes field) pieces first last := by
  rw [readDelimited_iff hf]
  simp only [read_length body rest hs, Except.ok.injEq, Prod.mk.injEq]
  constructor
  · rintro ⟨pieces, ⟨hlength, hbytes⟩, hrun⟩
    obtain ⟨hbody, hrest⟩ := List.append_inj hbytes hlength
    exact ⟨hrest.symm, pieces, hbody, hrun⟩
  · rintro ⟨rfl, pieces, rfl, hrun⟩
    exact ⟨pieces, ⟨rfl, rfl⟩, hrun⟩

theorem readDelimited_front (hf : Advances field) (state : σ) :
    TakesFront (readDelimited field state) := by
  intro bytes value rest h
  obtain ⟨pieces, hlength, hrun⟩ := (readDelimited_iff hf).mp h
  obtain ⟨front, rfl, hfront⟩ := Varint.read_front hlength
  refine ⟨front ++ pieces.flatten, (List.append_assoc ..).symm, ?_⟩
  intro more
  rw [List.append_assoc]
  exact readDelimited_of_length hrun (hfront (pieces.flatten ++ more))

-- The bytes that a length announces.
theorem takeExact_front (length : Nat) : TakesFront (fun bytes =>
    if bytes.length < length then fail .underflow
    else return (bytes.take length, bytes.drop length)) := by
  intro bytes value rest h
  dsimp only at h
  by_cases hshort : bytes.length < length
  · rw [if_pos hshort] at h
    cases h
  · rw [if_neg hshort] at h
    cases h
    have htake : (bytes.take length).length = length := List.length_take_of_le (by omega)
    refine ⟨bytes.take length, (List.take_append_drop ..).symm, ?_⟩
    intro more
    have henough : ¬ (bytes.take length ++ more).length < length := by
      rw [List.length_append]
      omega
    simp only [henough, if_false, List.take_left' htake, List.drop_left' htake, pure_eq_ok]

-- The reader takes the piece as a whole or not at all, and which of them does not depend on the
-- state.
structure Settles (field : σ → Reader σ) (piece : Bytes) (accepted : Prop) : Prop where
  ne_nil : piece ≠ []
  takes : accepted → ∀ first, ∃ next, Takes (field first) piece next
  whole : ∀ ⦃first next rest behind⦄, field first (piece ++ rest) = .ok (next, behind) →
    accepted ∧ behind = rest

theorem Settles.congr {piece : Bytes} {accepted other : Prop} (h : Settles field piece accepted)
    (he : accepted ↔ other) : Settles field piece other :=
  propext he ▸ h

theorem settles_of_takes {piece : Bytes} (hne : piece ≠ [])
    (h : ∀ first, ∃ next, Takes (field first) piece next) : Settles field piece True where
  ne_nil := hne
  takes := fun _ => h
  whole := by
    intro first next rest behind hread
    obtain ⟨other, htakes⟩ := h first
    rw [htakes rest] at hread
    cases hread
    exact ⟨trivial, rfl⟩

theorem settles_of_ne_ok {piece : Bytes} (hne : piece ≠ [])
    (h : ∀ first rest result, field first (piece ++ rest) ≠ .ok result) :
    Settles field piece False :=
  ⟨hne, nofun, fun _ _ _ _ hread => absurd hread (h _ _ _)⟩

section Settles

variable {ι : Type} {items : List ι} {bytesOf : ι → Bytes} {accepted : ι → Prop}

theorem run_of_settles (h : ∀ item ∈ items, Settles field (bytesOf item) (accepted item))
    (ha : ∀ item ∈ items, accepted item) (first : σ) :
    ∃ last, Run (Consumes field) (items.map bytesOf) first last := by
  induction items generalizing first with
  | nil => exact ⟨first, .nil first⟩
  | cons item items ih =>
      have hitem := h item List.mem_cons_self
      obtain ⟨next, htakes⟩ := hitem.takes (ha item List.mem_cons_self) first
      obtain ⟨last, hrun⟩ := ih (fun other ho => h other (List.mem_cons_of_mem _ ho))
        (fun other ho => ha other (List.mem_cons_of_mem _ ho)) next
      exact ⟨last, .cons ⟨hitem.ne_nil, htakes⟩ hrun⟩

-- Any run from the front of such pieces goes along some of them, and all of these are accepted.
theorem settled_of_run (h : ∀ item ∈ items, Settles field (bytesOf item) (accepted item))
    {pieces : List Bytes} (hrun : Run (Consumes field) pieces first last)
    (he : (items.map bytesOf).flatten = pieces.flatten ++ rest) :
    ∃ taken left, items = taken ++ left ∧ pieces = taken.map bytesOf ∧
      ∀ item ∈ taken, accepted item := by
  -- An item settles where reading it ends, so each step of the run takes the next item.
  induction hrun generalizing items with
  | nil state => exact ⟨[], items, rfl, rfl, nofun⟩
  | @cons piece pieces first next last hstep _ ih =>
      cases items with
      | nil =>
          rw [List.flatten_cons, List.append_assoc] at he
          exact absurd (List.append_eq_nil_iff.mp he.symm).1 hstep.1
      | cons item items =>
          rw [List.map_cons, List.flatten_cons, List.flatten_cons, List.append_assoc] at he
          have hread := hstep.2 (pieces.flatten ++ rest)
          rw [← he] at hread
          obtain ⟨ha, hrest⟩ := (h item List.mem_cons_self).whole hread
          rw [hrest] at he
          have hpiece : piece = bytesOf item := (List.append_cancel_right he).symm
          obtain ⟨taken, left, rfl, rfl, haccepted⟩ :=
            ih (fun other ho => h other (List.mem_cons_of_mem _ ho)) hrest.symm
          refine ⟨item :: taken, left, rfl, ?_, ?_⟩
          · rw [hpiece, List.map_cons]
          · intro other ho
            rcases List.mem_cons.mp ho with rfl | ho
            · exact ha
            · exact haccepted other ho

-- A run takes all of the pieces exactly if all are accepted.
theorem run_iff_settled (h : ∀ item ∈ items, Settles field (bytesOf item) (accepted item))
    (first : σ) :
    (∃ pieces last, (items.map bytesOf).flatten = pieces.flatten ∧
      Run (Consumes field) pieces first last) ↔ ∀ item ∈ items, accepted item := by
  constructor
  · rintro ⟨pieces, last, he, hrun⟩
    rw [← List.append_nil pieces.flatten] at he
    obtain ⟨taken, left, rfl, rfl, haccepted⟩ := settled_of_run h hrun he
    have hleft : left = [] := by
      cases left with
      | nil => rfl
      | cons item left =>
          have hne := (h item (List.mem_append_right _ List.mem_cons_self)).ne_nil
          simp only [List.map_append, List.flatten_append, List.append_nil, List.map_cons,
            List.flatten_cons, List.append_right_eq_self, List.append_eq_nil_iff] at he
          exact absurd he.1 hne
    rw [hleft, List.append_nil]
    exact haccepted
  · intro ha
    obtain ⟨last, hrun⟩ := run_of_settles h ha first
    exact ⟨_, last, rfl, hrun⟩

end Settles

theorem readBlob_front : TakesFront readBlob := Varint.read_front.bind takeExact_front

namespace Form

-- Whatever the old value is, the form takes new ones off the front.
def TakesFronts (form : Form α) : Prop := ∀ levels old, TakesFront (form.merge levels old)

theorem read_front {form : Form α} (h : form.TakesFronts) (levels : Nat) (found : WireType)
    (old : α) : TakesFront (form.read levels found old) := by
  unfold read
  by_cases hf : found = form.type
  · simp only [hf, if_true]
    exact h levels old
  · simp only [hf, if_false]
    exact .fail _

theorem ofVarint_fronts [DecidableEq α] {zero : α} {decode : Nat → α} {encode : α → Nat} :
    (ofVarint zero decode encode).TakesFronts :=
  fun _ _ => Varint.read_front.bind fun number => .pure (decode number)

theorem text_fronts : text.TakesFronts := by
  intro levels old bytes result rest h
  obtain ⟨⟨body, behind⟩, hblob, htext⟩ := bind_eq_ok.mp h
  obtain ⟨front, rfl, hfront⟩ := readBlob_front hblob
  dsimp only at htext
  cases hd : Utf8.decode? body with
  | none =>
      rw [hd] at htext
      cases htext
  | some value =>
      rw [hd] at htext
      cases htext
      refine ⟨front, rfl, ?_⟩
      intro more
      simp only [text, hfront more, ok_bind, hd, pure_eq_ok]

end Form

end TableHistory.Wire
