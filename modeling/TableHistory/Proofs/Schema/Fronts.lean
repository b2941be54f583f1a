import TableHistory.Proofs.Schema.Messages
import TableHistory.Proofs.Wire.Fronts

namespace TableHistory.Schema

open Wire

variable {α β : Type}

namespace Cell

-- A cell takes fronts when the values in it are read off fronts.
def TakesFronts : {α : Type} → Cell α → Prop
  | _, single shape | _, optional shape | _, repeated shape | _, keyed shape =>
    shape.wire.TakesFronts

section Entry

variable {shape : Shape α} {levels : Nat} {type : WireType} {old new : String × α}
  {payload rest : Bytes}

theorem readEntryField_value :
    readEntryField shape levels old (Key.write ⟨2, type⟩ ++ payload) = .ok (new, rest) ↔
      ∃ value, shape.wire.read levels type old.2 payload = .ok (value, rest) ∧
        new = (old.1, value) := by
  have htag : IsTag 2 := by decide
  have hkey := Key.read_write ⟨2, type⟩ payload htag
  simp only [readEntryField, hkey, ok_bind, show ¬ (2 = 1) by omega, if_false, if_true]
  cases shape.wire.read levels type old.2 payload with
  | error fault => simp
  | ok read =>
      simp only [ok_bind, pure_eq_ok, Except.ok.injEq, Prod.mk.injEq]
      constructor
      · rintro ⟨rfl, rfl⟩
        exact ⟨read.1, rfl, rfl⟩
      · rintro ⟨value, rfl, rfl⟩
        exact ⟨rfl, rfl⟩

theorem readEntryField_other {tag : Nat} (ht : IsTag tag) (hname : tag ≠ 1) (hvalue : tag ≠ 2) :
    readEntryField shape levels old (Key.write ⟨tag, type⟩ ++ payload) = .ok (new, rest) ↔
      skip levels ⟨tag, type⟩ payload = .ok rest ∧ new = old := by
  have hkey := Key.read_write ⟨tag, type⟩ payload ht
  simp only [readEntryField, hkey, ok_bind, hname, hvalue, if_false]
  cases skip levels ⟨tag, type⟩ payload with
  | error fault => simp
  | ok behind =>
      simp only [ok_bind, pure_eq_ok, Except.ok.injEq, Prod.mk.injEq]
      exact ⟨fun h => ⟨h.2, h.1.symm⟩, fun h => ⟨h.2.symm, h.1⟩⟩

end Entry

theorem readEntryField_advances {shape : Shape α} (h : shape.wire.TakesFronts) (levels : Nat) :
    Advances (readEntryField shape levels) := by
  apply advances_of_takesFront
  · intro entry
    have hfield : ∀ key : Key, TakesFront fun rest =>
        if key.tag = 1 then do
          let read ← Form.text.read levels key.type entry.1 rest
          return ((read.1, entry.2), read.2)
        else if key.tag = 2 then do
          let read ← shape.wire.read levels key.type entry.2 rest
          return ((entry.1, read.1), read.2)
        else return (entry, ← skip levels key rest) := by
      intro key
      by_cases hname : key.tag = 1
      · have hread := Form.read_front Form.text_fronts levels key.type entry.1
        simp only [hname, if_true]
        exact hread.bind fun name => .pure (name, entry.2)
      · by_cases hvalue : key.tag = 2
        · have hread := Form.read_front h levels key.type entry.2
          simp only [hvalue, show ¬ (2 = 1) by omega, if_false, if_true]
          exact hread.bind fun value => .pure (entry.1, value)
        · simp only [hname, hvalue, if_false]
          exact (skip_front levels key).give entry
    exact Key.read_front.bind hfield
  · intro _ _ h
    cases h

theorem merge_front (cell : Cell α) (h : cell.TakesFronts) (levels : Nat) (type : WireType)
    (old : α) : TakesFront (cell.merge levels type old) := by
  cases cell with
  | single shape => exact Form.read_front h levels type old
  | optional shape =>
      have hread := Form.read_front h levels type (old.getD shape.wire.zero)
      exact hread.bind fun value => .pure (some value)
  | repeated shape =>
      have hread := Form.read_front h levels type shape.wire.zero
      exact hread.bind fun value => .pure (old ++ [value])
  | keyed shape =>
      cases levels with
      | zero => exact .fail _
      | succ levels =>
          have hread := readDelimited_front (readEntryField_advances h levels)
            ("", shape.wire.zero)
          exact hread.bind fun entry => .pure (old.insert entry.1 entry.2)

end Cell

namespace Fields

section Merge

variable {field : Field α} {rest : Fields β} {message : String} {levels : Nat} {key : Key}
  {value : α} {values : β} {result : α × β} {bytes behind : Bytes}

theorem merge_own (ht : key.tag = field.tag) :
    (cons field rest).merge message levels key (value, values) bytes = .ok (result, behind) ↔
      ∃ new, field.cell.merge levels key.type value bytes = .ok (new, behind) ∧
        result = (new, values) := by
  simp only [merge, ht, if_true]
  cases field.cell.merge levels key.type value bytes with
  | error fault => simp
  | ok merged =>
      simp only [Except.ok.injEq, Prod.mk.injEq]
      constructor
      · rintro ⟨rfl, rfl⟩
        exact ⟨merged.1, rfl, rfl⟩
      · rintro ⟨new, rfl, rfl⟩
        exact ⟨rfl, rfl⟩

theorem merge_other (ht : key.tag ≠ field.tag) :
    (cons field rest).merge message levels key (value, values) bytes = .ok (result, behind) ↔
      ∃ others, rest.merge message levels key values bytes = .ok (others, behind) ∧
        result = (value, others) := by
  simp only [merge, ht, if_false]
  cases rest.merge message levels key values bytes with
  | error fault => simp
  | ok merged =>
      simp only [ok_bind, pure_eq_ok, Except.ok.injEq, Prod.mk.injEq]
      constructor
      · rintro ⟨rfl, rfl⟩
        exact ⟨merged.1, rfl, rfl⟩
      · rintro ⟨others, rfl, rfl⟩
        exact ⟨rfl, rfl⟩

-- A cell at a tag that no field before it has, with the place of its value among those of all
-- fields.
inductive At {α : Type} (cell : Cell α) (tag : Nat) :
    {β : Type} → Fields β → (β → α) → (β → α → β) → Prop
  | here {β : Type} {field : Field α} {rest : Fields β} :
      field.tag = tag → field.cell = cell →
        At cell tag (cons field rest) Prod.fst (fun values value => (value, values.2))
  | behind {β γ : Type} {field : Field γ} {rest : Fields β} {get : β → α} {set : β → α → β} :
      tag ≠ field.tag → At cell tag rest get set →
        At cell tag (cons field rest) (fun values => get values.2)
          (fun values value => (values.1, set values.2 value))

end Merge

section Tag

variable {fields : Fields β} {message : String} {levels tag : Nat} {type : WireType}
  {old new : β} {payload rest : Bytes}

-- A value behind a tag goes to the cell there.
theorem merge_at_iff {cell : Cell α} {get : β → α} {set : β → α → β}
    (h : fields.At cell tag get set) :
    fields.merge message levels ⟨tag, type⟩ old payload = .ok (new, rest) ↔
      ∃ value, cell.merge levels type (get old) payload = .ok (value, rest) ∧
        new = set old value := by
  induction h with
  | here ht hc =>
      rw [← hc]
      exact merge_own ht.symm
  | behind ht _ ih =>
      rw [merge_other ht]
      simp only [ih]
      constructor
      · rintro ⟨_, ⟨value, hcell, rfl⟩, rfl⟩
        exact ⟨value, hcell, rfl⟩
      · rintro ⟨value, hcell, rfl⟩
        exact ⟨_, ⟨value, hcell, rfl⟩, rfl⟩

theorem merge_unknown_iff (h : tag ∉ fields.tags) :
    fields.merge message levels ⟨tag, type⟩ old payload = .ok (new, rest) ↔
      skip levels ⟨tag, type⟩ payload = .ok rest ∧ new = old := by
  induction fields with
  | nil =>
      cases hskip : skip levels ⟨tag, type⟩ payload <;> simp [merge, hskip, eq_comm]
  | cons field fields ih =>
      obtain ⟨hfield, hothers⟩ := not_or.mp (mt List.mem_cons.mpr h)
      rw [merge_other hfield]
      simp only [ih hothers]
      constructor
      · rintro ⟨_, ⟨hskip, rfl⟩, rfl⟩
        exact ⟨hskip, rfl⟩
      · rintro ⟨hskip, rfl⟩
        exact ⟨_, ⟨hskip, rfl⟩, rfl⟩

end Tag

def TakesFronts : {β : Type} → Fields β → Prop
  | _, nil => True
  | _, cons field rest => field.cell.TakesFronts ∧ rest.TakesFronts

theorem merge_front {fields : Fields β} (h : fields.TakesFronts) (message : String) (levels : Nat)
    (key : Key) (values : β) : TakesFront (fields.merge message levels key values) := by
  induction fields with
  | nil => exact (skip_front levels key).give ()
  | cons field rest ih =>
      obtain ⟨hcell, hrest⟩ := h
      obtain ⟨value, values⟩ := values
      by_cases ht : key.tag = field.tag
      · intro bytes result behind hr
        simp only [merge, ht, if_true] at hr
        split at hr
        · rename_i new behind' hm
          cases hr
          obtain ⟨front, rfl, hfront⟩ := field.cell.merge_front hcell levels key.type value hm
          refine ⟨front, rfl, ?_⟩
          intro more
          simp only [merge, ht, if_true, hfront more]
        · cases hr
      · have hothers := (ih hrest values).bind fun others => .pure (value, others)
        intro bytes result behind hr
        simp only [merge, ht, if_false] at hr
        obtain ⟨front, rfl, hfront⟩ := hothers hr
        refine ⟨front, rfl, ?_⟩
        intro more
        simp only [merge, ht, if_false]
        exact hfront more

end Fields

namespace Message

variable {message : Message α}

theorem mergeField_advances (h : message.fields.TakesFronts) (levels : Nat) :
    Advances (message.mergeField levels) := by
  apply advances_of_takesFront
  · intro old
    have hfield : ∀ key, TakesFront fun rest => do
        let merged ← message.fields.merge message.name levels key (message.unpack old) rest
        return (message.pack merged.1, merged.2) := by
      intro key
      have hmerge := Fields.merge_front h message.name levels key (message.unpack old)
      exact hmerge.bind fun values => .pure (message.pack values)
    exact Key.read_front.bind hfield
  · intro _ _ h
    cases h

theorem shape_fronts (h : message.fields.TakesFronts) : message.shape.wire.TakesFronts := by
  intro levels old
  cases levels with
  | zero => exact .fail _
  | succ levels => exact readDelimited_front (mergeField_advances h levels) old

theorem mergeField_iff {levels tag : Nat} {type : WireType} {old new : α} {payload rest : Bytes}
    (ht : IsTag tag) :
    message.mergeField levels old (Key.write ⟨tag, type⟩ ++ payload) = .ok (new, rest) ↔
      ∃ values, message.fields.merge message.name levels ⟨tag, type⟩ (message.unpack old) payload =
        .ok (values, rest) ∧ new = message.pack values := by
  have hkey := Key.read_write ⟨tag, type⟩ payload ht
  simp only [mergeField, hkey, ok_bind, bind_eq_ok, pure_eq_ok, Except.ok.injEq, Prod.mk.injEq,
    Prod.exists]
  constructor
  · rintro ⟨values, behind, hmerge, rfl, rfl⟩
    exact ⟨values, hmerge, rfl⟩
  · rintro ⟨values, hmerge, rfl⟩
    exact ⟨values, rest, hmerge, rfl, rfl⟩

theorem mergeField_at_iff {levels tag : Nat} {type : WireType} {old new : α}
    {payload rest : Bytes} {γ : Type} {cell : Cell γ} {get : message.β → γ}
    {set : message.β → γ → message.β} (ht : IsTag tag) (h : message.fields.At cell tag get set) :
    message.mergeField levels old (Key.write ⟨tag, type⟩ ++ payload) = .ok (new, rest) ↔
      ∃ value, cell.merge levels type (get (message.unpack old)) payload = .ok (value, rest) ∧
        new = message.pack (set (message.unpack old) value) := by
  rw [mergeField_iff ht]
  simp only [Fields.merge_at_iff h]
  constructor
  · rintro ⟨_, ⟨value, hcell, rfl⟩, rfl⟩
    exact ⟨value, hcell, rfl⟩
  · rintro ⟨value, hcell, rfl⟩
    exact ⟨_, ⟨value, hcell, rfl⟩, rfl⟩

theorem mergeField_unknown_iff {levels tag : Nat} {type : WireType} {old new : α}
    {payload rest : Bytes} (ht : IsTag tag) (h : tag ∉ message.fields.tags) :
    message.mergeField levels old (Key.write ⟨tag, type⟩ ++ payload) = .ok (new, rest) ↔
      skip levels ⟨tag, type⟩ payload = .ok rest ∧ new = old := by
  rw [mergeField_iff ht]
  simp only [Fields.merge_unknown_iff h]
  constructor
  · rintro ⟨_, ⟨hskip, rfl⟩, rfl⟩
    exact ⟨hskip, message.pack_unpack old⟩
  · rintro ⟨hskip, rfl⟩
    exact ⟨_, ⟨hskip, rfl⟩, (message.pack_unpack new).symm⟩

-- A body is read exactly if its fields, one after the other, make up all of it.
theorem readAt_iff (h : message.fields.TakesFronts) {levels : Nat} {bytes : Bytes} {value : α} :
    message.readAt levels bytes = .ok value ↔
      ∃ pieces, bytes = pieces.flatten ∧
        Run (Consumes (message.mergeField levels)) pieces message.zero value := by
  constructor
  · intro hr
    obtain ⟨⟨last, rest⟩, hfields, rfl⟩ := map_eq_ok.mp hr
    obtain ⟨pieces, hbytes, hrun, hend⟩ := run_of_readFields (mergeField_advances h _) hfields
    have hrest : rest = [] := List.length_eq_zero_iff.mp (Nat.le_zero.mp (hend (by omega)))
    rw [hrest, List.append_nil] at hbytes
    exact ⟨pieces, hbytes, hrun⟩
  · rintro ⟨pieces, rfl, hrun⟩
    exact readAt_of_run hrun

theorem read_iff (h : message.fields.TakesFronts) {bytes : Bytes} {value : α} :
    message.read bytes = .ok value ↔
      ∃ pieces, bytes = pieces.flatten ∧
        Run (Consumes (message.mergeField levelLimit)) pieces message.zero value :=
  readAt_iff h

-- Inside another record, a record is read as its body is one level further down.
theorem shape_merge_iff (h : message.fields.TakesFronts) {levels : Nat} {body rest behind : Bytes}
    {value : α} (hs : body.length < sizeLimit) :
    message.shape.wire.merge (levels + 1) message.zero (writeDelimited body ++ rest) =
      .ok (value, behind) ↔ behind = rest ∧ message.readAt levels body = .ok value := by
  rw [readAt_iff h]
  exact readDelimited_writeDelimited_iff (mergeField_advances h levels) hs

end Message

end TableHistory.Schema
