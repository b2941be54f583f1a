import TableHistory.Proofs.Text.Record
import TableHistory.Framed

namespace TableHistory.Schema

open Text

variable {α β γ : Type}

-- The place of the field reads what was written for the value.
def Field.ReadsText (field : Field α) (value : α) : Prop :=
  Reads field.place.read (field.cell.text.tree value) value

theorem Field.place_tree (field : Field α) (value : α) :
    field.place.tree value = some (field.cell.text.tree value) := by
  unfold place
  cases field.nullable with
  | false => rfl
  | true => rfl

-- Null is allowed beside what a field writes, and makes no difference for that.
theorem Field.readsText_of_restores {field : Field α} {value : α}
    (h : field.cell.text.Restores value) : field.ReadsText value := by
  unfold ReadsText place
  cases field.nullable with
  | false => exact h.reads
  | true => exact (Form.nullAs_restores field.cell.zero h).reads

namespace Field

variable {tag : Nat} {name key : String} {nullable : Bool}

theorem readsText_optional {shape : Shape α} {value : Option α}
    (h : ∀ present ∈ value, shape.text.Restores present) :
    (of tag name key (.optional shape)).ReadsText value :=
  Form.optional_reads h

theorem readsText_repeated {shape : Shape α} {values : List α}
    (h : ∀ value ∈ values, shape.text.Restores value) :
    (mk tag name key (.repeated shape) nullable).ReadsText values :=
  readsText_of_restores (Form.listOf_restores h)

theorem readsText_keyed {shape : Shape α} {map : OrderedMap String α}
    (h : ∀ entry ∈ map.entries, shape.text.Restores entry.2) :
    (mk tag name key (.keyed shape) nullable).ReadsText map :=
  readsText_of_restores (Form.mapOf_restores h)

-- A map without entries needs no form for values.
theorem readsText_no_entries {shape : Shape α} {map : OrderedMap String α} (h : map = .empty) :
    (mk tag name key (.keyed shape) nullable).ReadsText map := by
  subst h
  exact readsText_keyed fun entry he => absurd he List.not_mem_nil

theorem readsText_string (value : String) :
    (mk tag name key (.single .string) nullable).ReadsText value :=
  readsText_of_restores (Form.text_restores value)

theorem readsText_bool (value : Bool) :
    (mk tag name key (.single .bool) nullable).ReadsText value :=
  readsText_of_restores (Form.bool_restores value)

theorem readsText_int64 (value : Int64) :
    (mk tag name key (.single .int64) nullable).ReadsText value :=
  readsText_of_restores (Form.int64_restores value)

theorem readsText_int32 (value : Int32) :
    (mk tag name key (.single .int32) nullable).ReadsText value :=
  readsText_of_restores (Form.int32_restores value)

theorem readsText_uint32 (value : UInt32) :
    (mk tag name key (.single .uint32) nullable).ReadsText value :=
  readsText_of_restores (Form.uint32_restores value)

theorem readsText_optional_string (value : Option String) :
    (of tag name key (.optional .string)).ReadsText value :=
  readsText_optional fun present _ => Form.text_restores present

theorem readsText_optional_int64 (value : Option Int64) :
    (of tag name key (.optional .int64)).ReadsText value :=
  readsText_optional fun present _ => Form.int64_restores present

theorem readsText_optional_blob (value : Option Bytes) :
    (of tag name key (.optional .blob)).ReadsText value :=
  readsText_optional fun present _ => Form.blob_restores present

theorem readsText_strings (values : List String) :
    (mk tag name key (.repeated .string) nullable).ReadsText values :=
  readsText_repeated fun value _ => Form.text_restores value

theorem readsText_keyed_string (map : OrderedMap String String) :
    (mk tag name key (.keyed .string) nullable).ReadsText map :=
  readsText_keyed fun entry _ => Form.text_restores entry.2

theorem readsText_keyed_int64 (map : OrderedMap String Int64) :
    (mk tag name key (.keyed .int64) nullable).ReadsText map :=
  readsText_keyed fun entry _ => Form.int64_restores entry.2

end Field

namespace Fields

def ReadsText : {β : Type} → Fields β → β → Prop
  | _, nil, () => True
  | _, cons field rest, (value, values) => field.ReadsText value ∧ rest.ReadsText values

theorem members_cons (field : Field α) (rest : Fields β) (value : α) (values : β) :
    (cons field rest).places.members (value, values) =
      (field.key, field.cell.text.tree value) :: rest.places.members values := by
  simp only [places, Places.members, field.place_tree]
  rfl

theorem names_members (fields : Fields β) (values : β) :
    (fields.places.members values).map Prod.fst = fields.places.names := by
  induction fields with
  | nil => rfl
  | cons field rest ih =>
      rw [members_cons field rest values.1 values.2, List.map_cons, ih]
      rfl

-- The record that is read and the one that was written may differ behind a field they share.
theorem fills_cons {field : Field α} {read : Fields β} {written : Fields γ} {value : α}
    {values : γ} {last : β} (hfield : field.ReadsText value)
    (hfresh : field.key ∉ written.places.names)
    (h : read.places.Fills (written.places.members values) last) :
    (cons field read).places.Fills ((cons field written).places.members (value, values))
      (value, last) := by
  rw [members_cons]
  apply Places.Fills.present hfield _ h
  rw [names_members]
  exact hfresh

theorem restores {fields : Fields β} {values : β} (h : fields.ReadsText values) :
    fields.places.Restores values := by
  induction fields with
  | nil => trivial
  | cons field rest ih =>
      refine ⟨?_, ih h.2⟩
      unfold Place.Restores
      rw [field.place_tree]
      exact h.1

theorem fills {fields : Fields β} {values : β} (h : fields.ReadsText values)
    (hn : fields.places.names.Nodup) :
    fields.places.Fills (fields.places.members values) values :=
  Places.fills (restores h) hn

end Fields

-- A record is given back by its text when its fields are.
theorem Message.record_restores (message : Message α) {value : α}
    (h : message.fields.ReadsText (message.unpack value))
    (hn : message.fields.places.names.Nodup) :
    (Form.record message.fields.places message.pack message.unpack).Restores value :=
  Form.record_restores (message.pack_unpack value) (Fields.restores h) hn

-- The text of one type of record, read as another one.
theorem Message.readBody_record (message : Message α) (written : Message γ) {value : γ}
    {values : message.β} (h : message.fields.places.Fills
      (written.fields.places.members (written.unpack value)) values) :
    readBody (Form.record message.fields.places message.pack message.unpack)
      ((Form.record written.fields.places written.pack written.unpack).encode value) =
      .ok (message.pack values) := by
  have hdecode := Form.decode_write (Form.record_reads message.pack message.unpack h)
  unfold readBody
  exact congrArg (Except.mapError _) hdecode

-- A record that stands for its only field is given back when that is.
theorem Message.ofCell_restores {name field : String} {cell : Cell γ} {pack : γ → α}
    {unpack : α → γ} {pack_unpack : ∀ value, pack (unpack value) = value}
    {unpack_pack : ∀ value, unpack (pack value) = value} {value : α}
    (h : cell.text.Restores (unpack value)) :
    (ofCell name field cell pack unpack pack_unpack unpack_pack).text.Restores value where
  reads := by
    refine ⟨h.reads.begins, ?_⟩
    intro depth bytes rest hb he
    have hread := h.reads.reads depth bytes rest hb he
    simp only [ofCell, hread, Except.map, pack_unpack]
  present := h.present

end TableHistory.Schema
