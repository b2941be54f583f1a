import TableHistory.Proofs.Schema.Texts
import TableHistory.Proofs.Text.Cuts

namespace TableHistory.Schema

open Text

variable {α β γ : Type}

-- Wherever what was written for the value is cut off, the place of the field has no bytes left
-- behind it.
def Field.TextCutOff (field : Field α) (value : α) : Prop :=
  ∀ depth, RunsOut field.place.read ((field.cell.text.tree value).write depth)

namespace Field

theorem textCutOff_of_cutOff {field : Field α} {value : α}
    (hrestores : field.cell.text.Restores value) (h : field.cell.text.CutOff value) :
    field.TextCutOff value := by
  unfold TextCutOff place
  cases field.nullable with
  | false => exact h
  | true => exact Form.nullAs_cutOff field.cell.zero hrestores h

variable {tag : Nat} {name key : String} {nullable : Bool}

theorem textCutOff_bool (value : Bool) :
    (mk tag name key (.single .bool) nullable).TextCutOff value :=
  textCutOff_of_cutOff (Form.bool_restores value) (Form.bool_cutOff value)

theorem textCutOff_int64 (value : Int64) :
    (mk tag name key (.single .int64) nullable).TextCutOff value :=
  textCutOff_of_cutOff (Form.int64_restores value) (Form.int64_cutOff value)

theorem textCutOff_keyed {shape : Shape α} {map : OrderedMap String α}
    (h : ∀ entry ∈ map.entries, shape.text.Restores entry.2 ∧ shape.text.CutOff entry.2) :
    (mk tag name key (.keyed shape) nullable).TextCutOff map :=
  textCutOff_of_cutOff (Form.mapOf_restores fun entry he => (h entry he).1) (Form.mapOf_cutOff h)

theorem textCutOff_keyed_string (map : OrderedMap String String) :
    (mk tag name key (.keyed .string) nullable).TextCutOff map :=
  textCutOff_keyed fun entry _ => ⟨Form.text_restores entry.2, Form.text_cutOff entry.2⟩

theorem textCutOff_optional_string (value : Option String) :
    (of tag name key (.optional .string)).TextCutOff value :=
  Form.optional_cutOff fun present _ => ⟨Form.text_restores present, Form.text_cutOff present⟩

theorem textCutOff_optional_int64 (value : Option Int64) :
    (of tag name key (.optional .int64)).TextCutOff value :=
  Form.optional_cutOff fun present _ => ⟨Form.int64_restores present, Form.int64_cutOff present⟩

end Field

namespace Fields

-- Wherever a member written for the values is cut off, what is read into has no bytes left.
def CutOff (written : Fields γ) (values : γ) (read : Fields β) : Prop :=
  ∀ entry ∈ written.places.members values, ∀ depth,
    read.places.CutOff entry.1 (entry.2.write depth)

theorem cutOff_nil {values : Unit} (read : Fields β) : nil.CutOff values read := by
  intro entry he
  cases he

theorem cutOff_cons {field : Field α} {read : Fields β} {written : Fields γ} {value : α}
    {values : γ} (hfield : field.TextCutOff value) (hfresh : field.key ∉ written.places.names)
    (h : written.CutOff values read) :
    (cons field written).CutOff (value, values) (cons field read) := by
  intro entry he depth
  rw [members_cons] at he
  rcases List.mem_cons.mp he with rfl | he
  · have hplace : (cons field read).places.CutOff field.key
        ((field.cell.text.tree value).write depth) =
        RunsOut field.place.read ((field.cell.text.tree value).write depth) := if_pos rfl
    rw [hplace]
    exact hfield depth
  · have hname : entry.1 ≠ field.key := by
      rintro hname
      apply hfresh
      rw [← names_members written values, ← hname]
      exact List.mem_map_of_mem he
    have hrest : (cons field read).places.CutOff entry.1 (entry.2.write depth) =
        read.places.CutOff entry.1 (entry.2.write depth) := if_neg hname
    rw [hrest]
    exact h entry he depth

def TextCutOff : {β : Type} → Fields β → β → Prop
  | _, nil, () => True
  | _, cons field rest, (value, values) => field.TextCutOff value ∧ rest.TextCutOff values

theorem cutOff_self {fields : Fields β} {values : β} (h : fields.TextCutOff values)
    (hn : fields.places.names.Nodup) : fields.CutOff values fields := by
  induction fields with
  | nil => exact cutOff_nil nil
  | cons field rest ih =>
      obtain ⟨hname, hn⟩ := List.nodup_cons.mp hn
      exact cutOff_cons h.1 hname (ih h.2 hn)

end Fields

theorem Message.record_cutOff (message : Message α) {value : α}
    (hreads : message.fields.ReadsText (message.unpack value))
    (h : message.fields.TextCutOff (message.unpack value))
    (hn : message.fields.places.names.Nodup) :
    (Form.record message.fields.places message.pack message.unpack).CutOff value := by
  intro depth
  apply Unfinished.runsOut
  exact Form.record_unfinished message.pack message.unpack (Fields.fills hreads hn) depth
    fun entry he => Fields.cutOff_self h hn entry he (depth + 1)

theorem Message.ofCell_cutOff {name field : String} {cell : Cell γ} {pack : γ → α}
    {unpack : α → γ} {pack_unpack : ∀ value, pack (unpack value) = value}
    {unpack_pack : ∀ value, unpack (pack value) = value} {value : α}
    (h : cell.text.CutOff (unpack value)) :
    (ofCell name field cell pack unpack pack_unpack unpack_pack).text.CutOff value :=
  fun depth => Form.via_runsOut pack unpack (h depth)

-- A record written for one type and cut off, read as another one.
theorem Message.readBody_cut (message : Message α) (written : Message γ) {value : γ}
    {values : message.β} {cut more : Bytes} (h : message.fields.places.Fills
      (written.fields.places.members (written.unpack value)) values)
    (hcut : written.fields.CutOff (written.unpack value) message.fields)
    (he : (Form.record written.fields.places written.pack written.unpack).encode value =
      cut ++ more) (hmore : more ≠ []) :
    readBody (Form.record message.fields.places message.pack message.unpack) cut =
      .error (.text .ended) := by
  have hunfinished := Form.record_unfinished message.pack message.unpack h 0
    fun entry hm => hcut entry hm 1
  have hbegins := Tree.begins_object (written.fields.places.members (written.unpack value)) 0
  have hread := hunfinished he hmore cut (Begins.skipBlank_piece hbegins he Blank.nil)
  unfold readBody Form.decode
  rw [hread]
  rfl

end TableHistory.Schema
