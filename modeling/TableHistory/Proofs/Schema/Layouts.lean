import TableHistory.Proofs.Schema.Texts
import TableHistory.Proofs.Text.Values

namespace TableHistory.Schema

open Text

variable {α β : Type}

-- The form that a field is read by in text.
def Field.form (field : Field α) : Form α :=
  if field.nullable then field.cell.text.nullAs field.cell.zero else field.cell.text

namespace Fields

-- A field of a record, and how its value is taken from those of the record.
inductive Has {γ : Type} (field : Field γ) : {β : Type} → Fields β → (β → γ) → Prop
  | here {β : Type} {rest : Fields β} : Has field (cons field rest) Prod.fst
  | behind {α β : Type} {other : Field α} {rest : Fields β} {get : β → γ}
      (h : Has field rest get) : Has field (cons other rest) fun values => get values.2

theorem Has.mem_names {γ : Type} {field : Field γ} {fields : Fields β} {get : β → γ}
    (h : fields.Has field get) : field.key ∈ fields.places.names := by
  induction h with
  | here => exact List.mem_cons_self
  | behind _ ih => exact List.mem_cons_of_mem _ ih

theorem Has.get_zero {γ : Type} {field : Field γ} {fields : Fields β} {get : β → γ}
    (h : fields.Has field get) : get fields.zero = field.cell.zero := by
  induction h with
  | here => rfl
  | behind _ ih => exact ih

-- The statement holds of each field with its value.
def Each (holds : {γ : Type} → Field γ → γ → Prop) : {β : Type} → Fields β → β → Prop
  | _, nil, () => True
  | _, cons field rest, (value, values) => holds field value ∧ rest.Each holds values

theorem Has.holds {holds : {γ : Type} → Field γ → γ → Prop} {γ : Type} {field : Field γ}
    {fields : Fields β} {get : β → γ} (h : fields.Has field get) {values : β}
    (heach : fields.Each holds values) : holds field (get values) := by
  induction h with
  | here => exact heach.1
  | behind _ ih => exact ih heach.2

-- What the members of an object have to be so that the record is made of the given values.
structure Given (fields : Fields β) (members : List Named) (values : β) : Prop where
  present : ∀ {γ : Type} {field : Field γ} {get : β → γ}, fields.Has field get →
    ∀ member ∈ members, member.name = field.key →
      Text.Takes field.form.read member.value (get values)
  absent : ∀ {γ : Type} {field : Field γ} {get : β → γ}, fields.Has field get →
    field.key ∉ members.map Named.name → get values = field.cell.zero
  unknown : ∀ member ∈ members, member.name ∉ fields.places.names →
    Skippable Number.Ended member.value

-- A member that is read into a field in front of the others.
theorem Given.without {field : Field α} {rest : Fields β} {front behind : List Named}
    {member : Named} {values : α × β}
    (h : (cons field rest).Given (front ++ member :: behind) values)
    (hkey : field.key ∉ rest.places.names) (hname : member.name = field.key)
    (hothers : field.key ∉ (front ++ behind).map Named.name) :
    rest.Given (front ++ behind) values.2 := by
  have hmem : ∀ other ∈ front ++ behind, other ∈ front ++ member :: behind := by
    intro other ho
    rcases List.mem_append.mp ho with ho | ho
    · exact List.mem_append_left _ ho
    · exact List.mem_append_right _ (List.mem_cons_of_mem _ ho)
  refine ⟨?_, ?_, ?_⟩
  · intro γ found get hfound other ho hother
    exact h.present hfound.behind other (hmem other ho) hother
  · intro γ found get hfound hmissing
    apply h.absent hfound.behind
    intro hin
    obtain ⟨other, ho, hother⟩ := List.mem_map.mp hin
    have hfoundkey := hfound.mem_names
    rcases List.mem_append.mp ho with ho | ho
    · exact hmissing (hother ▸ List.mem_map_of_mem (List.mem_append_left _ ho))
    · rcases List.mem_cons.mp ho with rfl | ho
      · rw [← hother, hname] at hfoundkey
        exact hkey hfoundkey
      · exact hmissing (hother ▸ List.mem_map_of_mem (List.mem_append_right _ ho))
  · intro other ho hunknown
    apply h.unknown other (hmem other ho)
    intro hin
    rcases List.mem_cons.mp hin with he | hin
    · have hsame : other.name = field.key := he
      exact hothers (hsame ▸ List.mem_map_of_mem ho)
    · exact hunknown hin

theorem Given.behind {field : Field α} {rest : Fields β} {members : List Named} {values : α × β}
    (h : (cons field rest).Given members values)
    (hmissing : field.key ∉ members.map Named.name) : rest.Given members values.2 := by
  refine ⟨fun hfound => h.present hfound.behind, fun hfound => h.absent hfound.behind, ?_⟩
  intro other ho hunknown
  apply h.unknown other ho
  intro hin
  rcases List.mem_cons.mp hin with he | hin
  · have hsame : other.name = field.key := he
    exact hmissing (hsame ▸ List.mem_map_of_mem ho)
  · exact hunknown hin

-- Members of other names leave the first field alone.
theorem others_run {field : Field α} {rest : Fields β} {members : List Named}
    {old new : rest.places.Draft} (hothers : field.key ∉ members.map Named.name)
    (value : Option α)
    (h : Run (NamedStep fun name => rest.places.readMember name) members old new) :
    Run (NamedStep fun name => (cons field rest).places.readMember name) members (value, old)
      (value, new) := by
  apply h.mapState fun draft => (value, draft)
  intro member hm old new hstep
  have hne : member.name ≠ field.key := fun he => hothers (he ▸ List.mem_map_of_mem hm)
  exact Places.other_named hne value hstep

-- In whatever order they stand, members of different names leave the values in the places.
theorem Given.run {fields : Fields β} {members : List Named} {values : β}
    (h : fields.Given members values) (hkeys : fields.places.names.Nodup)
    (hnames : (members.map Named.name).Nodup) :
    ∃ draft, Run (NamedStep fun name => fields.places.readMember name) members fields.places.blank
      draft ∧ fields.places.finish draft = .ok values := by
  induction fields generalizing members with
  | nil =>
      refine ⟨(), .still ?_, rfl⟩
      intro member hm
      exact Places.skipped_named (h.unknown member hm List.not_mem_nil)
  | @cons γ δ field rest ih =>
      obtain ⟨hkey, hkeys⟩ := List.nodup_cons.mp hkeys
      obtain ⟨value, values⟩ := values
      by_cases hin : field.key ∈ members.map Named.name
      · obtain ⟨member, hm, hname⟩ := List.mem_map.mp hin
        obtain ⟨front, behind, rfl⟩ := List.append_of_mem hm
        have hperm : ((front ++ member :: behind).map Named.name).Perm
            (member.name :: (front ++ behind).map Named.name) := List.perm_middle.map Named.name
        obtain ⟨hfresh, hrest⟩ := List.nodup_cons.mp (hperm.nodup_iff.mp hnames)
        rw [hname] at hfresh
        obtain ⟨draft, hrun, hfinish⟩ := ih (h.without hkey hname hfresh) hkeys hrest
        obtain ⟨middle, hfront, hbehind⟩ := hrun.split
        rw [List.map_append, List.mem_append, not_or] at hfresh
        have hown : Text.Takes field.place.read member.value value :=
          h.present .here member hm hname
        refine ⟨(some value, draft), ?_, ?_⟩
        · exact (others_run hfresh.1 none hfront).append
            (.cons (Places.own_named hname hown middle) (others_run hfresh.2 (some value) hbehind))
        · simp only [places, Places.finish, Option.some_or, hfinish, ok_bind, pure_eq_ok]
      · obtain ⟨draft, hrun, hfinish⟩ := ih (h.behind hin) hkeys hnames
        have hzero : value = field.cell.zero := h.absent .here hin
        have habsent : field.place.absent = some value := congrArg some hzero.symm
        refine ⟨(none, draft), others_run hin none hrun, ?_⟩
        simp only [places, Places.finish, Option.none_or, habsent, hfinish, ok_bind, pure_eq_ok]

end Fields

-- The ways to lay out a value of a form.
inductive Lays : {α : Type} → Form α → α → Bytes → Prop
  | text {value : String} {spelling : Bytes} (h : Quoted.Spells (Utf8.encode value) spelling) :
      Lays .text value (quote :: spelling)
  | bool (value : Bool) : Lays .bool value (if value then trueWord else falseWord)
  | int64 (value : Int64) : Lays .int64 value (Number.write value.toInt)
  | list {α : Type} {form : Form α} {items : List (Bytes × α)} {bytes : Bytes}
      (hs : Spread .list (items.map Prod.fst) bytes)
      (h : ∀ item ∈ items, Lays form item.2 item.1) :
      Lays (.listOf form) (items.map Prod.snd) (openList :: bytes)
  | map {α : Type} {form : Form α} {map : OrderedMap String α} {members : List (Named × α)}
      {bytes : Bytes} (hs : Spread .object ((members.map Prod.fst).map Named.bytes) bytes)
      (hperm : (members.map fun member => (member.1.name, member.2)).Perm map.entries)
      (h : ∀ member ∈ members, Lays form member.2 member.1.value) :
      Lays (.mapOf form) map (openObject :: bytes)
  | none {α : Type} (form : Form α) : Lays (.optional form) none nullWord
  | some {α : Type} {form : Form α} {value : α} {bytes : Bytes} (h : Lays form value bytes)
      (hn : bytes ≠ nullWord) : Lays (.optional form) (some value) bytes
  | null {α : Type} (form : Form α) (zero : α) : Lays (.nullAs zero form) zero nullWord
  | given {α : Type} {form : Form α} {value : α} {bytes : Bytes} (zero : α)
      (h : Lays form value bytes) (hn : bytes ≠ nullWord) : Lays (.nullAs zero form) value bytes
  | via {α β : Type} {form : Form α} {value : α} {bytes : Bytes} (wrap : α → β) (unwrap : β → α)
      (h : Lays form value bytes) : Lays (form.via wrap unwrap) (wrap value) bytes
  -- Each member of a field's name lays out its value, and a field without a member has its zero
  -- value. Members of other names have any values.
  | record {α β : Type} {fields : Fields β} {values : β} {members : List Named} {bytes : Bytes}
      (pack : β → α) (unpack : α → β) (hs : Spread .object (members.map Named.bytes) bytes)
      (hkeys : fields.places.names.Nodup) (hnames : (members.map Named.name).Nodup)
      (hpresent : ∀ {γ : Type} {field : Field γ} {get : β → γ}, fields.Has field get →
        ∀ member ∈ members, member.name = field.key → Lays field.form (get values) member.value)
      (habsent : ∀ {γ : Type} {field : Field γ} {get : β → γ}, fields.Has field get →
        field.key ∉ members.map Named.name → get values = field.cell.zero)
      (hunknown : ∀ member ∈ members, member.name ∉ fields.places.names → IsValue member.value) :
      Lays (.record fields.places pack unpack) (pack values) (openObject :: bytes)

namespace Lays

variable {form : Form α} {value : α} {bytes : Bytes}

-- An object without any of the fields lays out the record of zero values.
theorem record_zero {fields : Fields β} {members : List Named} (pack : β → α) (unpack : α → β)
    (hs : Spread .object (members.map Named.bytes) bytes) (hkeys : fields.places.names.Nodup)
    (hnames : (members.map Named.name).Nodup)
    (hunknown : ∀ member ∈ members, member.name ∉ fields.places.names ∧ IsValue member.value) :
    Lays (.record fields.places pack unpack) (pack fields.zero) (openObject :: bytes) := by
  refine .record pack unpack hs hkeys hnames ?_ ?_ ?_
  · intro γ field get hfield member hm hname
    exact absurd (hname ▸ hfield.mem_names) (hunknown member hm).1
  · intro γ field get hfield _
    exact hfield.get_zero
  · intro member hm _
    exact (hunknown member hm).2

-- Only null itself begins like null.
theorem not_null (h : Lays form value bytes) (hn : bytes ≠ nullWord) :
    ascii 'n' ∉ bytes.head? := by
  induction h with
  | text | list | map | record => exact Form.not_null_of_head rfl (by decide)
  | bool value => cases value <;> exact Form.not_null_of_head rfl (by decide)
  | int64 value =>
      obtain ⟨byte, rest, hw, hs⟩ := Number.write_head value.toInt
      exact Form.not_null_of_head hw (Number.startsNumber_ne hs).2.2
  | none | null => exact absurd rfl hn
  | some _ _ ih | given _ _ _ ih | via _ _ _ ih => exact ih hn

-- A value is read from any of its layouts.
theorem takes (h : Lays form value bytes) : Takes form.read bytes value := by
  induction h with
  | text h => exact Form.text_takes h
  | bool value => exact Form.bool_takes value
  | int64 value => exact Form.int64_takes value
  | list hs _ ih => exact Form.listOf_takes hs ih
  | map hs hperm _ ih => exact Form.mapOf_takes hs hperm ih
  | none form => exact Form.optional_null_takes form
  | some h hn ih => exact Form.optional_takes ih (h.not_null hn)
  | null form zero => exact Form.nullAs_takes zero (Form.optional_null_takes form)
  | given zero h hn ih => exact Form.nullAs_takes zero (Form.optional_takes ih (h.not_null hn))
  | via wrap unwrap _ ih => exact Form.via_takes wrap unwrap ih
  | record pack unpack hs hkeys hnames _ habsent hunknown ih =>
      have hgiven : Fields.Given _ _ _ :=
        ⟨ih, habsent, fun member hm hname => (hunknown member hm hname).skippable⟩
      obtain ⟨draft, hrun, hfinish⟩ := hgiven.run hkeys hnames
      exact Form.record_takes pack unpack hs hrun hfinish

end Lays

-- However deep it is written, the value is laid out.
def Written (form : Form α) (value : α) : Prop :=
  ∀ depth, Lays form value ((form.tree value).write depth)

namespace Written

variable {form : Form α} {value : α}

theorem text (value : String) : Written .text value := by
  intro depth
  exact .text (Quoted.spells_behindQuote value)

theorem bool (value : Bool) : Written .bool value := by
  intro depth
  have hlays := Lays.bool value
  cases value <;> exact hlays

theorem int64 (value : Int64) : Written .int64 value := fun _ => .int64 value

theorem ne_null (h : form.Restores value) (depth : Nat) :
    (form.tree value).write depth ≠ nullWord := by
  intro hnull
  exact h.present depth (by rw [hnull]; decide)

theorem list {values : List α} (h : ∀ value ∈ values, Written form value) :
    Written (.listOf form) values := by
  intro depth
  obtain ⟨body, he, hspread⟩ := form.spread_items depth values
  have hlays : Lays (.listOf form) ((form.items depth values).map Prod.snd)
      (openList :: body) := by
    refine .list hspread ?_
    intro item hi
    obtain ⟨value, hv, rfl⟩ := List.mem_map.mp hi
    exact h value hv (depth + 1)
  rwa [Form.items_values, ← he] at hlays

theorem map {map : OrderedMap String α} (h : ∀ entry ∈ map.entries, Written form entry.2) :
    Written (.mapOf form) map := by
  intro depth
  obtain ⟨body, he, hspread⟩ := form.spread_members depth map
  rw [he]
  refine .map hspread (.of_eq (form.members_entries depth map)) ?_
  intro member hm
  obtain ⟨entry, hentry, rfl⟩ := List.mem_map.mp hm
  exact h entry hentry (depth + 1)

theorem optional {value : Option α} (h : ∀ present ∈ value, Written form present)
    (hr : ∀ present ∈ value, form.Restores present) : Written (.optional form) value := by
  intro depth
  cases value with
  | none => exact .none form
  | some value => exact .some (h value rfl depth) (ne_null (hr value rfl) depth)

theorem via {value : β} (wrap : α → β) (unwrap : β → α) (h : Written form (unwrap value))
    (hback : wrap (unwrap value) = value) : Written (form.via wrap unwrap) value := by
  intro depth
  have hlays := (h depth).via wrap unwrap
  rwa [hback] at hlays

end Written

-- However deep it is written, the value is one that the field may have.
def Field.Written (field : Field α) (value : α) : Prop :=
  ∀ depth, Lays field.form value ((field.cell.text.tree value).write depth)

theorem Field.written {field : Field α} {value : α} (h : Schema.Written field.cell.text value)
    (hr : field.cell.text.Restores value) : field.Written value := by
  intro depth
  unfold form
  split
  · exact .given field.cell.zero (h depth) (Schema.Written.ne_null hr depth)
  · exact h depth

namespace Field

variable {tag : Nat} {name key : String} {nullable : Bool}

theorem written_optional_string (value : Option String) :
    (of tag name key (.optional .string)).Written value :=
  Schema.Written.optional (fun present _ => .text present) fun present _ =>
    Form.text_restores present

theorem written_optional_int64 (value : Option Int64) :
    (of tag name key (.optional .int64)).Written value :=
  Schema.Written.optional (fun present _ => .int64 present) fun present _ =>
    Form.int64_restores present

theorem written_int64 (value : Int64) :
    (mk tag name key (.single .int64) nullable).Written value :=
  written (.int64 value) (Form.int64_restores value)

theorem written_bool (value : Bool) :
    (mk tag name key (.single .bool) nullable).Written value :=
  written (.bool value) (Form.bool_restores value)

theorem written_keyed {shape : Shape α} {map : OrderedMap String α}
    (h : ∀ entry ∈ map.entries, Schema.Written shape.text entry.2)
    (hr : ∀ entry ∈ map.entries, shape.text.Restores entry.2) :
    (mk tag name key (.keyed shape) nullable).Written map :=
  written (.map h) (Form.mapOf_restores hr)

end Field

-- The member that a record writes for a field has the value of the field.
theorem Fields.Has.tree_eq {γ : Type} {field : Field γ} {fields : Fields β} {get : β → γ}
    (h : fields.Has field get) (hkeys : fields.places.names.Nodup) {values : β}
    {entry : String × Tree} (he : entry ∈ fields.places.members values)
    (hname : entry.1 = field.key) : entry.2 = field.cell.text.tree (get values) := by
  induction h with
  | @here β rest =>
      rw [members_cons field rest values.1 values.2] at he
      rcases List.mem_cons.mp he with rfl | he
      · rfl
      · have hin : field.key ∈ rest.places.names := by
          rw [← names_members rest values.2, ← hname]
          exact List.mem_map_of_mem he
        exact absurd hin (List.nodup_cons.mp hkeys).1
  | @behind α β other rest get h ih =>
      obtain ⟨hother, hkeys⟩ := List.nodup_cons.mp hkeys
      rw [members_cons other rest values.1 values.2] at he
      rcases List.mem_cons.mp he with rfl | he
      · have hsame : other.key = field.key := hname
        have hin : other.key ∈ rest.places.names := hsame ▸ h.mem_names
        exact absurd hin hother
      · exact ih hkeys he

-- A record is written with all its members.
theorem Message.written_record (message : Message α) {value : α}
    (h : message.fields.Each Field.Written (message.unpack value))
    (hkeys : message.fields.places.names.Nodup) :
    Written (Form.record message.fields.places message.pack message.unpack) value := by
  intro depth
  obtain ⟨body, he, hspread⟩ := spread_object depth
    (message.fields.places.members (message.unpack value))
  have hnames : ((message.fields.places.members (message.unpack value)).map
      (Named.written (depth + 1))).map Named.name = message.fields.places.names := by
    rw [List.map_map, ← Fields.names_members message.fields (message.unpack value)]
    rfl
  have hlays : Lays (Form.record message.fields.places message.pack message.unpack)
      (message.pack (message.unpack value)) (openObject :: body) := by
    refine .record message.pack message.unpack hspread hkeys (hnames ▸ hkeys) ?_ ?_ ?_
    · intro γ field get hfield member hm hname
      obtain ⟨entry, hentry, rfl⟩ := List.mem_map.mp hm
      have htree := hfield.tree_eq hkeys hentry hname
      have hwritten := hfield.holds h (depth + 1)
      rwa [← htree] at hwritten
    · intro γ field get hfield hmissing
      rw [hnames] at hmissing
      exact absurd hfield.mem_names hmissing
    · intro member hm hunknown
      have hname := List.mem_map_of_mem (f := Named.name) hm
      rw [hnames] at hname
      exact absurd hname hunknown
  rw [message.pack_unpack] at hlays
  exact he ▸ hlays

end TableHistory.Schema
