import TableHistory.Proofs.Schema.Fronts
import TableHistory.Proofs.Text.Without

namespace TableHistory

open Wire

variable {α β γ σ τ : Type}

-- What every field does to a state, it does to the image of the state for another reader, as long
-- as the fields in front of it leave the bytes as they have to be.
theorem Wire.readFields_image {field : σ → Reader σ} {other : τ → Reader τ} (image : σ → τ)
    {good : σ → Bytes → Prop}
    (h : ∀ ⦃state bytes next rest⦄, good state bytes → field state bytes = .ok (next, rest) →
      other (image state) bytes = .ok (image next, rest) ∧ good next rest)
    {left count : Nat} {state last : σ} {bytes rest : Bytes} (hgood : good state bytes)
    (hread : readFields field left count state bytes = .ok (last, rest)) :
    readFields other left count (image state) bytes = .ok (image last, rest) := by
  induction count generalizing state bytes with
  | zero =>
      cases hread
      rfl
  | succ count ih =>
      unfold readFields at hread ⊢
      by_cases hleft : bytes.length ≤ left
      · rw [if_pos hleft] at hread ⊢
        cases hread
        rfl
      · rw [if_neg hleft] at hread ⊢
        obtain ⟨⟨next, behind⟩, hfield, hrest⟩ := bind_eq_ok.mp hread
        obtain ⟨hother, hnext⟩ := h hgood hfield
        rw [hother, ok_bind]
        exact ih hnext hrest

namespace Schema

namespace Cell

-- What the cell reads behind a key of the wire type is skipped as far.
def Skips (cell : Cell α) (type : WireType) : Prop :=
  ∀ ⦃levels tag old new bytes rest⦄, cell.merge levels type old bytes = .ok (new, rest) →
    skip levels ⟨tag, type⟩ bytes = .ok rest

-- The entries of a map are read whatever wire type is announced, but only with the one of their
-- own they are skipped by their length.
theorem keyed_skips {shape : Shape α} (h : shape.wire.TakesFronts) :
    (keyed shape).Skips .delimited := by
  intro levels tag old new bytes rest hmerge
  cases levels with
  | zero => cases hmerge
  | succ levels =>
      obtain ⟨⟨entry, behind⟩, hentry, hmerge⟩ := bind_eq_ok.mp hmerge
      cases hmerge
      obtain ⟨pieces, hlength, _⟩ :=
        (readDelimited_iff (readEntryField_advances h levels)).mp hentry
      have hlong : ¬ (pieces.flatten ++ rest).length < pieces.flatten.length := by
        rw [List.length_append]
        omega
      simp only [skip, hlength, ok_bind, dropExact, hlong, if_false, List.drop_left]

end Cell

theorem Field.place_passes {field : Field α} (h : Text.Passes field.cell.text.read) :
    Text.Passes field.place.read := by
  unfold place Text.Place.defaulted
  by_cases hnull : field.nullable = true
  · simp only [hnull, if_true]
    exact Text.Form.nullAs_passes h _
  · simp only [hnull]
    exact h

namespace Fields

-- The fields without one of them, which none behind it can be taken for, and the values then left.
inductive Without (field : Field α) : {β γ : Type} → Fields β → Fields γ → (β → γ) → Prop
  | here {γ : Type} {rest : Fields γ} (htag : field.tag ∉ rest.tags)
      (hkey : field.key ∉ rest.places.names) : Without field (cons field rest) rest Prod.snd
  | behind {β γ δ : Type} {other : Field δ} {whole : Fields β} {part : Fields γ} {values : β → γ}
      (hrest : Without field whole part values) :
      Without field (cons other whole) (cons other part) fun all => (all.1, values all.2)

-- The name of the record has no part in what is read.
theorem merge_renamed {fields : Fields β} {message : String} (other : String) {levels : Nat}
    {key : Key} {old new : β} {bytes rest : Bytes}
    (h : fields.merge message levels key old bytes = .ok (new, rest)) :
    fields.merge other levels key old bytes = .ok (new, rest) := by
  induction fields with
  | nil => exact h
  | cons field fields ih =>
      obtain ⟨own, others⟩ := old
      by_cases hown : key.tag = field.tag
      · exact (merge_own hown).mpr ((merge_own hown).mp h)
      · obtain ⟨changed, hothers, rfl⟩ := (merge_other hown).mp h
        exact (merge_other hown).mpr ⟨changed, ih hothers, rfl⟩

namespace Without

variable {field : Field α} {whole : Fields β} {part : Fields γ} {values : β → γ}

theorem zero (h : Without field whole part values) : values whole.zero = part.zero := by
  induction h with
  | here htag hkey => rfl
  | behind hrest ih => exact congrArg (Prod.mk _) ih

theorem places (h : Without field whole part values) :
    ∃ drafts, whole.places.Without field.place part.places drafts values := by
  induction h with
  | here htag hkey => exact ⟨_, .here hkey⟩
  | behind hrest ih =>
      obtain ⟨drafts, hplaces⟩ := ih
      exact ⟨_, .behind hplaces⟩

-- The value of the field is skipped if what its cell reads can be.
theorem merge (h : Without field whole part values) {message : String} (other : String)
    {levels : Nat} {key : Key} (hskips : key.tag = field.tag → field.cell.Skips key.type)
    {old new : β} {bytes rest : Bytes}
    (hmerge : whole.merge message levels key old bytes = .ok (new, rest)) :
    part.merge other levels key (values old) bytes = .ok (values new, rest) := by
  induction h with
  | here htag hkey =>
      obtain ⟨own, others⟩ := old
      by_cases hown : key.tag = field.tag
      · obtain ⟨value, hcell, rfl⟩ := (merge_own hown).mp hmerge
        have hskip : skip levels ⟨key.tag, key.type⟩ bytes = .ok rest := hskips hown hcell
        exact (merge_unknown_iff (hown ▸ htag)).mpr ⟨hskip, rfl⟩
      · obtain ⟨changed, hothers, rfl⟩ := (merge_other hown).mp hmerge
        exact merge_renamed other hothers
  | @behind β γ δ next whole part values hrest ih =>
      obtain ⟨own, others⟩ := old
      by_cases hown : key.tag = next.tag
      · obtain ⟨value, hcell, rfl⟩ := (merge_own hown).mp hmerge
        exact (merge_own hown).mpr ⟨value, hcell, rfl⟩
      · obtain ⟨changed, hothers, rfl⟩ := (merge_other hown).mp hmerge
        exact (merge_other hown).mpr ⟨values changed, ih hothers, rfl⟩

end Without

end Fields

namespace Message

-- A key that is met where a field of the body begins, as long as the fields in front of it are
-- read.
inductive Meets (message : Message α) (levels : Nat) : α → Bytes → Key → Prop
  | first {value : α} {bytes rest : Bytes} {key : Key} (hkey : Key.read bytes = .ok (key, rest)) :
      Meets message levels value bytes key
  | later {value next : α} {bytes rest : Bytes} {key : Key}
      (hfield : message.mergeField levels value bytes = .ok (next, rest))
      (hlater : Meets message levels next rest key) : Meets message levels value bytes key

-- Wherever the field is met, its value is skipped as far as it is read.
def Leaves (message : Message α) (field : Field γ) (levels : Nat) (value : α) (bytes : Bytes) :
    Prop :=
  ∀ key, message.Meets levels value bytes key → key.tag = field.tag → field.cell.Skips key.type

-- The fields of the one type of record without one of them are those of the other.
structure Without (field : Field γ) (whole : Message α) (part : Message β) (image : α → β)
    (values : whole.β → part.β) : Prop where
  fields : whole.fields.Without field part.fields values
  unpack : ∀ value, part.unpack (image value) = values (whole.unpack value)

namespace Without

variable {field : Field γ} {whole : Message α} {part : Message β} {image : α → β}
  {values : whole.β → part.β}

theorem pack (h : Without field whole part image values) (all : whole.β) :
    image (whole.pack all) = part.pack (values all) := by
  rw [← part.pack_unpack (image (whole.pack all)), h.unpack, whole.unpack_pack]

theorem zero (h : Without field whole part image values) : image whole.zero = part.zero := by
  rw [Message.zero, h.pack, h.fields.zero, Message.zero]

theorem mergeField (h : Without field whole part image values) {levels : Nat} {old new : α}
    {bytes rest : Bytes} (hleaves : whole.Leaves field levels old bytes)
    (hmerge : whole.mergeField levels old bytes = .ok (new, rest)) :
    part.mergeField levels (image old) bytes = .ok (image new, rest) := by
  obtain ⟨⟨key, behind⟩, hkey, hmerge⟩ := bind_eq_ok.mp hmerge
  obtain ⟨⟨all, after⟩, hfields, hmerge⟩ := bind_eq_ok.mp hmerge
  cases hmerge
  have hpart := h.fields.merge part.name (hleaves key (.first hkey)) hfields
  simp only [Message.mergeField, hkey, ok_bind, h.unpack, hpart, h.pack, pure_eq_ok]

-- A structured body of the whole record.
theorem read (h : Without field whole part image values) {bytes : Bytes} {value : α}
    (hleaves : whole.Leaves field levelLimit whole.zero bytes)
    (hread : whole.read bytes = .ok value) : part.read bytes = .ok (image value) := by
  have hstep : ∀ ⦃old bytes new rest⦄, whole.Leaves field levelLimit old bytes →
      whole.mergeField levelLimit old bytes = .ok (new, rest) →
      part.mergeField levelLimit (image old) bytes = .ok (image new, rest) ∧
        whole.Leaves field levelLimit new rest := by
    intro old bytes new rest hleaves hmerge
    refine ⟨h.mergeField hleaves hmerge, ?_⟩
    intro key hmeets
    exact hleaves key (.later hmerge hmeets)
  obtain ⟨⟨last, rest⟩, hfields, rfl⟩ := map_eq_ok.mp hread
  have hpart := readFields_image image hstep hleaves hfields
  rw [h.zero] at hpart
  rw [Message.read, hpart]
  rfl

-- An object of the whole record in text.
theorem decode (h : Without field whole part image values)
    (hpasses : Text.Passes field.cell.text.read) {bytes rest : Bytes} {value : α}
    (hopen : Text.skipBlank bytes = Text.openObject :: rest)
    (hdecode : (Text.Form.record whole.fields.places whole.pack whole.unpack).decode bytes =
      .ok value) :
    (Text.Form.record part.fields.places part.pack part.unpack).decode bytes =
      .ok (image value) := by
  obtain ⟨drafts, hplaces⟩ := h.fields.places
  obtain ⟨⟨record, behind⟩, hread, hend⟩ := bind_eq_ok.mp hdecode
  have hpart : (Text.Form.record part.fields.places part.pack part.unpack).read bytes =
      .ok (image record, behind) :=
    hplaces.record (Field.place_passes hpasses) h.pack hopen hread
  dsimp only at hend
  split at hend
  · rename_i hblank
    cases hend
    simp only [Text.Form.decode, hpart, ok_bind, hblank, if_true, pure_eq_ok]
  · cases hend

end Without

end Message

end Schema

end TableHistory
