import TableHistory.Proofs.Commit.Encodings
import TableHistory.Proofs.Commit.Metadata
import TableHistory.Proofs.Schema.Without

namespace TableHistory

open Schema
open Framed (header)

variable {β γ : Type}

theorem sharedFields_without {field : Schema.Field γ} {δ : Type} {whole : Fields β}
    {part : Fields δ} {values : β → δ} (h : whole.Without field part values) :
    (sharedFields whole).Without field (sharedFields part)
      fun all => (all.1, all.2.1, all.2.2.1, all.2.2.2.1, values all.2.2.2.2) :=
  .behind (.behind (.behind (.behind h)))

theorem replacedField_passes : Text.Passes replacedField.cell.text.read :=
  Text.Form.mapOf_passes ((Text.Form.listOf_passes Text.Form.text_passes).map ReplacedFiles.mk)

theorem replacedField_skips_delimited : replacedField.cell.Skips .delimited :=
  Cell.keyed_skips (Message.shape_fronts ⟨Wire.Form.text_fronts, trivial⟩)

theorem ReplaceRecord.without_replaced :
    Message.Without replacedField ReplaceRecord.message CommitRecord.message
      (fun record => (CommitBody.replace record).asPlain)
      (fun all => (all.1, all.2.1, all.2.2.1, all.2.2.2.1, all.2.2.2.2.2)) where
  fields := sharedFields_without (.here List.not_mem_nil List.not_mem_nil)
  unpack := fun _ => rfl

namespace CommitBody

variable {bytes rest : Bytes} {body : CommitBody}

theorem readFields_plain
    (hkeys : ∀ key, ReplaceRecord.message.Meets Wire.levelLimit ReplaceRecord.message.zero bytes
      key → key.tag = replacedField.tag → key.type = .delimited)
    (h : readFields .replace bytes = .ok body) :
    readFields .plain bytes = .ok (body.as .plain) := by
  obtain ⟨record, hread, rfl⟩ := map_eq_ok.mp h
  have hleaves : ReplaceRecord.message.Leaves replacedField Wire.levelLimit
      ReplaceRecord.message.zero bytes := by
    intro key hmeets htag
    rw [hkeys key hmeets htag]
    exact replacedField_skips_delimited
  have hplain := ReplaceRecord.without_replaced.read hleaves hread
  exact map_eq_ok.mpr ⟨_, hplain, rfl⟩

theorem readText_plain (hopen : Text.skipBlank bytes = Text.openObject :: rest)
    (h : readText .replace bytes = .ok body) : readText .plain bytes = .ok (body.as .plain) := by
  obtain ⟨record, hbody, rfl⟩ := map_eq_ok.mp h
  have hdecode := mapError_eq_ok.mp hbody
  have hplain := ReplaceRecord.without_replaced.decode replacedField_passes hopen hdecode
  exact map_eq_ok.mpr ⟨_, mapError_eq_ok.mpr hplain, rfl⟩

end CommitBody

namespace Metadata

-- The structured header begins with a letter.
theorem not_header_of_object {bytes rest : Bytes}
    (h : Text.skipBlank bytes = Text.openObject :: rest) : ¬ header <+: bytes := by
  rintro ⟨body, rfl⟩
  have hletter : Text.skipBlank (header ++ body) = header ++ body :=
    Text.skipBlank_cons (by decide) _
  rw [hletter] at h
  cases h

theorem ofBody_plain {record : CommitBody} {metadata : ReplaceMetadata}
    (h : ofBody record = replace metadata) : ofBody (record.as .plain) = plain metadata.base := by
  rw [ofBody_as, h]
  rfl

-- A body that can be read as a replacing commit can be read as a plain one, and gives what both
-- kinds have in common. No bytes do, any text of an object does, and so does a structured body in
-- which the replaced files, wherever they are met, have the wire type that they are written with.
theorem decode_plain_of_replace {bytes : Bytes} {metadata : ReplaceMetadata}
    (h : (decode .replace bytes).result = .ok (replace metadata))
    (hform : bytes = [] ∨ (∃ rest, Text.skipBlank bytes = Text.openObject :: rest) ∨
      ∃ body, bytes = header ++ body ∧ ∀ key, ReplaceRecord.message.Meets Wire.levelLimit
        ReplaceRecord.message.zero body key → key.tag = 5 → key.type = .delimited) :
    (decode .plain bytes).result = .ok (plain metadata.base) := by
  rcases hform with rfl | ⟨rest, hopen⟩ | ⟨body, rfl, hkeys⟩
  · cases h
    rfl
  · have hne : bytes ≠ [] := by
      rintro rfl
      cases hopen
    have hheader := not_header_of_object hopen
    rw [decode_no_header hne hheader, decodeText_result hne] at h ⊢
    cases hread : CommitBody.readText .replace bytes with
    | error fault =>
        rw [hread] at h
        cases h
    | ok record =>
        rw [hread] at h
        rw [CommitBody.readText_plain hopen hread]
        exact congrArg Except.ok (ofBody_plain (Except.ok.inj h))
  · rw [decode_header] at h ⊢
    cases hread : CommitBody.readFields .replace body with
    | error fault =>
        rw [hread] at h
        cases h
    | ok record =>
        rw [hread] at h
        rw [CommitBody.readFields_plain hkeys hread]
        exact congrArg Except.ok (ofBody_plain (Except.ok.inj h))

-- Replaced files of a partition without a name in front of all else, and a field that no commit
-- has.
theorem decode_plain_of_replace_unordered :
    (decode .replace (header ++ [0x2a, 2, 0x0a, 0, 0x38, 5, 0x18, 1])).result =
      .ok (replace { base := { compacted := true }
                     partitionToReplaceFileIds := .insert .empty (some "") [] }) ∧
    (decode .plain (header ++ [0x2a, 2, 0x0a, 0, 0x38, 5, 0x18, 1])).result =
      .ok (plain { compacted := true }) := by
  have hread : (decode .replace (header ++ [0x2a, 2, 0x0a, 0, 0x38, 5, 0x18, 1])).result =
      .ok (replace { base := { compacted := true }
                     partitionToReplaceFileIds := .insert .empty (some "") [] }) := rfl
  have hkeys : ∀ key, ReplaceRecord.message.Meets Wire.levelLimit ReplaceRecord.message.zero
      [0x2a, 2, 0x0a, 0, 0x38, 5, 0x18, 1] key → key.tag = 5 → key.type = .delimited := by
    intro key hmeets htag
    cases hmeets with
    | first hkey =>
        cases hkey
        rfl
    | later hfield hmeets =>
        cases hfield
        cases hmeets with
        | first hkey =>
            cases hkey
            cases htag
        | later hfield hmeets =>
            cases hfield
            cases hmeets with
            | first hkey =>
                cases hkey
                cases htag
            | later hfield hmeets =>
                cases hfield
                cases hmeets with
                | first hkey => cases hkey
                | later hfield hmeets => cases hfield
  exact ⟨hread, decode_plain_of_replace hread (.inr (.inr ⟨_, rfl, hkeys⟩))⟩

end Metadata

end TableHistory
