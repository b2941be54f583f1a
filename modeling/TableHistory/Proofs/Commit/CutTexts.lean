import TableHistory.Proofs.Commit.Bodies
import TableHistory.Proofs.Commit.Encodings
import TableHistory.Proofs.Schema.CutTexts

namespace TableHistory

open Schema
open Framed (header)

theorem WriteStat.textCutOff (value : WriteStat) :
    WriteStat.message.fields.TextCutOff (WriteStat.message.unpack value) := by
  have hstring : ∀ {tag name key} {value : Option String},
      (Field.of tag name key (.optional .string)).TextCutOff value :=
    Field.textCutOff_optional_string _
  have hcount : ∀ {tag name key} {value : Int64},
      (Field.of tag name key (.single .int64)).TextCutOff value :=
    Field.textCutOff_int64 _
  have htime : ∀ {tag name key} {value : Option Int64},
      (Field.of tag name key (.optional .int64)).TextCutOff value :=
    Field.textCutOff_optional_int64 _
  exact ⟨hstring, hstring, hstring, hcount, hcount, hcount, hcount, hcount, hcount, hstring,
    hstring, hcount, hcount, hcount, hcount, hcount, hcount, hcount, hcount, htime, htime, trivial⟩

theorem WriteStats.text_cutOff (value : WriteStats) : WriteStats.message.text.CutOff value := by
  apply Message.ofCell_cutOff
  apply Text.Form.listOf_cutOff
  intro stat _
  exact ⟨WriteStat.text_restores stat,
    Message.record_cutOff WriteStat.message (WriteStat.readsText stat) (WriteStat.textCutOff stat)
      (by decide)⟩

theorem ReplacedFiles.text_cutOff (value : ReplacedFiles) :
    ReplacedFiles.message.text.CutOff value := by
  apply Message.ofCell_cutOff
  apply Text.Form.listOf_cutOff
  intro file _
  exact ⟨Text.Form.text_restores file, Text.Form.text_cutOff file⟩

variable {β γ : Type} {read : Fields β} {written : Fields γ}
  {stats : OrderedMap String WriteStats} {extra : OrderedMap String String} {compacted : Bool}
  {operation : Option String} {values : γ}

theorem shared_cutOff (hn : (sharedFields written).places.names.Nodup)
    (h : written.CutOff values read) :
    (sharedFields written).CutOff (stats, extra, compacted, operation, values)
      (sharedFields read) := by
  obtain ⟨hstats, hn⟩ := List.nodup_cons.mp hn
  obtain ⟨hextra, hn⟩ := List.nodup_cons.mp hn
  obtain ⟨hcompacted, hn⟩ := List.nodup_cons.mp hn
  obtain ⟨hoperation, _⟩ := List.nodup_cons.mp hn
  have hentry : ∀ entry ∈ stats.entries, WriteStats.message.shape.text.Restores entry.2 ∧
      WriteStats.message.shape.text.CutOff entry.2 :=
    fun entry _ => ⟨WriteStats.text_restores entry.2, WriteStats.text_cutOff entry.2⟩
  apply Fields.cutOff_cons (Field.textCutOff_keyed hentry) hstats
  apply Fields.cutOff_cons (Field.textCutOff_keyed_string extra) hextra
  apply Fields.cutOff_cons (Field.textCutOff_bool compacted) hcompacted
  exact Fields.cutOff_cons (Field.textCutOff_optional_string operation) hoperation h

theorem replacedField_textCutOff (files : OrderedMap String ReplacedFiles) :
    replacedField.TextCutOff files :=
  Field.textCutOff_keyed fun entry _ =>
    ⟨ReplacedFiles.text_restores entry.2, ReplacedFiles.text_cutOff entry.2⟩

theorem replacedField_skipsCut (files : OrderedMap String ReplacedFiles) :
    (replacedField.cell.text.tree files).SkipsCut := by
  apply Text.Tree.skipsCut_object
  intro entry he
  obtain ⟨⟨path, files⟩, _, rfl⟩ := List.mem_map.mp he
  apply Text.Tree.skipsCut_list
  intro tree ht
  obtain ⟨file, _, rfl⟩ := List.mem_map.mp ht
  exact Text.Tree.skipsCut_text file

-- The members of a plain commit have places in a record of either kind.
theorem CommitRecord.cutOff_shared (record : CommitRecord) (read : Fields β) :
    CommitRecord.message.fields.CutOff (CommitRecord.message.unpack record) (sharedFields read) :=
  shared_cutOff (by decide) (Fields.cutOff_nil read)

theorem ReplaceRecord.cutOff_commit (record : ReplaceRecord) :
    ReplaceRecord.message.fields.CutOff (ReplaceRecord.message.unpack record)
      CommitRecord.message.fields := by
  apply shared_cutOff (by decide)
  -- The files replaced have no place in a plain commit.
  intro entry he depth
  rw [Fields.members_cons] at he
  rw [List.mem_singleton.mp he]
  exact (replacedField_skipsCut record.partitionToReplaceFileIds).ends depth

theorem ReplaceRecord.cutOff_replace (record : ReplaceRecord) :
    ReplaceRecord.message.fields.CutOff (ReplaceRecord.message.unpack record)
      ReplaceRecord.message.fields := by
  apply shared_cutOff (by decide)
  exact Fields.cutOff_cons (replacedField_textCutOff record.partitionToReplaceFileIds)
    List.not_mem_nil (Fields.cutOff_nil .nil)

namespace CommitBody

variable {body : CommitBody} {front more : Bytes}

theorem readText_writeText_cut (declared target : CommitKind)
    (hcut : body.writeText declared = front ++ more) (hmore : more ≠ []) :
    readText target front = .error (.text .ended) := by
  cases declared with
  | plain =>
      cases target with
      | plain =>
          have hread := Message.readBody_cut CommitRecord.message CommitRecord.message
            (CommitRecord.fills_commit body.asPlain) (body.asPlain.cutOff_shared .nil) hcut hmore
          exact congrArg (Except.map plain) hread
      | replace =>
          have hread := Message.readBody_cut ReplaceRecord.message CommitRecord.message
            (ReplaceRecord.fills_commit body.asPlain) (body.asPlain.cutOff_shared _) hcut hmore
          exact congrArg (Except.map replace) hread
  | replace =>
      cases target with
      | plain =>
          have hread := Message.readBody_cut CommitRecord.message ReplaceRecord.message
            (CommitRecord.fills_replace body.asReplace) body.asReplace.cutOff_commit hcut hmore
          exact congrArg (Except.map plain) hread
      | replace =>
          have hread := Message.readBody_cut ReplaceRecord.message ReplaceRecord.message
            (ReplaceRecord.fills_replace body.asReplace) body.asReplace.cutOff_replace hcut hmore
          exact congrArg (Except.map replace) hread

theorem no_header_of_writeText_cut {declared : CommitKind}
    (hcut : body.writeText declared = front ++ more) : ¬ header <+: front := by
  rintro ⟨rest, rfl⟩
  obtain ⟨text, htext⟩ := body.writeText_head declared
  rw [htext, List.append_assoc] at hcut
  exact absurd (List.cons_eq_cons.mp hcut).1 (by decide)

end CommitBody

namespace Metadata

-- What is left of the text of a commit when its end is missing, even nothing, is refused as one
-- of either kind for ending too early. Both readers of metadata refuse it with its length, unless
-- nothing is left.
theorem decode_textCut {body : CommitBody} {declared : CommitKind} {front more : Bytes}
    (hcut : body.writeText declared = front ++ more) (hmore : more ≠ []) (target : CommitKind) :
    CommitBody.readText target front = .error (.text .ended) ∧
      (front ≠ [] →
        (decode target front).result = .error
          (.unreadable front.length (.missingHeader front.length) (.text .ended)) ∧
        decodeText target front = .error (.unreadableText front.length (.text .ended))) := by
  have hread := CommitBody.readText_writeText_cut declared target hcut hmore
  refine ⟨hread, fun hfront => ⟨?_, ?_⟩⟩
  · rw [decode_result hfront, hread, CommitBody.readStructured_no_header target
      (CommitBody.no_header_of_writeText_cut hcut)]
  · rw [decodeText_result hfront, hread]

def oneReplaced : ReplaceRecord where
  partitionToReplaceFileIds := .ofList [("p", { fileIds := ["f1"] })]

-- Its text up to the first letter of the file group replaced, which a plain commit skips.
def cutInFileId : Bytes :=
  ("\x7b\n  \"partitionToWriteStats\": \x7b\x7d,\n  \"extraMetadata\": \x7b\x7d,\n".toList ++
    "  \"compacted\": false,\n  \"operationType\": null,\n".toList ++
    "  \"partitionToReplaceFileIds\": \x7b\n    \"p\": [\n      \"f".toList).map Text.ascii

def behindFileId : Bytes := "1\"\n    ]\n  \x7d\n\x7d".toList.map Text.ascii

theorem decode_textCut_inFileId :
    (CommitBody.replace oneReplaced).writeText .replace = cutInFileId ++ behindFileId ∧
      (decode .plain cutInFileId).result =
        .error (.unreadable 155 (.missingHeader 155) (.text .ended)) ∧
      decodeText .plain cutInFileId = .error (.unreadableText 155 (.text .ended)) := by
  have hcut : (CommitBody.replace oneReplaced).writeText .replace =
      cutInFileId ++ behindFileId := by rfl
  obtain ⟨hdecode, htext⟩ := (decode_textCut hcut (by decide) .plain).2 (by decide)
  exact ⟨hcut, hdecode, htext⟩

end Metadata

end TableHistory
