import TableHistory.Commit.Encoding
import TableHistory.Proofs.Record.Structured
import TableHistory.Proofs.Record.Texts

namespace TableHistory

open Schema Wire

-- The fields that the records of both kinds of commit begin with.
def sharedFields {β : Type} (rest : Fields β) : Fields (OrderedMap String WriteStats ×
    OrderedMap String String × Bool × Option String × β) :=
  .cons (.orNull <| .of 1 "partition_to_write_stats" "partitionToWriteStats"
    (.keyed WriteStats.message.shape)) <|
  .cons (.orNull <| .of 2 "extra_metadata" "extraMetadata" (.keyed .string)) <|
  .cons (.orNull <| .of 3 "compacted" "compacted" (.single .bool)) <|
  .cons (.of 4 "operation_type" "operationType" (.optional .string)) rest

-- The field behind them in the records of replacing commits.
def replacedField : Schema.Field (OrderedMap String ReplacedFiles) :=
  .orNull <| .of 5 "partition_to_replace_file_ids" "partitionToReplaceFileIds"
    (.keyed ReplacedFiles.message.shape)

variable {β γ : Type} {read : Fields β} {written : Fields γ}
  {stats : OrderedMap String WriteStats} {extra : OrderedMap String String} {compacted : Bool}
  {operation : Option String} {values : γ} {last : β}

theorem shared_fills (hn : (sharedFields written).places.names.Nodup)
    (h : read.places.Fills (written.places.members values) last) :
    (sharedFields read).places.Fills
      ((sharedFields written).places.members (stats, extra, compacted, operation, values))
      (stats, extra, compacted, operation, last) := by
  obtain ⟨hstats, hn⟩ := List.nodup_cons.mp hn
  obtain ⟨hextra, hn⟩ := List.nodup_cons.mp hn
  obtain ⟨hcompacted, hn⟩ := List.nodup_cons.mp hn
  obtain ⟨hoperation, _⟩ := List.nodup_cons.mp hn
  apply Fields.fills_cons _ hstats
  · apply Fields.fills_cons _ hextra
    · apply Fields.fills_cons _ hcompacted
      · apply Fields.fills_cons _ hoperation h
        exact Field.readsText_optional_string operation
      · exact Field.readsText_bool compacted
    · exact Field.readsText_keyed_string extra
  · exact Field.readsText_keyed fun entry _ => WriteStats.text_restores entry.2

theorem shared_run {message : String} {levels : Nat} (ht : (sharedFields written).WellTagged)
    (hs : ∀ chunk ∈ (sharedFields written).chunks (stats, extra, compacted, operation, values),
      chunk.bytes.length < sizeLimit)
    (h : Run (read.Takes message (levels + 3)) (written.chunks values) read.zero last) :
    Run ((sharedFields read).Takes message (levels + 3))
      ((sharedFields written).chunks (stats, extra, compacted, operation, values))
      (sharedFields read).zero (stats, extra, compacted, operation, last) := by
  obtain ⟨hn, ht⟩ := ht
  obtain ⟨hstats, hn⟩ := List.nodup_cons.mp hn
  obtain ⟨hextra, hn⟩ := List.nodup_cons.mp hn
  obtain ⟨hcompacted, hn⟩ := List.nodup_cons.mp hn
  obtain ⟨hoperation, _⟩ := List.nodup_cons.mp hn
  have hwrite : (Cell.keyed WriteStats.message.shape).Restores (levels + 3) id :=
    Cell.keyed_exact _ (Message.shape_restores (WriteStats.restores levels))
  refine Fields.run_cons hwrite (by decide) hstats (fun chunk hc => hs chunk ?_) <|
    Fields.run_cons (Cell.keyed_string _) (by decide) hextra (fun chunk hc => hs chunk ?_) <|
    Fields.run_cons (Cell.single_bool _) (by decide) hcompacted (fun chunk hc => hs chunk ?_) <|
    Fields.run_cons (Cell.optional_string _) (by decide) hoperation
      (fun chunk hc => hs chunk ?_) h
  all_goals simp only [sharedFields, Fields.chunks, List.mem_append, hc, true_or, or_true]

-- A map under an unknown tag is skipped entry by entry.
theorem unknown_run {α : Type} {field : Schema.Field (OrderedMap String α)} {shape : Shape α}
    (hcell : field.cell = .keyed shape) (message : String) (levels : Nat)
    (ht : IsTag field.tag) (map : OrderedMap String α)
    (hs : ∀ chunk ∈ field.chunks map, chunk.bytes.length < sizeLimit) :
    Run (Fields.nil.Takes message (levels + 1)) (field.chunks map) () () := by
  apply Run.still
  intro chunk hc
  have hsize := hs chunk hc
  simp only [Field.chunks, hcell, Cell.occurrences, List.map_map] at hc
  obtain ⟨entry, _, rfl⟩ := List.mem_map.mp hc
  refine ⟨ht, .delimited, Cell.writeEntry shape entry, rfl, ?_⟩
  intro rest
  simp only [Function.comp, List.length_append] at hsize
  have hentry : (Cell.writeEntry shape entry).length < sizeLimit := by omega
  have hskip := skip_writeDelimited levels field.tag _ rest (length_lt_of_writeDelimited hentry)
  simp only [Fields.merge, Function.comp, Cell.writeEntry, hskip, ok_bind, pure_eq_ok]

theorem replacedField_readsText (files : OrderedMap String ReplacedFiles) :
    replacedField.ReadsText files :=
  Field.readsText_keyed fun entry _ => ReplacedFiles.text_restores entry.2

theorem replacedField_skips (files : OrderedMap String ReplacedFiles) :
    (replacedField.cell.text.tree files).Skips := by
  apply Text.Tree.skips_object
  intro entry he
  obtain ⟨⟨path, files⟩, _, rfl⟩ := List.mem_map.mp he
  apply Text.Tree.skips_list
  intro tree ht
  obtain ⟨file, _, rfl⟩ := List.mem_map.mp ht
  exact Text.Tree.skips_text file

theorem CommitRecord.fills_commit (record : CommitRecord) :
    CommitRecord.message.fields.places.Fills
      (CommitRecord.message.fields.places.members (CommitRecord.message.unpack record))
      (CommitRecord.message.unpack record) :=
  shared_fills (by decide) (.skipped (by simp [Fields.places, Text.Places.members]))

theorem CommitRecord.fills_replace (record : ReplaceRecord) :
    CommitRecord.message.fields.places.Fills
      (ReplaceRecord.message.fields.places.members (ReplaceRecord.message.unpack record))
      (CommitRecord.message.unpack (CommitBody.replace record).asPlain) := by
  apply shared_fills (by decide)
  apply Text.Places.Fills.skipped
  intro entry he
  rw [Fields.members_cons] at he
  rw [List.mem_singleton.mp he]
  exact replacedField_skips _

theorem ReplaceRecord.fills_commit (record : CommitRecord) :
    ReplaceRecord.message.fields.places.Fills
      (CommitRecord.message.fields.places.members (CommitRecord.message.unpack record))
      (ReplaceRecord.message.unpack (CommitBody.plain record).asReplace) := by
  apply shared_fills (by decide)
  apply Text.Places.Fills.absent rfl List.not_mem_nil
  exact .skipped (by simp [Fields.places, Text.Places.members])

theorem ReplaceRecord.fills_replace (record : ReplaceRecord) :
    ReplaceRecord.message.fields.places.Fills
      (ReplaceRecord.message.fields.places.members (ReplaceRecord.message.unpack record))
      (ReplaceRecord.message.unpack record) := by
  apply shared_fills (by decide)
  exact Fields.fills ⟨replacedField_readsText _, trivial⟩ (by decide)

theorem CommitRecord.run_replace (record : ReplaceRecord)
    (hs : (ReplaceRecord.message.write record).length < sizeLimit) :
    Run (CommitRecord.message.fields.Takes CommitRecord.message.name levelLimit)
      (ReplaceRecord.message.fields.chunks (ReplaceRecord.message.unpack record))
      CommitRecord.message.fields.zero
      (CommitRecord.message.unpack (CommitBody.replace record).asPlain) := by
  have hsize := Message.length_chunk_lt hs
  have hskip : Run (Fields.nil.Takes CommitRecord.message.name levelLimit)
      ((Fields.cons replacedField .nil).chunks (record.partitionToReplaceFileIds, ())) () () := by
    have hchunks : (Fields.cons replacedField .nil).chunks (record.partitionToReplaceFileIds, ()) =
      replacedField.chunks record.partitionToReplaceFileIds := List.append_nil _
    rw [hchunks]
    apply unknown_run rfl _ _ (by decide)
    intro chunk hc
    apply hsize
    exact List.mem_append_right _ <| List.mem_append_right _ <| List.mem_append_right _ <|
      List.mem_append_right _ <| List.mem_append_left _ hc
  exact shared_run (by decide) hsize hskip

theorem ReplaceRecord.run_commit (record : CommitRecord)
    (hs : (CommitRecord.message.write record).length < sizeLimit) :
    Run (ReplaceRecord.message.fields.Takes ReplaceRecord.message.name levelLimit)
      (CommitRecord.message.fields.chunks (CommitRecord.message.unpack record))
      ReplaceRecord.message.fields.zero
      (ReplaceRecord.message.unpack (CommitBody.plain record).asReplace) :=
  shared_run (by decide) (Message.length_chunk_lt hs) (.nil _)

namespace CommitBody

-- The body of a commit of the given kind that says as much of this one as it can.
def as : CommitKind → CommitBody → CommitBody
  | .plain, body => plain body.asPlain
  | .replace, body => replace body.asReplace

theorem writeText_head (body : CommitBody) (declared : CommitKind) :
    ∃ rest, body.writeText declared = Text.openObject :: rest := by
  cases declared <;> exact Text.Tree.object_head _ 0

theorem readText_writeText (body : CommitBody) (declared target : CommitKind) :
    readText target (body.writeText declared) = .ok ((body.as declared).as target) := by
  cases declared with
  | plain =>
      cases target with
      | plain =>
          have hread := Message.readBody_record CommitRecord.message CommitRecord.message
            (CommitRecord.fills_commit body.asPlain)
          exact congrArg (Except.map plain) hread
      | replace =>
          have hread := Message.readBody_record ReplaceRecord.message CommitRecord.message
            (ReplaceRecord.fills_commit body.asPlain)
          exact congrArg (Except.map replace) hread
  | replace =>
      cases target with
      | plain =>
          have hread := Message.readBody_record CommitRecord.message ReplaceRecord.message
            (CommitRecord.fills_replace body.asReplace)
          exact congrArg (Except.map plain) hread
      | replace =>
          have hread := Message.readBody_record ReplaceRecord.message ReplaceRecord.message
            (ReplaceRecord.fills_replace body.asReplace)
          exact congrArg (Except.map replace) hread

theorem readStructured_writeStructured (body : CommitBody) (target : CommitKind)
    (hs : body.writeStructured.length < sizeLimit) :
    readStructured target body.writeStructured = .ok (body.as target) := by
  cases body with
  | plain record =>
      have hlength := Framed.length_write_lt hs
      cases target with
      | plain =>
          have hread := Framed.read_write (CommitRecord.restores _) record hlength
          exact congrArg (Except.map plain) hread
      | replace =>
          have hread := Framed.read_other ReplaceRecord.message CommitRecord.message
            (ReplaceRecord.run_commit record hlength)
          exact congrArg (Except.map replace) hread
  | replace record =>
      have hlength := Framed.length_write_lt hs
      cases target with
      | plain =>
          have hread := Framed.read_other CommitRecord.message ReplaceRecord.message
            (CommitRecord.run_replace record hlength)
          exact congrArg (Except.map plain) hread
      | replace =>
          have hread := Framed.read_write (ReplaceRecord.restores _) record hlength
          exact congrArg (Except.map replace) hread

end CommitBody

end TableHistory
