import TableHistory.Proofs.Commit.Encodings
import TableHistory.Proofs.Commit.Metadata

namespace TableHistory

namespace Partition

variable {ν μ : Type}

theorem none_notMem_ofPaths (convert : ν → μ) (map : OrderedMap String ν) :
    none ∉ (ofPaths convert map).keys := by
  intro h
  obtain ⟨entry, hentry, hkey⟩ := List.mem_map.mp h
  obtain ⟨path, _, rfl⟩ := List.mem_map.mp hentry
  cases hkey

theorem pathsOnly_ofPaths (map : OrderedMap String ν) (there : ν → μ) (back : μ → ν)
    (h : ∀ value, back (there value) = value) :
    pathsOnly back (ofPaths there map) = map := by
  apply OrderedMap.ext
  have hentry : ∀ entry : String × ν, (entry.1, back (there entry.2)) = entry := by
    intro entry
    rw [h]
  simp only [ofPaths, pathsOnly, List.filterMap_map, Function.comp_def, Option.map_some, hentry,
    List.filterMap_some]

end Partition

theorem CommitMetadata.record_ofRecord (record : CommitRecord) :
    (ofRecord record).record = record := by
  have hstats := Partition.pathsOnly_ofPaths record.partitionToWriteStats
    WriteStats.stats WriteStats.mk fun _ => rfl
  simp only [CommitMetadata.record, ofRecord, hstats]

theorem ReplaceMetadata.record_ofRecord (record : ReplaceRecord) :
    (ofRecord record).record = record := by
  have hbase := CommitMetadata.record_ofRecord (CommitBody.replace record).asPlain
  have hfiles := Partition.pathsOnly_ofPaths record.partitionToReplaceFileIds
    ReplacedFiles.fileIds ReplacedFiles.mk fun _ => rfl
  simp only [ReplaceMetadata.record, ofRecord, hbase, hfiles]
  rfl

namespace CommitBody

variable {kind : CommitKind} {bytes : Bytes} {body : CommitBody}

theorem kind_of_readStructured (h : readStructured kind bytes = .ok body) : body.kind = kind := by
  cases kind with
  | plain =>
      obtain ⟨record, _, rfl⟩ := map_eq_ok.mp h
      rfl
  | replace =>
      obtain ⟨record, _, rfl⟩ := map_eq_ok.mp h
      rfl

theorem kind_of_readText (h : readText kind bytes = .ok body) : body.kind = kind := by
  cases kind with
  | plain =>
      obtain ⟨record, _, rfl⟩ := map_eq_ok.mp h
      rfl
  | replace =>
      obtain ⟨record, _, rfl⟩ := map_eq_ok.mp h
      rfl

theorem writeStructured_eq (body : CommitBody) :
    ∃ fields, body.writeStructured = Framed.header ++ fields := by
  cases body with
  | plain record => exact ⟨_, rfl⟩
  | replace record => exact ⟨_, rfl⟩

end CommitBody

namespace Metadata

variable {kind : CommitKind} {bytes : Bytes} {metadata : Metadata}

-- The partitions that metadata has entries of, null or not.
def partitions : Metadata → List Partition
  | plain metadata => metadata.partitionToWriteStats.keys
  | replace metadata =>
    metadata.base.partitionToWriteStats.keys ++ metadata.partitionToReplaceFileIds.keys

theorem none_notMem_partitions (body : CommitBody) : none ∉ (ofBody body).partitions := by
  cases body with
  | plain record => exact Partition.none_notMem_ofPaths _ _
  | replace record =>
      intro h
      rcases List.mem_append.mp h with h | h
      · exact Partition.none_notMem_ofPaths _ _ h
      · exact Partition.none_notMem_ofPaths _ _ h

theorem body_ofBody (body : CommitBody) : (ofBody body).body = body := by
  cases body with
  | plain record => exact congrArg CommitBody.plain (CommitMetadata.record_ofRecord record)
  | replace record => exact congrArg CommitBody.replace (ReplaceMetadata.record_ofRecord record)

theorem kind_ofBody (body : CommitBody) : (ofBody body).kind = body.kind := by
  cases body <;> rfl

theorem as_kind (metadata : Metadata) : metadata.as metadata.kind = metadata := by
  cases metadata <;> rfl

-- Metadata of the given kind as some body holds it, as all metadata that was read is.
def Bodied (kind : CommitKind) (metadata : Metadata) : Prop :=
  ∃ body : CommitBody, body.kind = kind ∧ ofBody body = metadata

namespace Bodied

theorem none_notMem (h : Bodied kind metadata) : none ∉ metadata.partitions := by
  obtain ⟨body, _, rfl⟩ := h
  exact none_notMem_partitions body

theorem kind_eq (h : Bodied kind metadata) : metadata.kind = kind := by
  obtain ⟨body, hkind, rfl⟩ := h
  rw [kind_ofBody, hkind]

-- Nothing of it is lost in a body.
theorem ofBody_body (h : Bodied kind metadata) : ofBody metadata.body = metadata := by
  obtain ⟨body, _, rfl⟩ := h
  rw [body_ofBody]

theorem as_eq (h : Bodied kind metadata) : metadata.as kind = metadata := by
  rw [← h.kind_eq, as_kind]

end Bodied

theorem bodied_ofBody (body : CommitBody) : Bodied body.kind (ofBody body) := ⟨body, rfl, rfl⟩

-- No bytes are read as the metadata of an empty record.
theorem bodied_zero (kind : CommitKind) : Bodied kind (zero kind) := by
  cases kind with
  | plain => exact ⟨.plain {}, rfl, rfl⟩
  | replace => exact ⟨.replace {}, rfl, rfl⟩

theorem bodied_of_decode (h : (decode kind bytes).result = .ok metadata) :
    Bodied kind metadata := by
  by_cases hne : bytes = []
  · subst hne
    obtain rfl := Except.ok.inj h
    exact bodied_zero kind
  · rw [decode_result hne] at h
    cases hstructured : CommitBody.readStructured kind bytes with
    | ok body =>
        rw [hstructured] at h
        exact ⟨body, CommitBody.kind_of_readStructured hstructured, Except.ok.inj h⟩
    | error structured =>
        cases htext : CommitBody.readText kind bytes with
        | ok body =>
            rw [hstructured, htext] at h
            exact ⟨body, CommitBody.kind_of_readText htext, Except.ok.inj h⟩
        | error text =>
            rw [hstructured, htext] at h
            cases h

-- Both encodings of such metadata are read as it, the text by either reader.
theorem decode_writeStructured_of_bodied (h : Bodied kind metadata)
    (hs : metadata.body.writeStructured.length < Wire.sizeLimit) :
    (decode kind metadata.body.writeStructured).result = .ok metadata := by
  rw [decode_writeStructured metadata.body kind hs, h.ofBody_body, h.as_eq]

theorem decodeText_writeText_of_bodied (h : Bodied kind metadata) :
    decodeText kind (metadata.body.writeText metadata.kind) = .ok metadata := by
  rw [decodeText_writeText, h.ofBody_body, as_kind, h.as_eq]

theorem decodeText_writeStructured (body : CommitBody) (target : CommitKind) :
    ∃ fault, decodeText target body.writeStructured = .error fault := by
  obtain ⟨fields, hfields⟩ := body.writeStructured_eq
  rw [hfields]
  exact ⟨_, decodeText_header target fields⟩

end Metadata

namespace Era

variable {era : Era} {kind : CommitKind} {bytes : Bytes} {metadata : Metadata}

theorem bodied_of_decode (h : (era.decode kind bytes).result = .ok metadata) :
    metadata.Bodied kind := by
  cases era with
  | text => exact Metadata.bodied_of_decode (Metadata.decode_of_decodeText h)
  | structured => exact Metadata.bodied_of_decode h

-- Reads a body and writes its metadata again.
def recode (era : Era) (kind : CommitKind) (bytes : Bytes) : Traced CommitFault Bytes := do
  era.encode (← era.decode kind bytes)

-- What was read can be written again in either era: the structured era reads it back from both
-- encodings, and the text era from text, while it reads no structured body at all. A structured
-- body that was written from a record is written again byte for byte.
theorem decode_recoded :
    (∀ era kind bytes metadata, (decode era kind bytes).result = .ok metadata →
      none ∉ metadata.partitions ∧
      (metadata.body.writeStructured.length < 2 ^ 64 → ∀ writer : Era,
        (do structured.decode kind (← writer.encode metadata)).result = .ok metadata) ∧
      (do text.decode kind (← text.encode metadata)).result = .ok metadata ∧
      ∀ target, ∃ fault,
        (do text.decode target (← structured.encode metadata)).result = .error fault) ∧
    ∀ body : CommitBody, body.writeStructured.length < 2 ^ 64 →
      (structured.recode body.kind body.writeStructured).result = .ok body.writeStructured := by
  constructor
  · intro era kind bytes metadata hread
    have hbodied := bodied_of_decode hread
    have htext := Metadata.decodeText_writeText_of_bodied hbodied
    refine ⟨hbodied.none_notMem, ?_, htext, ?_⟩
    · intro hs writer
      cases writer with
      | text => exact Metadata.decode_of_decodeText htext
      | structured => exact Metadata.decode_writeStructured_of_bodied hbodied hs
    · intro target
      exact Metadata.decodeText_writeStructured metadata.body target
  · intro body hs
    have hread : (structured.decode body.kind body.writeStructured).result =
        .ok (Metadata.ofBody body) := by
      have hdecode := Metadata.decode_writeStructured body body.kind hs
      rwa [(Metadata.bodied_ofBody body).as_eq] at hdecode
    rw [recode, Traced.result_bind, hread]
    exact congrArg Except.ok (congrArg CommitBody.writeStructured (Metadata.body_ofBody body))

-- Fields out of order, one of them twice: the last counts, and only that one is written again.
def scattered : Bytes := Framed.header ++ [0x22, 1, 0x41, 0x18, 1, 0x22, 0]

-- What they say: a compacted commit of an operation with an empty name.
def scatteredMetadata : Metadata :=
  .replace { base := { compacted := true, operationType := some "" } }

theorem decode_recoded_scattered :
    (structured.decode .replace scattered).result = .ok scatteredMetadata ∧
    scatteredMetadata.body.writeStructured = Framed.header ++ [0x18, 1, 0x22, 0] ∧
    (∀ writer : Era, (do structured.decode .replace (← writer.encode scatteredMetadata)).result =
      .ok scatteredMetadata) ∧
    (structured.recode .replace scatteredMetadata.body.writeStructured).result =
      .ok scatteredMetadata.body.writeStructured := by
  have hread : (structured.decode .replace scattered).result = .ok scatteredMetadata := rfl
  have hsize : scatteredMetadata.body.writeStructured.length < 2 ^ 64 := by decide
  have hagain := (decode_recoded.1 structured .replace scattered scatteredMetadata hread).2.1 hsize
  exact ⟨hread, rfl, hagain, decode_recoded.2 scatteredMetadata.body hsize⟩

end Era

end TableHistory
