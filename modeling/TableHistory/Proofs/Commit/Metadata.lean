import TableHistory.Proofs.Commit.Bodies

namespace TableHistory

namespace Partition

variable {ν μ : Type}

-- A map of partitions without the entry of the null partition.
def withoutNull (map : OrderedMap Partition ν) : OrderedMap Partition ν where
  entries := map.entries.filter fun entry => entry.1.isSome
  ascending := map.ascending.filter _

theorem ofPaths_pathsOnly (map : OrderedMap Partition ν) (there : ν → μ) (back : μ → ν)
    (h : ∀ value, back (there value) = value) :
    ofPaths back (pathsOnly there map) = withoutNull map := by
  apply OrderedMap.ext
  simp only [ofPaths, pathsOnly, withoutNull, List.map_filterMap]
  generalize map.entries = entries
  induction entries with
  | nil => rfl
  | cons entry entries ih =>
      obtain ⟨partition, value⟩ := entry
      cases partition with
      | none => simpa using ih
      | some path => simpa [h] using ih

end Partition

namespace CommitMetadata

def withoutNull (metadata : CommitMetadata) : CommitMetadata :=
  { metadata with
    partitionToWriteStats := Partition.withoutNull metadata.partitionToWriteStats }

theorem ofRecord_record (metadata : CommitMetadata) :
    ofRecord metadata.record = metadata.withoutNull := by
  have hstats := Partition.ofPaths_pathsOnly metadata.partitionToWriteStats
    WriteStats.mk WriteStats.stats fun _ => rfl
  simp only [ofRecord, record, withoutNull, hstats]

end CommitMetadata

namespace Metadata

-- Each map of partitions loses its own null entry.
def withoutNull : Metadata → Metadata
  | plain metadata => plain metadata.withoutNull
  | replace metadata =>
    replace
      { base := metadata.base.withoutNull
        partitionToReplaceFileIds := Partition.withoutNull metadata.partitionToReplaceFileIds }

-- The metadata of a commit of the given kind that says as much of this one as it can.
def as : CommitKind → Metadata → Metadata
  | .plain, metadata => plain metadata.base
  | .replace, plain metadata => replace { base := metadata }
  | .replace, replace metadata => replace metadata

theorem ofBody_body (metadata : Metadata) : ofBody metadata.body = metadata.withoutNull := by
  cases metadata with
  | plain metadata => exact congrArg plain metadata.ofRecord_record
  | replace metadata =>
      have hbase : CommitMetadata.ofRecord (CommitBody.replace metadata.record).asPlain =
          metadata.base.withoutNull := metadata.base.ofRecord_record
      have hfiles := Partition.ofPaths_pathsOnly metadata.partitionToReplaceFileIds
        ReplacedFiles.mk ReplacedFiles.fileIds fun _ => rfl
      simp only [body, ofBody, ReplaceMetadata.ofRecord, hbase, withoutNull]
      simp only [ReplaceMetadata.record, hfiles]

theorem ofBody_as (body : CommitBody) (kind : CommitKind) :
    ofBody (body.as kind) = (ofBody body).as kind := by
  cases body <;> cases kind <;> rfl

-- Structured bodies begin with their header, so they are not empty.
theorem decode_writeStructured (body : CommitBody) (target : CommitKind)
    (hs : body.writeStructured.length < Wire.sizeLimit) :
    (decode target body.writeStructured).result = .ok ((ofBody body).as target) := by
  have hne : body.writeStructured.isEmpty = false := by cases body <;> rfl
  have hread := body.readStructured_writeStructured target hs
  rw [← ofBody_as]
  simp only [decode, hne, Bool.false_eq_true, if_false, hread]
  rfl

theorem decodeText_writeText (body : CommitBody) (declared target : CommitKind) :
    decodeText target (body.writeText declared) = .ok (((ofBody body).as declared).as target) := by
  obtain ⟨rest, he⟩ := body.writeText_head declared
  have hne : (body.writeText declared).isEmpty = false := by rw [he]; rfl
  have hread := body.readText_writeText declared target
  simp only [decodeText, hne, Bool.false_eq_true, if_false, hread, ofBody_as]

-- A text is never taken for a structured body.
theorem decode_writeText (body : CommitBody) (declared target : CommitKind) :
    (decode target (body.writeText declared)).result =
      .ok (((ofBody body).as declared).as target) := by
  obtain ⟨rest, he⟩ := body.writeText_head declared
  have hne : (body.writeText declared).isEmpty = false := by rw [he]; rfl
  obtain ⟨fault, hstructured⟩ : ∃ fault,
      CommitBody.readStructured target (body.writeText declared) = .error fault := by
    rw [he]
    cases target with
    | plain => exact ⟨_, rfl⟩
    | replace => exact ⟨_, rfl⟩
  have hread := body.readText_writeText declared target
  simp only [decode, hne, Bool.false_eq_true, if_false, hstructured, hread, ofBody_as]
  rfl

-- What every reader gets of the metadata that was encoded: all of it but the null partitions, as
-- the kind of commit it asks for. Text says so for the kind it was declared as, too. Lengths are
-- varints, so structured bodies from 2 ^ 64 bytes on are left out.
theorem decode_encode (metadata : Metadata) :
    (metadata.body.writeStructured.length < 2 ^ 64 → ∀ target,
      (do decode target (← metadata.encode)).result = .ok (metadata.withoutNull.as target)) ∧
    ∀ declared target,
      (do decode target ((← metadata.toBody).writeText declared)).result =
        .ok ((metadata.withoutNull.as declared).as target) ∧
      (do Traced.ofExcept (decodeText target ((← metadata.toBody).writeText declared))).result =
        .ok ((metadata.withoutNull.as declared).as target) := by
  rw [← metadata.ofBody_body]
  constructor
  · intro hs target
    exact decode_writeStructured metadata.body target hs
  · intro declared target
    constructor
    · exact decode_writeText metadata.body declared target
    · exact decodeText_writeText metadata.body declared target

-- A commit that wrote to and replaced files of the null partition only.
def ofNullPartition : Metadata :=
  replace
    { base := { partitionToWriteStats := .insert .empty none [{}], operationType := some "" }
      partitionToReplaceFileIds := .insert .empty none ["file"] }

theorem decode_encode_ofNullPartition :
    ofNullPartition.body.writeStructured.length < 2 ^ 64 ∧
      (do decode .plain (← ofNullPartition.encode)).result =
        .ok (plain { operationType := some "" }) :=
  ⟨by decide, (decode_encode ofNullPartition).1 (by decide) .plain⟩

end Metadata

end TableHistory
