import TableHistory.Commit.Metadata
import TableHistory.Note

namespace TableHistory

namespace Partition

-- The entries of partitions with a path, by path.
def pathsOnly {ν μ : Type} (convert : ν → μ) (map : OrderedMap Partition ν) :
    OrderedMap String μ where
  entries := map.entries.filterMap fun entry => entry.1.map fun path => (path, convert entry.2)
  ascending := by
    refine List.pairwise_filterMap.mpr (map.ascending.imp ?_)
    rintro ⟨left, x⟩ ⟨right, y⟩ h entry hleft other hright
    cases left with
    | none => simp at hleft
    | some left =>
        cases right with
        | none => simp at hright
        | some right =>
            simp only [Option.map_some, Option.some.injEq] at hleft hright
            subst hleft hright
            exact h

def ofPaths {ν μ : Type} (convert : ν → μ) (map : OrderedMap String ν) :
    OrderedMap Partition μ where
  entries := map.entries.map fun entry => (some entry.1, convert entry.2)
  ascending := List.pairwise_map.mpr map.ascending

-- What is noted when the entry of the null partition is left out.
def nullNotes {ν : Type} (field : String) (map : OrderedMap Partition ν) : List Note :=
  if (map.find? none).isSome then [.nullPartitionDropped field (map.size - 1) map.size] else []

end Partition

namespace CommitMetadata

def record (metadata : CommitMetadata) : CommitRecord where
  partitionToWriteStats := Partition.pathsOnly WriteStats.mk metadata.partitionToWriteStats
  extraMetadata := metadata.extraMetadata
  compacted := metadata.compacted
  operationType := metadata.operationType

def ofRecord (record : CommitRecord) : CommitMetadata where
  partitionToWriteStats := Partition.ofPaths WriteStats.stats record.partitionToWriteStats
  extraMetadata := record.extraMetadata
  compacted := record.compacted
  operationType := record.operationType

end CommitMetadata

namespace ReplaceMetadata

def record (metadata : ReplaceMetadata) : ReplaceRecord :=
  let base := metadata.base.record
  { partitionToWriteStats := base.partitionToWriteStats
    extraMetadata := base.extraMetadata
    compacted := base.compacted
    operationType := base.operationType
    partitionToReplaceFileIds :=
      Partition.pathsOnly ReplacedFiles.mk metadata.partitionToReplaceFileIds }

def ofRecord (record : ReplaceRecord) : ReplaceMetadata where
  base := .ofRecord (CommitBody.replace record).asPlain
  partitionToReplaceFileIds :=
    Partition.ofPaths ReplacedFiles.fileIds record.partitionToReplaceFileIds

end ReplaceMetadata

namespace CommitBody

def readStructured (kind : CommitKind) (bytes : Bytes) : Except DecodeFault CommitBody :=
  match kind with
  | .plain => (Framed.read CommitRecord.message bytes).map plain
  | .replace => (Framed.read ReplaceRecord.message bytes).map replace

def readText (kind : CommitKind) (bytes : Bytes) : Except DecodeFault CommitBody :=
  match kind with
  | .plain => (Text.readBody CommitRecord.message.text bytes).map plain
  | .replace => (Text.readBody ReplaceRecord.message.text bytes).map replace

def writeStructured : CommitBody → Bytes
  | plain record => Framed.write CommitRecord.message record
  | replace record => Framed.write ReplaceRecord.message record

-- Text of the declared kind, whatever kind the record is of.
def writeText (body : CommitBody) : CommitKind → Bytes
  | .plain => CommitRecord.message.text.encode body.asPlain
  | .replace => ReplaceRecord.message.text.encode body.asReplace

end CommitBody

namespace Metadata

def ofBody : CommitBody → Metadata
  | .plain record => plain (.ofRecord record)
  | .replace record => replace (.ofRecord record)

def body : Metadata → CommitBody
  | plain metadata => .plain metadata.record
  | replace metadata => .replace metadata.record

-- What is noted when metadata is turned into its record, write stats first.
def bodyNotes (metadata : Metadata) : List Note :=
  Partition.nullNotes "partitionToWriteStats" metadata.base.partitionToWriteStats ++
    match metadata with
    | plain _ => []
    | replace metadata =>
      Partition.nullNotes "partitionToReplaceFileIds" metadata.partitionToReplaceFileIds

def toBody {ε : Type} (metadata : Metadata) : Traced ε CommitBody :=
  ⟨.ok metadata.body, metadata.bodyNotes⟩

-- No bytes at all stand for metadata without content. Other bytes are tried as a structured body,
-- then as text.
def decode (kind : CommitKind) (bytes : Bytes) : Traced CommitFault Metadata :=
  if bytes.isEmpty then .ok (zero kind)
  else
    match CommitBody.readStructured kind bytes with
    | .ok body => .ok (ofBody body)
    | .error structured => do
      Traced.note (.structuredFailed bytes.length structured)
      match CommitBody.readText kind bytes with
      | .ok body => .ok (ofBody body)
      | .error text => .fail (.unreadable bytes.length structured text)

def decodeText (kind : CommitKind) (bytes : Bytes) : Except CommitFault Metadata :=
  if bytes.isEmpty then .ok (zero kind)
  else
    match CommitBody.readText kind bytes with
    | .ok body => .ok (ofBody body)
    | .error text => .error (.unreadableText bytes.length text)

def encode {ε : Type} (metadata : Metadata) : Traced ε Bytes := do
  return (← metadata.toBody).writeStructured

end Metadata

namespace Era

-- Text from before the upgrade is still read in the structured era.
def decode (era : Era) (kind : CommitKind) (bytes : Bytes) : Traced CommitFault Metadata :=
  match era with
  | text => .ofExcept (Metadata.decodeText kind bytes)
  | structured => Metadata.decode kind bytes

def encode {ε : Type} (era : Era) (metadata : Metadata) : Traced ε Bytes :=
  match era with
  | text => do return (← metadata.toBody).writeText metadata.kind
  | structured => metadata.encode

end Era

end TableHistory
