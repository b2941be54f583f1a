import TableHistory.Proofs.Schema.Fronts
import TableHistory.Record.Kind

namespace TableHistory

open Schema Schema.Cell Schema.Message

variable (levels : Nat)

theorem WriteStat.restores : WriteStat.message.Restores levels id :=
  restores_of_fields (by decide)
    (.cons (optional_string _) <| .cons (optional_string _) <| .cons (optional_string _) <|
      .cons (single_int64 _) <| .cons (single_int64 _) <| .cons (single_int64 _) <|
      .cons (single_int64 _) <| .cons (single_int64 _) <| .cons (single_int64 _) <|
      .cons (optional_string _) <| .cons (optional_string _) <| .cons (single_int64 _) <|
      .cons (single_int64 _) <| .cons (single_int64 _) <| .cons (single_int64 _) <|
      .cons (single_int64 _) <| .cons (single_int64 _) <| .cons (single_int64 _) <|
      .cons (single_int64 _) <| .cons (optional_int64 _) <| .cons (optional_int64 _) .nil)
    fun _ => rfl

theorem WriteStats.restores : WriteStats.message.Restores (levels + 1) id :=
  restores_of_fields (by decide)
    (.cons (repeated_exact _ (shape_readsBack (WriteStat.restores levels))) .nil) fun _ => rfl

theorem ReplacedFiles.restores : ReplacedFiles.message.Restores levels id :=
  restores_of_fields (by decide) (.cons (repeated_string _) .nil) fun _ => rfl

theorem CommitRecord.restores : CommitRecord.message.Restores (levels + 3) id :=
  restores_of_fields (by decide)
    (.cons (keyed_exact _ (shape_restores (WriteStats.restores levels))) <|
      .cons (keyed_string _) <| .cons (single_bool _) <| .cons (optional_string _) .nil)
    fun _ => rfl

theorem ReplaceRecord.restores : ReplaceRecord.message.Restores (levels + 3) id :=
  restores_of_fields (by decide)
    (.cons (keyed_exact _ (shape_restores (WriteStats.restores levels))) <|
      .cons (keyed_string _) <| .cons (single_bool _) <| .cons (optional_string _) <|
      .cons (keyed_exact _ (shape_restores (ReplacedFiles.restores _))) .nil)
    fun _ => rfl

-- The records of commits are read off the front of whatever they stand in.
theorem WriteStat.fronts : WriteStat.message.fields.TakesFronts := by
  have hstring := Wire.Form.text_fronts
  have hcount : Wire.Form.int64.TakesFronts := Wire.Form.ofVarint_fronts
  exact ⟨hstring, hstring, hstring, hcount, hcount, hcount, hcount, hcount, hcount, hstring,
    hstring, hcount, hcount, hcount, hcount, hcount, hcount, hcount, hcount, hcount, hcount,
    trivial⟩

theorem WriteStats.fronts : WriteStats.message.fields.TakesFronts :=
  ⟨shape_fronts WriteStat.fronts, trivial⟩

theorem ReplacedFiles.fronts : ReplacedFiles.message.fields.TakesFronts :=
  ⟨Wire.Form.text_fronts, trivial⟩

theorem CommitRecord.fronts : CommitRecord.message.fields.TakesFronts := by
  have hflag : Wire.Form.bool.TakesFronts := Wire.Form.ofVarint_fronts
  exact ⟨shape_fronts WriteStats.fronts, Wire.Form.text_fronts, hflag, Wire.Form.text_fronts,
    trivial⟩

theorem ReplaceRecord.fronts : ReplaceRecord.message.fields.TakesFronts := by
  have hflag : Wire.Form.bool.TakesFronts := Wire.Form.ofVarint_fronts
  exact ⟨shape_fronts WriteStats.fronts, Wire.Form.text_fronts, hflag, Wire.Form.text_fronts,
    shape_fronts ReplacedFiles.fronts, trivial⟩

theorem InstantReference.restores : InstantReference.message.Restores levels id :=
  restores_of_fields (by decide)
    (.cons (single_string _) <| .cons (single_string _) <| .cons (single_string _) .nil)
    fun _ => rfl

theorem CleanFile.restores : CleanFile.message.Restores levels id :=
  restores_of_fields (by decide) (.cons (single_string _) <| .cons (single_bool _) .nil)
    fun _ => rfl

theorem CleanFiles.restores : CleanFiles.message.Restores (levels + 1) id :=
  restores_of_fields (by decide)
    (.cons (repeated_exact _ (shape_readsBack (CleanFile.restores levels))) .nil) fun _ => rfl

theorem CleanerPlan.restores : CleanerPlan.message.Restores (levels + 3) id :=
  restores_of_fields (by decide)
    (.cons (optional_exact _ (shape_readsBack (InstantReference.restores _))) <|
      .cons (optional_string _) <| .cons (single_string _) <|
      .cons (keyed_exact _ (shape_restores (CleanFiles.restores levels))) <|
      .cons (repeated_string _) <| .cons (single_int32 _) <| .cons (keyed_string _) .nil)
    fun _ => rfl

theorem CleanedPartition.restores : CleanedPartition.message.Restores levels id :=
  restores_of_fields (by decide)
    (.cons (single_string _) <| .cons (single_string _) <| .cons (repeated_string _) <|
      .cons (repeated_string _) <| .cons (repeated_string _) <| .cons (single_bool _) .nil)
    fun _ => rfl

theorem CleanMetadata.restores : CleanMetadata.message.Restores (levels + 2) id :=
  restores_of_fields (by decide)
    (.cons (single_string _) <| .cons (single_int64 _) <| .cons (single_int32 _) <|
      .cons (single_string _) <| .cons (single_string _) <|
      .cons (keyed_exact _ (shape_restores (CleanedPartition.restores levels))) <|
      .cons (single_int32 _) <| .cons (keyed_string _) .nil)
    fun _ => rfl

theorem RolledBackPartition.restores : RolledBackPartition.message.Restores (levels + 1) id :=
  restores_of_fields (by decide)
    (.cons (single_string _) <| .cons (repeated_string _) <| .cons (repeated_string _) <|
      .cons (keyed_int64 _) <| .cons (keyed_int64 _) .nil)
    fun _ => rfl

theorem RolledBackInstant.restores : RolledBackInstant.message.Restores levels id :=
  restores_of_fields (by decide) (.cons (single_string _) <| .cons (single_string _) .nil)
    fun _ => rfl

theorem RollbackMetadata.restores : RollbackMetadata.message.Restores (levels + 3) id :=
  restores_of_fields (by decide)
    (.cons (single_string _) <| .cons (single_int64 _) <| .cons (single_int32 _) <|
      .cons (repeated_string _) <|
      .cons (keyed_exact _ (shape_restores (RolledBackPartition.restores levels))) <|
      .cons (single_int32 _) <|
      .cons (repeated_exact _ (shape_readsBack (RolledBackInstant.restores _))) .nil)
    fun _ => rfl

theorem SavedPartition.restores : SavedPartition.message.Restores levels id :=
  restores_of_fields (by decide) (.cons (single_string _) <| .cons (repeated_string _) .nil)
    fun _ => rfl

theorem SavepointMetadata.restores : SavepointMetadata.message.Restores (levels + 2) id :=
  restores_of_fields (by decide)
    (.cons (single_string _) <| .cons (single_int64 _) <| .cons (single_string _) <|
      .cons (keyed_exact _ (shape_restores (SavedPartition.restores levels))) <|
      .cons (single_int32 _) .nil)
    fun _ => rfl

def CompactionOperation.unsignZeros (operation : CompactionOperation) : CompactionOperation :=
  { operation with metrics := operation.metrics.mapValues Double.unsignZero }

theorem CompactionOperation.restores :
    CompactionOperation.message.Restores (levels + 1) unsignZeros :=
  restores_of_fields (by decide)
    (.cons (single_string _) <| .cons (repeated_string _) <| .cons (optional_string _) <|
      .cons (single_string _) <| .cons (single_string _) <| .cons (keyed_double _) <|
      .cons (optional_string _) .nil)
    fun _ => rfl

theorem CompactionStrategy.restores : CompactionStrategy.message.Restores (levels + 1) id :=
  restores_of_fields (by decide) (.cons (single_string _) <| .cons (keyed_string _) .nil)
    fun _ => rfl

def CompactionPlan.unsignZeros (plan : CompactionPlan) : CompactionPlan :=
  { plan with operations := plan.operations.map CompactionOperation.unsignZeros }

theorem CompactionPlan.restores : CompactionPlan.message.Restores (levels + 2) unsignZeros :=
  restores_of_fields (by decide)
    (.cons (repeated_restores (shape_readsBack (CompactionOperation.restores levels))) <|
      .cons (keyed_string _) <| .cons (single_int32 _) <|
      .cons (optional_exact _ (shape_readsBack (CompactionStrategy.restores levels))) <|
      .cons (single_bool _) .nil)
    fun _ => rfl

theorem FileSlice.restores : FileSlice.message.Restores levels id :=
  restores_of_fields (by decide)
    (.cons (single_string _) <| .cons (repeated_string _) <| .cons (single_string _) <|
      .cons (single_string _) <| .cons (optional_string _) <| .cons (single_int32 _) .nil)
    fun _ => rfl

def ClusteringGroup.unsignZeros (group : ClusteringGroup) : ClusteringGroup :=
  { group with metrics := group.metrics.mapValues Double.unsignZero }

theorem ClusteringGroup.restores : ClusteringGroup.message.Restores (levels + 1) unsignZeros :=
  restores_of_fields (by decide)
    (.cons (repeated_exact _ (shape_readsBack (FileSlice.restores levels))) <|
      .cons (keyed_double _) <| .cons (single_int32 _) <| .cons (keyed_string _) <|
      .cons (single_int32 _) .nil)
    fun _ => rfl

theorem ClusteringStrategy.restores : ClusteringStrategy.message.Restores (levels + 1) id :=
  restores_of_fields (by decide)
    (.cons (single_string _) <| .cons (keyed_string _) <| .cons (single_int32 _) .nil)
    fun _ => rfl

def ClusteringPlan.unsignZeros (plan : ClusteringPlan) : ClusteringPlan :=
  { plan with inputGroups := plan.inputGroups.map ClusteringGroup.unsignZeros }

theorem ClusteringPlan.restores : ClusteringPlan.message.Restores (levels + 2) unsignZeros :=
  restores_of_fields (by decide)
    (.cons (repeated_restores (shape_readsBack (ClusteringGroup.restores levels))) <|
      .cons (optional_exact _ (shape_readsBack (ClusteringStrategy.restores levels))) <|
      .cons (keyed_string _) <| .cons (single_int32 _) <| .cons (single_bool _) .nil)
    fun _ => rfl

def ReplaceRequest.unsignZeros (request : ReplaceRequest) : ReplaceRequest :=
  { request with clusteringPlan := request.clusteringPlan.map ClusteringPlan.unsignZeros }

theorem ReplaceRequest.restores : ReplaceRequest.message.Restores (levels + 3) unsignZeros :=
  restores_of_fields (by decide)
    (.cons (single_string _) <|
      .cons (optional_restores (shape_readsBack (ClusteringPlan.restores levels))) <|
      .cons (keyed_string _) <| .cons (single_int32 _) .nil)
    fun _ => rfl

theorem FoldedOperation.restores : FoldedOperation.message.Restores levels id :=
  restores_of_fields (by decide)
    (.cons (single_string _) <| .cons (single_string _) <| .cons (single_string _) <|
      .cons (single_uint32 _) <| .cons (optional_blob _) <| .cons (optional_blob _) .nil)
    fun _ => rfl

namespace RecordKind

-- A record as it comes back from its structured body.
def unsignZeros : (kind : RecordKind) → kind.Value → kind.Value
  | compactionOperation => CompactionOperation.unsignZeros
  | compactionPlan => CompactionPlan.unsignZeros
  | clusteringGroup => ClusteringGroup.unsignZeros
  | clusteringPlan => ClusteringPlan.unsignZeros
  | replaceRequest => ReplaceRequest.unsignZeros
  | _ => id

theorem restores (kind : RecordKind) :
    kind.message.Restores Wire.levelLimit kind.unsignZeros := by
  cases kind with
  | writeStat => exact WriteStat.restores _
  | writeStats => exact WriteStats.restores _
  | replacedFiles => exact ReplacedFiles.restores _
  | commit => exact CommitRecord.restores _
  | replace => exact ReplaceRecord.restores _
  | instantReference => exact InstantReference.restores _
  | cleanFile => exact CleanFile.restores _
  | cleanFiles => exact CleanFiles.restores _
  | cleanerPlan => exact CleanerPlan.restores _
  | cleanedPartition => exact CleanedPartition.restores _
  | cleanMetadata => exact CleanMetadata.restores _
  | rolledBackPartition => exact RolledBackPartition.restores _
  | rolledBackInstant => exact RolledBackInstant.restores _
  | rollbackMetadata => exact RollbackMetadata.restores _
  | savedPartition => exact SavedPartition.restores _
  | savepointMetadata => exact SavepointMetadata.restores _
  | compactionOperation => exact CompactionOperation.restores _
  | compactionStrategy => exact CompactionStrategy.restores _
  | compactionPlan => exact CompactionPlan.restores _
  | fileSlice => exact FileSlice.restores _
  | clusteringGroup => exact ClusteringGroup.restores _
  | clusteringStrategy => exact ClusteringStrategy.restores _
  | clusteringPlan => exact ClusteringPlan.restores _
  | replaceRequest => exact ReplaceRequest.restores _
  | foldedOperation => exact FoldedOperation.restores _

-- Lengths are varints, so bodies from 2 ^ 64 bytes on are left out.
theorem framed_read_write (kind : RecordKind) (value : kind.Value)
    (h : (kind.message.write value).length < 2 ^ 64) :
    Framed.read kind.message (Framed.write kind.message value) =
      .ok (kind.unsignZeros value) :=
  Framed.read_write kind.restores value h

-- A metric of minus zero under the empty name, and a path that is present but empty.
def signedZeroOperation : CompactionOperation where
  dataFilePath := some ""
  metrics := .insert .empty "" ⟨0x8000000000000000⟩

theorem framed_read_write_signed_zero :
    (CompactionOperation.message.write signedZeroOperation).length < 2 ^ 64 ∧
      Framed.read CompactionOperation.message
          (Framed.write CompactionOperation.message signedZeroOperation) =
        .ok { dataFilePath := some "", metrics := .insert .empty "" .zero } :=
  ⟨by decide, framed_read_write .compactionOperation signedZeroOperation (by decide)⟩

end RecordKind

end TableHistory
