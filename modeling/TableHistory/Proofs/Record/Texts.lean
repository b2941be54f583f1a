import TableHistory.Proofs.Schema.Texts
import TableHistory.Record.Kind

namespace TableHistory

open Schema Schema.Field Schema.Message

theorem WriteStat.readsText (value : WriteStat) :
    WriteStat.message.fields.ReadsText (WriteStat.message.unpack value) := by
  have hstring : ∀ tag name key (value : Option String),
      (Field.of tag name key (.optional .string)).ReadsText value :=
    fun _ _ _ => readsText_optional_string
  have hcount : ∀ tag name key (value : Int64),
      (Field.of tag name key (.single .int64)).ReadsText value :=
    fun _ _ _ => readsText_int64
  have htime : ∀ tag name key (value : Option Int64),
      (Field.of tag name key (.optional .int64)).ReadsText value :=
    fun _ _ _ => readsText_optional_int64
  exact ⟨hstring .., hstring .., hstring .., hcount .., hcount .., hcount .., hcount .., hcount ..,
    hcount .., hstring .., hstring .., hcount .., hcount .., hcount .., hcount .., hcount ..,
    hcount .., hcount .., hcount .., htime .., htime .., trivial⟩

theorem WriteStat.text_restores (value : WriteStat) : WriteStat.message.text.Restores value :=
  record_restores WriteStat.message (readsText value) (by decide)

theorem WriteStats.text_restores (value : WriteStats) : WriteStats.message.text.Restores value :=
  ofCell_restores (Text.Form.listOf_restores fun stat _ => WriteStat.text_restores stat)

theorem ReplacedFiles.text_restores (value : ReplacedFiles) :
    ReplacedFiles.message.text.Restores value :=
  ofCell_restores (Text.Form.listOf_restores fun file _ => Text.Form.text_restores file)

theorem CommitRecord.text_restores (value : CommitRecord) :
    CommitRecord.message.text.Restores value := by
  apply record_restores CommitRecord.message _ (by decide)
  exact ⟨readsText_keyed fun entry _ => WriteStats.text_restores entry.2,
    readsText_keyed_string _, readsText_bool _, readsText_optional_string _, trivial⟩

theorem ReplaceRecord.text_restores (value : ReplaceRecord) :
    ReplaceRecord.message.text.Restores value := by
  apply record_restores ReplaceRecord.message _ (by decide)
  exact ⟨readsText_keyed fun entry _ => WriteStats.text_restores entry.2,
    readsText_keyed_string _, readsText_bool _, readsText_optional_string _,
    readsText_keyed fun entry _ => ReplacedFiles.text_restores entry.2, trivial⟩

theorem InstantReference.text_restores (value : InstantReference) :
    InstantReference.message.text.Restores value := by
  apply record_restores InstantReference.message _ (by decide)
  exact ⟨readsText_string _, readsText_string _, readsText_string _, trivial⟩

theorem CleanFile.text_restores (value : CleanFile) : CleanFile.message.text.Restores value := by
  apply record_restores CleanFile.message _ (by decide)
  exact ⟨readsText_string _, readsText_bool _, trivial⟩

theorem CleanFiles.text_restores (value : CleanFiles) : CleanFiles.message.text.Restores value :=
  ofCell_restores (Text.Form.listOf_restores fun file _ => CleanFile.text_restores file)

theorem CleanerPlan.text_restores (value : CleanerPlan) :
    CleanerPlan.message.text.Restores value := by
  apply record_restores CleanerPlan.message _ (by decide)
  exact ⟨readsText_optional fun instant _ => InstantReference.text_restores instant,
    readsText_optional_string _, readsText_string _,
    readsText_keyed fun entry _ => CleanFiles.text_restores entry.2, readsText_strings _,
    readsText_int32 _, readsText_keyed_string _, trivial⟩

theorem CleanedPartition.text_restores (value : CleanedPartition) :
    CleanedPartition.message.text.Restores value := by
  apply record_restores CleanedPartition.message _ (by decide)
  exact ⟨readsText_string _, readsText_string _, readsText_strings _, readsText_strings _,
    readsText_strings _, readsText_bool _, trivial⟩

theorem CleanMetadata.text_restores (value : CleanMetadata) :
    CleanMetadata.message.text.Restores value := by
  apply record_restores CleanMetadata.message _ (by decide)
  exact ⟨readsText_string _, readsText_int64 _, readsText_int32 _, readsText_string _,
    readsText_string _, readsText_keyed fun entry _ => CleanedPartition.text_restores entry.2,
    readsText_int32 _, readsText_keyed_string _, trivial⟩

theorem RolledBackPartition.text_restores (value : RolledBackPartition) :
    RolledBackPartition.message.text.Restores value := by
  apply record_restores RolledBackPartition.message _ (by decide)
  exact ⟨readsText_string _, readsText_strings _, readsText_strings _, readsText_keyed_int64 _,
    readsText_keyed_int64 _, trivial⟩

theorem RolledBackInstant.text_restores (value : RolledBackInstant) :
    RolledBackInstant.message.text.Restores value := by
  apply record_restores RolledBackInstant.message _ (by decide)
  exact ⟨readsText_string _, readsText_string _, trivial⟩

theorem RollbackMetadata.text_restores (value : RollbackMetadata) :
    RollbackMetadata.message.text.Restores value := by
  apply record_restores RollbackMetadata.message _ (by decide)
  exact ⟨readsText_string _, readsText_int64 _, readsText_int32 _, readsText_strings _,
    readsText_keyed fun entry _ => RolledBackPartition.text_restores entry.2, readsText_int32 _,
    readsText_repeated fun instant _ => RolledBackInstant.text_restores instant, trivial⟩

theorem SavedPartition.text_restores (value : SavedPartition) :
    SavedPartition.message.text.Restores value := by
  apply record_restores SavedPartition.message _ (by decide)
  exact ⟨readsText_string _, readsText_strings _, trivial⟩

theorem SavepointMetadata.text_restores (value : SavepointMetadata) :
    SavepointMetadata.message.text.Restores value := by
  apply record_restores SavepointMetadata.message _ (by decide)
  exact ⟨readsText_string _, readsText_int64 _, readsText_string _,
    readsText_keyed fun entry _ => SavedPartition.text_restores entry.2, readsText_int32 _,
    trivial⟩

-- Metrics are doubles, and text has no form for all of those.
def CompactionOperation.WithoutMetrics (operation : CompactionOperation) : Prop :=
  operation.metrics = .empty

theorem CompactionOperation.text_restores {value : CompactionOperation}
    (h : value.WithoutMetrics) : CompactionOperation.message.text.Restores value := by
  apply record_restores CompactionOperation.message _ (by decide)
  exact ⟨readsText_string _, readsText_strings _, readsText_optional_string _, readsText_string _,
    readsText_string _, readsText_no_entries h, readsText_optional_string _, trivial⟩

theorem CompactionStrategy.text_restores (value : CompactionStrategy) :
    CompactionStrategy.message.text.Restores value := by
  apply record_restores CompactionStrategy.message _ (by decide)
  exact ⟨readsText_string _, readsText_keyed_string _, trivial⟩

def CompactionPlan.WithoutMetrics (plan : CompactionPlan) : Prop :=
  ∀ operation ∈ plan.operations, operation.WithoutMetrics

theorem CompactionPlan.text_restores {value : CompactionPlan} (h : value.WithoutMetrics) :
    CompactionPlan.message.text.Restores value := by
  apply record_restores CompactionPlan.message _ (by decide)
  exact ⟨readsText_repeated fun operation ho => CompactionOperation.text_restores (h operation ho),
    readsText_keyed_string _, readsText_int32 _,
    readsText_optional fun strategy _ => CompactionStrategy.text_restores strategy,
    readsText_bool _, trivial⟩

theorem FileSlice.text_restores (value : FileSlice) : FileSlice.message.text.Restores value := by
  apply record_restores FileSlice.message _ (by decide)
  exact ⟨readsText_string _, readsText_strings _, readsText_string _, readsText_string _,
    readsText_optional_string _, readsText_int32 _, trivial⟩

def ClusteringGroup.WithoutMetrics (group : ClusteringGroup) : Prop := group.metrics = .empty

theorem ClusteringGroup.text_restores {value : ClusteringGroup} (h : value.WithoutMetrics) :
    ClusteringGroup.message.text.Restores value := by
  apply record_restores ClusteringGroup.message _ (by decide)
  exact ⟨readsText_repeated fun slice _ => FileSlice.text_restores slice, readsText_no_entries h,
    readsText_int32 _, readsText_keyed_string _, readsText_int32 _, trivial⟩

theorem ClusteringStrategy.text_restores (value : ClusteringStrategy) :
    ClusteringStrategy.message.text.Restores value := by
  apply record_restores ClusteringStrategy.message _ (by decide)
  exact ⟨readsText_string _, readsText_keyed_string _, readsText_int32 _, trivial⟩

def ClusteringPlan.WithoutMetrics (plan : ClusteringPlan) : Prop :=
  ∀ group ∈ plan.inputGroups, group.WithoutMetrics

theorem ClusteringPlan.text_restores {value : ClusteringPlan} (h : value.WithoutMetrics) :
    ClusteringPlan.message.text.Restores value := by
  apply record_restores ClusteringPlan.message _ (by decide)
  exact ⟨readsText_repeated fun group hg => ClusteringGroup.text_restores (h group hg),
    readsText_optional fun strategy _ => ClusteringStrategy.text_restores strategy,
    readsText_keyed_string _, readsText_int32 _, readsText_bool _, trivial⟩

def ReplaceRequest.WithoutMetrics (request : ReplaceRequest) : Prop :=
  ∀ plan ∈ request.clusteringPlan, plan.WithoutMetrics

theorem ReplaceRequest.text_restores {value : ReplaceRequest} (h : value.WithoutMetrics) :
    ReplaceRequest.message.text.Restores value := by
  apply record_restores ReplaceRequest.message _ (by decide)
  exact ⟨readsText_string _,
    readsText_optional fun plan hp => ClusteringPlan.text_restores (h plan hp),
    readsText_keyed_string _, readsText_int32 _, trivial⟩

theorem FoldedOperation.text_restores (value : FoldedOperation) :
    FoldedOperation.message.text.Restores value := by
  apply record_restores FoldedOperation.message _ (by decide)
  exact ⟨readsText_string _, readsText_string _, readsText_string _, readsText_uint32 _,
    readsText_optional_blob _, readsText_optional_blob _, trivial⟩

namespace RecordKind

def WithoutMetrics : (kind : RecordKind) → kind.Value → Prop
  | compactionOperation => CompactionOperation.WithoutMetrics
  | compactionPlan => CompactionPlan.WithoutMetrics
  | clusteringGroup => ClusteringGroup.WithoutMetrics
  | clusteringPlan => ClusteringPlan.WithoutMetrics
  | replaceRequest => ReplaceRequest.WithoutMetrics
  | _ => fun _ => True

theorem text_restores (kind : RecordKind) {value : kind.Value} (h : kind.WithoutMetrics value) :
    kind.message.text.Restores value := by
  cases kind with
  | writeStat => exact WriteStat.text_restores value
  | writeStats => exact WriteStats.text_restores value
  | replacedFiles => exact ReplacedFiles.text_restores value
  | commit => exact CommitRecord.text_restores value
  | replace => exact ReplaceRecord.text_restores value
  | instantReference => exact InstantReference.text_restores value
  | cleanFile => exact CleanFile.text_restores value
  | cleanFiles => exact CleanFiles.text_restores value
  | cleanerPlan => exact CleanerPlan.text_restores value
  | cleanedPartition => exact CleanedPartition.text_restores value
  | cleanMetadata => exact CleanMetadata.text_restores value
  | rolledBackPartition => exact RolledBackPartition.text_restores value
  | rolledBackInstant => exact RolledBackInstant.text_restores value
  | rollbackMetadata => exact RollbackMetadata.text_restores value
  | savedPartition => exact SavedPartition.text_restores value
  | savepointMetadata => exact SavepointMetadata.text_restores value
  | compactionOperation => exact CompactionOperation.text_restores h
  | compactionStrategy => exact CompactionStrategy.text_restores value
  | compactionPlan => exact CompactionPlan.text_restores h
  | fileSlice => exact FileSlice.text_restores value
  | clusteringGroup => exact ClusteringGroup.text_restores h
  | clusteringStrategy => exact ClusteringStrategy.text_restores value
  | clusteringPlan => exact ClusteringPlan.text_restores h
  | replaceRequest => exact ReplaceRequest.text_restores h
  | foldedOperation => exact FoldedOperation.text_restores value

end RecordKind

end TableHistory
