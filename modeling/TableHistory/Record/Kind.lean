import TableHistory.Operation.Folded
import TableHistory.Record.Clustering
import TableHistory.Record.Commit
import TableHistory.Record.Outcome
import TableHistory.Record.Plan

namespace TableHistory

inductive RecordKind
  | writeStat
  | writeStats
  | replacedFiles
  | commit
  | replace
  | instantReference
  | cleanFile
  | cleanFiles
  | cleanerPlan
  | cleanedPartition
  | cleanMetadata
  | rolledBackPartition
  | rolledBackInstant
  | rollbackMetadata
  | savedPartition
  | savepointMetadata
  | compactionOperation
  | compactionStrategy
  | compactionPlan
  | fileSlice
  | clusteringGroup
  | clusteringStrategy
  | clusteringPlan
  | replaceRequest
  | foldedOperation
deriving DecidableEq

namespace RecordKind

def all : List RecordKind :=
  [writeStat, writeStats, replacedFiles, commit, replace, instantReference, cleanFile, cleanFiles,
    cleanerPlan, cleanedPartition, cleanMetadata, rolledBackPartition, rolledBackInstant,
    rollbackMetadata, savedPartition, savepointMetadata, compactionOperation, compactionStrategy,
    compactionPlan, fileSlice, clusteringGroup, clusteringStrategy, clusteringPlan, replaceRequest,
    foldedOperation]

-- The values of a kind of record.
abbrev Value : RecordKind → Type
  | writeStat => WriteStat
  | writeStats => WriteStats
  | replacedFiles => ReplacedFiles
  | commit => CommitRecord
  | replace => ReplaceRecord
  | instantReference => InstantReference
  | cleanFile => CleanFile
  | cleanFiles => CleanFiles
  | cleanerPlan => CleanerPlan
  | cleanedPartition => CleanedPartition
  | cleanMetadata => CleanMetadata
  | rolledBackPartition => RolledBackPartition
  | rolledBackInstant => RolledBackInstant
  | rollbackMetadata => RollbackMetadata
  | savedPartition => SavedPartition
  | savepointMetadata => SavepointMetadata
  | compactionOperation => CompactionOperation
  | compactionStrategy => CompactionStrategy
  | compactionPlan => CompactionPlan
  | fileSlice => FileSlice
  | clusteringGroup => ClusteringGroup
  | clusteringStrategy => ClusteringStrategy
  | clusteringPlan => ClusteringPlan
  | replaceRequest => ReplaceRequest
  | foldedOperation => FoldedOperation

def message : (kind : RecordKind) → Schema.Message kind.Value
  | writeStat => WriteStat.message
  | writeStats => WriteStats.message
  | replacedFiles => ReplacedFiles.message
  | commit => CommitRecord.message
  | replace => ReplaceRecord.message
  | instantReference => InstantReference.message
  | cleanFile => CleanFile.message
  | cleanFiles => CleanFiles.message
  | cleanerPlan => CleanerPlan.message
  | cleanedPartition => CleanedPartition.message
  | cleanMetadata => CleanMetadata.message
  | rolledBackPartition => RolledBackPartition.message
  | rolledBackInstant => RolledBackInstant.message
  | rollbackMetadata => RollbackMetadata.message
  | savedPartition => SavedPartition.message
  | savepointMetadata => SavepointMetadata.message
  | compactionOperation => CompactionOperation.message
  | compactionStrategy => CompactionStrategy.message
  | compactionPlan => CompactionPlan.message
  | fileSlice => FileSlice.message
  | clusteringGroup => ClusteringGroup.message
  | clusteringStrategy => ClusteringStrategy.message
  | clusteringPlan => ClusteringPlan.message
  | replaceRequest => ReplaceRequest.message
  | foldedOperation => FoldedOperation.message

end RecordKind

end TableHistory
