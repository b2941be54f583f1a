import TableHistory.Record.Clustering
import TableHistory.Record.Commit
import TableHistory.Record.Outcome
import TableHistory.Record.Plan

namespace TableHistory

inductive Slot
  | cleanMetadata
  | cleanPlan
  | commitMetadata
  | replaceCommitMetadata
  | requestedReplaceMetadata
  | inflightReplaceMetadata
  | rollbackMetadata
  | savepointMetadata
  | compactionPlan
deriving DecidableEq

namespace Slot

-- In the order of the record's fields.
def all : List Slot :=
  [cleanMetadata, cleanPlan, commitMetadata, replaceCommitMetadata, requestedReplaceMetadata,
    inflightReplaceMetadata, rollbackMetadata, savepointMetadata, compactionPlan]

theorem mem_all (slot : Slot) : slot ∈ all := by cases slot <;> decide

def name : Slot → String
  | cleanMetadata => "clean-metadata"
  | cleanPlan => "clean-plan"
  | commitMetadata => "commit-metadata"
  | replaceCommitMetadata => "replace-commit-metadata"
  | requestedReplaceMetadata => "requested-replace-metadata"
  | inflightReplaceMetadata => "inflight-replace-metadata"
  | rollbackMetadata => "rollback-metadata"
  | savepointMetadata => "savepoint-metadata"
  | compactionPlan => "compaction-plan"

-- The inflight body of a replacing operation is a plain commit's.
abbrev Value : Slot → Type
  | cleanMetadata => CleanMetadata
  | cleanPlan => CleanerPlan
  | commitMetadata => CommitRecord
  | replaceCommitMetadata => ReplaceRecord
  | requestedReplaceMetadata => ReplaceRequest
  | inflightReplaceMetadata => CommitRecord
  | rollbackMetadata => RollbackMetadata
  | savepointMetadata => SavepointMetadata
  | compactionPlan => CompactionPlan

def message : (slot : Slot) → Schema.Message slot.Value
  | cleanMetadata => CleanMetadata.message
  | cleanPlan => CleanerPlan.message
  | commitMetadata => CommitRecord.message
  | replaceCommitMetadata => ReplaceRecord.message
  | requestedReplaceMetadata => ReplaceRequest.message
  | inflightReplaceMetadata => CommitRecord.message
  | rollbackMetadata => RollbackMetadata.message
  | savepointMetadata => SavepointMetadata.message
  | compactionPlan => CompactionPlan.message

def form : Text.Form Slot := .ofNames all name

end Slot

-- A record and the slot it belongs in.
structure Payload where
  slot : Slot
  value : slot.Value

end TableHistory
