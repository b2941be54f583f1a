import TableHistory.Schema.Message

namespace TableHistory

open Schema

-- The outcome of a clean in one partition.
structure CleanedPartition where
  partitionPath : String := ""
  policy : String := ""
  deletePathPatterns : List String := []
  successDeleteFiles : List String := []
  failedDeleteFiles : List String := []
  isPartitionDeleted : Bool := false
deriving DecidableEq

def CleanedPartition.message : Message CleanedPartition where
  name := "CleanPartitionMetadata"
  fields :=
    .cons (.of 1 "partition_path" "partitionPath" (.single .string)) <|
    .cons (.of 2 "policy" "policy" (.single .string)) <|
    .cons (.of 3 "delete_path_patterns" "deletePathPatterns" (.repeated .string)) <|
    .cons (.of 4 "success_delete_files" "successDeleteFiles" (.repeated .string)) <|
    .cons (.of 5 "failed_delete_files" "failedDeleteFiles" (.repeated .string)) <|
    .cons (.of 6 "is_partition_deleted" "isPartitionDeleted" (.single .bool)) <|
    .nil
  pack := fun (partitionPath, policy, deletePathPatterns, successDeleteFiles, failedDeleteFiles,
      isPartitionDeleted, ()) =>
    ⟨partitionPath, policy, deletePathPatterns, successDeleteFiles, failedDeleteFiles,
      isPartitionDeleted⟩
  unpack := fun value =>
    (value.partitionPath, value.policy, value.deletePathPatterns, value.successDeleteFiles,
      value.failedDeleteFiles, value.isPartitionDeleted, ())

-- The outcome of a clean.
structure CleanMetadata where
  startCleanTime : String := ""
  timeTakenInMillis : Int64 := 0
  totalFilesDeleted : Int32 := 0
  earliestCommitToRetain : String := ""
  lastCompletedCommitTimestamp : String := ""
  partitionMetadata : OrderedMap String CleanedPartition := .empty
  version : Int32 := 0
  extraMetadata : OrderedMap String String := .empty
deriving DecidableEq

def CleanMetadata.message : Message CleanMetadata where
  name := "CleanMetadata"
  fields :=
    .cons (.of 1 "start_clean_time" "startCleanTime" (.single .string)) <|
    .cons (.of 2 "time_taken_in_millis" "timeTakenInMillis" (.single .int64)) <|
    .cons (.of 3 "total_files_deleted" "totalFilesDeleted" (.single .int32)) <|
    .cons (.of 4 "earliest_commit_to_retain" "earliestCommitToRetain" (.single .string)) <|
    .cons (.of 5 "last_completed_commit_timestamp" "lastCompletedCommitTimestamp"
      (.single .string)) <|
    .cons (.of 6 "partition_metadata" "partitionMetadata"
      (.keyed CleanedPartition.message.shape)) <|
    .cons (.of 7 "version" "version" (.single .int32)) <|
    .cons (.of 8 "extra_metadata" "extraMetadata" (.keyed .string)) <|
    .nil
  pack := fun (startCleanTime, timeTakenInMillis, totalFilesDeleted, earliestCommitToRetain,
      lastCompletedCommitTimestamp, partitionMetadata, version, extraMetadata, ()) =>
    ⟨startCleanTime, timeTakenInMillis, totalFilesDeleted, earliestCommitToRetain,
      lastCompletedCommitTimestamp, partitionMetadata, version, extraMetadata⟩
  unpack := fun value =>
    (value.startCleanTime, value.timeTakenInMillis, value.totalFilesDeleted,
      value.earliestCommitToRetain, value.lastCompletedCommitTimestamp, value.partitionMetadata,
      value.version, value.extraMetadata, ())

-- The outcome of a rollback in one partition. Log files come with their sizes.
structure RolledBackPartition where
  partitionPath : String := ""
  successDeleteFiles : List String := []
  failedDeleteFiles : List String := []
  rollbackLogFiles : OrderedMap String Int64 := .empty
  logFilesFromFailedCommit : OrderedMap String Int64 := .empty
deriving DecidableEq

def RolledBackPartition.message : Message RolledBackPartition where
  name := "RollbackPartitionMetadata"
  fields :=
    .cons (.of 1 "partition_path" "partitionPath" (.single .string)) <|
    .cons (.of 2 "success_delete_files" "successDeleteFiles" (.repeated .string)) <|
    .cons (.of 3 "failed_delete_files" "failedDeleteFiles" (.repeated .string)) <|
    .cons (.of 4 "rollback_log_files" "rollbackLogFiles" (.keyed .int64)) <|
    .cons (.of 5 "log_files_from_failed_commit" "logFilesFromFailedCommit" (.keyed .int64)) <|
    .nil
  pack := fun (partitionPath, successDeleteFiles, failedDeleteFiles, rollbackLogFiles,
      logFilesFromFailedCommit, ()) =>
    ⟨partitionPath, successDeleteFiles, failedDeleteFiles, rollbackLogFiles,
      logFilesFromFailedCommit⟩
  unpack := fun value =>
    (value.partitionPath, value.successDeleteFiles, value.failedDeleteFiles, value.rollbackLogFiles,
      value.logFilesFromFailedCommit, ())

-- An instant that was rolled back.
structure RolledBackInstant where
  commitTime : String := ""
  action : String := ""
deriving DecidableEq

def RolledBackInstant.message : Message RolledBackInstant where
  name := "RollbackInstantInfo"
  fields :=
    .cons (.of 1 "commit_time" "commitTime" (.single .string)) <|
    .cons (.of 2 "action" "action" (.single .string)) <|
    .nil
  pack := fun (commitTime, action, ()) => ⟨commitTime, action⟩
  unpack := fun value =>
    (value.commitTime, value.action, ())

-- The outcome of a rollback.
structure RollbackMetadata where
  startRollbackTime : String := ""
  timeTakenInMillis : Int64 := 0
  totalFilesDeleted : Int32 := 0
  commitsRollback : List String := []
  partitionMetadata : OrderedMap String RolledBackPartition := .empty
  version : Int32 := 0
  instantsRollback : List RolledBackInstant := []
deriving DecidableEq

def RollbackMetadata.message : Message RollbackMetadata where
  name := "RollbackMetadata"
  fields :=
    .cons (.of 1 "start_rollback_time" "startRollbackTime" (.single .string)) <|
    .cons (.of 2 "time_taken_in_millis" "timeTakenInMillis" (.single .int64)) <|
    .cons (.of 3 "total_files_deleted" "totalFilesDeleted" (.single .int32)) <|
    .cons (.of 4 "commits_rollback" "commitsRollback" (.repeated .string)) <|
    .cons (.of 5 "partition_metadata" "partitionMetadata"
      (.keyed RolledBackPartition.message.shape)) <|
    .cons (.of 6 "version" "version" (.single .int32)) <|
    .cons (.of 7 "instants_rollback" "instantsRollback"
      (.repeated RolledBackInstant.message.shape)) <|
    .nil
  pack := fun (startRollbackTime, timeTakenInMillis, totalFilesDeleted, commitsRollback,
      partitionMetadata, version, instantsRollback, ()) =>
    ⟨startRollbackTime, timeTakenInMillis, totalFilesDeleted, commitsRollback, partitionMetadata,
      version, instantsRollback⟩
  unpack := fun value =>
    (value.startRollbackTime, value.timeTakenInMillis, value.totalFilesDeleted,
      value.commitsRollback, value.partitionMetadata, value.version, value.instantsRollback, ())

-- The data files pinned in one partition.
structure SavedPartition where
  partitionPath : String := ""
  savepointDataFile : List String := []
deriving DecidableEq

def SavedPartition.message : Message SavedPartition where
  name := "SavepointPartitionMetadata"
  fields :=
    .cons (.of 1 "partition_path" "partitionPath" (.single .string)) <|
    .cons (.of 2 "savepoint_data_file" "savepointDataFile" (.repeated .string)) <|
    .nil
  pack := fun (partitionPath, savepointDataFile, ()) => ⟨partitionPath, savepointDataFile⟩
  unpack := fun value =>
    (value.partitionPath, value.savepointDataFile, ())

-- A savepoint with its pinned files by partition path.
structure SavepointMetadata where
  savepointedBy : String := ""
  savepointedAt : Int64 := 0
  comments : String := ""
  partitionMetadata : OrderedMap String SavedPartition := .empty
  version : Int32 := 0
deriving DecidableEq

def SavepointMetadata.message : Message SavepointMetadata where
  name := "SavepointMetadata"
  fields :=
    .cons (.of 1 "savepointed_by" "savepointedBy" (.single .string)) <|
    .cons (.of 2 "savepointed_at" "savepointedAt" (.single .int64)) <|
    .cons (.of 3 "comments" "comments" (.single .string)) <|
    .cons (.of 4 "partition_metadata" "partitionMetadata" (.keyed SavedPartition.message.shape)) <|
    .cons (.of 5 "version" "version" (.single .int32)) <|
    .nil
  pack := fun (savepointedBy, savepointedAt, comments, partitionMetadata, version, ()) =>
    ⟨savepointedBy, savepointedAt, comments, partitionMetadata, version⟩
  unpack := fun value =>
    (value.savepointedBy, value.savepointedAt, value.comments, value.partitionMetadata,
      value.version, ())

end TableHistory
