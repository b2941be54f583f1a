import TableHistory.Schema.Message

namespace TableHistory

open Schema

-- One file written or appended to by an operation.
structure WriteStat where
  fileId : Option String := none
  path : Option String := none
  prevCommit : Option String := none
  numWrites : Int64 := 0
  numDeletes : Int64 := 0
  numUpdateWrites : Int64 := 0
  numInserts : Int64 := 0
  totalWriteBytes : Int64 := 0
  totalWriteErrors : Int64 := 0
  tempPath : Option String := none
  partitionPath : Option String := none
  totalLogRecords : Int64 := 0
  totalLogFilesCompacted : Int64 := 0
  totalLogSizeCompacted : Int64 := 0
  totalUpdatedRecordsCompacted : Int64 := 0
  totalLogBlocks : Int64 := 0
  totalCorruptLogBlock : Int64 := 0
  totalRollbackBlocks : Int64 := 0
  fileSizeInBytes : Int64 := 0
  minEventTime : Option Int64 := none
  maxEventTime : Option Int64 := none
deriving DecidableEq

def WriteStat.message : Message WriteStat where
  name := "WriteStat"
  fields :=
    .cons (.of 1 "file_id" "fileId" (.optional .string)) <|
    .cons (.of 2 "path" "path" (.optional .string)) <|
    .cons (.of 3 "prev_commit" "prevCommit" (.optional .string)) <|
    .cons (.of 4 "num_writes" "numWrites" (.single .int64)) <|
    .cons (.of 5 "num_deletes" "numDeletes" (.single .int64)) <|
    .cons (.of 6 "num_update_writes" "numUpdateWrites" (.single .int64)) <|
    .cons (.of 7 "num_inserts" "numInserts" (.single .int64)) <|
    .cons (.of 8 "total_write_bytes" "totalWriteBytes" (.single .int64)) <|
    .cons (.of 9 "total_write_errors" "totalWriteErrors" (.single .int64)) <|
    .cons (.of 10 "temp_path" "tempPath" (.optional .string)) <|
    .cons (.of 11 "partition_path" "partitionPath" (.optional .string)) <|
    .cons (.of 12 "total_log_records" "totalLogRecords" (.single .int64)) <|
    .cons (.of 13 "total_log_files_compacted" "totalLogFilesCompacted" (.single .int64)) <|
    .cons (.of 14 "total_log_size_compacted" "totalLogSizeCompacted" (.single .int64)) <|
    .cons (.of 15 "total_updated_records_compacted" "totalUpdatedRecordsCompacted"
      (.single .int64)) <|
    .cons (.of 16 "total_log_blocks" "totalLogBlocks" (.single .int64)) <|
    .cons (.of 17 "total_corrupt_log_block" "totalCorruptLogBlock" (.single .int64)) <|
    .cons (.of 18 "total_rollback_blocks" "totalRollbackBlocks" (.single .int64)) <|
    .cons (.of 19 "file_size_in_bytes" "fileSizeInBytes" (.single .int64)) <|
    .cons (.of 20 "min_event_time" "minEventTime" (.optional .int64)) <|
    .cons (.of 21 "max_event_time" "maxEventTime" (.optional .int64)) <|
    .nil
  pack := fun (fileId, path, prevCommit, numWrites, numDeletes, numUpdateWrites, numInserts,
      totalWriteBytes, totalWriteErrors, tempPath, partitionPath, totalLogRecords,
      totalLogFilesCompacted, totalLogSizeCompacted, totalUpdatedRecordsCompacted, totalLogBlocks,
      totalCorruptLogBlock, totalRollbackBlocks, fileSizeInBytes, minEventTime, maxEventTime, ()) =>
    ⟨fileId, path, prevCommit, numWrites, numDeletes, numUpdateWrites, numInserts, totalWriteBytes,
      totalWriteErrors, tempPath, partitionPath, totalLogRecords, totalLogFilesCompacted,
      totalLogSizeCompacted, totalUpdatedRecordsCompacted, totalLogBlocks, totalCorruptLogBlock,
      totalRollbackBlocks, fileSizeInBytes, minEventTime, maxEventTime⟩
  unpack := fun value =>
    (value.fileId, value.path, value.prevCommit, value.numWrites, value.numDeletes,
      value.numUpdateWrites, value.numInserts, value.totalWriteBytes, value.totalWriteErrors,
      value.tempPath, value.partitionPath, value.totalLogRecords, value.totalLogFilesCompacted,
      value.totalLogSizeCompacted, value.totalUpdatedRecordsCompacted, value.totalLogBlocks,
      value.totalCorruptLogBlock, value.totalRollbackBlocks, value.fileSizeInBytes,
      value.minEventTime, value.maxEventTime, ())

-- The write stats of one partition, in the order of writing.
structure WriteStats where
  stats : List WriteStat := []
deriving DecidableEq

def WriteStats.message : Message WriteStats :=
  .ofCell "WriteStatList" "stats" (.repeated WriteStat.message.shape) .mk WriteStats.stats
    (fun _ => rfl) fun _ => rfl

-- The file groups of one partition that an operation replaced.
structure ReplacedFiles where
  fileIds : List String := []
deriving DecidableEq

def ReplacedFiles.message : Message ReplacedFiles :=
  .ofCell "ReplacedFileIds" "file_ids" (.repeated .string) .mk ReplacedFiles.fileIds
    (fun _ => rfl) fun _ => rfl

-- Write stats by partition path, free-form metadata, and the operation by name.
structure CommitRecord where
  partitionToWriteStats : OrderedMap String WriteStats := .empty
  extraMetadata : OrderedMap String String := .empty
  compacted : Bool := false
  operationType : Option String := none
deriving DecidableEq

def CommitRecord.message : Message CommitRecord where
  name := "CommitMetadataRecord"
  fields :=
    .cons (.orNull <| .of 1 "partition_to_write_stats" "partitionToWriteStats"
      (.keyed WriteStats.message.shape)) <|
    .cons (.orNull <| .of 2 "extra_metadata" "extraMetadata" (.keyed .string)) <|
    .cons (.orNull <| .of 3 "compacted" "compacted" (.single .bool)) <|
    .cons (.of 4 "operation_type" "operationType" (.optional .string)) <|
    .nil
  pack := fun (partitionToWriteStats, extraMetadata, compacted, operationType, ()) =>
    ⟨partitionToWriteStats, extraMetadata, compacted, operationType⟩
  unpack := fun value =>
    (value.partitionToWriteStats, value.extraMetadata, value.compacted, value.operationType, ())

-- A commit that replaced file groups, with those by partition path.
structure ReplaceRecord where
  partitionToWriteStats : OrderedMap String WriteStats := .empty
  extraMetadata : OrderedMap String String := .empty
  compacted : Bool := false
  operationType : Option String := none
  partitionToReplaceFileIds : OrderedMap String ReplacedFiles := .empty
deriving DecidableEq

def ReplaceRecord.message : Message ReplaceRecord where
  name := "ReplaceCommitMetadataRecord"
  fields :=
    .cons (.orNull <| .of 1 "partition_to_write_stats" "partitionToWriteStats"
      (.keyed WriteStats.message.shape)) <|
    .cons (.orNull <| .of 2 "extra_metadata" "extraMetadata" (.keyed .string)) <|
    .cons (.orNull <| .of 3 "compacted" "compacted" (.single .bool)) <|
    .cons (.of 4 "operation_type" "operationType" (.optional .string)) <|
    .cons (.orNull <| .of 5 "partition_to_replace_file_ids" "partitionToReplaceFileIds"
      (.keyed ReplacedFiles.message.shape)) <|
    .nil
  pack := fun (partitionToWriteStats, extraMetadata, compacted, operationType,
      partitionToReplaceFileIds, ()) =>
    ⟨partitionToWriteStats, extraMetadata, compacted, operationType, partitionToReplaceFileIds⟩
  unpack := fun value =>
    (value.partitionToWriteStats, value.extraMetadata, value.compacted, value.operationType,
      value.partitionToReplaceFileIds, ())

end TableHistory
