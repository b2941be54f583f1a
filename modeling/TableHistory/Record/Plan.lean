import TableHistory.Schema.Message

namespace TableHistory

open Schema

-- An instant by time, action name and state name.
structure InstantReference where
  timestamp : String := ""
  action : String := ""
  state : String := ""
deriving DecidableEq

def InstantReference.message : Message InstantReference where
  name := "InstantInfo"
  fields :=
    .cons (.of 1 "timestamp" "timestamp" (.single .string)) <|
    .cons (.of 2 "action" "action" (.single .string)) <|
    .cons (.of 3 "state" "state" (.single .string)) <|
    .nil
  pack := fun (timestamp, action, state, ()) => ⟨timestamp, action, state⟩
  unpack := fun value =>
    (value.timestamp, value.action, value.state, ())

-- A file to delete.
structure CleanFile where
  filePath : String := ""
  isBootstrapBaseFile : Bool := false
deriving DecidableEq

def CleanFile.message : Message CleanFile where
  name := "CleanFileInfo"
  fields :=
    .cons (.of 1 "file_path" "filePath" (.single .string)) <|
    .cons (.of 2 "is_bootstrap_base_file" "isBootstrapBaseFile" (.single .bool)) <|
    .nil
  pack := fun (filePath, isBootstrapBaseFile, ()) => ⟨filePath, isBootstrapBaseFile⟩
  unpack := fun value =>
    (value.filePath, value.isBootstrapBaseFile, ())

-- The files to delete in one partition.
structure CleanFiles where
  files : List CleanFile := []
deriving DecidableEq

def CleanFiles.message : Message CleanFiles :=
  .ofCell "CleanFileInfoList" "files" (.repeated CleanFile.message.shape) .mk CleanFiles.files
    (fun _ => rfl) fun _ => rfl

-- What a clean is going to delete.
structure CleanerPlan where
  earliestInstantToRetain : Option InstantReference := none
  lastCompletedCommitTimestamp : Option String := none
  policy : String := ""
  filePathsToBeDeletedPerPartition : OrderedMap String CleanFiles := .empty
  partitionsToBeDeleted : List String := []
  version : Int32 := 0
  extraMetadata : OrderedMap String String := .empty
deriving DecidableEq

def CleanerPlan.message : Message CleanerPlan where
  name := "CleanerPlan"
  fields :=
    .cons (.of 1 "earliest_instant_to_retain" "earliestInstantToRetain"
      (.optional InstantReference.message.shape)) <|
    .cons (.of 2 "last_completed_commit_timestamp" "lastCompletedCommitTimestamp"
      (.optional .string)) <|
    .cons (.of 3 "policy" "policy" (.single .string)) <|
    .cons (.of 4 "file_paths_to_be_deleted_per_partition" "filePathsToBeDeletedPerPartition"
      (.keyed CleanFiles.message.shape)) <|
    .cons (.of 5 "partitions_to_be_deleted" "partitionsToBeDeleted" (.repeated .string)) <|
    .cons (.of 6 "version" "version" (.single .int32)) <|
    .cons (.of 7 "extra_metadata" "extraMetadata" (.keyed .string)) <|
    .nil
  pack := fun (earliestInstantToRetain, lastCompletedCommitTimestamp, policy,
      filePathsToBeDeletedPerPartition, partitionsToBeDeleted, version, extraMetadata, ()) =>
    ⟨earliestInstantToRetain, lastCompletedCommitTimestamp, policy,
      filePathsToBeDeletedPerPartition, partitionsToBeDeleted, version, extraMetadata⟩
  unpack := fun value =>
    (value.earliestInstantToRetain, value.lastCompletedCommitTimestamp, value.policy,
      value.filePathsToBeDeletedPerPartition, value.partitionsToBeDeleted, value.version,
      value.extraMetadata, ())

-- The compaction of one file slice.
structure CompactionOperation where
  baseInstantTime : String := ""
  deltaFilePaths : List String := []
  dataFilePath : Option String := none
  fileId : String := ""
  partitionPath : String := ""
  metrics : OrderedMap String Double := .empty
  bootstrapFilePath : Option String := none
deriving DecidableEq

def CompactionOperation.message : Message CompactionOperation where
  name := "CompactionOperation"
  fields :=
    .cons (.of 1 "base_instant_time" "baseInstantTime" (.single .string)) <|
    .cons (.of 2 "delta_file_paths" "deltaFilePaths" (.repeated .string)) <|
    .cons (.of 3 "data_file_path" "dataFilePath" (.optional .string)) <|
    .cons (.of 4 "file_id" "fileId" (.single .string)) <|
    .cons (.of 5 "partition_path" "partitionPath" (.single .string)) <|
    .cons (.of 6 "metrics" "metrics" (.keyed .double)) <|
    .cons (.of 7 "bootstrap_file_path" "bootstrapFilePath" (.optional .string)) <|
    .nil
  pack := fun (baseInstantTime, deltaFilePaths, dataFilePath, fileId, partitionPath, metrics,
      bootstrapFilePath, ()) =>
    ⟨baseInstantTime, deltaFilePaths, dataFilePath, fileId, partitionPath, metrics,
      bootstrapFilePath⟩
  unpack := fun value =>
    (value.baseInstantTime, value.deltaFilePaths, value.dataFilePath, value.fileId,
      value.partitionPath, value.metrics, value.bootstrapFilePath, ())

-- How the operations of a plan were selected.
structure CompactionStrategy where
  compactorClassName : String := ""
  strategyParams : OrderedMap String String := .empty
deriving DecidableEq

def CompactionStrategy.message : Message CompactionStrategy where
  name := "CompactionStrategy"
  fields :=
    .cons (.of 1 "compactor_class_name" "compactorClassName" (.single .string)) <|
    .cons (.of 2 "strategy_params" "strategyParams" (.keyed .string)) <|
    .nil
  pack := fun (compactorClassName, strategyParams, ()) => ⟨compactorClassName, strategyParams⟩
  unpack := fun value =>
    (value.compactorClassName, value.strategyParams, ())

-- The file slices to compact.
structure CompactionPlan where
  operations : List CompactionOperation := []
  extraMetadata : OrderedMap String String := .empty
  version : Int32 := 0
  strategy : Option CompactionStrategy := none
  preserveHoodieMetadata : Bool := false
deriving DecidableEq

def CompactionPlan.message : Message CompactionPlan where
  name := "CompactionPlan"
  fields :=
    .cons (.of 1 "operations" "operations" (.repeated CompactionOperation.message.shape)) <|
    .cons (.of 2 "extra_metadata" "extraMetadata" (.keyed .string)) <|
    .cons (.of 3 "version" "version" (.single .int32)) <|
    .cons (.of 4 "strategy" "strategy" (.optional CompactionStrategy.message.shape)) <|
    .cons (.of 5 "preserve_hoodie_metadata" "preserveHoodieMetadata" (.single .bool)) <|
    .nil
  pack := fun (operations, extraMetadata, version, strategy, preserveHoodieMetadata, ()) =>
    ⟨operations, extraMetadata, version, strategy, preserveHoodieMetadata⟩
  unpack := fun value =>
    (value.operations, value.extraMetadata, value.version, value.strategy,
      value.preserveHoodieMetadata, ())

end TableHistory
