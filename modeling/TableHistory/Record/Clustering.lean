import TableHistory.Schema.Message

namespace TableHistory

open Schema

-- A file slice that clustering reads.
structure FileSlice where
  dataFilePath : String := ""
  deltaFilePaths : List String := []
  fileId : String := ""
  partitionPath : String := ""
  bootstrapFilePath : Option String := none
  version : Int32 := 0
deriving DecidableEq

def FileSlice.message : Message FileSlice where
  name := "SliceInfo"
  fields :=
    .cons (.of 1 "data_file_path" "dataFilePath" (.single .string)) <|
    .cons (.of 2 "delta_file_paths" "deltaFilePaths" (.repeated .string)) <|
    .cons (.of 3 "file_id" "fileId" (.single .string)) <|
    .cons (.of 4 "partition_path" "partitionPath" (.single .string)) <|
    .cons (.of 5 "bootstrap_file_path" "bootstrapFilePath" (.optional .string)) <|
    .cons (.of 6 "version" "version" (.single .int32)) <|
    .nil
  pack := fun (dataFilePath, deltaFilePaths, fileId, partitionPath, bootstrapFilePath, version,
      ()) =>
    ⟨dataFilePath, deltaFilePaths, fileId, partitionPath, bootstrapFilePath, version⟩
  unpack := fun value =>
    (value.dataFilePath, value.deltaFilePaths, value.fileId, value.partitionPath,
      value.bootstrapFilePath, value.version, ())

-- File slices that are laid out anew together.
structure ClusteringGroup where
  slices : List FileSlice := []
  metrics : OrderedMap String Double := .empty
  numOutputFileGroups : Int32 := 0
  extraMetadata : OrderedMap String String := .empty
  version : Int32 := 0
deriving DecidableEq

def ClusteringGroup.message : Message ClusteringGroup where
  name := "ClusteringGroup"
  fields :=
    .cons (.of 1 "slices" "slices" (.repeated FileSlice.message.shape)) <|
    .cons (.of 2 "metrics" "metrics" (.keyed .double)) <|
    .cons (.of 3 "num_output_file_groups" "numOutputFileGroups" (.single .int32)) <|
    .cons (.of 4 "extra_metadata" "extraMetadata" (.keyed .string)) <|
    .cons (.of 5 "version" "version" (.single .int32)) <|
    .nil
  pack := fun (slices, metrics, numOutputFileGroups, extraMetadata, version, ()) =>
    ⟨slices, metrics, numOutputFileGroups, extraMetadata, version⟩
  unpack := fun value =>
    (value.slices, value.metrics, value.numOutputFileGroups, value.extraMetadata, value.version,
    ())

-- How a clustering plan is executed.
structure ClusteringStrategy where
  strategyClassName : String := ""
  strategyParams : OrderedMap String String := .empty
  version : Int32 := 0
deriving DecidableEq

def ClusteringStrategy.message : Message ClusteringStrategy where
  name := "ClusteringStrategy"
  fields :=
    .cons (.of 1 "strategy_class_name" "strategyClassName" (.single .string)) <|
    .cons (.of 2 "strategy_params" "strategyParams" (.keyed .string)) <|
    .cons (.of 3 "version" "version" (.single .int32)) <|
    .nil
  pack := fun (strategyClassName, strategyParams, version, ()) =>
    ⟨strategyClassName, strategyParams, version⟩
  unpack := fun value =>
    (value.strategyClassName, value.strategyParams, value.version, ())

-- The groups of file slices to lay out anew.
structure ClusteringPlan where
  inputGroups : List ClusteringGroup := []
  strategy : Option ClusteringStrategy := none
  extraMetadata : OrderedMap String String := .empty
  version : Int32 := 0
  preserveHoodieMetadata : Bool := false
deriving DecidableEq

def ClusteringPlan.message : Message ClusteringPlan where
  name := "ClusteringPlan"
  fields :=
    .cons (.of 1 "input_groups" "inputGroups" (.repeated ClusteringGroup.message.shape)) <|
    .cons (.of 2 "strategy" "strategy" (.optional ClusteringStrategy.message.shape)) <|
    .cons (.of 3 "extra_metadata" "extraMetadata" (.keyed .string)) <|
    .cons (.of 4 "version" "version" (.single .int32)) <|
    .cons (.of 5 "preserve_hoodie_metadata" "preserveHoodieMetadata" (.single .bool)) <|
    .nil
  pack := fun (inputGroups, strategy, extraMetadata, version, preserveHoodieMetadata, ()) =>
    ⟨inputGroups, strategy, extraMetadata, version, preserveHoodieMetadata⟩
  unpack := fun value =>
    (value.inputGroups, value.strategy, value.extraMetadata, value.version,
      value.preserveHoodieMetadata, ())

-- A request to replace file groups. The wire types of its version and operation differ from
-- those of a commit's fields of the same tags.
structure ReplaceRequest where
  operationType : String := ""
  clusteringPlan : Option ClusteringPlan := none
  extraMetadata : OrderedMap String String := .empty
  version : Int32 := 0
deriving DecidableEq

def ReplaceRequest.message : Message ReplaceRequest where
  name := "RequestedReplaceMetadata"
  fields :=
    .cons (.of 3 "operation_type" "operationType" (.single .string)) <|
    .cons (.of 4 "clustering_plan" "clusteringPlan" (.optional ClusteringPlan.message.shape)) <|
    .cons (.of 2 "extra_metadata" "extraMetadata" (.keyed .string)) <|
    .cons (.of 1 "version" "version" (.single .int32)) <|
    .nil
  pack := fun (operationType, clusteringPlan, extraMetadata, version, ()) =>
    ⟨operationType, clusteringPlan, extraMetadata, version⟩
  unpack := fun value =>
    (value.operationType, value.clusteringPlan, value.extraMetadata, value.version, ())

end TableHistory
