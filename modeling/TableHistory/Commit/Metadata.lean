import TableHistory.Commit.WriteOperation
import TableHistory.Record.Commit

namespace TableHistory

-- Plain commits, or commits that replace file groups.
inductive CommitKind
  | plain
  | replace
deriving DecidableEq

-- A partition path, or the null partition.
abbrev Partition := Option String

-- What a commit says about itself.
structure CommitMetadata where
  partitionToWriteStats : OrderedMap Partition (List WriteStat) := .empty
  extraMetadata : OrderedMap String String := .empty
  compacted : Bool := false
  -- The name as it was written, which need not be one of a known operation.
  operationType : Option String := none
deriving DecidableEq

structure ReplaceMetadata where
  base : CommitMetadata := {}
  partitionToReplaceFileIds : OrderedMap Partition (List String) := .empty
deriving DecidableEq

namespace WriteStat

-- The stat of a file about which nothing else is known.
def forFile (partitionPath fileId path : String) : WriteStat :=
  { fileId := some fileId, path := some path, partitionPath := some partitionPath }

end WriteStat

namespace CommitMetadata

def writeOperation (metadata : CommitMetadata) : WriteOperation :=
  match metadata.operationType with
  | some name => .ofName name
  | none => .unknown

def setOperation (metadata : CommitMetadata) (operation : WriteOperation) : CommitMetadata :=
  { metadata with operationType := some operation.name }

-- Stats keep the order in which they are added.
def addWriteStat (metadata : CommitMetadata) (partition : Partition) (stat : WriteStat) :
    CommitMetadata :=
  { metadata with
    partitionToWriteStats := metadata.partitionToWriteStats.update partition [] (· ++ [stat]) }

def addMetadata (metadata : CommitMetadata) (key value : String) : CommitMetadata :=
  { metadata with extraMetadata := metadata.extraMetadata.insert key value }

def find? (metadata : CommitMetadata) (key : String) : Option String :=
  metadata.extraMetadata.find? key

-- The paths of the partitions written, in order. The null partition has none.
def writePartitionPaths (metadata : CommitMetadata) : List String :=
  metadata.partitionToWriteStats.keys.filterMap id

-- All stats, partition by partition.
def writeStats (metadata : CommitMetadata) : List WriteStat :=
  metadata.partitionToWriteStats.values.flatten

-- The path of each file that has one. Of stats for one file the last counts.
def fileIdToPath (metadata : CommitMetadata) : OrderedMap String String :=
  .ofList <| metadata.writeStats.filterMap fun stat =>
    match stat.fileId, stat.path with
    | some fileId, some path => some (fileId, path)
    | _, _ => none

def total (metadata : CommitMetadata) (count : WriteStat → Int64) : Int64 :=
  (metadata.writeStats.map count).sum

def totalWritten (metadata : CommitMetadata) : Int64 := metadata.total WriteStat.numWrites
def totalInserted (metadata : CommitMetadata) : Int64 := metadata.total WriteStat.numInserts
def totalUpdated (metadata : CommitMetadata) : Int64 := metadata.total WriteStat.numUpdateWrites
def totalDeleted (metadata : CommitMetadata) : Int64 := metadata.total WriteStat.numDeletes

end CommitMetadata

namespace ReplaceMetadata

def addReplacedFile (metadata : ReplaceMetadata) (partition : Partition) (fileId : String) :
    ReplaceMetadata :=
  { metadata with
    partitionToReplaceFileIds :=
      metadata.partitionToReplaceFileIds.update partition [] (· ++ [fileId]) }

def replacedFiles (metadata : ReplaceMetadata) (path : String) : List String :=
  (metadata.partitionToReplaceFileIds.find? (some path)).getD []

end ReplaceMetadata

-- The metadata of either kind of commit.
inductive Metadata
  | plain (metadata : CommitMetadata)
  | replace (metadata : ReplaceMetadata)
deriving DecidableEq

namespace Metadata

def zero : CommitKind → Metadata
  | .plain => plain {}
  | .replace => replace {}

def kind : Metadata → CommitKind
  | plain _ => .plain
  | replace _ => .replace

def base : Metadata → CommitMetadata
  | plain metadata => metadata
  | replace metadata => metadata.base

-- Changes what both kinds have in common.
def mapBase (change : CommitMetadata → CommitMetadata) : Metadata → Metadata
  | plain metadata => plain (change metadata)
  | replace metadata => replace { metadata with base := change metadata.base }

end Metadata

-- The record of either kind of commit.
inductive CommitBody
  | plain (record : CommitRecord)
  | replace (record : ReplaceRecord)
deriving DecidableEq

namespace CommitBody

def kind : CommitBody → CommitKind
  | plain _ => .plain
  | replace _ => .replace

-- As a plain commit, without the files replaced.
def asPlain : CommitBody → CommitRecord
  | plain record => record
  | replace record =>
    { partitionToWriteStats := record.partitionToWriteStats
      extraMetadata := record.extraMetadata
      compacted := record.compacted
      operationType := record.operationType }

-- As a replacing commit. A plain one replaced nothing.
def asReplace : CommitBody → ReplaceRecord
  | replace record => record
  | plain record =>
    { partitionToWriteStats := record.partitionToWriteStats
      extraMetadata := record.extraMetadata
      compacted := record.compacted
      operationType := record.operationType }

end CommitBody

end TableHistory
