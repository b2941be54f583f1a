import TableHistory.Proofs.Commit.Partitions
import TableHistory.Proofs.Commit.Recoding
import TableHistory.Proofs.Traced

namespace TableHistory

-- It is not about a null partition that was dropped.
def Note.KeepsNull : Note → Prop
  | nullPartitionDropped .. => False
  | _ => True

namespace Partition

variable {ν : Type}

-- What is to be noted about a map that loses its null partition, if it has one: how many entries it
-- keeps of how many.
def dropNotes (field : String) (map : OrderedMap Partition ν) : List Note :=
  if none ∈ map.keys then [.nullPartitionDropped field (withoutNull map).size map.size] else []

theorem size_withoutNull (map : OrderedMap Partition ν) :
    (withoutNull map).size = (paths map).length := by
  rw [← ofPaths_pathsOnly map id id fun _ => rfl, ← size_pathsOnly id]
  exact List.length_map _

theorem nullNotes_eq (field : String) (map : OrderedMap Partition ν) :
    nullNotes field map = dropNotes field map := by
  have hsize := size_eq map
  unfold nullNotes dropNotes
  by_cases hnone : none ∈ map.keys
  · rw [if_pos hnone] at hsize
    rw [if_pos (OrderedMap.find?_isSome_iff.mpr hnone), if_pos hnone, size_withoutNull, hsize,
      Nat.add_sub_cancel]
  · rw [if_neg (mt OrderedMap.find?_isSome_iff.mp hnone), if_neg hnone]

theorem dropNotes_eq_nil {field : String} {map : OrderedMap Partition ν} (h : none ∉ map.keys) :
    dropNotes field map = [] := if_neg h

end Partition

namespace Metadata

variable {kind : CommitKind} {bytes : Bytes} {metadata : Metadata}

-- The files replaced by partition. Plain commits replace none.
def replacedFiles : Metadata → OrderedMap Partition (List String)
  | plain _ => .empty
  | replace metadata => metadata.partitionToReplaceFileIds

-- The maps of partitions that lose their null partition, write stats first.
def dropNotes (metadata : Metadata) : List Note :=
  Partition.dropNotes "partitionToWriteStats" metadata.base.partitionToWriteStats ++
    Partition.dropNotes "partitionToReplaceFileIds" metadata.replacedFiles

theorem bodyNotes_eq (metadata : Metadata) : metadata.bodyNotes = metadata.dropNotes := by
  unfold bodyNotes dropNotes
  rw [Partition.nullNotes_eq]
  cases metadata with
  | plain metadata => rfl
  | replace metadata => exact congrArg _ (Partition.nullNotes_eq _ _)

theorem mem_partitions {partition : Partition} :
    partition ∈ metadata.partitions ↔
      partition ∈ metadata.base.partitionToWriteStats.keys ∨
        partition ∈ metadata.replacedFiles.keys := by
  cases metadata with
  | plain metadata => exact (or_iff_left List.not_mem_nil).symm
  | replace metadata => exact List.mem_append

theorem bodyNotes_eq_nil (h : none ∉ metadata.partitions) : metadata.bodyNotes = [] := by
  rw [mem_partitions, not_or] at h
  rw [bodyNotes_eq, dropNotes, Partition.dropNotes_eq_nil h.1, Partition.dropNotes_eq_nil h.2,
    List.append_nil]

theorem toBody_ofBody {ε : Type} (body : CommitBody) :
    ((ofBody body).toBody : Traced ε CommitBody) = .ok body := by
  unfold toBody
  rw [body_ofBody, bodyNotes_eq_nil (none_notMem_partitions body)]
  rfl

theorem leavesOnly_decode : (decode kind bytes).LeavesOnly Note.KeepsNull := by
  unfold decode
  split
  · exact Traced.leavesOnly_pure _
  · split
    · exact Traced.leavesOnly_pure _
    · refine Traced.leavesOnly_bind (Traced.leavesOnly_note trivial) ?_
      intro _ _
      split
      · exact Traced.leavesOnly_pure _
      · exact Traced.leavesOnly_of_notes_nil rfl

end Metadata

namespace Era

variable {α : Type} {kind : CommitKind} {bytes : Bytes}

-- A record straight from a body. No bytes at all stand for the zero record, and what the structured
-- reader refuses may still be text.
def readRecord (era : Era) (message : Schema.Message α) (bytes : Bytes) : Option α :=
  if bytes = [] then some message.zero
  else
    match era with
    | text => (Text.readBody message.text bytes).toOption
    | structured =>
      (Framed.read message bytes).toOption.or (Text.readBody message.text bytes).toOption

theorem leavesOnly_decode (era : Era) : (era.decode kind bytes).LeavesOnly Note.KeepsNull := by
  cases era with
  | text => exact Traced.leavesOnly_ofExcept _
  | structured => exact Metadata.leavesOnly_decode

-- Bodies of a kind that are records of one message are read as that message.
theorem toOption_decode {message : Schema.Message α} {make : α → CommitBody}
    (hzero : (Metadata.zero kind).body = make message.zero)
    (hstructured : CommitBody.readStructured kind bytes = (Framed.read message bytes).map make)
    (htext : CommitBody.readText kind bytes = (Text.readBody message.text bytes).map make)
    (era : Era) :
    (era.decode kind bytes).result.toOption.map Metadata.body =
      (era.readRecord message bytes).map make := by
  unfold readRecord
  by_cases hbytes : bytes = []
  · subst hbytes
    rw [if_pos rfl, Option.map_some, ← hzero]
    cases era <;> rfl
  · rw [if_neg hbytes]
    cases era with
    | text =>
        have hdecode : (text.decode kind bytes).result = Metadata.decodeText kind bytes := rfl
        rw [hdecode, Metadata.decodeText_result hbytes, htext]
        cases Text.readBody message.text bytes with
        | ok record => exact congrArg some (Metadata.body_ofBody _)
        | error fault => rfl
    | structured =>
        have hdecode : (structured.decode kind bytes).result =
          (Metadata.decode kind bytes).result := rfl
        rw [hdecode, Metadata.decode_result hbytes, hstructured, htext]
        cases Framed.read message bytes with
        | ok record => exact congrArg some (Metadata.body_ofBody _)
        | error fault =>
            cases Text.readBody message.text bytes with
            | ok record => exact congrArg some (Metadata.body_ofBody _)
            | error fault => rfl

theorem toOption_decode_plain (era : Era) (bytes : Bytes) :
    (era.decode .plain bytes).result.toOption.map Metadata.body =
      (era.readRecord CommitRecord.message bytes).map .plain :=
  toOption_decode rfl rfl rfl era

theorem toOption_decode_replace (era : Era) (bytes : Bytes) :
    (era.decode .replace bytes).result.toOption.map Metadata.body =
      (era.readRecord ReplaceRecord.message bytes).map .replace :=
  toOption_decode rfl rfl rfl era

end Era

end TableHistory
