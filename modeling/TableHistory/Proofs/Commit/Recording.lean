import TableHistory.Proofs.Commit.Partitions

namespace TableHistory

-- What is recorded about a commit: stats of files written, and files replaced.
inductive Recording
  | written (partition : Partition) (stat : WriteStat)
  | replaced (partition : Partition) (fileId : String)

namespace Recording

def written? : Recording → Option (Partition × WriteStat)
  | written partition stat => some (partition, stat)
  | replaced .. => none

def replaced? : Recording → Option (Partition × String)
  | written .. => none
  | replaced partition fileId => some (partition, fileId)

def partition : Recording → Partition
  | written partition _ => partition
  | replaced partition _ => partition

def addTo (metadata : ReplaceMetadata) : Recording → ReplaceMetadata
  | written partition stat => { metadata with base := metadata.base.addWriteStat partition stat }
  | replaced partition fileId => metadata.addReplacedFile partition fileId

-- Those that are not recorded under the null partition.
def withPath (recordings : List Recording) : List Recording :=
  recordings.filter fun recording => recording.partition.isSome

theorem filterMap_withPath {α : Type} (item? : Recording → Option (Partition × α))
    (h : ∀ recording item, item? recording = some item → item.1 = recording.partition)
    (recordings : List Recording) :
    (withPath recordings).filterMap item? =
      (recordings.filterMap item?).filter fun item => item.1.isSome := by
  unfold withPath
  rw [List.filterMap_filter, List.filter_filterMap]
  congr 1
  funext recording
  cases hitem : item? recording with
  | none => simp
  | some item => simp [h recording item hitem, Option.filter]

theorem written_partition (recording : Recording) (item : Partition × WriteStat)
    (h : recording.written? = some item) : item.1 = recording.partition := by
  cases recording with
  | written partition stat => cases h; rfl
  | replaced => cases h

theorem replaced_partition (recording : Recording) (item : Partition × String)
    (h : recording.replaced? = some item) : item.1 = recording.partition := by
  cases recording with
  | written => cases h
  | replaced partition fileId => cases h; rfl

end Recording

namespace CommitMetadata

-- The totals, and what each of them counts.
def totals : List ((CommitMetadata → Int64) × (WriteStat → Int64)) :=
  [(totalWritten, WriteStat.numWrites), (totalInserted, WriteStat.numInserts),
    (totalUpdated, WriteStat.numUpdateWrites), (totalDeleted, WriteStat.numDeletes)]

-- The sum as an integer, of whatever size.
def exactTotal (count : WriteStat → Int64) (stats : List WriteStat) : Int :=
  stats.foldr (fun stat total => (count stat).toInt + total) 0

-- The path of a stat that is about the given file.
def pathOf (fileId : String) (stat : WriteStat) : Option String :=
  if stat.fileId = some fileId then stat.path else none

-- What metadata tells of stats that were recorded one after the other, each under its partition.
structure Tells (metadata : CommitMetadata) (stats : List (Partition × WriteStat)) : Prop where
  -- Each partition has its stats in their order. One without stats is not there.
  find_partition : ∀ partition, metadata.partitionToWriteStats.find? partition =
    if valuesOf partition stats = [] then none else some (valuesOf partition stats)
  paths_ascending : metadata.writePartitionPaths.Pairwise fun a b => compare a b = .lt
  mem_paths : ∀ path, path ∈ metadata.writePartitionPaths ↔ some path ∈ stats.map Prod.fst
  writeStats_eq : metadata.writeStats = valuesOf none stats ++
    metadata.writePartitionPaths.flatMap fun path => valuesOf (some path) stats
  writeStats_perm : metadata.writeStats.Perm (stats.map Prod.snd)
  -- Totals that fit into 64 bits are exact.
  toInt_total : ∀ total ∈ totals,
    Int64.minValue.toInt ≤ exactTotal total.2 (stats.map Prod.snd) →
    exactTotal total.2 (stats.map Prod.snd) ≤ Int64.maxValue.toInt →
    (total.1 metadata).toInt = exactTotal total.2 (stats.map Prod.snd)
  find_path : ∀ fileId, metadata.fileIdToPath.find? fileId =
    (metadata.writeStats.filterMap (pathOf fileId)).getLast?

variable {metadata other : CommitMetadata} {stats others : List (Partition × WriteStat)}
  {count : WriteStat → Int64}

theorem exactTotal_perm {stats others : List WriteStat} (h : stats.Perm others) :
    exactTotal count stats = exactTotal count others := by
  apply h.foldr_eq'
  intro stat _ other _ total
  omega

theorem eq_total_of_mem {total : (CommitMetadata → Int64) × (WriteStat → Int64)}
    (h : total ∈ totals) (metadata : CommitMetadata) :
    total.1 metadata = metadata.total total.2 := by
  simp only [totals, List.mem_cons, List.not_mem_nil, or_false] at h
  obtain rfl | rfl | rfl | rfl := h <;> rfl

-- Sums are taken modulo 2 ^ 64, so it does not matter where they leave the range on the way.
theorem toInt_total_bmod (count : WriteStat → Int64) (metadata : CommitMetadata) :
    (metadata.total count).toInt = (exactTotal count metadata.writeStats).bmod (2 ^ 64) := by
  unfold total
  induction metadata.writeStats with
  | nil => rfl
  | cons stat stats ih =>
      rw [List.map_cons, List.sum_cons, Int64.toInt_add, ih, Int.add_bmod_bmod]
      rfl

theorem toInt_total_exact (hlow : Int64.minValue.toInt ≤ exactTotal count metadata.writeStats)
    (hhigh : exactTotal count metadata.writeStats ≤ Int64.maxValue.toInt) :
    (metadata.total count).toInt = exactTotal count metadata.writeStats := by
  have hmin : Int64.minValue.toInt = -9223372036854775808 := rfl
  have hmax : Int64.maxValue.toInt = 9223372036854775807 := rfl
  rw [toInt_total_bmod]
  apply Int.bmod_eq_of_le
  · omega
  · omega

theorem total_perm (h : metadata.writeStats.Perm other.writeStats) :
    metadata.total count = other.total count := by
  apply Int64.toInt_inj.mp
  rw [toInt_total_bmod, toInt_total_bmod, exactTotal_perm h]

theorem find_fileIdToPath (metadata : CommitMetadata) (fileId : String) :
    metadata.fileIdToPath.find? fileId =
      (metadata.writeStats.filterMap (pathOf fileId)).getLast? := by
  unfold fileIdToPath
  rw [OrderedMap.find?_ofList, ← List.getLast?_map, List.filter_filterMap, List.map_filterMap]
  congr 2
  funext stat
  unfold pathOf
  cases stat.fileId with
  | none => rfl
  | some file =>
      cases stat.path with
      | none => simp
      | some path => by_cases h : file = fileId <;> simp [h]

theorem tells_of_grouped (h : metadata.partitionToWriteStats = .grouped stats) :
    metadata.Tells stats := by
  have hpaths : metadata.writePartitionPaths = Partition.paths (.grouped stats) := by
    rw [writePartitionPaths, h]
    rfl
  have hperm : metadata.writeStats.Perm (stats.map Prod.snd) := by
    rw [writeStats, h]
    exact OrderedMap.values_grouped_perm stats
  constructor
  · intro partition
    rw [h]
    exact OrderedMap.find?_grouped stats partition
  · rw [hpaths]
    exact Partition.paths_ascending _
  · intro path
    rw [hpaths, Partition.mem_paths, OrderedMap.mem_keys_grouped]
  · rw [hpaths, writeStats, h]
    exact Partition.values_grouped stats
  · exact hperm
  · intro total htotal
    rw [eq_total_of_mem htotal metadata, ← exactTotal_perm hperm]
    exact toInt_total_exact
  · exact find_fileIdToPath metadata

end CommitMetadata

namespace ReplaceMetadata

-- What is recorded one after the other, beginning with metadata that says nothing.
def ofRecordings (recordings : List Recording) : ReplaceMetadata :=
  recordings.foldl Recording.addTo {}

theorem ofRecordings_eq (recordings : List Recording) :
    ofRecordings recordings =
      { base := { partitionToWriteStats := .grouped (recordings.filterMap Recording.written?) }
        partitionToReplaceFileIds := .grouped (recordings.filterMap Recording.replaced?) } := by
  induction recordings using List.reverseRecOn with
  | nil => rfl
  | append_singleton recordings recording ih =>
      unfold ofRecordings at ih ⊢
      rw [List.foldl_concat, ih, List.filterMap_append, List.filterMap_append]
      cases recording with
      | written partition stat =>
          have hlast : [Recording.written partition stat].filterMap Recording.written? =
            [(partition, stat)] := rfl
          have hnone : [Recording.written partition stat].filterMap Recording.replaced? = [] := rfl
          rw [hlast, hnone, List.append_nil, OrderedMap.grouped_concat]
          rfl
      | replaced partition fileId =>
          have hnone : [Recording.replaced partition fileId].filterMap Recording.written? = [] :=
            rfl
          have hlast : [Recording.replaced partition fileId].filterMap Recording.replaced? =
            [(partition, fileId)] := rfl
          rw [hlast, hnone, List.append_nil, OrderedMap.grouped_concat]
          rfl

-- Without null partitions metadata is what it would be had nothing been recorded under them.
theorem withoutNull_ofRecordings (recordings : List Recording) :
    (Metadata.replace (ofRecordings recordings)).withoutNull =
      .replace (ofRecordings (Recording.withPath recordings)) := by
  rw [ofRecordings_eq, ofRecordings_eq,
    Recording.filterMap_withPath _ Recording.written_partition,
    Recording.filterMap_withPath _ Recording.replaced_partition]
  simp only [Metadata.withoutNull, CommitMetadata.withoutNull, Partition.withoutNull_grouped]

-- What metadata tells of stats and of files replaced.
structure Tells (metadata : ReplaceMetadata) (recordings : List Recording) : Prop where
  base : metadata.base.Tells (recordings.filterMap Recording.written?)
  find_partition : ∀ partition, metadata.partitionToReplaceFileIds.find? partition =
    if valuesOf partition (recordings.filterMap Recording.replaced?) = [] then none
    else some (valuesOf partition (recordings.filterMap Recording.replaced?))
  replacedFiles_eq : ∀ path, metadata.replacedFiles path =
    valuesOf (some path) (recordings.filterMap Recording.replaced?)

theorem tells_ofRecordings (recordings : List Recording) :
    (ofRecordings recordings).Tells recordings := by
  rw [ofRecordings_eq]
  have hfind := OrderedMap.find?_grouped (recordings.filterMap Recording.replaced?)
  refine ⟨CommitMetadata.tells_of_grouped rfl, hfind, ?_⟩
  intro path
  rw [replacedFiles, hfind]
  split
  · rename_i hnone
    exact hnone.symm
  · rfl

theorem writeStats_perm {recordings others : List Recording} (h : others.Perm recordings) :
    (ofRecordings others).base.writeStats.Perm (ofRecordings recordings).base.writeStats := by
  have hothers := (tells_ofRecordings others).base.writeStats_perm
  have hrecordings := (tells_ofRecordings recordings).base.writeStats_perm
  exact hothers.trans (((h.filterMap _).map _).trans hrecordings.symm)

-- All that was recorded is told, and the totals do not depend on the order of recording. What is
-- read from the encoding, as either kind of commit, is what would have been recorded without the
-- null partition, so each total is the sum over the stats of partitions with a path.
theorem ofRecordings_told (recordings : List Recording) :
    (ofRecordings recordings).Tells recordings ∧
    (∀ others, others.Perm recordings → ∀ total ∈ CommitMetadata.totals,
      total.1 (ofRecordings others).base = total.1 (ofRecordings recordings).base) ∧
    ((Metadata.replace (ofRecordings recordings)).body.writeStructured.length < 2 ^ 64 →
      ∀ target, ∃ decoded,
        (do Metadata.decode target (← (Metadata.replace (ofRecordings recordings)).encode)).result =
          .ok decoded ∧
        decoded = (Metadata.replace (ofRecordings (Recording.withPath recordings))).as target ∧
        decoded.base.Tells ((Recording.withPath recordings).filterMap Recording.written?)) := by
  refine ⟨tells_ofRecordings recordings, ?_, ?_⟩
  · intro others hperm total htotal
    rw [CommitMetadata.eq_total_of_mem htotal, CommitMetadata.eq_total_of_mem htotal]
    exact CommitMetadata.total_perm (writeStats_perm hperm)
  · intro hs target
    refine ⟨_, ?_, rfl, ?_⟩
    · rw [← withoutNull_ofRecordings, ← Metadata.ofBody_body]
      exact Metadata.decode_writeStructured _ target hs
    · have hbase := (tells_ofRecordings (Recording.withPath recordings)).base
      cases target with
      | plain => exact hbase
      | replace => exact hbase

-- Two stats of one file, in a later and an earlier partition, one of the null partition between
-- them, and a file replaced in each of two partitions.
def moves : List Recording :=
  [.written (some "b") { fileId := some "f", path := some "b/f", numWrites := 5 },
    .written none { numWrites := 2, numInserts := 2 },
    .replaced none "g",
    .written (some "a") { fileId := some "f", path := some "a/f", numWrites := 4 },
    .replaced (some "a") "f"]

theorem ofRecordings_told_moves :
    (ofRecordings moves).base.writePartitionPaths = ["a", "b"] ∧
    (ofRecordings moves).base.fileIdToPath.find? "f" = some "b/f" ∧
    (ofRecordings moves).base.totalWritten.toInt = 11 ∧
    (ofRecordings moves.reverse).base.totalWritten = (ofRecordings moves).base.totalWritten ∧
    (ofRecordings moves).replacedFiles "a" = ["f"] ∧
    ∃ decoded,
      (do Metadata.decode .plain (← (Metadata.replace (ofRecordings moves)).encode)).result =
        .ok decoded ∧
      decoded.base.totalWritten.toInt = 9 := by
  have hwritten : (CommitMetadata.totalWritten, WriteStat.numWrites) ∈ CommitMetadata.totals :=
    List.mem_cons_self
  obtain ⟨htells, hperm, hdecode⟩ := ofRecordings_told moves
  obtain ⟨decoded, hread, _, hdecoded⟩ := hdecode (by decide) .plain
  refine ⟨rfl, htells.base.find_path "f", ?_, ?_, htells.replacedFiles_eq "a", decoded, hread, ?_⟩
  · have htotal : CommitMetadata.exactTotal WriteStat.numWrites
      ((moves.filterMap Recording.written?).map Prod.snd) = 11 := by decide
    exact (htells.base.toInt_total _ hwritten (by decide) (by decide)).trans htotal
  · exact hperm _ (List.reverse_perm moves) _ hwritten
  · have htotal : CommitMetadata.exactTotal WriteStat.numWrites
      (((Recording.withPath moves).filterMap Recording.written?).map Prod.snd) = 9 := by decide
    exact (hdecoded.toInt_total _ hwritten (by decide) (by decide)).trans htotal

end ReplaceMetadata

end TableHistory
