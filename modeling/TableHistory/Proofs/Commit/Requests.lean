import TableHistory.Proofs.Commit.RequestParts

/-!
The bodies of requests to replace file groups, read as the bodies of commits. Both kinds of record
have metadata under one tag, but a request begins with its version where a commit has write stats by
partition. Entries of maps are read whatever their wire type is, so a version is taken for the
length of an entry, and the fields of the request behind it for those of the entry.
-/

namespace TableHistory

open Schema Wire

namespace ReplaceRequest

-- The fields behind the version, in the order of their tags.
def parts (request : ReplaceRequest) : List RequestPart :=
  request.extraMetadata.entries.map .extra ++
    ((if request.operationType.isEmpty then [] else [.operation request.operationType]) ++
      request.clusteringPlan.toList.map .plan)

-- The bytes of the version, which is left out when it is zero.
def versionBytes (version : Int32) : Bytes :=
  if version = 0 then []
  else Key.write ⟨1, .varint⟩ ++ Varint.write version.toInt64.toUInt64.toNat

theorem versionBytes_ne_nil {version : Int32} (h : version ≠ 0) : versionBytes version ≠ [] := by
  unfold versionBytes
  rw [if_neg h]
  exact List.append_ne_nil_of_left_ne_nil (Key.write_ne_nil _) _

def versionField : Schema.Field Int32 := .of 1 "version" "version" (.single .int32)

def extraField : Schema.Field (OrderedMap String String) :=
  .of 2 "extra_metadata" "extraMetadata" (.keyed .string)

def operationField : Schema.Field String := .of 3 "operation_type" "operationType" (.single .string)

def planField : Schema.Field (Option ClusteringPlan) :=
  .of 4 "clustering_plan" "clusteringPlan" (.optional ClusteringPlan.message.shape)

-- The fields are declared in another order than that of their tags.
theorem chunks_eq (request : ReplaceRequest) :
    message.chunks request =
      versionField.chunks request.version ++ (extraField.chunks request.extraMetadata ++
        (operationField.chunks request.operationType ++
          planField.chunks request.clusteringPlan)) := by
  have hfields : message.fields.chunks (message.unpack request) =
      operationField.chunks request.operationType ++ (planField.chunks request.clusteringPlan ++
        (extraField.chunks request.extraMetadata ++
          (versionField.chunks request.version ++ []))) := rfl
  have htags : ∀ chunk ∈ message.fields.chunks (message.unpack request),
      chunk.tag ∈ [1, 2, 3, 4] := by
    intro chunk hc
    have hdeclared : ∀ tag ∈ message.fields.tags, tag ∈ [1, 2, 3, 4] := by decide
    exact hdeclared _ (Fields.tag_mem_of_mem_chunks hc)
  have hversion : versionField.tag = 1 := rfl
  have hextra : extraField.tag = 2 := rfl
  have hoperation : operationField.tag = 3 := rfl
  have hplan : planField.tag = 4 := rfl
  unfold Message.chunks
  rw [Chunk.sort_eq (by decide) htags, hfields]
  simp [Chunk.byTag, Field.filter_chunks, hversion, hextra, hoperation, hplan]

theorem write_eq (request : ReplaceRequest) :
    message.write request =
      versionBytes request.version ++ (request.parts.map RequestPart.bytes).flatten := by
  have hversion : (versionField.chunks request.version).flatMap Chunk.bytes =
      versionBytes request.version := by
    by_cases hz : request.version = 0
    · rw [hz]
      rfl
    · have hone : (Cell.single .int32).occurrences request.version =
          [(.varint, Varint.write request.version.toInt64.toUInt64.toNat)] :=
        if_neg (by simpa [Shape.int32, Form.int32, Form.ofVarint] using hz)
      unfold versionField versionBytes
      simp only [Field.chunks, Field.of, hone, if_neg hz]
      exact List.append_nil _
  have hextra : (extraField.chunks request.extraMetadata).flatMap Chunk.bytes =
      ((request.extraMetadata.entries.map .extra).map RequestPart.bytes).flatten := by
    unfold extraField
    simp only [Field.chunks, Field.of, Cell.occurrences, List.flatMap_def, List.map_map]
    rfl
  have hoperation : (operationField.chunks request.operationType).flatMap Chunk.bytes =
      ((if request.operationType.isEmpty then [] else
        [.operation request.operationType] : List RequestPart).map RequestPart.bytes).flatten := by
    by_cases hz : request.operationType.isEmpty = true
    · have hnone : (Cell.single .string).occurrences request.operationType = [] := if_pos hz
      unfold operationField
      simp only [Field.chunks, Field.of, hnone, if_pos hz]
      rfl
    · have hone : (Cell.single .string).occurrences request.operationType =
          [(.delimited, writeDelimited (Utf8.encode request.operationType))] := if_neg hz
      unfold operationField
      simp only [Field.chunks, Field.of, hone, if_neg hz]
      rfl
  have hplan : (planField.chunks request.clusteringPlan).flatMap Chunk.bytes =
      ((request.clusteringPlan.toList.map .plan).map RequestPart.bytes).flatten := by
    unfold planField
    simp only [Field.chunks, Field.of, Cell.occurrences, List.flatMap_def, List.map_map]
    rfl
  unfold Message.write parts
  rw [chunks_eq]
  simp only [List.flatMap_append, List.map_append, List.flatten_append, hversion, hextra,
    hoperation, hplan]

-- A version is on the wire as the length that it is, if it is one.
theorem version_eq_iff (version : Int32) {length : Nat} (hl : length < 2 ^ 63) :
    version.toInt64.toUInt64.toNat = length ↔ version.toInt = length := by
  have hbits : version.toInt64.toUInt64.toNat = version.toInt64.toBitVec.toNat := rfl
  have hvalue : version.toInt64.toBitVec.toInt = version.toInt := Int32.toInt_toInt64 version
  have hsign := BitVec.toInt_eq_toNat_cond version.toInt64.toBitVec
  have hmost := version.toInt64.toBitVec.isLt
  rw [hbits]
  split at hsign <;> omega

theorem length_part_lt {request : ReplaceRequest} {limit : Nat}
    (hs : (message.write request).length < limit) {part : RequestPart}
    (h : part ∈ request.parts) : part.bytes.length < limit := by
  obtain ⟨front, behind, he⟩ := List.append_of_mem h
  rw [write_eq, he] at hs
  simp only [List.map_append, List.map_cons, List.flatten_append, List.flatten_cons,
    List.length_append] at hs
  omega

-- Reading the version as the length of an entry.
theorem mergeField_version {version : Int32} (hz : version ≠ 0) {levels : Nat}
    {old new : CommitRecord} {bytes rest : Bytes} :
    CommitRecord.message.mergeField (levels + 1) old (versionBytes version ++ bytes) =
      .ok (new, rest) ↔ ∃ pieces entry, bytes = pieces.flatten ++ rest ∧
        version.toInt64.toUInt64.toNat = pieces.flatten.length ∧
        Run (Consumes (Cell.readEntryField WriteStats.message.shape levels)) pieces
          ("", WriteStats.message.zero) entry ∧
        new = { old with
          partitionToWriteStats := old.partitionToWriteStats.insert entry.1 entry.2 } := by
  have hread := Varint.read_write version.toInt64.toUInt64.toNat bytes (UInt64.toNat_lt _)
  have hentry : ∀ entry behind, readDelimited
      (Cell.readEntryField WriteStats.message.shape levels) ("", WriteStats.message.zero)
      (Varint.write version.toInt64.toUInt64.toNat ++ bytes) = .ok (entry, behind) ↔
        ∃ pieces, bytes = pieces.flatten ++ behind ∧
          version.toInt64.toUInt64.toNat = pieces.flatten.length ∧
          Run (Consumes (Cell.readEntryField WriteStats.message.shape levels)) pieces
            ("", WriteStats.message.zero) entry := by
    intro entry behind
    rw [readDelimited_iff (Cell.readEntryField_advances (Message.shape_fronts WriteStats.fronts) _)]
    simp only [hread, Except.ok.injEq, Prod.mk.injEq]
    constructor
    · rintro ⟨pieces, ⟨hlength, hbytes⟩, hrun⟩
      exact ⟨pieces, hbytes, hlength, hrun⟩
    · rintro ⟨pieces, hbytes, hlength, hrun⟩
      exact ⟨pieces, ⟨hlength, hbytes⟩, hrun⟩
  unfold versionBytes
  rw [if_neg hz, List.append_assoc, CommitRecord.mergeField_stats]
  constructor
  · rintro ⟨map, hcell, rfl⟩
    obtain ⟨⟨entry, behind⟩, hdelimited, hmap⟩ := bind_eq_ok.mp hcell
    cases hmap
    obtain ⟨pieces, hbytes, hlength, hrun⟩ := (hentry entry rest).mp hdelimited
    exact ⟨pieces, entry, hbytes, hlength, hrun, rfl⟩
  · rintro ⟨pieces, entry, hbytes, hlength, hrun, rfl⟩
    have hdelimited := (hentry entry rest).mpr ⟨pieces, hbytes, hlength, hrun⟩
    exact ⟨_, bind_eq_ok.mpr ⟨(entry, rest), hdelimited, rfl⟩, rfl⟩

-- The levels of nesting that are left where the key of metadata is taken for a stat.
def statLevels : Nat := levelLimit - 3

-- The fields behind the version, divided into those of an entry of write stats, whose length is the
-- version, and fields of a commit.
structure Divides (request : ReplaceRequest) (inside behind : List RequestPart) : Prop where
  parts : request.parts = inside ++ behind
  version : request.version.toInt = (inside.map RequestPart.bytes).flatten.length
  stats : ∀ part ∈ inside, part.FitsStats statLevels
  commit : ∀ part ∈ behind, part.FitsCommit

-- No field has an empty length, so without a version all fields are behind.
theorem divides_zero_iff {request : ReplaceRequest} (hz : request.version = 0) :
    (∃ inside behind, request.Divides inside behind) ↔ ∀ part ∈ request.parts, part.FitsCommit := by
  constructor
  · rintro ⟨inside, behind, hparts, hversion, -, hcommit⟩
    cases inside with
    | nil =>
        rw [hparts]
        exact hcommit
    | cons part inside =>
        have hpart := List.length_pos_iff.mpr part.bytes_ne_nil
        have hzero : (0 : Int32).toInt = 0 := rfl
        rw [hz, hzero, List.map_cons, List.flatten_cons, List.length_append] at hversion
        omega
  · intro hcommit
    exact ⟨[], request.parts, rfl, by rw [hz]; rfl, nofun, hcommit⟩

section Reading

variable {request : ReplaceRequest} {inside behind : List RequestPart}
  (hs : (message.write request).length < 2 ^ 63)
include hs

theorem version_length_iff (hparts : request.parts = inside ++ behind) :
    request.version.toInt64.toUInt64.toNat = (inside.map RequestPart.bytes).flatten.length ↔
      request.version.toInt = (inside.map RequestPart.bytes).flatten.length := by
  apply version_eq_iff
  rw [write_eq, hparts] at hs
  simp only [List.map_append, List.flatten_append, List.length_append] at hs
  omega

theorem settles_commit : ∀ part ∈ request.parts,
    Settles (CommitRecord.message.mergeField levelLimit) part.bytes part.FitsCommit := by
  intro part hp
  have hsize : part.bytes.length < sizeLimit := Nat.lt_trans (length_part_lt hs hp) (by decide)
  exact RequestPart.settles_commit hsize

theorem settles_stats : ∀ part ∈ request.parts,
    Settles (Cell.readEntryField WriteStats.message.shape (statLevels + 2)) part.bytes
      (part.FitsStats statLevels) := by
  intro part hp
  have hsize : part.bytes.length < sizeLimit := Nat.lt_trans (length_part_lt hs hp) (by decide)
  exact RequestPart.settles_stats hsize

-- Without a version, the request begins where a commit has its metadata.
theorem read_commit_zero (hz : request.version = 0) :
    (∃ record, CommitRecord.message.read (message.write request) = .ok record) ↔
      ∀ part ∈ request.parts, part.FitsCommit := by
  have hwrite : message.write request = (request.parts.map RequestPart.bytes).flatten := by
    rw [write_eq, hz]
    rfl
  rw [← run_iff_settled (settles_commit hs) CommitRecord.message.zero, ← hwrite]
  simp only [Message.read_iff CommitRecord.fronts]
  exact exists_comm

-- With a version, the first step of a run reads the entry, and the rest of it is behind.
theorem exists_divides_of_read (hz : request.version ≠ 0) {record : CommitRecord}
    (h : CommitRecord.message.read (message.write request) = .ok record) :
    ∃ inside behind, request.Divides inside behind := by
  obtain ⟨pieces, hbytes, hrun⟩ := (Message.read_iff CommitRecord.fronts).mp h
  rw [write_eq] at hbytes
  cases hrun with
  | nil => exact absurd (List.append_eq_nil_iff.mp hbytes).1 (versionBytes_ne_nil hz)
  | @cons piece pieces first next last hstep hrest =>
      rw [List.flatten_cons] at hbytes
      have hread := hstep.2 pieces.flatten
      rw [← hbytes] at hread
      obtain ⟨entries, entry, hentries, hversion, hentry, -⟩ := (mergeField_version hz).mp hread
      obtain ⟨inside, behind, hparts, rfl, hstats⟩ :=
        settled_of_run (settles_stats hs) hentry hentries
      have hbehind : (behind.map RequestPart.bytes).flatten = pieces.flatten := by
        rw [hparts, List.map_append, List.flatten_append] at hentries
        exact List.append_cancel_left hentries
      have hsettles : ∀ part ∈ behind, Settles (CommitRecord.message.mergeField levelLimit)
          part.bytes part.FitsCommit :=
        fun part hp => settles_commit hs part (hparts ▸ List.mem_append_right _ hp)
      have hcommit := (run_iff_settled hsettles next).mp ⟨pieces, record, hbehind, hrest⟩
      exact ⟨inside, behind, hparts, (version_length_iff hs hparts).mp hversion, hstats, hcommit⟩

theorem read_of_divides (hz : request.version ≠ 0) (h : request.Divides inside behind) :
    ∃ record, CommitRecord.message.read (message.write request) = .ok record := by
  obtain ⟨hparts, hversion, hstats, hcommit⟩ := h
  obtain ⟨entry, hentry⟩ := run_of_settles
    (fun part hp => settles_stats hs part (hparts ▸ List.mem_append_left _ hp)) hstats
    ("", WriteStats.message.zero)
  have htakes : Takes (CommitRecord.message.mergeField levelLimit CommitRecord.message.zero)
      (versionBytes request.version ++ (inside.map RequestPart.bytes).flatten)
      { partitionToWriteStats := .insert .empty entry.1 entry.2 } := by
    intro rest
    rw [List.append_assoc]
    exact (mergeField_version hz).mpr
      ⟨_, entry, rfl, (version_length_iff hs hparts).mpr hversion, hentry, rfl⟩
  obtain ⟨last, hrest⟩ := run_of_settles
    (fun part hp => settles_commit hs part (hparts ▸ List.mem_append_right _ hp)) hcommit
    { partitionToWriteStats := .insert .empty entry.1 entry.2 }
  have hne := List.append_ne_nil_of_left_ne_nil (versionBytes_ne_nil hz)
    (inside.map RequestPart.bytes).flatten
  refine ⟨last, (Message.read_iff CommitRecord.fronts).mpr ⟨_, ?_, .cons ⟨hne, htakes⟩ hrest⟩⟩
  rw [write_eq, hparts, List.flatten_cons, List.map_append, List.flatten_append,
    List.append_assoc]

-- A request is read as a commit exactly if its version is the length of some of the fields behind
-- it, which make an entry of write stats, and the others are fields of a commit.
theorem read_commit_iff :
    (∃ record, CommitRecord.message.read (message.write request) = .ok record) ↔
      ∃ inside behind, request.Divides inside behind := by
  by_cases hz : request.version = 0
  · rw [read_commit_zero hs hz, divides_zero_iff hz]
  · constructor
    · rintro ⟨record, hread⟩
      exact exists_divides_of_read hs hz hread
    · rintro ⟨inside, behind, hdivides⟩
      exact read_of_divides hs hz hdivides

end Reading

-- A request with an operation that is taken for a commit. Its version is the length of all fields
-- behind it, or of all but a plan that is text, and the keys of its metadata are write stats.
structure Mistakable (request : ReplaceRequest) : Prop where
  keys : ∀ entry ∈ request.extraMetadata.entries,
    ∃ stat, WriteStat.message.readAt statLevels (Utf8.encode entry.1) = .ok stat
  version :
    request.version.toInt = (message.write { request with version := 0 }).length ∨
      request.version.toInt =
          (message.write { request with version := 0, clusteringPlan := none }).length ∧
        ∀ plan ∈ request.clusteringPlan,
          (Utf8.decode? (ClusteringPlan.message.write plan)).isSome = true

-- The parts of a request with an operation, without its plan and the plan.
def leading (request : ReplaceRequest) : List RequestPart :=
  request.extraMetadata.entries.map .extra ++ [.operation request.operationType]

def plans (request : ReplaceRequest) : List RequestPart :=
  request.clusteringPlan.toList.map .plan

-- Of the fields of an entry of write stats only the keys of metadata are not skipped.
theorem leading_stats_iff {request : ReplaceRequest} :
    (∀ part ∈ request.leading, part.FitsStats statLevels) ↔
      ∀ entry ∈ request.extraMetadata.entries,
        ∃ stat, WriteStat.message.readAt statLevels (Utf8.encode entry.1) = .ok stat := by
  unfold leading
  rw [List.forall_mem_append, List.forall_mem_map]
  exact and_iff_left (by simp [RequestPart.FitsStats])

theorem plans_stats {request : ReplaceRequest} :
    ∀ part ∈ request.plans, part.FitsStats statLevels := by
  unfold plans
  rw [List.forall_mem_map]
  exact fun _ _ => trivial

theorem plans_commit_iff {request : ReplaceRequest} :
    (∀ part ∈ request.plans, part.FitsCommit) ↔ ∀ plan ∈ request.clusteringPlan,
      (Utf8.decode? (ClusteringPlan.message.write plan)).isSome = true := by
  unfold plans
  rw [List.forall_mem_map]
  simp only [Option.mem_toList, RequestPart.FitsCommit, Option.mem_def]

section Operation

variable {request : ReplaceRequest} (h : request.operationType ≠ "")
include h

theorem parts_eq : request.parts = request.leading ++ request.plans := by
  have hne : ¬ request.operationType.isEmpty = true := by simpa using h
  unfold parts leading
  rw [if_neg hne, List.append_assoc]
  rfl

theorem write_unplanned :
    message.write { request with version := 0, clusteringPlan := none } =
      (request.leading.map RequestPart.bytes).flatten := by
  have hparts : parts { request with version := 0, clusteringPlan := none } =
      request.leading ++ [] :=
    @parts_eq { request with version := 0, clusteringPlan := none } h
  rw [write_eq, hparts, List.append_nil]
  rfl

-- No commit has the operation of a request, so it is one of the fields taken for those of the
-- entry, and at most the plan is left behind it.
theorem split_of_operation {inside behind : List RequestPart}
    (hparts : request.parts = inside ++ behind) (hbehind : ∀ part ∈ behind, part.FitsCommit) :
    (inside = request.parts ∧ behind = []) ∨
      (inside = request.leading ∧ behind = request.plans) := by
  rw [parts_eq h] at hparts
  rcases List.append_eq_append_iff.mp hparts with ⟨others, rfl, hplans⟩ | ⟨others, hleading, rfl⟩
  · cases others with
    | nil => exact .inr ⟨List.append_nil _, hplans.symm⟩
    | cons part others =>
        have hshort : request.plans.length ≤ 1 := by
          unfold plans
          cases request.clusteringPlan <;> simp
        have hnone : behind = [] := by
          rw [hplans, List.length_append, List.length_cons] at hshort
          exact List.length_eq_zero_iff.mp (by omega)
        rw [hnone, List.append_nil] at hplans
        exact .inl ⟨by rw [parts_eq h, hplans], hnone⟩
  · rcases List.eq_nil_or_concat others with rfl | ⟨front, last, rfl⟩
    · exact .inr ⟨(hleading.trans (List.append_nil _)).symm, rfl⟩
    · unfold leading at hleading
      rw [List.concat_eq_append, ← List.append_assoc] at hleading
      obtain ⟨-, hlast⟩ := List.append_inj' hleading rfl
      have hoperation := hbehind (.operation request.operationType) (by simp [← hlast])
      exact hoperation.elim

theorem mistakable_iff :
    request.Mistakable ↔ ∃ inside behind, request.Divides inside behind := by
  have hwrite : message.write { request with version := 0 } =
      (request.parts.map RequestPart.bytes).flatten := write_eq { request with version := 0 }
  constructor
  · rintro ⟨hkeys, hversion | ⟨hversion, htext⟩⟩
    · refine ⟨request.parts, [], (List.append_nil _).symm, by rw [hversion, hwrite], ?_, nofun⟩
      rw [parts_eq h, List.forall_mem_append]
      exact ⟨leading_stats_iff.mpr hkeys, plans_stats⟩
    · exact ⟨request.leading, request.plans, parts_eq h, by rw [hversion, write_unplanned h],
        leading_stats_iff.mpr hkeys, plans_commit_iff.mpr htext⟩
  · rintro ⟨inside, behind, hparts, hversion, hstats, hcommit⟩
    rcases split_of_operation h hparts hcommit with ⟨rfl, -⟩ | ⟨rfl, rfl⟩
    · rw [parts_eq h, List.forall_mem_append] at hstats
      exact ⟨leading_stats_iff.mp hstats.1, .inl (by rw [hversion, hwrite])⟩
    · exact ⟨leading_stats_iff.mp hstats,
        .inr ⟨by rw [hversion, write_unplanned h], plans_commit_iff.mp hcommit⟩⟩

end Operation

end ReplaceRequest

end TableHistory
