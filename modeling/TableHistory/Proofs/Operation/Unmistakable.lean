import TableHistory.Proofs.Operation.Requests

/-!
Requests that are never taken for inflight metadata. A request is read as a commit only if its
version is the length of some of the fields behind it. A negative version is no length, a version of
one is shorter than any field, and behind a version of zero an operation stands where a commit has
none. Such requests leave no trace in the archive.
-/

namespace TableHistory

namespace ReplaceRequest

open Wire

variable {request : ReplaceRequest} {inside behind : List RequestPart}

-- A version that cannot be the length of fields, or an operation that cannot be part of them.
def Unmistakable (request : ReplaceRequest) : Prop :=
  request.version = 1 ∨ request.version < 0 ∨ request.version = 0 ∧ request.operationType ≠ ""

-- A field has a key and a length.
theorem two_le_length_bytes (part : RequestPart) : 2 ≤ part.bytes.length := by
  have hkey := List.length_pos_iff.mpr (Key.write_ne_nil ⟨part.tag, .delimited⟩)
  have hlength := List.length_pos_iff.mpr (Varint.write_ne_nil part.body.length)
  unfold RequestPart.bytes writeDelimited
  simp only [List.length_append]
  omega

theorem length_inside_ne_one (inside : List RequestPart) :
    (inside.map RequestPart.bytes).flatten.length ≠ 1 := by
  cases inside with
  | nil => decide
  | cons part inside =>
      have hpart := two_le_length_bytes part
      simp only [List.map_cons, List.flatten_cons, List.length_append]
      omega

theorem not_divides (h : request.Unmistakable) :
    ¬ ∃ inside behind, request.Divides inside behind := by
  rintro ⟨inside, behind, hdivides⟩
  have hversion := hdivides.version
  rcases h with hone | hnegative | ⟨hzero, hoperation⟩
  · have hvalue : (1 : Int32).toInt = 1 := rfl
    have hlength := length_inside_ne_one inside
    rw [hone, hvalue] at hversion
    omega
  · have hvalue : (0 : Int32).toInt = 0 := rfl
    have hless := Int32.lt_iff_toInt_lt.mp hnegative
    rw [hversion, hvalue] at hless
    omega
  · have hcommit := (divides_zero_iff hzero).mp ⟨inside, behind, hdivides⟩
    apply hcommit (.operation request.operationType)
    rw [parts_eq hoperation]
    simp [leading]

-- So a probe of such a request finds nothing.
theorem inflightOf_unmistakable (h : request.Unmistakable)
    (hs : (Framed.write message request).length < 2 ^ 63) :
    Entry.inflightOf (Framed.write message request) = none := by
  rw [← Option.not_isSome_iff_eq_none, inflightOf_isSome_iff, framed_read_commit_divides hs]
  exact not_divides h

-- A request that only has a version, and one whose version is below zero.
def versioned : ReplaceRequest := { version := 1 }

def negative : ReplaceRequest := { operationType := "CLUSTER", version := -1 }

end ReplaceRequest

namespace LoadedOperation

open Entry

-- The completed instant that the compact record of an operation tells of. Where the operation has
-- no completion time, the record has the empty one.
def completedInstant (operation : LoadedOperation) : Instant :=
  ⟨operation.instantTime, operation.action, .completed, some (operation.completionTime.getD "")⟩

-- Nothing of an unmistakable request gets into the archive. A replacing operation that is folded
-- with it as the plan is recorded as its completed instant is, and fails where that does. No body
-- that can be held is longer than the bound.
theorem ofFolded_unmistakable (config : ArchiveConfig) (reader : InstantReader)
    (operation : LoadedOperation) (request : ReplaceRequest) (completed : Bytes)
    (hversion : config.tableVersion.atLeast foldedFrom = true)
    (haction : operation.action = .replaceCommit ∨ operation.action = .clustering)
    (hpending : operation.pendingAction = .replaceCommit ∨ operation.pendingAction = .clustering)
    (hrequest : request.Unmistakable)
    (hsize : (Framed.write ReplaceRequest.message request).length < 2 ^ 63)
    (hread : reader operation.completedInstant = .ok completed) :
    (ofFolded config (operation.withBodies (Framed.write ReplaceRequest.message request) []
      completed).fold).result = (ofInstant config reader operation.completedInstant).result := by
  have hfold : (operation.withBodies (Framed.write ReplaceRequest.message request) []
      completed).fold = ⟨operation.instantTime, operation.completionTime.getD "",
        operation.action.name, ActiveOperation.foldedVersion, kept completed,
        some (Framed.write ReplaceRequest.message request)⟩ :=
    fold_requested operation (Framed.header_append_ne_nil _) hpending
  have hbody := kept_getD completed
  rw [hfold]
  by_cases hempty : completed = []
  · have hkind : ¬ (operation.action = .compaction ∨ operation.action = .logCompaction) := by
      rcases haction with h | h <;> rw [h] <;> decide
    have hlive : (ofInstant config reader operation.completedInstant).result = _ :=
      ofInstant_completed hread
    rw [ofFolded_empty hversion (hbody.trans hempty) hkind, hlive, if_pos hempty]
  · have hfull : (kept completed).getD [] ≠ [] := by rwa [hbody]
    have hkept : reader operation.completedInstant = .ok ((kept completed).getD []) := by
      rw [hbody]
      exact hread
    rw [ofFolded_eq hversion hkept (absurd · hfull)]
    change (ofInstant config reader operation.completedInstant).result >>= _ = _
    cases (ofInstant config reader operation.completedInstant).result with
    | error fault => rfl
    | ok entry =>
        rw [ok_bind, fill_replacing hversion haction, Option.getD_some,
          ReplaceRequest.inflightOf_unmistakable hrequest hsize]

-- A clustering with such a request, once completed and once with a body that cannot be read.
theorem ofFolded_unmistakable_versioned :
    ReplaceRequest.versioned.Unmistakable ∧ ReplaceRequest.negative.Unmistakable ∧
      (ofFolded {} (clustered.withBodies (Framed.write ReplaceRequest.message .versioned) []
        (Framed.write ReplaceRecord.message {})).fold).result =
          .ok ((header "1" .completed (some "2") .replaceCommit).insert
            ⟨.replaceCommitMetadata, {}⟩) ∧
      (ofFolded {} (clustered.withBodies (Framed.write ReplaceRequest.message .negative) []
        [0]).fold).result =
          (ofInstant {} (fun _ => .ok [0]) ⟨"1", .replaceCommit, .completed, some "2"⟩).result := by
  have hversioned : ReplaceRequest.versioned.Unmistakable := .inl rfl
  have hnegative : ReplaceRequest.negative.Unmistakable := .inr (.inl (by decide))
  refine ⟨hversioned, hnegative, ?_, ?_⟩
  · exact ofFolded_unmistakable {} (fun _ => .ok (Framed.write ReplaceRecord.message {})) clustered
      .versioned _ (by decide) (.inl rfl) (.inr rfl) hversioned (by decide) rfl
  · exact ofFolded_unmistakable {} (fun _ => .ok [0]) clustered .negative [0] (by decide) (.inl rfl)
      (.inr rfl) hnegative (by decide) rfl

end LoadedOperation

end TableHistory
