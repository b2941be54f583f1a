import TableHistory.Proofs.Commit.Encodings
import TableHistory.Proofs.Commit.Requests
import TableHistory.Proofs.Operation.Folding

namespace TableHistory

namespace ReplaceRequest

variable {request : ReplaceRequest}

-- A request is read as a commit if its fields can be divided so.
theorem framed_read_commit_divides (hs : (Framed.write message request).length < 2 ^ 63) :
    (∃ record, Framed.read CommitRecord.message (Framed.write message request) = .ok record) ↔
      ∃ inside behind, request.Divides inside behind := by
  rw [← read_commit_iff (Framed.length_write_lt hs)]
  simp only [Framed.read, Framed.write, Framed.body?_append]
  cases CommitRecord.message.read (message.write request) with
  | ok record => simp
  | error fault => simp

-- With an operation, a request is read as a commit exactly if it can be mistaken for one.
theorem framed_read_commit_iff (hoperation : request.operationType ≠ "")
    (hs : (Framed.write message request).length < 2 ^ 63) :
    (∃ record, Framed.read CommitRecord.message (Framed.write message request) = .ok record) ↔
      request.Mistakable := by
  rw [framed_read_commit_divides hs, mistakable_iff hoperation]

-- A request whose version is the length of the field behind it, and that field is its operation.
def mistaken : ReplaceRequest := { operationType := "CLUSTER", version := 9 }

theorem mistakable_mistaken : mistaken.Mistakable where
  keys := nofun
  version := .inl (by decide)

-- Having an operation does not keep a request from being read as a commit.
theorem not_forall_request_unreadable :
    ¬ ∀ request : ReplaceRequest, request.operationType ≠ "" → ∃ fault,
      Framed.read CommitRecord.message (Framed.write message request) =
        .error fault := by
  intro h
  obtain ⟨fault, hfault⟩ := h mistaken (by decide)
  have hread : Framed.read CommitRecord.message (Framed.write message mistaken) =
      .ok { partitionToWriteStats := .insert .empty "" {} } := rfl
  rw [hread] at hfault
  cases hfault

-- A plan that is a request gives inflight metadata exactly if it is read as a commit.
theorem inflightOf_isSome_iff :
    (Entry.inflightOf (Framed.write message request)).isSome = true ↔
      ∃ record, Framed.read CommitRecord.message (Framed.write message request) = .ok record := by
  have hne : Framed.write message request ≠ [] := Framed.header_append_ne_nil _
  have hdecode := Metadata.decode_header .plain (message.write request)
  unfold Entry.inflightOf
  rw [if_neg hne]
  simp only [Framed.read, Framed.write, Framed.body?_append, CommitBody.readFields] at hdecode ⊢
  rw [hdecode]
  cases CommitRecord.message.read (message.write request) with
  | ok record => simp [Except.map, Except.toOption]
  | error fault => simp [Except.map, Except.toOption]

end ReplaceRequest

namespace LoadedOperation

open Entry

variable {config : ArchiveConfig} {time completion : String} {action : Action} {completed : Bytes}

-- The operation with its three bodies.
def withBodies (operation : LoadedOperation) (requested inflight completed : Bytes) :
    LoadedOperation :=
  ((operation.withBody .requested requested).withBody .inflight inflight).withBody .completed
    completed

-- A replacing operation without an inflight body plans with its requested one.
theorem fold_requested (operation : LoadedOperation) {requested : Bytes} (hne : requested ≠ [])
    (hpending : operation.pendingAction = .replaceCommit ∨
      operation.pendingAction = .clustering) :
    (operation.withBodies requested [] completed).fold =
      ⟨operation.instantTime, operation.completionTime.getD "", operation.action.name,
        ActiveOperation.foldedVersion, kept completed, some requested⟩ := by
  obtain ⟨time, completion, action, pending, _, _, _⟩ := operation
  have hrequested : requested.isEmpty = false := by simpa using hne
  rcases hpending with rfl | rfl <;>
    simp [withBodies, withBody, fold, active, ActiveOperation.fold, ActiveOperation.planFrom,
      Action.rule, Rule.replacing, kept, hrequested]

-- A completed body that can be read is archived.
theorem ofInstant_replacing (h : action = .replaceCommit ∨ action = .clustering)
    {metadata : Metadata}
    (hcompleted : (Metadata.decode .replace completed).result = .ok metadata) :
    ∃ entry, (ofInstant config (fun _ => .ok completed)
      ⟨time, action, .completed, some completion⟩).result = .ok entry := by
  rw [ofInstant_completed rfl]
  by_cases hne : completed = []
  · exact ⟨_, if_pos hne⟩
  · have hrule : action.rule.foldedMetadata = some ⟨.replaceCommitMetadata, .nonEmpty⟩ := by
      rcases h with rfl | rfl <;> rfl
    rw [if_neg hne, hrule, fill_nonEmpty, if_neg hne]
    simp only [BodySource.readSlot, BodySource.readCommit, Traced.result_bind,
      Traced.result_mapFault, hcompleted]
    exact ⟨_, rfl⟩

-- A request is not taken for inflight metadata when it is read back from the archive, except for
-- the mistakable ones. No body that can be held is longer than the bound.
theorem ofFolded_request (config : ArchiveConfig) (operation : LoadedOperation)
    (request : ReplaceRequest) (completed : Bytes) (metadata : Metadata)
    (hversion : config.tableVersion.atLeast foldedFrom = true)
    (haction : operation.action = .replaceCommit ∨ operation.action = .clustering)
    (hpending : operation.pendingAction = .replaceCommit ∨ operation.pendingAction = .clustering)
    (hoperation : request.operationType ≠ "")
    (hsize : (Framed.write ReplaceRequest.message request).length < 2 ^ 63)
    (hcompleted : (Metadata.decode .replace completed).result = .ok metadata) :
    let requested := Framed.write ReplaceRequest.message request
    ((∃ record, Framed.read CommitRecord.message requested = .ok record) ↔ request.Mistakable) ∧
    ∃ entry, (ofFolded config (operation.withBodies requested [] completed).fold).result =
        .ok entry ∧
      ((entry.payload .inflightReplaceMetadata).isSome = true ↔
        completed ≠ [] ∧ request.Mistakable) := by
  intro requested
  have hread := ReplaceRequest.framed_read_commit_iff hoperation hsize
  refine ⟨hread, ?_⟩
  have hfold : (operation.withBodies requested [] completed).fold =
      ⟨operation.instantTime, operation.completionTime.getD "", operation.action.name,
        ActiveOperation.foldedVersion, kept completed, some requested⟩ :=
    fold_requested operation (Framed.header_append_ne_nil _) hpending
  rw [hfold]
  by_cases hne : completed = []
  · have hkind : ¬ (operation.action = .compaction ∨ operation.action = .logCompaction) := by
      rcases haction with h | h <;> rw [h] <;> decide
    refine ⟨_, ofFolded_empty hversion ((kept_getD completed).trans hne) hkind, ?_⟩
    simp [hne, header]
  · obtain ⟨entry, hlive⟩ : ∃ entry, (ofInstant config (fun _ => .ok completed)
        ⟨operation.instantTime, operation.action, .completed,
          some (operation.completionTime.getD "")⟩).result = .ok entry :=
      ofInstant_replacing haction hcompleted
    obtain ⟨other, hfill, -, hpayload⟩ : ∃ other, (entry.fill
        (sourceOf config operation.instantTime operation.action) operation.action.rule.foldedPlan
          requested).result = .ok other ∧ AgreeBut .inflightReplaceMetadata entry other ∧
        other.payload .inflightReplaceMetadata = inflightOf requested :=
      fill_replacing_agrees hversion haction rfl hlive
    have hbody : (kept completed).getD [] ≠ [] := by rwa [kept_getD]
    refine ⟨other, (ofFolded_ok hversion ?_ (absurd · hbody) hlive).trans hfill, ?_⟩
    · rw [kept_getD]
    · rw [hpayload, ReplaceRequest.inflightOf_isSome_iff, hread]
      simp [hne]

def clustered : LoadedOperation := ⟨"1", some "2", .replaceCommit, .clustering, none, none, none⟩

theorem ofFolded_request_mistaken :
    ReplaceRequest.mistaken.operationType ≠ "" ∧ ReplaceRequest.mistaken.Mistakable ∧
      (Metadata.decode .replace (Framed.write ReplaceRecord.message {})).result =
        .ok (.replace {}) ∧
      (∃ record, Framed.read CommitRecord.message
        (Framed.write ReplaceRequest.message .mistaken) = .ok record) ∧
      ∃ entry,
        (ofFolded {} (clustered.withBodies (Framed.write ReplaceRequest.message .mistaken) []
          (Framed.write ReplaceRecord.message {})).fold).result = .ok entry ∧
        (entry.payload .inflightReplaceMetadata).isSome = true := by
  have hoperation : ReplaceRequest.mistaken.operationType ≠ "" := by decide
  have hmistakable := ReplaceRequest.mistakable_mistaken
  have hcompleted : (Metadata.decode .replace (Framed.write ReplaceRecord.message {})).result =
      .ok (.replace {}) := rfl
  obtain ⟨hread, entry, hentry, hinflight⟩ := ofFolded_request {} clustered .mistaken _ _
    (by decide) (.inl rfl) (.inr rfl) hoperation (by decide) hcompleted
  refine ⟨hoperation, hmistakable, hcompleted, hread.mpr hmistakable, entry, hentry, ?_⟩
  exact hinflight.mpr ⟨by decide, hmistakable⟩

end LoadedOperation

end TableHistory
