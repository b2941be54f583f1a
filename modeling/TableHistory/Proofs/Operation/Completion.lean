import TableHistory.Proofs.Entry.Presence
import TableHistory.Proofs.Operation.Folding

namespace TableHistory

namespace Entry

variable {config : ArchiveConfig} {reader : InstantReader} {action : Action}
  {time completion : String} {version : UInt32} {metadata : Option Bytes} {body : Bytes}

def withTime (entry : Entry) (time : Option String) : Entry :=
  { entry with transitionTime := time }

-- Filling a slot neither looks at the transition time nor changes it.
theorem fill_withTime (entry : Entry) (source : BodySource) (rule : Option SlotRule) (body : Bytes)
    (time : Option String) :
    ((entry.withTime time).fill source rule body).result =
      (entry.fill source rule body).result.map fun other => other.withTime time := by
  cases rule with
  | none => rfl
  | some rule =>
      simp only [fill, Traced.result_bind]
      cases (source.read rule body).result with
      | error fault => rfl
      | ok payload => cases payload <;> rfl

theorem ofInstant_withTime (config : ArchiveConfig) {instant : Instant}
    (hread : reader instant = .ok body) (time : Option String) :
    (ofInstant config (fun _ => .ok body) { instant with completionTime := time }).result =
      (ofInstant config reader instant).result.map fun entry => entry.withTime time := by
  rw [ofInstant_result hread, ofInstant_result rfl]
  split
  · rfl
  · exact fill_withTime (headerOf instant) _ _ body time

-- Without a plan, the record of a folded operation is that of its completed instant.
theorem ofFolded_unplanned (hversion : config.tableVersion.atLeast foldedFrom = true)
    (hread : reader ⟨time, action, .completed, some completion⟩ = .ok (metadata.getD [])) :
    (ofFolded config ⟨time, completion, action.name, version, metadata, none⟩).result =
      (ofInstant config reader ⟨time, action, .completed, some completion⟩).result := by
  by_cases hbody : metadata.getD [] = []
  · rw [ofFolded_result hversion, if_pos ⟨hbody, .inl rfl⟩, ofInstant_completed hread,
      if_pos hbody]
  · rw [ofFolded_eq hversion hread (absurd · hbody)]
    cases (ofInstant config reader ⟨time, action, .completed, some completion⟩).result with
    | error fault => rfl
    | ok entry => exact fill_foldedPlan_nil entry _ action

end Entry

namespace LoadedOperation

open Entry

-- The record that the archive gives back of an operation's instants.
def archived (config : ArchiveConfig) (reader : InstantReader) (instants : List Instant) :
    Option Entry := do
  let bytes ← (foldedBytes reader instants).toOption
  let folded ← (Framed.read FoldedOperation.message bytes).toOption
  (ofFolded config folded).result.toOption

variable {config : ArchiveConfig} {reader : InstantReader} {instant : Instant} {entry : Entry}
  {body : Bytes}

-- A completed instant on its own has no plan.
theorem foldedBytes_completed (hstate : instant.state = .completed)
    (hread : reader instant = .ok body) :
    foldedBytes reader [instant] = .ok (Framed.write FoldedOperation.message
      ⟨instant.requestedTime, instant.completionTime.getD "", instant.action.name,
        ActiveOperation.foldedVersion, kept body, none⟩) := by
  obtain ⟨time, action, state, completion⟩ := instant
  subst hstate
  simp only [foldedBytes, load, readBodies, hread]
  cases action <;> rfl

-- Folding and reading back change the transition time at most, and that only if there is none.
theorem archived_eq (hversion : config.tableVersion.atLeast foldedFrom = true)
    (hstate : instant.state = .completed)
    (hlive : (ofInstant config reader instant).result = .ok entry)
    (hsize : ∀ bytes, foldedBytes reader [instant] = .ok bytes → bytes.length < 2 ^ 64) :
    archived config reader [instant] =
      some (entry.withTime (some (instant.completionTime.getD ""))) := by
  obtain ⟨body, hread⟩ := exists_body hlive
  have hbytes := foldedBytes_completed hstate hread
  have hlength := Framed.length_write_lt (hsize _ hbytes)
  have hfolded := Framed.read_write (FoldedOperation.restores _) _ hlength
  obtain ⟨time, action, state, completion⟩ := instant
  subst hstate
  -- The instant that the compact record tells of has a completion time in any case.
  have hrecord : (ofFolded config ⟨time, completion.getD "", action.name,
      ActiveOperation.foldedVersion, kept body, none⟩).result =
        .ok (entry.withTime (some (completion.getD ""))) := by
    have hbody : (Except.ok body : Except StorageFault Bytes) = .ok ((kept body).getD []) :=
      congrArg Except.ok (kept_getD body).symm
    have htime := ofInstant_withTime config hread (some (completion.getD ""))
    rw [hlive] at htime
    exact (ofFolded_unplanned hversion hbody).trans htime
  simp only [archived, hbytes, hfolded, Except.toOption, id, Option.bind_eq_bind, Option.bind_some,
    hrecord]

-- The archive keeps the header and the payloads of a completed instant, and its completion time if
-- it has one. Without one, the live record has no transition time, and the archived one has the
-- empty time that the compact record has in its place. Lengths are varints, so records from
-- 2 ^ 64 bytes on are left out.
theorem archived_completed (config : ArchiveConfig) (reader : InstantReader) (instant : Instant)
    (entry : Entry) (hversion : config.tableVersion.atLeast foldedFrom = true)
    (hstate : instant.state = .completed)
    (hlive : (ofInstant config reader instant).result = .ok entry)
    (hsize : ∀ bytes, foldedBytes reader [instant] = .ok bytes → bytes.length < 2 ^ 64) :
    ∃ other, archived config reader [instant] = some other ∧
      other.operationId = entry.operationId ∧ other.state = entry.state ∧
      other.action = entry.action ∧ other.payload = entry.payload ∧
      (instant.completionTime.isSome → other.transitionTime = entry.transitionTime) ∧
      (instant.completionTime = none →
        entry.transitionTime = none ∧ other.transitionTime = some "") := by
  refine ⟨_, archived_eq hversion hstate hlive hsize, rfl, rfl, rfl, rfl, ?_⟩
  obtain ⟨body, hread⟩ := exists_body hlive
  have htime : entry.transitionTime = instant.completionTime :=
    (shows_ofInstant hread hlive).transitionTime
  rw [htime]
  cases instant.completionTime with
  | none => exact ⟨nofun, fun _ => ⟨rfl, rfl⟩⟩
  | some time => exact ⟨fun _ => rfl, nofun⟩

-- A commit of which no completion time is known.
def undated : Instant := ⟨"001", .commit, .completed, none⟩

def undatedBody : Bytes := Framed.write CommitRecord.message { compacted := true }

def undatedEntry : Entry := (headerOf undated).insert ⟨.commitMetadata, { compacted := true }⟩

theorem ofInstant_undated :
    (ofInstant {} (fun _ => .ok undatedBody) undated).result = .ok undatedEntry := rfl

theorem length_undated {bytes : Bytes}
    (h : foldedBytes (fun _ => .ok undatedBody) [undated] = .ok bytes) :
    bytes.length < 2 ^ 64 := by
  obtain rfl := Except.ok.inj h
  decide

theorem archived_completed_undated :
    ∃ other, archived {} (fun _ => .ok undatedBody) [undated] = some other ∧
      other.payload = undatedEntry.payload ∧ undatedEntry.slots = [.commitMetadata] ∧
      undatedEntry.transitionTime = none ∧ other.transitionTime = some "" := by
  obtain ⟨other, hother, _, _, _, hpayload, _, htime⟩ :=
    archived_completed {} _ undated _ (by decide) rfl ofInstant_undated fun _ => length_undated
  exact ⟨other, hother, hpayload, rfl, htime rfl⟩

-- So the headers of live and archived records are not always the same.
theorem not_forall_archived_header :
    ¬ ∀ (config : ArchiveConfig) (reader : InstantReader) (instant : Instant) (entry : Entry),
      config.tableVersion.atLeast foldedFrom = true → instant.state = .completed →
      (ofInstant config reader instant).result = .ok entry →
      (∀ bytes, foldedBytes reader [instant] = .ok bytes → bytes.length < 2 ^ 64) →
      ∃ other, archived config reader [instant] = some other ∧
        other.operationId = entry.operationId ∧ other.state = entry.state ∧
        other.transitionTime = entry.transitionTime ∧ other.action = entry.action := by
  intro h
  obtain ⟨other, hother, _, _, htime, _⟩ :=
    h {} _ undated _ (by decide) rfl ofInstant_undated fun _ => length_undated
  have hempty := archived_eq (by decide) rfl ofInstant_undated fun _ => length_undated
  rw [hempty] at hother
  obtain rfl := Option.some.inj hother
  cases htime

end LoadedOperation

end TableHistory
