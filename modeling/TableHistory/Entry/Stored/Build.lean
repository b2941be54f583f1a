import TableHistory.Entry.Build
import TableHistory.Entry.Stored.Basic

namespace TableHistory

-- Completed replacements are read in the way of the structured era in every era.
def BodySource.readStored (source : BodySource) (body : Bytes) :
    Slot → Traced ArchiveFault StoredPayload
  | .cleanMetadata => do return .cleanMetadata (← source.readRecord .cleanMetadata body)
  | .cleanPlan => do return .cleanPlan (← source.readRecord .cleanPlan body)
  | .commitMetadata => do
    let commit ← source.readCommit (source.era.decode .plain body)
    return .commitMetadata commit.asPlain
  | .replaceCommitMetadata => do
    let replacement ← source.readCommit (Metadata.decode .replace body)
    return .replaceCommitMetadata replacement.asReplace
  | .requestedReplaceMetadata => do
    return .requestedReplaceMetadata (← source.readRecord .requestedReplaceMetadata body)
  | .inflightReplaceMetadata => do
    let commit ← source.readCommit (source.era.decode .plain body)
    return .inflightReplaceMetadata commit.asPlain
  | .rollbackMetadata => do return .rollbackMetadata (← source.readRecord .rollbackMetadata body)
  | .savepointMetadata => do
    return .savepointMetadata (← source.readRecord .savepointMetadata body)
  | .compactionPlan => do return .compactionPlan (← source.readRecord .compactionPlan body)

namespace StoredEntry

-- Fills the field of a rule's slot, if there is a rule, from a body.
def fill (stored : StoredEntry) (source : BodySource) (rule : Option SlotRule) (body : Bytes) :
    Traced ArchiveFault StoredEntry :=
  match rule with
  | none => .ok stored
  | some rule => do
    match ← source.readWith (source.readStored body) rule body with
    | some payload => return stored.insert payload
    | none => return stored

def headerOf (instant : Instant) : StoredEntry :=
  header instant.requestedTime instant.state instant.completionTime instant.action.rule.tag

-- The record of a completed instant whose body was left empty.
def ofEmpty {ε : Type} (instant : Instant) : Traced ε StoredEntry := do
  Traced.note (.emptyBody instant)
  return headerOf instant

def ofInstant (config : ArchiveConfig) (reader : InstantReader) (instant : Instant) :
    Traced ArchiveFault StoredEntry := do
  let body ← Traced.ofExcept ((reader instant).mapError (.unreadableInstant instant))
  if instant.isCompleted && body.isEmpty then ofEmpty instant
  else
    let source := ⟨instant.requestedTime, instant.action, .ofVersion config.tableVersion⟩
    (headerOf instant).fill source (instant.action.rule.live instant.state) body

def ofFolded (config : ArchiveConfig) (folded : FoldedOperation) :
    Traced ArchiveFault StoredEntry :=
  if !config.tableVersion.atLeast Entry.foldedFrom then
    .fail (.versionTooOld config.tableVersion Entry.foldedFrom)
  else
    match Action.ofName? folded.action with
    | none => .fail (.unsupportedAction folded.action)
    | some action => do
      let rule := action.rule
      let stored := header folded.instantTime .completed (some folded.completionTime) rule.tag
      let metadata := folded.metadata.getD []
      let plan := folded.plan.getD []
      if metadata.isEmpty && (plan.isEmpty || rule.foldedMetadata.isSome) then
        Traced.note (.noCompletedPayload action folded.instantTime)
        return stored
      else
        let source := ⟨folded.instantTime, action, .ofVersion config.tableVersion⟩
        let stored ← stored.fill source rule.foldedMetadata metadata
        stored.fill source rule.foldedPlan plan

end StoredEntry

end TableHistory
