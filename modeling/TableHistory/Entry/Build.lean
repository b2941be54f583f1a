import TableHistory.Commit.Encoding
import TableHistory.Entry.Basic
import TableHistory.Operation.Folded

namespace TableHistory

-- Whose bodies are read, and in which era's way.
structure BodySource where
  operation : String
  action : Action
  era : Era

namespace BodySource

-- Reads commit metadata and keeps its record.
def readCommit (source : BodySource) (decoded : Traced CommitFault Metadata) :
    Traced ArchiveFault CommitBody := do
  let metadata ← decoded.mapFault (.commitMetadata source.operation source.action)
  metadata.toBody

def readRecord (source : BodySource) (slot : Slot) (body : Bytes) :
    Traced ArchiveFault slot.Value :=
  .ofExcept <| (Framed.readOrZero slot.message body).mapError
    (.payload source.operation source.action slot)

-- Completed replacements are read in the way of the structured era in every era.
def readSlot (source : BodySource) (body : Bytes) : (slot : Slot) → Traced ArchiveFault slot.Value
  | .commitMetadata => do
    return (← source.readCommit (source.era.decode .plain body)).asPlain
  | .inflightReplaceMetadata => do
    return (← source.readCommit (source.era.decode .plain body)).asPlain
  | .replaceCommitMetadata => do
    return (← source.readCommit (Metadata.decode .replace body)).asReplace
  | .cleanMetadata => source.readRecord .cleanMetadata body
  | .cleanPlan => source.readRecord .cleanPlan body
  | .requestedReplaceMetadata => source.readRecord .requestedReplaceMetadata body
  | .rollbackMetadata => source.readRecord .rollbackMetadata body
  | .savepointMetadata => source.readRecord .savepointMetadata body
  | .compactionPlan => source.readRecord .compactionPlan body

def readPayload (source : BodySource) (body : Bytes) (slot : Slot) :
    Traced ArchiveFault Payload := do
  return ⟨slot, ← source.readSlot body slot⟩

-- Reads a body as its rule says, by what reads it for a slot. A missing body is an empty one.
def readWith {π : Type} (source : BodySource) (payloadOf : Slot → Traced ArchiveFault π)
    (rule : SlotRule) (body : Bytes) : Traced ArchiveFault (Option π) :=
  match rule.presence with
  | .always => do return some (← payloadOf rule.slot)
  | .nonEmpty => if body.isEmpty then .ok none else do return some (← payloadOf rule.slot)
  | .required =>
    if body.isEmpty then .fail (.missingPayload source.operation source.action rule.slot)
    else do return some (← payloadOf rule.slot)
  | .probe =>
    if body.isEmpty then .ok none
    else do
      match ← (payloadOf rule.slot).attempt with
      | .ok payload => return some payload
      | .error fault =>
        Traced.note (.probeFailed source.action source.operation body.length rule.slot fault)
        return none

def read (source : BodySource) (rule : SlotRule) (body : Bytes) :
    Traced ArchiveFault (Option Payload) :=
  source.readWith (source.readPayload body) rule body

end BodySource

namespace Entry

-- Fills the slot of a rule, if there is one, from a body.
def fill (entry : Entry) (source : BodySource) (rule : Option SlotRule) (body : Bytes) :
    Traced ArchiveFault Entry :=
  match rule with
  | none => .ok entry
  | some rule => do
    match ← source.read rule body with
    | some payload => return entry.insert payload
    | none => return entry

def headerOf (instant : Instant) : Entry :=
  header instant.requestedTime instant.state instant.completionTime instant.action

-- The record of a completed instant whose body was left empty.
def ofEmpty {ε : Type} (instant : Instant) : Traced ε Entry := do
  Traced.note (.emptyBody instant)
  return headerOf instant

-- The record of a live instant, whose body comes from the reader.
def ofInstant (config : ArchiveConfig) (reader : InstantReader) (instant : Instant) :
    Traced ArchiveFault Entry := do
  let body ← Traced.ofExcept ((reader instant).mapError (.unreadableInstant instant))
  if instant.isCompleted && body.isEmpty then ofEmpty instant
  else
    let source := ⟨instant.requestedTime, instant.action, .ofVersion config.tableVersion⟩
    (headerOf instant).fill source (instant.action.rule.live instant.state) body

-- The first version whose tables have folded operations.
def foldedFrom : TableVersion := ⟨8⟩

-- The record of a folded operation. Without the completed body that its action would have, only
-- the header is recorded.
def ofFolded (config : ArchiveConfig) (folded : FoldedOperation) : Traced ArchiveFault Entry :=
  if !config.tableVersion.atLeast foldedFrom then
    .fail (.versionTooOld config.tableVersion foldedFrom)
  else
    match Action.ofName? folded.action with
    | none => .fail (.unsupportedAction folded.action)
    | some action => do
      let entry := header folded.instantTime .completed (some folded.completionTime) action
      let metadata := folded.metadata.getD []
      let plan := folded.plan.getD []
      if metadata.isEmpty && (plan.isEmpty || action.rule.foldedMetadata.isSome) then
        Traced.note (.noCompletedPayload action folded.instantTime)
        return entry
      else
        let source := ⟨folded.instantTime, action, .ofVersion config.tableVersion⟩
        let entry ← entry.fill source action.rule.foldedMetadata metadata
        entry.fill source action.rule.foldedPlan plan

end Entry

end TableHistory
