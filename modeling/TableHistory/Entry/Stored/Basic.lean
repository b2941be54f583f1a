import TableHistory.Entry.Basic

namespace TableHistory

-- The record of a slot, for each slot a case of its own.
inductive StoredPayload
  | cleanMetadata (value : CleanMetadata)
  | cleanPlan (value : CleanerPlan)
  | commitMetadata (value : CommitRecord)
  | replaceCommitMetadata (value : ReplaceRecord)
  | requestedReplaceMetadata (value : ReplaceRequest)
  | inflightReplaceMetadata (value : CommitRecord)
  | rollbackMetadata (value : RollbackMetadata)
  | savepointMetadata (value : SavepointMetadata)
  | compactionPlan (value : CompactionPlan)

namespace StoredPayload

def slot : StoredPayload → Slot
  | cleanMetadata _ => .cleanMetadata
  | cleanPlan _ => .cleanPlan
  | commitMetadata _ => .commitMetadata
  | replaceCommitMetadata _ => .replaceCommitMetadata
  | requestedReplaceMetadata _ => .requestedReplaceMetadata
  | inflightReplaceMetadata _ => .inflightReplaceMetadata
  | rollbackMetadata _ => .rollbackMetadata
  | savepointMetadata _ => .savepointMetadata
  | compactionPlan _ => .compactionPlan

def value : (payload : StoredPayload) → payload.slot.Value
  | cleanMetadata value => value
  | cleanPlan value => value
  | commitMetadata value => value
  | replaceCommitMetadata value => value
  | requestedReplaceMetadata value => value
  | inflightReplaceMetadata value => value
  | rollbackMetadata value => value
  | savepointMetadata value => value
  | compactionPlan value => value

def payload (payload : StoredPayload) : Payload := ⟨payload.slot, payload.value⟩

def ofPayload : Payload → StoredPayload
  | ⟨.cleanMetadata, value⟩ => cleanMetadata value
  | ⟨.cleanPlan, value⟩ => cleanPlan value
  | ⟨.commitMetadata, value⟩ => commitMetadata value
  | ⟨.replaceCommitMetadata, value⟩ => replaceCommitMetadata value
  | ⟨.requestedReplaceMetadata, value⟩ => requestedReplaceMetadata value
  | ⟨.inflightReplaceMetadata, value⟩ => inflightReplaceMetadata value
  | ⟨.rollbackMetadata, value⟩ => rollbackMetadata value
  | ⟨.savepointMetadata, value⟩ => savepointMetadata value
  | ⟨.compactionPlan, value⟩ => compactionPlan value

end StoredPayload

-- Archival records as they are stored, with a tag for the action and a field for each slot. In an
-- `Entry` the fields are one function of the slot.
structure StoredEntry where
  operationId : String
  state : State
  transitionTime : Option String
  tag : ActionTag
  cleanMetadata : Option CleanMetadata := none
  cleanPlan : Option CleanerPlan := none
  commitMetadata : Option CommitRecord := none
  replaceCommitMetadata : Option ReplaceRecord := none
  requestedReplaceMetadata : Option ReplaceRequest := none
  inflightReplaceMetadata : Option CommitRecord := none
  rollbackMetadata : Option RollbackMetadata := none
  savepointMetadata : Option SavepointMetadata := none
  compactionPlan : Option CompactionPlan := none

namespace StoredEntry

def header (operationId : String) (state : State) (transitionTime : Option String)
    (tag : ActionTag) : StoredEntry := { operationId, state, transitionTime, tag }

-- Takes the place of the field's old payload.
def insert (stored : StoredEntry) : StoredPayload → StoredEntry
  | .cleanMetadata value => { stored with cleanMetadata := some value }
  | .cleanPlan value => { stored with cleanPlan := some value }
  | .commitMetadata value => { stored with commitMetadata := some value }
  | .replaceCommitMetadata value => { stored with replaceCommitMetadata := some value }
  | .requestedReplaceMetadata value => { stored with requestedReplaceMetadata := some value }
  | .inflightReplaceMetadata value => { stored with inflightReplaceMetadata := some value }
  | .rollbackMetadata value => { stored with rollbackMetadata := some value }
  | .savepointMetadata value => { stored with savepointMetadata := some value }
  | .compactionPlan value => { stored with compactionPlan := some value }

def has (stored : StoredEntry) : Slot → Bool
  | .cleanMetadata => stored.cleanMetadata.isSome
  | .cleanPlan => stored.cleanPlan.isSome
  | .commitMetadata => stored.commitMetadata.isSome
  | .replaceCommitMetadata => stored.replaceCommitMetadata.isSome
  | .requestedReplaceMetadata => stored.requestedReplaceMetadata.isSome
  | .inflightReplaceMetadata => stored.inflightReplaceMetadata.isSome
  | .rollbackMetadata => stored.rollbackMetadata.isSome
  | .savepointMetadata => stored.savepointMetadata.isSome
  | .compactionPlan => stored.compactionPlan.isSome

-- The slots with a payload, in the order of the fields.
def slots (stored : StoredEntry) : List Slot := Slot.all.filter stored.has

-- Whether the rule of the tag allows every slot that has a payload.
def isConsistent (stored : StoredEntry) : Bool := stored.slots.all stored.tag.rule.allows

def payload (stored : StoredEntry) : (slot : Slot) → Option slot.Value
  | .cleanMetadata => stored.cleanMetadata
  | .cleanPlan => stored.cleanPlan
  | .commitMetadata => stored.commitMetadata
  | .replaceCommitMetadata => stored.replaceCommitMetadata
  | .requestedReplaceMetadata => stored.requestedReplaceMetadata
  | .inflightReplaceMetadata => stored.inflightReplaceMetadata
  | .rollbackMetadata => stored.rollbackMetadata
  | .savepointMetadata => stored.savepointMetadata
  | .compactionPlan => stored.compactionPlan

def entry (stored : StoredEntry) : Entry :=
  ⟨stored.operationId, stored.state, stored.transitionTime, stored.tag.action, stored.payload⟩

def ofEntry (entry : Entry) : StoredEntry where
  operationId := entry.operationId
  state := entry.state
  transitionTime := entry.transitionTime
  tag := entry.action.rule.tag
  cleanMetadata := entry.payload .cleanMetadata
  cleanPlan := entry.payload .cleanPlan
  commitMetadata := entry.payload .commitMetadata
  replaceCommitMetadata := entry.payload .replaceCommitMetadata
  requestedReplaceMetadata := entry.payload .requestedReplaceMetadata
  inflightReplaceMetadata := entry.payload .inflightReplaceMetadata
  rollbackMetadata := entry.payload .rollbackMetadata
  savepointMetadata := entry.payload .savepointMetadata
  compactionPlan := entry.payload .compactionPlan

def form : Text.Form StoredEntry :=
  .record
    (.cons (.required "operation-id" .text) <|
      .cons (.required "action-state" State.form) <|
      .cons Entry.timePlace <|
      .cons (.required "action-type" ActionTag.form) <|
      .cons (.optional "clean-metadata" CleanMetadata.message.text) <|
      .cons (.optional "clean-plan" CleanerPlan.message.text) <|
      .cons (.optional "commit-metadata" CommitRecord.message.text) <|
      .cons (.optional "replace-commit-metadata" ReplaceRecord.message.text) <|
      .cons (.optional "requested-replace-metadata" ReplaceRequest.message.text) <|
      .cons (.optional "inflight-replace-metadata" CommitRecord.message.text) <|
      .cons (.optional "rollback-metadata" RollbackMetadata.message.text) <|
      .cons (.optional "savepoint-metadata" SavepointMetadata.message.text) <|
      .cons (.optional "compaction-plan" CompactionPlan.message.text) <|
      .nil)
    (fun (operationId, state, time, tag, cleanMetadata, cleanPlan, commitMetadata, replaceMetadata,
        requestedReplace, inflightReplace, rollback, savepoint, compaction, ()) =>
      ⟨operationId, state, time, tag, cleanMetadata, cleanPlan, commitMetadata, replaceMetadata,
        requestedReplace, inflightReplace, rollback, savepoint, compaction⟩)
    fun stored =>
      (stored.operationId, stored.state, stored.transitionTime, stored.tag, stored.cleanMetadata,
        stored.cleanPlan, stored.commitMetadata, stored.replaceCommitMetadata,
        stored.requestedReplaceMetadata, stored.inflightReplaceMetadata, stored.rollbackMetadata,
        stored.savepointMetadata, stored.compactionPlan, ())

end StoredEntry

end TableHistory
