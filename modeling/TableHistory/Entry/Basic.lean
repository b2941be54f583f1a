import TableHistory.Entry.Rule
import TableHistory.Text.Record

namespace TableHistory

-- An archival record: its header, and a payload for each slot that has one.
structure Entry where
  operationId : String
  state : State
  transitionTime : Option String
  action : Action
  payload : (slot : Slot) → Option slot.Value

namespace Entry

-- A record without payloads, which is what an empty completed instant leaves.
def header (operationId : String) (state : State) (transitionTime : Option String)
    (action : Action) : Entry :=
  ⟨operationId, state, transitionTime, action, fun _ => none⟩

-- Takes the place of the slot's old payload.
def insert (entry : Entry) (payload : Payload) : Entry :=
  { entry with
    payload := fun slot =>
      if h : slot = payload.slot then some (h ▸ payload.value) else entry.payload slot }

def has (entry : Entry) (slot : Slot) : Bool := (entry.payload slot).isSome

-- The slots with a payload, in the order of the record's fields.
def slots (entry : Entry) : List Slot := Slot.all.filter entry.has

-- Whether the action allows every slot that has a payload.
def isConsistent (entry : Entry) : Bool := entry.slots.all entry.action.rule.allows

def place (slot : Slot) : Text.Place (Option slot.Value) :=
  .optional slot.name slot.message.text

-- The time is written even when there is none, and may be left out of an object only.
def timePlace : Text.Place (Option String) where
  name := "state-transition-time"
  absent := some none
  short := none
  read := (Text.Form.optional .text).read
  tree := fun time => some ((Text.Form.optional .text).tree time)

def form : Text.Form Entry :=
  .record
    (.cons (.required "operation-id" .text) <|
      .cons (.required "action-state" State.form) <|
      .cons timePlace <|
      .cons (.required "action-type" Action.form) <|
      .cons (place .cleanMetadata) <|
      .cons (place .cleanPlan) <|
      .cons (place .commitMetadata) <|
      .cons (place .replaceCommitMetadata) <|
      .cons (place .requestedReplaceMetadata) <|
      .cons (place .inflightReplaceMetadata) <|
      .cons (place .rollbackMetadata) <|
      .cons (place .savepointMetadata) <|
      .cons (place .compactionPlan) <|
      .nil)
    (fun (operationId, state, time, action, cleanMetadata, cleanPlan, commitMetadata,
        replaceMetadata, requestedReplace, inflightReplace, rollback, savepoint, compaction, ()) =>
      ⟨operationId, state, time, action, fun
        | .cleanMetadata => cleanMetadata
        | .cleanPlan => cleanPlan
        | .commitMetadata => commitMetadata
        | .replaceCommitMetadata => replaceMetadata
        | .requestedReplaceMetadata => requestedReplace
        | .inflightReplaceMetadata => inflightReplace
        | .rollbackMetadata => rollback
        | .savepointMetadata => savepoint
        | .compactionPlan => compaction⟩)
    fun entry =>
      (entry.operationId, entry.state, entry.transitionTime, entry.action,
        entry.payload .cleanMetadata, entry.payload .cleanPlan, entry.payload .commitMetadata,
        entry.payload .replaceCommitMetadata, entry.payload .requestedReplaceMetadata,
        entry.payload .inflightReplaceMetadata, entry.payload .rollbackMetadata,
        entry.payload .savepointMetadata, entry.payload .compactionPlan, ())

end Entry

end TableHistory
