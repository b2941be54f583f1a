import TableHistory.Entry.Fault
import TableHistory.Entry.Rule
import TableHistory.Operation.Folded

namespace TableHistory

-- An operation with the bodies that folding may ask for. It was requested as the pending action,
-- which for compactions differs from the action it completes as.
structure ActiveOperation where
  instantTime : String
  completionTime : Option String
  action : Action
  pendingAction : Action
  commitMetadata : Option Bytes
  cleanPlan : Option Bytes
  requestedMetadata : Option Bytes
  inflightMetadata : Option Bytes
  compactionPlan : Option Bytes
  logCompactionPlan : Option Bytes
deriving DecidableEq

namespace ActiveOperation

def planFrom (operation : ActiveOperation) : PlanSource → Option Bytes
  | .cleanPlan => operation.cleanPlan
  | .replaceMetadata => operation.inflightMetadata.or operation.requestedMetadata
  | .compactionPlan => operation.compactionPlan
  | .logCompactionPlan => operation.logCompactionPlan

-- The format version of the records written.
def foldedVersion : UInt32 := 1

def fold (operation : ActiveOperation) : FoldedOperation where
  instantTime := operation.instantTime
  completionTime := operation.completionTime.getD ""
  action := operation.action.name
  version := foldedVersion
  metadata := operation.commitMetadata
  plan := operation.pendingAction.rule.pendingPlan.bind operation.planFrom

end ActiveOperation

-- An operation with one body per state.
structure LoadedOperation where
  instantTime : String
  completionTime : Option String := none
  action : Action
  pendingAction : Action
  requested : Option Bytes := none
  inflight : Option Bytes := none
  completed : Option Bytes := none
deriving DecidableEq

namespace LoadedOperation

-- An empty body counts as none.
def withBody (operation : LoadedOperation) (state : State) (body : Bytes) : LoadedOperation :=
  let body := if body.isEmpty then none else some body
  match state with
  | .requested => { operation with requested := body }
  | .inflight => { operation with inflight := body }
  | .completed => { operation with completed := body }

def withCompletionTime (operation : LoadedOperation) (time : String) : LoadedOperation :=
  { operation with completionTime := some time }

-- The operation of a list of instants, without bodies. The pending action is that of the first
-- instant that is not completed, the action that of the completed one, and each stands for the
-- other when it is missing.
def ofInstants (first : Instant) (rest : List Instant) : LoadedOperation :=
  let instants := first :: rest
  let pending := (instants.find? fun instant => !instant.isCompleted).getD first
  let completed := instants.find? Instant.isCompleted
  { instantTime := first.requestedTime
    completionTime := completed.bind Instant.completionTime
    action := (completed.getD pending).action
    pendingAction := pending.action }

-- Reads the bodies of instants in their order.
def readBodies (reader : InstantReader) :
    LoadedOperation → List Instant → Except ArchiveFault LoadedOperation
  | operation, [] => .ok operation
  | operation, instant :: rest =>
    match reader instant with
    | .ok body => readBodies reader (operation.withBody instant.state body) rest
    | .error fault => .error (.unreadableInstant instant fault)

def load (reader : InstantReader) : List Instant → Except ArchiveFault LoadedOperation
  | [] => .error .noInstants
  | first :: rest => readBodies reader (ofInstants first rest) (first :: rest)

-- The requested body is whatever the pending action plans with.
def active (operation : LoadedOperation) : ActiveOperation where
  instantTime := operation.instantTime
  completionTime := operation.completionTime
  action := operation.action
  pendingAction := operation.pendingAction
  commitMetadata := operation.completed
  cleanPlan := operation.requested
  requestedMetadata := operation.requested
  inflightMetadata := operation.inflight
  compactionPlan := operation.requested
  logCompactionPlan := operation.requested

def fold (operation : LoadedOperation) : FoldedOperation := operation.active.fold

end LoadedOperation

end TableHistory
