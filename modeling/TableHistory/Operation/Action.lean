import TableHistory.Text.Form

namespace TableHistory

-- The closed registry of what a timeline can hold.
inductive Action
  | clean
  | commit
  | deltaCommit
  | replaceCommit
  | clustering
  | rollback
  | savepoint
  | compaction
  | logCompaction
deriving DecidableEq

namespace Action

def all : List Action :=
  [clean, commit, deltaCommit, replaceCommit, clustering, rollback, savepoint, compaction,
    logCompaction]

-- The name in file names and records.
def name : Action → String
  | clean => "clean"
  | commit => "commit"
  | deltaCommit => "deltacommit"
  | replaceCommit => "replacecommit"
  | clustering => "clustering"
  | rollback => "rollback"
  | savepoint => "savepoint"
  | compaction => "compaction"
  | logCompaction => "logcompaction"

def ofName? (name : String) : Option Action := all.find? fun action => action.name = name

theorem ofName?_name (action : Action) : ofName? action.name = some action := by
  cases action <;> decide

theorem name_of_ofName? {name : String} {action : Action} (h : ofName? name = some action) :
    action.name = name := by
  have hfound := List.find?_some (h : all.find? (fun action => action.name = name) = some action)
  exact of_decide_eq_true hfound

-- Whether the action replaces file groups.
def replacesFiles (action : Action) : Bool := action = replaceCommit || action = clustering

def form : Text.Form Action := .ofNames all name

end Action

-- What archival records carry for the action. Which tag belongs to an action is a matter of the
-- action's rule alone.
inductive ActionTag
  | clean
  | commit
  | deltaCommit
  | replaceCommit
  | clustering
  | rollback
  | savepoint
  | compaction
  | logCompaction
deriving DecidableEq

namespace ActionTag

def all : List ActionTag :=
  [clean, commit, deltaCommit, replaceCommit, clustering, rollback, savepoint, compaction,
    logCompaction]

-- The name in archival records.
def name : ActionTag → String
  | clean => "clean"
  | commit => "commit"
  | deltaCommit => "deltacommit"
  | replaceCommit => "replacecommit"
  | clustering => "clustering"
  | rollback => "rollback"
  | savepoint => "savepoint"
  | compaction => "compaction"
  | logCompaction => "logcompaction"

def form : Text.Form ActionTag := .ofNames all name

end ActionTag

-- The states of an operation in their order.
inductive State
  | requested
  | inflight
  | completed
deriving DecidableEq

namespace State

def all : List State := [requested, inflight, completed]

def name : State → String
  | requested => "REQUESTED"
  | inflight => "INFLIGHT"
  | completed => "COMPLETED"

def form : Text.Form State := .ofNames all name

end State

end TableHistory
