import TableHistory.Operation.Action
import TableHistory.Text.Record

namespace TableHistory

-- One state of one operation.
structure Instant where
  -- Identifies the operation.
  requestedTime : String
  action : Action
  state : State
  completionTime : Option String := none
deriving DecidableEq

namespace Instant

def isCompleted (instant : Instant) : Bool := instant.state = .completed

-- The name of an instant in messages and paths.
def describe (instant : Instant) : String :=
  "[" ++ instant.requestedTime ++ "__" ++ instant.action.name ++ "__" ++ instant.state.name ++
    (match instant.completionTime with
      | some time => "__" ++ time
      | none => "") ++ "]"

def places : Text.Places (String × Action × State × Option String × Unit) :=
  .cons (.required "requested_time" .text) <|
  .cons (.required "action" Action.form) <|
  .cons (.required "state" State.form) <|
  .cons (.optional "completion_time" .text) <|
  .nil

def form : Text.Form Instant :=
  .record places (fun (time, action, state, completion, ()) => ⟨time, action, state, completion⟩)
    fun instant =>
      (instant.requestedTime, instant.action, instant.state, instant.completionTime, ())

end Instant

end TableHistory
