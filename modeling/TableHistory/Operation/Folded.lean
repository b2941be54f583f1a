import TableHistory.Schema.Message

namespace TableHistory

open Schema

-- The operation's times and action, the body of its completed instant, and its plan.
structure FoldedOperation where
  instantTime : String := ""
  completionTime : String := ""
  action : String := ""
  version : UInt32 := 0
  metadata : Option Bytes := none
  plan : Option Bytes := none
deriving DecidableEq

def FoldedOperation.message : Message FoldedOperation where
  name := "LsmTimelineInstant"
  fields :=
    .cons (.of 1 "instant_time" "instant-time" (.single .string)) <|
    .cons (.of 2 "completion_time" "completion-time" (.single .string)) <|
    .cons (.of 3 "action" "action" (.single .string)) <|
    .cons (.of 4 "version" "version" (.single .uint32)) <|
    .cons (.of 5 "metadata" "metadata" (.optional .blob)) <|
    .cons (.of 6 "plan" "plan" (.optional .blob)) <|
    .nil
  pack := fun (instantTime, completionTime, action, version, metadata, plan, ()) =>
    ⟨instantTime, completionTime, action, version, metadata, plan⟩
  unpack := fun value =>
    (value.instantTime, value.completionTime, value.action, value.version, value.metadata,
      value.plan, ())

end TableHistory
