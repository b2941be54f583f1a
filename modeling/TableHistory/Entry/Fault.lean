import TableHistory.Entry.Slot
import TableHistory.Framed
import TableHistory.Operation.Storage
import TableHistory.Version

namespace TableHistory

inductive CommitFault
  -- Neither encoding accepts the body.
  | unreadable (length : Nat) (structured text : DecodeFault)
  | unreadableText (length : Nat) (text : DecodeFault)
deriving DecidableEq

def CommitFault.message : CommitFault → String
  | unreadable length structured text =>
    "Unable to read commit metadata for bytes length: " ++ toString length ++ " (structured: " ++
      structured.message ++ "; text: " ++ text.message ++ ")"
  | unreadableText length text =>
    "Unable to read text commit metadata for bytes length: " ++ toString length ++ ": " ++
      text.message

inductive ArchiveFault
  | unsupportedAction (name : String)
  | versionTooOld (version required : TableVersion)
  | unreadableInstant (instant : Instant) (fault : StorageFault)
  | commitMetadata (operation : String) (action : Action) (fault : CommitFault)
  | payload (operation : String) (action : Action) (slot : Slot) (fault : DecodeFault)
  | missingPayload (operation : String) (action : Action) (slot : Slot)
  | noInstants
deriving DecidableEq

def ArchiveFault.message : ArchiveFault → String
  | unsupportedAction name =>
    "Not implemented: timeline action " ++ Escaped.write name ++ " is not supported"
  | versionTooOld version required =>
    "Archived LSM records require table version " ++ required.describe ++
      " or later, table is at " ++ version.describe
  | unreadableInstant instant fault =>
    "Failed to read instant " ++ instant.describe ++ ": " ++ fault.message
  | commitMetadata operation action fault =>
    "Failed to decode commit metadata of " ++ action.name ++ " " ++ operation ++ ": " ++
      fault.message
  | payload operation action slot fault =>
    "Failed to decode " ++ slot.name ++ " of " ++ action.name ++ " " ++ operation ++ ": " ++
      fault.message
  | missingPayload operation action slot =>
    "Missing " ++ slot.name ++ " for " ++ action.name ++ " " ++ operation
  | noInstants => "An active action needs at least one instant"

-- An action name outside the registry.
def unknownActionMessage (name : String) : String :=
  "Unknown timeline action: " ++ Escaped.write name

end TableHistory
