import TableHistory.Entry.Fault

namespace TableHistory

inductive Note
  -- A record cannot hold the null partition of the field.
  | nullPartitionDropped (field : String) (kept total : Nat)
  | structuredFailed (length : Nat) (fault : DecodeFault)
  | emptyBody (instant : Instant)
  | noCompletedPayload (action : Action) (operation : String)
  | probeFailed (action : Action) (operation : String) (length : Nat) (slot : Slot)
      (fault : ArchiveFault)
deriving DecidableEq

namespace Note

inductive Level
  | info
  | warn
  | debug
deriving DecidableEq

def level : Note → Level
  | nullPartitionDropped .. => .info
  | structuredFailed .. => .warn
  | emptyBody .. => .debug
  | noCompletedPayload .. => .debug
  | probeFailed .. => .debug

def message : Note → String
  | nullPartitionDropped field kept total =>
    "Dropping the null partition entry of " ++ field ++ ", keeping " ++ toString kept ++ " of " ++
      toString total ++ " entries"
  | structuredFailed length fault =>
    "Structured commit metadata decode failed for " ++ toString length ++
      " bytes; trying text decoding: " ++ fault.message
  | emptyBody instant => instant.describe ++ " has an empty body, recording its header only"
  | noCompletedPayload action operation =>
    "archived " ++ action.name ++ " " ++ operation ++
      " has no completed payload, recording its header only"
  | probeFailed action operation length slot fault =>
    action.name ++ " " ++ operation ++ ": " ++ toString length ++ " bytes are not a " ++
      slot.name ++ ", leaving it absent: " ++ fault.message

end Note

-- A result, and the notes left on the way to it. A failure keeps them.
structure Traced (ε α : Type) where
  result : Except ε α
  notes : List Note

namespace Traced

variable {ε δ α β : Type}

def ok (value : α) : Traced ε α := ⟨.ok value, []⟩

def fail (fault : ε) : Traced ε α := ⟨.error fault, []⟩

def note (note : Note) : Traced ε Unit := ⟨.ok (), [note]⟩

def ofExcept (result : Except ε α) : Traced ε α := ⟨result, []⟩

def bind (first : Traced ε α) (next : α → Traced ε β) : Traced ε β :=
  match first.result with
  | .error fault => ⟨.error fault, first.notes⟩
  | .ok value => ⟨(next value).result, first.notes ++ (next value).notes⟩

instance : Monad (Traced ε) where
  pure := ok
  bind := bind

def mapFault (change : ε → δ) (traced : Traced ε α) : Traced δ α :=
  ⟨traced.result.mapError change, traced.notes⟩

-- The result as a value, so that a failure can be dealt with.
def attempt (traced : Traced ε α) : Traced δ (Except ε α) := ⟨.ok traced.result, traced.notes⟩

end Traced

end TableHistory
