import TableHistory.Bytes

namespace TableHistory.Wire

-- How the extent of a field's value is found.
inductive WireType
  | varint
  | fixed64
  | delimited
  | startGroup
  | endGroup
  | fixed32
deriving DecidableEq

namespace WireType

def code : WireType → Nat
  | varint => 0
  | fixed64 => 1
  | delimited => 2
  | startGroup => 3
  | endGroup => 4
  | fixed32 => 5

def ofCode? : Nat → Option WireType
  | 0 => some varint
  | 1 => some fixed64
  | 2 => some delimited
  | 3 => some startGroup
  | 4 => some endGroup
  | 5 => some fixed32
  | _ => none

theorem ofCode?_code (type : WireType) : ofCode? type.code = some type := by cases type <;> rfl

theorem code_lt (type : WireType) : type.code < 8 := by cases type <;> decide

def name : WireType → String
  | varint => "Varint"
  | fixed64 => "SixtyFourBit"
  | delimited => "LengthDelimited"
  | startGroup => "StartGroup"
  | endGroup => "EndGroup"
  | fixed32 => "ThirtyTwoBit"

end WireType

inductive Cause
  | badVarint
  | badKey (value : Nat)
  | badWireType (code : Nat)
  | zeroTag
  | unexpectedType (found expected : WireType)
  | underflow
  | overrun
  | notUtf8
  | strayGroupEnd
  | tooDeep
deriving DecidableEq

def Cause.message : Cause → String
  | badVarint => "invalid varint"
  | badKey value => "invalid key value: " ++ toString value
  | badWireType code => "invalid wire type value: " ++ toString code
  | zeroTag => "invalid tag value: 0"
  | unexpectedType found expected =>
    "invalid wire type: " ++ found.name ++ " (expected " ++ expected.name ++ ")"
  | underflow => "buffer underflow"
  | overrun => "delimited length exceeded"
  | notUtf8 => "invalid string value: data is not UTF-8 encoded"
  | strayGroupEnd => "unexpected end group tag"
  | tooDeep => "recursion limit reached"

-- The path names the known fields around the cause, message and field, the innermost first.
structure Fault where
  path : List (String × String)
  cause : Cause
deriving DecidableEq

namespace Fault

-- The same fault, seen from a field that holds the value.
def within (message field : String) (fault : Fault) : Fault :=
  { fault with path := fault.path ++ [(message, field)] }

def message (fault : Fault) : String :=
  fault.path.foldr (fun step text => step.1 ++ "." ++ step.2 ++ ": " ++ text) fault.cause.message

end Fault

-- Reads a value off the front of a body and gives the bytes behind it.
abbrev Reader (α : Type) := Bytes → Except Fault (α × Bytes)

def fail {α : Type} (cause : Cause) : Except Fault α := .error ⟨[], cause⟩

end TableHistory.Wire
