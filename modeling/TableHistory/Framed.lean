import TableHistory.Schema.Message

namespace TableHistory

-- Why one of the encodings does not accept a body.
inductive DecodeFault
  | missingHeader (length : Nat)
  | structured (fault : Wire.Fault)
  | text (fault : Text.Fault)
deriving DecidableEq

-- The kind of the fault in words of its own. Where the text went wrong is not kept.
def Text.Fault.message : Text.Fault → String
  | ended => "the bytes end inside a value"
  | mismatch => "a value does not fit its place"
  | malformed => "the bytes are no text of a value"

def DecodeFault.message : DecodeFault → String
  | missingHeader length =>
    "Payload of " ++ toString length ++ " bytes is missing the structured encoding header"
  | structured fault =>
    "Malformed structured payload: failed to decode Protobuf message: " ++ fault.message
  | text fault => "Malformed text payload: " ++ fault.message

namespace Framed

-- No text can begin with it.
def header : Bytes := "TLPB".toList.map Text.ascii

variable {α : Type}

def write (message : Schema.Message α) (value : α) : Bytes := header ++ message.write value

-- The bytes behind the header, if a body begins with it.
def body? (bytes : Bytes) : Option Bytes :=
  if header <+: bytes then some (bytes.drop header.length) else none

def read (message : Schema.Message α) (bytes : Bytes) : Except DecodeFault α :=
  match body? bytes with
  | some body => (message.read body).mapError .structured
  | none => .error (.missingHeader bytes.length)

-- No bytes at all stand for the zero record.
def readOrZero (message : Schema.Message α) (bytes : Bytes) : Except DecodeFault α :=
  if bytes.isEmpty then .ok message.zero else read message bytes

end Framed

namespace Text

def readBody {α : Type} (form : Form α) (bytes : Bytes) : Except DecodeFault α :=
  (form.decode bytes).mapError .text

end Text

end TableHistory
