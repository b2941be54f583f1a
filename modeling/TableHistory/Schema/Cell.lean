import TableHistory.Text.Record
import TableHistory.Wire.Form

namespace TableHistory.Schema

-- Both forms of a single value.
structure Shape (α : Type) where
  wire : Wire.Form α
  text : Text.Form α

namespace Shape

def string : Shape String := ⟨.text, .text⟩
def bool : Shape Bool := ⟨.bool, .bool⟩
def int64 : Shape Int64 := ⟨.int64, .int64⟩
def int32 : Shape Int32 := ⟨.int32, .int32⟩
def uint32 : Shape UInt32 := ⟨.uint32, .uint32⟩
def double : Shape Double := ⟨.double, .double⟩
def blob : Shape Bytes := ⟨.blob, .blob⟩

end Shape

-- A value that is left out when it is zero, one that may be absent, any number of values in order,
-- or values under keys.
inductive Cell : Type → Type 1
  | single {α : Type} (shape : Shape α) : Cell α
  | optional {α : Type} (shape : Shape α) : Cell (Option α)
  | repeated {α : Type} (shape : Shape α) : Cell (List α)
  | keyed {α : Type} (shape : Shape α) : Cell (OrderedMap String α)

namespace Cell

def zero : {α : Type} → Cell α → α
  | _, single shape => shape.wire.zero
  | _, optional _ => none
  | _, repeated _ => []
  | _, keyed _ => .empty

def isZero : {α : Type} → Cell α → α → Bool
  | _, single shape => shape.wire.isZero
  | _, optional _ => Option.isNone
  | _, repeated _ => List.isEmpty
  | _, keyed _ => OrderedMap.isEmpty

-- Reads a field of a map entry: the key has tag 1 and the value tag 2.
def readEntryField {α : Type} (shape : Shape α) (levels : Nat) (entry : String × α) :
    Wire.Reader (String × α) := fun bytes => do
  let (key, rest) ← Wire.Key.read bytes
  if key.tag = 1 then
    let (name, rest) ← Wire.Form.text.read levels key.type entry.1 rest
    return ((name, entry.2), rest)
  else if key.tag = 2 then
    let (value, rest) ← shape.wire.read levels key.type entry.2 rest
    return ((entry.1, value), rest)
  else return (entry, ← Wire.skip levels key rest)

-- Merges a field of the given wire type into the value so far. Entries of a map are read whatever
-- their wire type is, and one with a known key takes the place of the old one.
def merge : {α : Type} → Cell α → Nat → Wire.WireType → α → Wire.Reader α
  | _, single shape, levels, found, old, bytes => shape.wire.read levels found old bytes
  | _, optional shape, levels, found, old, bytes => do
    let (value, rest) ← shape.wire.read levels found (old.getD shape.wire.zero) bytes
    return (some value, rest)
  | _, repeated shape, levels, found, old, bytes => do
    let (value, rest) ← shape.wire.read levels found shape.wire.zero bytes
    return (old ++ [value], rest)
  | _, keyed _, 0, _, _, _ => Wire.fail .tooDeep
  | _, keyed shape, levels + 1, _, old, bytes => do
    let ((name, value), rest) ←
      Wire.readDelimited (readEntryField shape levels) ("", shape.wire.zero) bytes
    return (old.insert name value, rest)

-- A value behind its key, or nothing for zero.
def writeUnlessZero {α : Type} (form : Wire.Form α) (tag : Nat) (value : α) : Bytes :=
  if form.isZero value then [] else Wire.Key.write ⟨tag, form.type⟩ ++ form.write value

def writeEntry {α : Type} (shape : Shape α) (entry : String × α) : Bytes :=
  Wire.writeDelimited (writeUnlessZero .text 1 entry.1 ++ writeUnlessZero shape.wire 2 entry.2)

-- The occurrences of a field on the wire, each with its wire type.
def occurrences : {α : Type} → Cell α → α → List (Wire.WireType × Bytes)
  | _, single shape, value =>
    if shape.wire.isZero value then [] else [(shape.wire.type, shape.wire.write value)]
  | _, optional shape, value =>
    value.toList.map fun value => (shape.wire.type, shape.wire.write value)
  | _, repeated shape, values => values.map fun value => (shape.wire.type, shape.wire.write value)
  | _, keyed shape, map => map.entries.map fun entry => (.delimited, writeEntry shape entry)

def text : {α : Type} → Cell α → Text.Form α
  | _, single shape => shape.text
  | _, optional shape => .optional shape.text
  | _, repeated shape => .listOf shape.text
  | _, keyed shape => .mapOf shape.text

end Cell

end TableHistory.Schema
