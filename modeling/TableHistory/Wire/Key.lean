import TableHistory.Wire.Varint

namespace TableHistory.Wire

-- A tag and the wire type of the value behind it.
structure Key where
  tag : Nat
  type : WireType
deriving DecidableEq

namespace Key

def code (key : Key) : Nat := key.tag * 8 + key.type.code

def write (key : Key) : Bytes := Varint.write key.code

def ofCode (code : Nat) : Except Fault Key :=
  if 2 ^ 32 ≤ code then fail (.badKey code)
  else
    match WireType.ofCode? (code % 8) with
    | none => fail (.badWireType (code % 8))
    | some type => if code / 8 = 0 then fail .zeroTag else .ok ⟨code / 8, type⟩

def read : Reader Key := fun bytes => do
  let (code, rest) ← Varint.read bytes
  let key ← ofCode code
  return (key, rest)

end Key

-- The bytes behind the next ones of a given count, which must be there.
def dropExact (count : Nat) (bytes : Bytes) : Except Fault Bytes :=
  if bytes.length < count then fail .underflow else .ok (bytes.drop count)

-- Skips the fields of a group up to its end, whose tag must be that of its start. The first
-- argument bounds the number of fields.
def skipGroup (skipField : Key → Bytes → Except Fault Bytes) (tag : Nat) :
    Nat → Bytes → Except Fault Bytes
  | 0, _ => fail .badVarint
  | count + 1, bytes => do
    let (key, rest) ← Key.read bytes
    if key.type = .endGroup then
      if key.tag = tag then return rest else fail .strayGroupEnd
    else
      let rest ← skipField key rest
      skipGroup skipField tag count rest

-- Skips the value of a field. The first argument is the number of nested levels still allowed.
def skip : Nat → Key → Bytes → Except Fault Bytes
  | 0, _, _ => fail .tooDeep
  | levels + 1, key, bytes =>
    match key.type with
    | .varint => return (← Varint.read bytes).2
    | .fixed64 => dropExact 8 bytes
    | .fixed32 => dropExact 4 bytes
    | .delimited => do
      let (length, rest) ← Varint.read bytes
      dropExact length rest
    | .startGroup => skipGroup (skip levels) key.tag (bytes.length + 1) bytes
    | .endGroup => fail .strayGroupEnd

-- Levels of nesting allowed in a body.
def levelLimit : Nat := 100

end TableHistory.Wire
