import TableHistory.Double
import TableHistory.Wire.Key

namespace TableHistory.Wire

-- Reading begins with an old value, because messages are merged into it, and with the number of
-- nested levels still allowed.
structure Form (α : Type) where
  type : WireType
  zero : α
  isZero : α → Bool
  merge : Nat → α → Reader α
  write : α → Bytes

-- Reads a value whose key announced the given wire type.
def Form.read {α : Type} (form : Form α) (levels : Nat) (found : WireType) (old : α) : Reader α :=
  fun bytes =>
    if found = form.type then form.merge levels old bytes
    else fail (.unexpectedType found form.type)

-- Reads fields into a state until no more bytes than the given count are left. The second
-- argument bounds the number of fields.
def readFields {σ : Type} (field : σ → Reader σ) (left : Nat) : Nat → σ → Reader σ
  | 0, state, bytes => .ok (state, bytes)
  | count + 1, state, bytes =>
    if bytes.length ≤ left then .ok (state, bytes)
    else do
      let (state, rest) ← field state bytes
      readFields field left count state rest

-- Reads a length and the fields in that many bytes. A field may not run past the end.
def readDelimited {σ : Type} (field : σ → Reader σ) (state : σ) : Reader σ := fun bytes => do
  let (length, rest) ← Varint.read bytes
  if rest.length < length then fail .underflow
  else
    let left := rest.length - length
    let (state, rest) ← readFields field left rest.length state rest
    if rest.length = left then return (state, rest) else fail .overrun

def writeDelimited (bytes : Bytes) : Bytes := Varint.write bytes.length ++ bytes

def readBlob : Reader Bytes := fun bytes => do
  let (length, rest) ← Varint.read bytes
  if rest.length < length then fail .underflow
  else return (rest.take length, rest.drop length)

namespace Form

-- A form of one varint.
def ofVarint {α : Type} [DecidableEq α] (zero : α) (decode : Nat → α) (encode : α → Nat) :
    Form α where
  type := .varint
  zero := zero
  isZero := fun value => value = zero
  merge := fun _ _ bytes => do
    let (number, rest) ← Varint.read bytes
    return (decode number, rest)
  write := fun value => Varint.write (encode value)

def int64 : Form Int64 := ofVarint 0 (fun n => (UInt64.ofNat n).toInt64) fun v => v.toUInt64.toNat

-- Negative numbers are extended to sixty-four bits, and the high half is dropped on reading.
def int32 : Form Int32 :=
  ofVarint 0 (fun n => (UInt32.ofNat n).toInt32) fun v => v.toInt64.toUInt64.toNat

def uint32 : Form UInt32 := ofVarint 0 UInt32.ofNat UInt32.toNat

def bool : Form Bool := ofVarint false (fun n => n ≠ 0) Bool.toNat

-- The eight bytes of a number, the lowest first.
def littleEndian : Nat → Nat → Bytes
  | 0, _ => []
  | count + 1, number => UInt8.ofNat (number % 256) :: littleEndian count (number / 256)

def ofLittleEndian : Bytes → Nat
  | [] => 0
  | byte :: rest => byte.toNat + 256 * ofLittleEndian rest

def double : Form Double where
  type := .fixed64
  zero := .zero
  isZero := Double.isZero
  merge := fun _ _ bytes => do
    let rest ← dropExact 8 bytes
    return (⟨UInt64.ofNat (ofLittleEndian (bytes.take 8))⟩, rest)
  write := fun value => littleEndian 8 value.bits.toNat

def blob : Form Bytes where
  type := .delimited
  zero := []
  isZero := List.isEmpty
  merge := fun _ _ => readBlob
  write := writeDelimited

def text : Form String where
  type := .delimited
  zero := ""
  isZero := String.isEmpty
  merge := fun _ _ bytes => do
    let (bytes, rest) ← readBlob bytes
    match Utf8.decode? bytes with
    | some value => return (value, rest)
    | none => fail .notUtf8
  write := fun value => writeDelimited (Utf8.encode value)

end Form

end TableHistory.Wire
