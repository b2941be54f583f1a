import TableHistory.Schema.Cell

namespace TableHistory.Schema

-- `name` is the field's name in wire faults, `key` its name in text.
structure Field (α : Type) where
  tag : Nat
  name : String
  key : String
  cell : Cell α
  -- Whether text may give null for the zero value.
  nullable : Bool

-- The fields of a record in the order of its values.
inductive Fields : Type → Type 1
  | nil : Fields Unit
  | cons {α β : Type} (field : Field α) (rest : Fields β) : Fields (α × β)

-- A field with its key and everything in front of its successor on the wire.
structure Chunk where
  tag : Nat
  bytes : Bytes

-- Puts a chunk in front of the first one whose tag is not lower.
def Chunk.insert (chunk : Chunk) : List Chunk → List Chunk
  | [] => [chunk]
  | next :: rest =>
    if chunk.tag ≤ next.tag then chunk :: next :: rest else next :: chunk.insert rest

-- Chunks of one tag keep their order.
def Chunk.sort (chunks : List Chunk) : List Chunk := chunks.foldr Chunk.insert []

namespace Field

def of {α : Type} (tag : Nat) (name key : String) (cell : Cell α) : Field α :=
  ⟨tag, name, key, cell, false⟩

def orNull {α : Type} (field : Field α) : Field α := { field with nullable := true }

def place {α : Type} (field : Field α) : Text.Place α :=
  let form := field.cell.text
  .defaulted field.key field.cell.zero
    (if field.nullable then form.nullAs field.cell.zero else form)

def chunks {α : Type} (field : Field α) (value : α) : List Chunk :=
  (field.cell.occurrences value).map fun (type, bytes) =>
    ⟨field.tag, Wire.Key.write ⟨field.tag, type⟩ ++ bytes⟩

end Field

namespace Fields

def zero : {β : Type} → Fields β → β
  | _, nil => ()
  | _, cons field rest => (field.cell.zero, rest.zero)

def isZero : {β : Type} → Fields β → β → Bool
  | _, nil, () => true
  | _, cons field rest, (value, values) => field.cell.isZero value && rest.isZero values

-- Merges the value behind a key into the field of its tag. A value of an unknown tag is skipped.
def merge (message : String) (levels : Nat) (key : Wire.Key) :
    {β : Type} → Fields β → β → Wire.Reader β
  | _, nil, (), bytes => do return ((), ← Wire.skip levels key bytes)
  | _, cons field rest, (value, values), bytes =>
    if key.tag = field.tag then
      match field.cell.merge levels key.type value bytes with
      | .ok (value, behind) => .ok ((value, values), behind)
      | .error fault => .error (fault.within message field.name)
    else do
      let (values, behind) ← rest.merge message levels key values bytes
      return ((value, values), behind)

def chunks : {β : Type} → Fields β → β → List Chunk
  | _, nil, () => []
  | _, cons field rest, (value, values) => field.chunks value ++ rest.chunks values

def places : {β : Type} → Fields β → Text.Places β
  | _, nil => .nil
  | _, cons field rest => .cons field.place rest.places

def tags : {β : Type} → Fields β → List Nat
  | _, nil => []
  | _, cons field rest => field.tag :: rest.tags

end Fields

-- The description of a record type: its fields, and how its values are taken apart into theirs and
-- put together. In text it is an object of its fields unless it says otherwise.
structure Message (α : Type) where
  name : String
  {β : Type}
  fields : Fields β
  pack : β → α
  unpack : α → β
  pack_unpack : ∀ value, pack (unpack value) = value := by intro; rfl
  unpack_pack : ∀ values, unpack (pack values) = values := by intro; rfl
  text : Text.Form α := .record fields.places pack unpack

namespace Message

variable {α : Type}

-- A record of one field, which in text stands for the record.
def ofCell {γ : Type} (name field : String) (cell : Cell γ) (pack : γ → α) (unpack : α → γ)
    (pack_unpack : ∀ value, pack (unpack value) = value)
    (unpack_pack : ∀ value, unpack (pack value) = value) : Message α where
  name := name
  fields := .cons ⟨1, field, field, cell, false⟩ .nil
  pack := fun values => pack values.1
  unpack := fun value => (unpack value, ())
  pack_unpack := pack_unpack
  unpack_pack := fun values => by rw [unpack_pack]
  text :=
    { read := fun bytes => (cell.text.read bytes).map fun result => (pack result.1, result.2)
      tree := fun value => cell.text.tree (unpack value) }

def zero (message : Message α) : α := message.pack message.fields.zero

-- Reads a key and merges the value behind it.
def mergeField (message : Message α) (levels : Nat) (old : α) : Wire.Reader α := fun bytes => do
  let (key, rest) ← Wire.Key.read bytes
  let (values, rest) ← message.fields.merge message.name levels key (message.unpack old) rest
  return (message.pack values, rest)

-- The fields on the wire in the order of their tags.
def chunks (message : Message α) (value : α) : List Chunk :=
  Chunk.sort (message.fields.chunks (message.unpack value))

def write (message : Message α) (value : α) : Bytes :=
  (message.chunks value).flatMap Chunk.bytes

-- A record inside another one. Each costs a level.
def shape (message : Message α) : Shape α where
  wire :=
    { type := .delimited
      zero := message.zero
      isZero := fun value => message.fields.isZero (message.unpack value)
      merge := fun levels old bytes =>
        match levels with
        | 0 => Wire.fail .tooDeep
        | levels + 1 => Wire.readDelimited (message.mergeField levels) old bytes
      write := fun value => Wire.writeDelimited (message.write value) }
  text := message.text

-- Reads a body that holds the fields of a record and nothing else.
def read (message : Message α) (bytes : Bytes) : Except Wire.Fault α :=
  (Wire.readFields (message.mergeField Wire.levelLimit) 0 bytes.length message.zero bytes).map
    Prod.fst

end Message

end TableHistory.Schema
