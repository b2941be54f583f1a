import TableHistory.Text.Form

namespace TableHistory.Text

-- A place in a record. `absent` is its value when an object has no member for it, and `short` when
-- a list ends before it; without one the place must be filled.
structure Place (α : Type) where
  name : String
  absent : Option α
  short : Option α
  read : Reader α
  tree : α → Option Tree

namespace Place

-- A place that may be left out, and is always written.
def defaulted {α : Type} (name : String) (value : α) (form : Form α) : Place α :=
  ⟨name, some value, some value, form.read, fun value => some (form.tree value)⟩

def required {α : Type} (name : String) (form : Form α) : Place α :=
  ⟨name, none, none, form.read, fun value => some (form.tree value)⟩

-- A place that may be left out, and is not written without a value.
def optional {α : Type} (name : String) (form : Form α) : Place (Option α) :=
  ⟨name, some none, some none, (Form.optional form).read, Option.map form.tree⟩

end Place

inductive Places : Type → Type 1
  | nil : Places Unit
  | cons {α β : Type} (place : Place α) (rest : Places β) : Places (α × β)

namespace Places

-- The values that an object has given so far.
def Draft : {β : Type} → Places β → Type
  | _, nil => Unit
  | _, cons (α := α) _ rest => Option α × rest.Draft

def blank : {β : Type} → (places : Places β) → places.Draft
  | _, nil => ()
  | _, cons _ rest => (none, rest.blank)

def finish : {β : Type} → (places : Places β) → places.Draft → Except Fault β
  | _, nil, _ => .ok ()
  | _, cons place rest, draft =>
    match draft.1.or place.absent with
    | none => .error .mismatch
    | some value => do return (value, ← rest.finish draft.2)

-- Reads a member from the colon on into the place of its name. A place is filled only once.
def readMember (name : String) :
    {β : Type} → (places : Places β) → places.Draft → Reader places.Draft
  | _, nil, _, bytes => do return ((), ← skipValue (← readColon bytes))
  | _, cons place rest, draft, bytes =>
    if name = place.name then
      match draft.1 with
      | some _ => .error .mismatch
      | none => do
        let (value, behind) ← place.read (← readColon bytes)
        return ((some value, draft.2), behind)
    else do
      let (others, behind) ← rest.readMember name draft.2 bytes
      return ((draft.1, others), behind)

-- Reads the values of a list, which may end early but not go on.
def readValues : {β : Type} → Places β → Bool → Reader β
  | _, nil, _, bytes => do return ((), ← closeBracket .list bytes)
  | _, cons place rest, first, bytes => do
    match ← nextElement first bytes with
    | none =>
      match place.short with
      | none => .error .mismatch
      | some value =>
        let (values, behind) ← rest.readValues first bytes
        return ((value, values), behind)
    | some bytes =>
      let (value, behind) ← place.read bytes
      let (values, behind) ← rest.readValues false behind
      return ((value, values), behind)

def members : {β : Type} → Places β → β → List (String × Tree)
  | _, nil, () => []
  | _, cons place rest, (value, values) =>
    match place.tree value with
    | none => rest.members values
    | some tree => (place.name, tree) :: rest.members values

def names : {β : Type} → Places β → List String
  | _, nil => []
  | _, cons place rest => place.name :: rest.names

end Places

-- The text form of a type whose values are the tuples of the places' values.
def Form.record {α β : Type} (places : Places β) (pack : β → α) (unpack : α → β) : Form α where
  read := readBy fun byte =>
    if byte = openObject then
      some fun bytes => do
        let (draft, rest) ← readMembers (fun name => places.readMember name) places.blank bytes.tail
        return (pack (← places.finish draft), rest)
    else if byte = openList then
      some fun bytes => do
        let (values, rest) ← places.readValues true bytes.tail
        return (pack values, rest)
    else none
  tree := fun value => .object (places.members (unpack value))

end TableHistory.Text
