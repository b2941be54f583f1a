import TableHistory.Text.Sequence
import TableHistory.Text.Tree

namespace TableHistory.Text

structure Form (α : Type) where
  read : Reader α
  tree : α → Tree

-- The fault of a value that stands where none of its kind can. A scalar is read first, and has its
-- own fault if that fails.
def refuse (bytes : Bytes) : Fault :=
  let faultOf {β : Type} : Except Fault β → Fault
    | .ok _ => .mismatch
    | .error fault => fault
  match bytes with
  | [] => .ended
  | byte :: rest =>
    if byte = ascii 'n' then faultOf (readWord nullWord bytes)
    else if byte = ascii 't' then faultOf (readWord trueWord bytes)
    else if byte = ascii 'f' then faultOf (readWord falseWord bytes)
    else if byte = quote then faultOf (Quoted.readText rest)
    else if Number.startsNumber byte then faultOf (Number.read bytes)
    else if byte = openList ∨ byte = openObject then .mismatch
    else .malformed

-- A reader by the first byte of the value behind blanks. It refuses the bytes for which there is
-- no reader.
def readBy {α : Type} (choose : UInt8 → Option (Reader α)) : Reader α := fun bytes =>
  match skipBlank bytes with
  | [] => .error .ended
  | byte :: rest =>
    match choose byte with
    | some read => read (byte :: rest)
    | none => .error (refuse (byte :: rest))

namespace Form

-- The form of a type whose values stand for those of another one.
def via {α β : Type} (form : Form α) (wrap : α → β) (unwrap : β → α) : Form β where
  read := fun bytes => (form.read bytes).map fun result => (wrap result.1, result.2)
  tree := fun value => form.tree (unwrap value)

def text : Form String where
  read := readBy fun byte =>
    if byte = quote then some fun bytes => Quoted.readText bytes.tail else none
  tree := .text

def bool : Form Bool where
  read := readBy fun byte =>
    if byte = ascii 't' then some fun bytes => (readWord trueWord bytes).map (true, ·)
    else if byte = ascii 'f' then some fun bytes => (readWord falseWord bytes).map (false, ·)
    else none
  tree := .bool

def readNumber {α : Type} (convert : Number → Option α) : Reader α := readBy fun byte =>
  if Number.startsNumber byte then
    some fun bytes => do
      let (number, rest) ← Number.read bytes
      match convert number with
      | some value => return (value, rest)
      | none => .error .mismatch
  else none

-- Whole numbers of a type, given by its ends.
def ofRange {α : Type} (least most : Int) (ofInt : Int → α) (toInt : α → Int) : Form α where
  read := readNumber fun
    | .whole value => if least ≤ value ∧ value ≤ most then some (ofInt value) else none
    | .fraction _ => none
  tree := fun value => .whole (toInt value)

def int64 : Form Int64 := ofRange (-2 ^ 63) (2 ^ 63 - 1) Int64.ofInt Int64.toInt

def int32 : Form Int32 := ofRange (-2 ^ 31) (2 ^ 31 - 1) Int32.ofInt Int32.toInt

def uint32 : Form UInt32 :=
  ofRange 0 (2 ^ 32 - 1) (fun value => UInt32.ofNat value.toNat) fun value => value.toNat

def byte : Form UInt8 :=
  ofRange 0 (2 ^ 8 - 1) (fun value => UInt8.ofNat value.toNat) fun value => value.toNat

def double : Form Double where
  read := readNumber fun number => some number.toDouble
  tree := .double

def listOf {α : Type} (form : Form α) : Form (List α) where
  read := readBy fun byte =>
    if byte = openList then
      some fun bytes => do
        let (values, rest) ← readElements
          (fun values bytes => do
            let (value, rest) ← form.read bytes
            return (value :: values, rest)) [] bytes.tail
        return (values.reverse, rest)
    else none
  tree := fun values => .list (values.map form.tree)

-- Byte strings are written as lists of numbers, and read from strings too.
def blob : Form Bytes where
  read := fun bytes =>
    match skipBlank bytes with
    | byte :: rest => if byte = quote then Quoted.readBytes rest else (listOf Form.byte).read bytes
    | [] => .error .ended
  tree := (listOf Form.byte).tree

-- Of members with one name the last counts.
def mapOf {α : Type} (form : Form α) : Form (OrderedMap String α) where
  read := readBy fun byte =>
    if byte = openObject then
      some fun bytes => readMembers
        (fun name map bytes => do
          let (value, rest) ← form.read (← readColon bytes)
          return (map.insert name value, rest)) .empty bytes.tail
    else none
  tree := fun map => .object (map.entries.map fun entry => (entry.1, form.tree entry.2))

-- Null stands for no value.
def optional {α : Type} (form : Form α) : Form (Option α) where
  read := fun bytes =>
    match skipBlank bytes with
    | [] => .error .ended
    | byte :: rest =>
      if byte = ascii 'n' then (readWord nullWord (byte :: rest)).map (none, ·)
      else (form.read (byte :: rest)).map fun result => (some result.1, result.2)
  tree := fun value => (value.map form.tree).getD .null

-- Null is read as the given value.
def nullAs {α : Type} (value : α) (form : Form α) : Form α where
  read := fun bytes =>
    ((optional form).read bytes).map fun result => (result.1.getD value, result.2)
  tree := form.tree

def readNull : Reader Unit := readBy fun byte =>
  if byte = ascii 'n' then some fun bytes => (readWord nullWord bytes).map ((), ·) else none

-- The values of a closed set by their names. A name may also be that of the only member of an
-- object, with null as its value.
def ofNames {α : Type} (values : List α) (nameOf : α → String) : Form α where
  read := fun bytes => do
    let named : Reader α := fun bytes => do
      let (name, rest) ← Quoted.readText bytes
      match values.find? fun value => nameOf value = name with
      | some value => return (value, rest)
      | none => .error .mismatch
    match skipBlank bytes with
    | [] => .error .ended
    | byte :: rest =>
      if byte = quote then named rest
      else if byte = openObject then
        match ← nextName true rest with
        | some rest =>
          let (value, rest) ← named rest
          let (_, rest) ← readNull (← readColon rest)
          return (value, ← closeBracket .object rest)
        | none => .error .malformed
      else .error .malformed
  tree := fun value => .text (nameOf value)

-- Reads a whole text, behind whose value only blanks may stand.
def decode {α : Type} (form : Form α) (bytes : Bytes) : Except Fault α := do
  let (value, rest) ← form.read bytes
  if (skipBlank rest).isEmpty then return value else .error .malformed

def encode {α : Type} (form : Form α) (value : α) : Bytes := (form.tree value).write 0

end Form

end TableHistory.Text
