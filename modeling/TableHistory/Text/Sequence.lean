import TableHistory.OrderedMap
import TableHistory.Text.Skip

namespace TableHistory.Text

-- The bytes at which the next element of a list begins, or none at its end. A comma stands
-- between elements and nowhere else.
def nextElement (first : Bool) (bytes : Bytes) : Except Fault (Option Bytes) :=
  match skipBlank bytes with
  | [] => .error .ended
  | byte :: rest =>
    if byte = closeList then .ok none
    else if first then .ok (some (byte :: rest))
    else if byte = comma then
      match skipBlank rest with
      | [] => .error .ended
      | next :: rest => if next = closeList then .error .malformed else .ok (some (next :: rest))
    else .error .malformed

def closeBracket (bracket : Bracket) (bytes : Bytes) : Except Fault Bytes :=
  match skipBlank bytes with
  | [] => .error .ended
  | byte :: rest => if byte = bracket.closing then .ok rest else .error .malformed

-- The bytes behind the opening quote of the next member's name, or none at the end of the object.
def nextName (first : Bool) (bytes : Bytes) : Except Fault (Option Bytes) :=
  match skipBlank bytes with
  | [] => .error .ended
  | byte :: rest =>
    if byte = closeObject then .ok none
    else if first then if byte = quote then .ok (some rest) else .error .malformed
    else if byte = comma then
      match skipBlank rest with
      | [] => .error .ended
      | next :: rest => if next = quote then .ok (some rest) else .error .malformed
    else .error .malformed

variable {σ : Type}

-- Reads elements into a state up to the end of the list. The second argument bounds their number.
def readElementsFrom (element : σ → Reader σ) : Nat → Bool → σ → Reader σ
  | 0, _, _, _ => .error .ended
  | count + 1, first, state, bytes => do
    match ← nextElement first bytes with
    | none => return (state, ← closeBracket .list bytes)
    | some bytes =>
      let (state, rest) ← element state bytes
      readElementsFrom element count false state rest

def readElements (element : σ → Reader σ) (state : σ) : Reader σ := fun bytes =>
  readElementsFrom element (bytes.length + 1) true state bytes

-- Reads members into a state up to the end of the object. What reads a member is given its name
-- and begins at the colon.
def readMembersFrom (member : String → σ → Reader σ) : Nat → Bool → σ → Reader σ
  | 0, _, _, _ => .error .ended
  | count + 1, first, state, bytes => do
    match ← nextName first bytes with
    | none => return (state, ← closeBracket .object bytes)
    | some bytes =>
      let (name, rest) ← Quoted.readText bytes
      let (state, rest) ← member name state rest
      readMembersFrom member count false state rest

def readMembers (member : String → σ → Reader σ) (state : σ) : Reader σ := fun bytes =>
  readMembersFrom member (bytes.length + 1) true state bytes

end TableHistory.Text
