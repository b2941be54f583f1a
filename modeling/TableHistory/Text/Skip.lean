import TableHistory.Text.Number
import TableHistory.Text.Quoted

namespace TableHistory.Text

def skipScalar (bytes : Bytes) : Except Fault Bytes :=
  match bytes with
  | [] => .error .ended
  | byte :: rest =>
    if byte = ascii 'n' then readWord nullWord bytes
    else if byte = ascii 't' then readWord trueWord bytes
    else if byte = ascii 'f' then readWord falseWord bytes
    else if byte = quote then Quoted.skip rest
    else if Number.startsNumber byte then Number.skip bytes
    else .error .malformed

-- Skips the name of a member and the colon behind it.
def skipName (bytes : Bytes) : Except Fault Bytes :=
  match skipBlank bytes with
  | [] => .error .ended
  | byte :: rest => if byte = quote then do readColon (← Quoted.skip rest) else .error .malformed

inductive Bracket
  | list
  | object
deriving DecidableEq

def Bracket.closing : Bracket → UInt8
  | list => closeList
  | object => closeObject

-- The brackets that are open around the place reached, the innermost first. The first arguments
-- bound the number of values and brackets.
mutual

def skipValueIn : Nat → List Bracket → Bytes → Except Fault Bytes
  | 0, _, _ => .error .ended
  | count + 1, around, bytes =>
    match skipBlank bytes with
    | [] => .error .ended
    | byte :: rest =>
      if byte = openList then
        match skipBlank rest with
        | [] => .error .ended
        | next :: behind =>
          if next = closeList then skipRestOf count around behind
          else skipValueIn count (.list :: around) rest
      else if byte = openObject then
        match skipBlank rest with
        | [] => .error .ended
        | next :: behind =>
          if next = closeObject then skipRestOf count around behind
          else do skipValueIn count (.object :: around) (← skipName rest)
      else do skipRestOf count around (← skipScalar (byte :: rest))

-- Skips what is left of the open brackets behind a value.
def skipRestOf : Nat → List Bracket → Bytes → Except Fault Bytes
  | _, [], bytes => .ok bytes
  | 0, _ :: _, _ => .error .ended
  | count + 1, bracket :: around, bytes =>
    match skipBlank bytes with
    | [] => .error .ended
    | byte :: rest =>
      if byte = comma then
        match bracket with
        | .list => skipValueIn count (.list :: around) rest
        | .object => do skipValueIn count (.object :: around) (← skipName rest)
      else if byte = bracket.closing then skipRestOf count around rest
      else .error .malformed

end

-- Skips a value that is not kept. Its syntax is checked at any depth.
def skipValue (bytes : Bytes) : Except Fault Bytes := skipValueIn (bytes.length + 1) [] bytes

end TableHistory.Text
