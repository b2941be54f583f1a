import TableHistory.Bytes

namespace TableHistory.Text

inductive Fault
  -- The bytes end inside a value.
  | ended
  -- A value of the wrong kind or range for its place.
  | mismatch
  -- No beginning of any text.
  | malformed
deriving DecidableEq

-- Takes a value off the front of the bytes. The first thing that cannot be right decides the fault.
abbrev Reader (α : Type) := Bytes → Except Fault (α × Bytes)

-- The byte of an ASCII character.
abbrev ascii (c : Char) : UInt8 := UInt8.ofNat c.toNat

def quote : UInt8 := ascii '"'
def backslash : UInt8 := ascii '\\'
def comma : UInt8 := ascii ','
def colon : UInt8 := ascii ':'
def openList : UInt8 := ascii '['
def closeList : UInt8 := ascii ']'
def openObject : UInt8 := ascii '\x7b'
def closeObject : UInt8 := ascii '\x7d'
def minus : UInt8 := ascii '-'
def point : UInt8 := ascii '.'

def isBlank (byte : UInt8) : Bool :=
  byte = ascii ' ' || byte = ascii '\t' || byte = ascii '\n' || byte = ascii '\r'

def skipBlank (bytes : Bytes) : Bytes := bytes.dropWhile isBlank

def isDigit (byte : UInt8) : Bool := ascii '0' ≤ byte && byte ≤ ascii '9'

def digitValue (byte : UInt8) : Nat := byte.toNat - (ascii '0').toNat

def startsWithDigit (bytes : Bytes) : Bool := bytes.head?.any isDigit

-- Reads exactly the bytes of a word.
def readWord : Bytes → Bytes → Except Fault Bytes
  | [], bytes => .ok bytes
  | _ :: _, [] => .error .ended
  | expected :: word, byte :: bytes =>
    if byte = expected then readWord word bytes else .error .malformed

def nullWord : Bytes := "null".toList.map ascii
def trueWord : Bytes := "true".toList.map ascii
def falseWord : Bytes := "false".toList.map ascii

-- Reads the colon between the name and the value of a member.
def readColon (bytes : Bytes) : Except Fault Bytes :=
  match skipBlank bytes with
  | [] => .error .ended
  | byte :: rest => if byte = colon then .ok rest else .error .malformed

end TableHistory.Text
