import TableHistory.Decimal.Notation
import TableHistory.Text.Number
import TableHistory.Text.Quoted

namespace TableHistory.Text

-- A value of text. It is laid out with two blanks of indentation per level, one element or member a
-- line.
inductive Tree
  | null
  | bool (value : Bool)
  | whole (value : Int)
  | double (value : Double)
  | text (value : String)
  | list (elements : List Tree)
  | object (members : List (String × Tree))

namespace Tree

def newline (depth : Nat) : Bytes := ascii '\n' :: List.replicate (2 * depth) (ascii ' ')

-- Text has no form for the doubles that are not finite.
def writeDouble (value : Double) : Bytes :=
  if value.isFinite then Utf8.encode (Decimal.render value) else nullWord

mutual

def write (depth : Nat) : Tree → Bytes
  | null => nullWord
  | bool true => trueWord
  | bool false => falseWord
  | whole value => Number.write value
  | double value => writeDouble value
  | text value => Quoted.write value
  | list [] => [openList, closeList]
  | list (first :: rest) =>
    openList :: newline (depth + 1) ++ first.write (depth + 1) ++ writeElements (depth + 1) rest ++
      newline depth ++ [closeList]
  | object [] => [openObject, closeObject]
  | object ((name, first) :: rest) =>
    openObject :: newline (depth + 1) ++ Quoted.write name ++ colon :: ascii ' ' ::
      first.write (depth + 1) ++ writeMembers (depth + 1) rest ++ newline depth ++ [closeObject]

def writeElements (depth : Nat) : List Tree → Bytes
  | [] => []
  | next :: rest => comma :: newline depth ++ next.write depth ++ writeElements depth rest

def writeMembers (depth : Nat) : List (String × Tree) → Bytes
  | [] => []
  | (name, next) :: rest =>
    comma :: newline depth ++ Quoted.write name ++ colon :: ascii ' ' :: next.write depth ++
      writeMembers depth rest

end

end Tree

end TableHistory.Text
