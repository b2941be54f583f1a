import TableHistory.Escaped.Combining
import TableHistory.Escaped.Unprintable

namespace TableHistory.Escaped

def writeChar (c : Char) : List Char :=
  if c = '\x00' then ['\\', '0']
  else if c = '\t' then ['\\', 't']
  else if c = '\r' then ['\\', 'r']
  else if c = '\n' then ['\\', 'n']
  else if c = '"' ∨ c = '\\' then ['\\', c]
  else if Combining.contains c ∨ Unprintable.contains c then
    '\\' :: 'u' :: '\x7b' :: Nat.toDigits 16 c.toNat ++ ['\x7d']
  else [c]

-- A text between double quotes, with everything escaped that would not show.
def write (text : String) : String :=
  String.ofList ('"' :: text.toList.flatMap writeChar ++ ['"'])

end TableHistory.Escaped
