import TableHistory.Text.Basic

namespace TableHistory.Text.Quoted

def hexValue? (byte : UInt8) : Option Nat :=
  if isDigit byte then some (digitValue byte)
  else if ascii 'a' ≤ byte ∧ byte ≤ ascii 'f' then some (byte.toNat - (ascii 'a').toNat + 10)
  else if ascii 'A' ≤ byte ∧ byte ≤ ascii 'F' then some (byte.toNat - (ascii 'A').toNat + 10)
  else none

-- Reads the four digits of an escaped unit.
def readHex : Reader Nat
  | a :: b :: c :: d :: rest =>
    match [a, b, c, d].mapM hexValue? with
    | some digits => .ok (digits.foldl (fun n digit => n * 16 + digit) 0, rest)
    | none => .error .malformed
  | _ => .error .ended

-- The byte that a one-letter escape stands for.
def escaped? (byte : UInt8) : Option UInt8 :=
  if byte = quote ∨ byte = backslash ∨ byte = ascii '/' then some byte
  else if byte = ascii 'b' then some 8
  else if byte = ascii 'f' then some 12
  else if byte = ascii 'n' then some 10
  else if byte = ascii 'r' then some 13
  else if byte = ascii 't' then some 9
  else none

-- The UTF-8 bytes of a code point, where a lone surrogate is treated like its neighbours.
def codePoint (n : Nat) : Bytes :=
  if n < 0x80 then [UInt8.ofNat n]
  else if n < 0x800 then [UInt8.ofNat (0xc0 + n / 64), UInt8.ofNat (0x80 + n % 64)]
  else if n < 0x10000 then
    [UInt8.ofNat (0xe0 + n / 4096), UInt8.ofNat (0x80 + n / 64 % 64), UInt8.ofNat (0x80 + n % 64)]
  else
    [UInt8.ofNat (0xf0 + n / 262144), UInt8.ofNat (0x80 + n / 4096 % 64),
      UInt8.ofNat (0x80 + n / 64 % 64), UInt8.ofNat (0x80 + n % 64)]

def isLeading (unit : Nat) : Bool := 0xd800 ≤ unit && unit < 0xdc00

def isTrailing (unit : Nat) : Bool := 0xdc00 ≤ unit && unit < 0xe000

def pair (leading trailing : Nat) : Nat :=
  0x10000 + (leading - 0xd800) * 1024 + (trailing - 0xdc00)

-- Reads the escaped unit that must follow a leading surrogate.
def readTrailing : Reader Nat
  | [] => .error .ended
  | byte :: rest =>
    if byte = backslash then
      match rest with
      | [] => .error .ended
      | letter :: rest => if letter = ascii 'u' then readHex rest else .error .malformed
    else .error .malformed

-- Reads an escape behind its backslash: the bytes it stands for, and the bytes behind it. Unless
-- text is read, a surrogate without partner stands for itself.
def readEscape (asText : Bool) : Reader Bytes
  | [] => .error .ended
  | byte :: rest =>
    if byte = ascii 'u' then do
      let (unit, rest) ← readHex rest
      if isLeading unit then
        match readTrailing rest with
        | .ok (next, behind) =>
          if isTrailing next then return (codePoint (pair unit next), behind)
          else if asText then .error .malformed
          else return (codePoint unit, rest)
        | .error fault => if asText then .error fault else return (codePoint unit, rest)
      else if isTrailing unit ∧ asText then .error .malformed
      else return (codePoint unit, rest)
    else
      match escaped? byte with
      | some byte => return ([byte], rest)
      | none => .error .malformed

-- Reads up to the closing quote. Text has no bare control characters. The second argument bounds
-- the number of characters.
def readBody (asText : Bool) : Nat → Reader Bytes
  | 0, _ => .error .ended
  | _ + 1, [] => .error .ended
  | count + 1, byte :: rest =>
    if byte = quote then .ok ([], rest)
    else if byte = backslash then do
      let (piece, rest) ← readEscape asText rest
      let (more, rest) ← readBody asText count rest
      return (piece ++ more, rest)
    else if asText ∧ byte < 0x20 then .error .malformed
    else do
      let (more, rest) ← readBody asText count rest
      return (byte :: more, rest)

-- Reads a string behind its opening quote as bytes.
def readBytes : Reader Bytes := fun bytes => readBody false bytes.length bytes

-- Reads a string behind its opening quote as text.
def readText : Reader String := fun bytes => do
  let (bytes, rest) ← readBody true bytes.length bytes
  match Utf8.decode? bytes with
  | some text => return (text, rest)
  | none => .error .malformed

-- Skips a string that is not kept, of which neither surrogates nor UTF-8 are checked.
def skipBody : Nat → Bytes → Except Fault Bytes
  | 0, _ => .error .ended
  | _ + 1, [] => .error .ended
  | count + 1, byte :: rest =>
    if byte = quote then .ok rest
    else if byte = backslash then
      match rest with
      | [] => .error .ended
      | letter :: behind =>
        if letter = ascii 'u' then do
          let (_, rest) ← readHex behind
          skipBody count rest
        else if (escaped? letter).isSome then skipBody count behind
        else .error .malformed
    else if byte < 0x20 then .error .malformed
    else skipBody count rest

def skip (bytes : Bytes) : Except Fault Bytes := skipBody bytes.length bytes

def hexDigit (n : Nat) : UInt8 := ascii (Nat.digitChar n)

-- How a byte of a string is written.
def writeByte (byte : UInt8) : Bytes :=
  if byte = quote ∨ byte = backslash then [backslash, byte]
  else if byte = 8 then [backslash, ascii 'b']
  else if byte = 12 then [backslash, ascii 'f']
  else if byte = 10 then [backslash, ascii 'n']
  else if byte = 13 then [backslash, ascii 'r']
  else if byte = 9 then [backslash, ascii 't']
  else if byte < 0x20 then
    [backslash, ascii 'u', ascii '0', ascii '0', hexDigit (byte.toNat / 16),
      hexDigit (byte.toNat % 16)]
  else [byte]

def write (text : String) : Bytes := quote :: (Utf8.encode text).flatMap writeByte ++ [quote]

end TableHistory.Text.Quoted
