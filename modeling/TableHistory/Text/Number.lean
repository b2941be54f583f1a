import TableHistory.Double
import TableHistory.Text.Basic

namespace TableHistory.Text

-- A number without point and exponent is whole as long as it fits sixty-four bits. Any other is the
-- double that its leading digits give when scaled by a power of ten.
inductive Number
  | whole (value : Int)
  | fraction (value : Double)
deriving DecidableEq

namespace Number

-- Takes digits into a significand as long as it stays below 2 ^ 64: the significand, the count of
-- digits taken and the bytes behind them.
def takeDigits : Nat → Nat → Bytes → Nat × Nat × Bytes
  | significand, count, [] => (significand, count, [])
  | significand, count, byte :: rest =>
    let longer := significand * 10 + digitValue byte
    if isDigit byte ∧ longer < 2 ^ 64 then takeDigits longer (count + 1) rest
    else (significand, count, byte :: rest)

-- Divides by 10 ^ 308 as often as given, or until nothing is left.
def shrink : Nat → Double → Double
  | 0, value => value
  | times + 1, value =>
    if value.isZero then value else shrink times (value.div (.ofNat (10 ^ 308)))

-- The double of a significand times a power of ten. Each multiplication and division rounds, and a
-- result beyond the largest double is refused.
def scaled (significand : Nat) (power : Int) : Except Fault Double :=
  let value := Double.ofNat significand
  if power < 0 then
    let places := power.natAbs
    let times := (places - 1) / 308
    .ok ((shrink times value).div (.ofNat (Nat.pow 10 (places - 308 * times))))
  else if power ≤ 308 then
    let product := value.mul (.ofNat (Nat.pow 10 power.toNat))
    if product.isFinite then .ok product else .error .malformed
  else if value.isZero then .ok value
  else .error .malformed

def digitsValue (digits : Bytes) : Nat := digits.foldl (fun n byte => n * 10 + digitValue byte) 0

-- Reads an exponent behind its letter. At least one digit follows the sign, if there is one.
def readExponent (significand : Nat) (power : Int) : Reader Double := fun bytes => do
  let (negative, rest) := match bytes with
    | byte :: rest =>
      if byte = ascii '+' then (false, rest) else if byte = minus then (true, rest)
      else (false, bytes)
    | [] => (false, bytes)
  match rest with
  | [] => .error .ended
  | byte :: _ =>
    if isDigit byte then
      let exponent : Int := digitsValue (rest.takeWhile isDigit)
      let value ← scaled significand (if negative then power - exponent else power + exponent)
      return (value, rest.dropWhile isDigit)
    else .error .malformed

def isExponentLetter (byte : UInt8) : Bool := byte = ascii 'e' || byte = ascii 'E'

-- Reads what may follow the digits of a fraction.
def readScaled (significand : Nat) (power : Int) : Reader Double := fun bytes =>
  match bytes with
  | byte :: rest =>
    if isExponentLetter byte then readExponent significand power rest
    else (scaled significand power).map (·, bytes)
  | [] => (scaled significand power).map (·, bytes)

-- Reads decimals behind the point. Digits that do not fit the significand are dropped.
def readDecimals (significand : Nat) (power : Int) : Reader Double := fun bytes =>
  let (significand, count, rest) := takeDigits significand 0 bytes
  if startsWithDigit rest then readScaled significand (power - count) (rest.dropWhile isDigit)
  else if count = 0 then .error (if rest.isEmpty then .ended else .malformed)
  else readScaled significand (power - count) rest

def signed (negative : Bool) (value : Double) : Double := if negative then value.negate else value

-- A whole number as a double.
def toDouble : Number → Double
  | whole value => signed (value < 0) (.ofNat value.natAbs)
  | fraction value => value

-- Minus zero and numbers that do not fit sixty-four bits are not whole.
def ofDigits (negative : Bool) (significand : Nat) : Number :=
  if negative then
    if significand = 0 ∨ 2 ^ 63 < significand then
      fraction (Double.ofNat significand).negate
    else whole (-significand)
  else whole significand

-- Reads what may follow the digits of a number.
def readTail (negative : Bool) (significand : Nat) : Reader Number := fun bytes =>
  let asFraction (result : Double × Bytes) := (fraction (signed negative result.1), result.2)
  match bytes with
  | byte :: rest =>
    if byte = point then (readDecimals significand 0 rest).map asFraction
    else if isExponentLetter byte then (readExponent significand 0 rest).map asFraction
    else .ok (ofDigits negative significand, bytes)
  | [] => .ok (ofDigits negative significand, bytes)

-- Reads what may follow the digits that fit a significand, of which there are more. Each of the
-- others only scales it.
def readLong (negative : Bool) (significand : Nat) : Reader Number := fun bytes =>
  let power : Int := (bytes.takeWhile isDigit).length
  let rest := bytes.dropWhile isDigit
  let result := match rest with
    | byte :: decimals =>
      if byte = point then readDecimals significand power decimals
      else readScaled significand power rest
    | [] => readScaled significand power rest
  result.map fun result => (fraction (signed negative result.1), result.2)

-- Reads a number behind its sign. Only a number that is zero may begin with one.
def readUnsigned (negative : Bool) : Reader Number := fun bytes =>
  match bytes with
  | [] => .error .ended
  | byte :: rest =>
    if byte = ascii '0' then
      if startsWithDigit rest then .error .malformed else readTail negative 0 rest
    else if isDigit byte then
      let (significand, _, rest) := takeDigits (digitValue byte) 0 rest
      if startsWithDigit rest then readLong negative significand rest
      else readTail negative significand rest
    else .error .malformed

def read : Reader Number := fun bytes =>
  match bytes with
  | byte :: rest => if byte = minus then readUnsigned true rest else readUnsigned false bytes
  | [] => .error .ended

def startsNumber (byte : UInt8) : Bool := byte = minus || isDigit byte

-- Skips the digits that must follow a point or an exponent letter.
def skipDigits (bytes : Bytes) : Except Fault Bytes :=
  if startsWithDigit bytes then .ok (bytes.dropWhile isDigit) else .error .malformed

def skipExponent (bytes : Bytes) : Except Fault Bytes :=
  match bytes with
  | byte :: rest =>
    if isExponentLetter byte then
      match rest with
      | sign :: digits =>
        if sign = ascii '+' ∨ sign = minus then skipDigits digits else skipDigits rest
      | [] => .error .malformed
    else .ok bytes
  | [] => .ok bytes

-- Skips a number that is not kept. Its value does not matter, nor does it matter whether the
-- bytes end inside it or go on with something else.
def skip (bytes : Bytes) : Except Fault Bytes := do
  let digits := match bytes with
    | byte :: rest => if byte = minus then rest else bytes
    | [] => bytes
  let rest ← match digits with
    | byte :: rest =>
      if byte = ascii '0' then
        if startsWithDigit rest then .error .malformed else .ok rest
      else skipDigits digits
    | [] => .error .malformed
  match rest with
  | byte :: decimals =>
    if byte = point then do
      let rest ← skipDigits decimals
      skipExponent rest
    else skipExponent rest
  | [] => .ok rest

-- The digits of a whole number.
def write (value : Int) : Bytes :=
  let digits := (Nat.toDigits 10 value.natAbs).map ascii
  if value < 0 then minus :: digits else digits

end Number

end TableHistory.Text
