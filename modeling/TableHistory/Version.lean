import TableHistory.Escaped
import TableHistory.Text.Record

namespace TableHistory

structure TableVersion where
  number : UInt32
deriving DecidableEq

inductive NumberFault
  | empty
  | badDigit
  | tooLarge
deriving DecidableEq

def NumberFault.message : NumberFault → String
  | empty => "cannot parse integer from empty string"
  | badDigit => "invalid digit found in string"
  | tooLarge => "number too large to fit in target type"

-- The text is what was left of the input without the blanks around it.
structure VersionFault where
  text : String
  fault : NumberFault
deriving DecidableEq

def VersionFault.message (fault : VersionFault) : String :=
  "Invalid table version " ++ Escaped.write fault.text ++ ": " ++ fault.fault.message

namespace TableVersion

def current : TableVersion := ⟨8⟩

-- Compared by number.
def atLeast (version other : TableVersion) : Bool := other.number ≤ version.number

def describe (version : TableVersion) : String := toString version.number.toNat

-- The blank characters of Unicode.
def isSpace (c : Char) : Bool :=
  let n := c.toNat
  (9 ≤ n && n ≤ 13) || n = 0x20 || n = 0x85 || n = 0xa0 || n = 0x1680 ||
    (0x2000 ≤ n && n ≤ 0x200a) || n = 0x2028 || n = 0x2029 || n = 0x202f || n = 0x205f ||
    n = 0x3000

def trim (characters : List Char) : List Char :=
  ((characters.dropWhile isSpace).reverse.dropWhile isSpace).reverse

-- Adds digits to a number. The first character that is no digit or makes the number too large
-- decides.
def addDigits : Nat → List Char → Except NumberFault Nat
  | number, [] => .ok number
  | number, c :: rest =>
    if c.isDigit then
      let longer := number * 10 + (c.toNat - '0'.toNat)
      if longer < 2 ^ 32 then addDigits longer rest else .error .tooLarge
    else .error .badDigit

-- Digits, perhaps behind a plus.
def readNumber : List Char → Except NumberFault Nat
  | [] => .error .empty
  | ['+'] => .error .badDigit
  | '+' :: digits => addDigits 0 digits
  | digits => addDigits 0 digits

def parse (text : String) : Except VersionFault TableVersion :=
  let characters := trim text.toList
  match readNumber characters with
  | .ok number => .ok ⟨UInt32.ofNat number⟩
  | .error fault => .error ⟨String.ofList characters, fault⟩

def form : Text.Form TableVersion := Text.Form.uint32.via mk number

end TableVersion

-- Tables before version 8 hold commit metadata as text only. From it on they hold it structured,
-- and fold their operations into records.
inductive Era
  | text
  | structured
deriving DecidableEq

namespace Era

-- The first version of the structured era.
def structuredFrom : TableVersion := ⟨8⟩

def ofVersion (version : TableVersion) : Era :=
  if version.atLeast structuredFrom then structured else text

end Era

-- What the conversion of a table's history depends on.
structure ArchiveConfig where
  tableVersion : TableVersion := .current
deriving DecidableEq

def ArchiveConfig.form : Text.Form ArchiveConfig :=
  .record (.cons (.defaulted "table_version" .current TableVersion.form) .nil)
    (fun (version, ()) => ⟨version⟩) fun config => (config.tableVersion, ())

end TableHistory
