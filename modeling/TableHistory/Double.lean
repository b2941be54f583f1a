import TableHistory.Bytes

namespace TableHistory

-- A double by its sixty-four bits.
structure Double where
  bits : UInt64
deriving DecidableEq

namespace Double

def zero : Double := ⟨0⟩

instance : Inhabited Double := ⟨zero⟩

-- The bits without the sign.
def magnitude (d : Double) : Nat := d.bits.toNat % 2 ^ 63

def isNegative (d : Double) : Bool := 2 ^ 63 ≤ d.bits.toNat

-- Holds of both zeros.
def isZero (d : Double) : Bool := d.magnitude == 0

-- The magnitude of infinity. The magnitudes above it are not numbers.
def infinite : Nat := 2047 * 2 ^ 52

def isFinite (d : Double) : Bool := d.magnitude < infinite

def negate (d : Double) : Double := ⟨d.bits ^^^ 0x8000000000000000⟩

-- A finite magnitude is `significand * 2 ^ exponent`.
def significand (d : Double) : Nat :=
  d.magnitude % 2 ^ 52 + if d.magnitude / 2 ^ 52 = 0 then 0 else 2 ^ 52

def exponent (d : Double) : Int := (max 1 (d.magnitude / 2 ^ 52) : Nat) - 1075

end Double

-- A positive rational, numerator over denominator.
structure Ratio where
  num : Nat
  den : Nat

namespace Ratio

-- The ratio times a power of a base.
def scale (r : Ratio) (base : Nat) (power : Int) : Ratio :=
  if 0 ≤ power then ⟨r.num * Nat.pow base power.toNat, r.den⟩
  else ⟨r.num, r.den * Nat.pow base (-power).toNat⟩

def mul (left right : Ratio) : Ratio := ⟨left.num * right.num, left.den * right.den⟩

def div (left right : Ratio) : Ratio := ⟨left.num * right.den, left.den * right.num⟩

def le (left right : Ratio) : Bool := left.num * right.den ≤ right.num * left.den

-- The nearest whole number, with a half going to the even neighbour.
def round (r : Ratio) : Nat :=
  let whole := r.num / r.den
  let left := r.num % r.den
  if 2 * left < r.den ∨ (2 * left = r.den ∧ whole % 2 = 0) then whole else whole + 1

-- The power of two at or below the ratio.
def log2 (r : Ratio) : Int :=
  let guess : Int := (r.num.log2 : Int) - r.den.log2
  if (Ratio.scale ⟨1, 1⟩ 2 guess).le r then guess else guess - 1

end Ratio

namespace Double

-- The value of a finite magnitude.
def ratio (d : Double) : Ratio := Ratio.scale ⟨d.significand, 1⟩ 2 d.exponent

-- The nearest non-negative double, which is infinity from the middle above the largest on.
def ofRatio (r : Ratio) : Double :=
  if r.num = 0 then zero
  else
    let exponent := max (-1074) (r.log2 - 52)
    let significand := (r.scale 2 (-exponent)).round
    ⟨UInt64.ofNat (min infinite (significand + (exponent + 1074).toNat * 2 ^ 52))⟩

def ofNat (n : Nat) : Double := ofRatio ⟨n, 1⟩

-- Product and quotient of non-negative doubles, rounded to nearest. The divisor is not zero.
def mul (left right : Double) : Double := ofRatio (left.ratio.mul right.ratio)

def div (left right : Double) : Double := ofRatio (left.ratio.div right.ratio)

end Double

end TableHistory
