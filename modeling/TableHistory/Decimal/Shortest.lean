import TableHistory.Double

namespace TableHistory

-- `digits * 10 ^ power`
structure Decimal where
  digits : Nat
  power : Int
deriving DecidableEq, Inhabited

namespace Decimal

def ratio (d : Decimal) : Ratio := Ratio.scale ⟨d.digits, 1⟩ 10 d.power

-- The power of ten at or below a ratio. Three thousandths over a hundred approximate the
-- logarithm of two closely enough to be at most one too small.
def log10 (r : Ratio) : Int :=
  let guess := r.log2 * 30103 / 100000
  if (Ratio.scale ⟨1, 1⟩ 10 (guess + 1)).le r then guess + 1 else guess

-- The values that round to a finite double: low and high end, which belong to them when the
-- significand is even. Below a power of two the neighbour is half as far away.
structure Interval where
  low : Ratio
  high : Ratio
  closed : Bool

def Interval.ofDouble (d : Double) : Interval :=
  let quarter := d.exponent - 2
  let below := if d.significand = 2 ^ 52 ∧ 1 < d.magnitude / 2 ^ 52 then 1 else 2
  { low := Ratio.scale ⟨4 * d.significand - below, 1⟩ 2 quarter
    high := Ratio.scale ⟨4 * d.significand + 2, 1⟩ 2 quarter
    closed := d.significand % 2 = 0 }

def Interval.contains (i : Interval) (r : Ratio) : Bool :=
  if i.closed then i.low.le r && r.le i.high else !r.le i.low && !i.high.le r

-- The neighbours of a value on a decimal grid that lie in an interval, the nearer first. Of two
-- equally near ones the even one is first.
def neighbours (value : Ratio) (interval : Interval) (power : Int) : List Decimal :=
  let scaled := value.scale 10 (-power)
  let below := scaled.num / scaled.den
  let pair := if scaled.round = below then [below, below + 1] else [below + 1, below]
  (pair.map fun digits => Decimal.mk digits power).filter fun d => interval.contains d.ratio

-- The first grid with a hit, from one digit on.
def search (value : Ratio) (interval : Interval) (top : Int) : Nat → Nat → Decimal
  | 0, _ => default
  | more + 1, count =>
    match neighbours value interval (top - count) with
    | hit :: _ => hit
    | [] => search value interval top more (count + 1)

-- Moves the zeros at the end of the digits into the power.
def trim : Nat → Decimal → Decimal
  | 0, d => d
  | more + 1, d => if d.digits % 10 = 0 then trim more ⟨d.digits / 10, d.power + 1⟩ else d

-- Of the decimals with the fewest digits between the middles to the two neighbours, the nearest.
-- Seventeen digits always suffice. The magnitude must be finite and not zero.
def shortest (d : Double) : Decimal :=
  trim 17 (search d.ratio (.ofDouble d) (log10 d.ratio) 17 0)

end Decimal

end TableHistory
