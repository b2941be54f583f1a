import TableHistory.Decimal.Shortest

namespace TableHistory.Decimal

-- Magnitudes whose first digit stands between these powers of ten are written without an exponent.
def leastPlain : Int := -5

def mostPlain : Int := 15

def zeros (count : Nat) : String := String.ofList (List.replicate count '0')

-- A plain number has at least one decimal.
def plain (digits : String) (first : Int) : String :=
  if first < 0 then "0." ++ zeros (-first - 1).toNat ++ digits
  else
    let whole := first.toNat + 1
    if digits.length ≤ whole then digits ++ zeros (whole - digits.length) ++ ".0"
    else String.ofList (digits.toList.take whole) ++ "." ++ String.ofList (digits.toList.drop whole)

-- An exponent has a sign, and a single digit before it no point.
def scientific (digits : String) (first : Int) : String :=
  let mantissa := match digits.toList with
    | lead :: next :: rest => String.ofList (lead :: '.' :: next :: rest)
    | _ => digits
  mantissa ++ (if first < 0 then "e-" else "e+") ++ toString first.natAbs

-- The text of a finite double.
def render (d : Double) : String :=
  let sign := if d.isNegative then "-" else ""
  if d.isZero then sign ++ "0.0"
  else
    let decimal := shortest d
    let digits := toString decimal.digits
    let first := decimal.power + digits.length - 1
    sign ++ if leastPlain ≤ first ∧ first ≤ mostPlain then plain digits first
      else scientific digits first

end TableHistory.Decimal
