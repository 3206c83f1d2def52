import Holov.Number.Reader

namespace Holov

/-- The reals that round to a finite number other than zero: `low` and `high` enclose the number
`centre`, all three in units of `2 ^ exponent`, and the ends belong to it if `closed`. -/
structure RoundingInterval where
  low : Nat
  centre : Nat
  high : Nat
  exponent : Int
  closed : Bool
deriving DecidableEq, Repr, Inhabited

namespace RoundingInterval

/-- The interval of `s * 2 ^ e`. Below a power of two the neighbour is only half as far away, but
for the least exponent. -/
def ofFinite (s : Nat) (e : Int) : RoundingInterval where
  low :=
    if s = 1 <<< (Number.precision - 1) && Number.leastExponent < e then 4 * s - 1 else 4 * s - 2
  centre := 4 * s
  high := 4 * s + 2
  exponent := e - 2
  closed := s % 2 = 0

/-- The factors that make the endpoints and the multiples of `10 ^ g` integers: `x * 2 ^ exponent`
is to `d * 10 ^ g` as `x * (factors g).1` is to `d * (factors g).2`. -/
def factors (i : RoundingInterval) (g : Int) : Nat × Nat :=
  (Nat.pow 10 (-g).toNat <<< i.exponent.toNat, Nat.pow 10 g.toNat <<< (-i.exponent).toNat)

def contains (i : RoundingInterval) (g : Int) (d : Nat) : Bool :=
  let (f, u) := i.factors g
  if i.closed then i.low * f ≤ d * u && d * u ≤ i.high * f
  else i.low * f < d * u && d * u < i.high * f

/-- The multiple of `10 ^ g` in the interval that is nearest to its centre. Of two at the same
distance it is the greater. -/
def nearest? (i : RoundingInterval) (g : Int) : Option Nat :=
  let (f, u) := i.factors g
  let below := i.centre * f / u
  match i.contains g below, i.contains g (below + 1) with
  | false, false => none
  | true, false => some below
  | false, true => some (below + 1)
  | true, true => some (if 2 * (i.centre * f % u) < u then below else below + 1)

/-- The first grid with a decimal in the interval, from `10 ^ g` down by at most `steps`. -/
def coarsest (i : RoundingInterval) : (steps : Nat) → (g : Int) → Decimal
  | 0, g => ⟨(i.nearest? g).getD 0, g⟩
  | steps + 1, g =>
    match i.nearest? g with
    | some d => ⟨d, g⟩
    | none => coarsest i steps (g - 1)

end RoundingInterval

/-- The shortest decimal that reads back as `s * 2 ^ e`. The search starts at a power of ten above
it and ends at the latest on a grid that has the number itself. -/
def shortestDecimal (s : Nat) (e : Int) : Decimal :=
  let above : Int := (s <<< e.toNat >>> (-e).toNat).repr.length
  (RoundingInterval.ofFinite s e).coarsest (above - min e 0).toNat above

def Decimal.text (d : Decimal) : String :=
  let digits := d.digits.repr.toList
  let places := (-d.exponent).toNat
  -- With the zeros in front there is a digit before the point.
  let padded := List.replicate (places + 1 - digits.length) '0' ++ digits
    ++ List.replicate d.exponent.toNat '0'
  let (whole, fraction) := padded.splitAt (padded.length - places)
  String.ofList (if fraction.isEmpty then whole else whole ++ '.' :: fraction)

def Number.text : Number → String
  | nan => "NaN"
  | infinite negative => if negative then "-inf" else "inf"
  | finite negative s e =>
    (if negative then "-" else "") ++ if s = 0 then "0" else (shortestDecimal s e).text

end Holov
