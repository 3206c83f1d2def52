import Holov.Number

namespace Holov

/-- The integer nearest to `n / d`; a half goes to the even neighbour. -/
def roundHalfEven (n d : Nat) : Nat :=
  let q := n / d
  let r := n % d
  if 2 * r < d then q
  else if d < 2 * r then q + 1
  else if q % 2 = 0 then q else q + 1

def scaleByTwo (n d : Nat) (e : Int) : Nat × Nat :=
  (n <<< e.toNat, d <<< (-e).toNat)

/-- The greatest `e` with `2 ^ e ≤ n / d`. -/
def floorLog2 (n d : Nat) : Int :=
  -- The difference of the logarithms is the answer, or one more.
  let e := (n.log2 : Int) - d.log2
  let (m, c) := scaleByTwo n d (-e)
  if c ≤ m then e else e - 1

namespace Number

/-- The number nearest to `n / d`. Above the greatest finite number that is infinity. -/
def ofFraction (negative : Bool) (n d : Nat) : Number :=
  if n = 0 then finite negative 0 leastExponent
  else
    -- Below the normal numbers the exponent stays, and the significand gets shorter.
    let e := max (floorLog2 n d - (precision - 1 : Nat)) leastExponent
    let (m, c) := scaleByTwo n d (-e)
    let s := roundHalfEven m c
    -- A significand that is rounded up can get one bit too long.
    let (s, e) := if s = 1 <<< precision then (1 <<< (precision - 1), e + 1) else (s, e)
    if greatestExponent < e then infinite negative else finite negative s e

end Number

end Holov
