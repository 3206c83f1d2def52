namespace Holov

/-- The binary floating-point numbers of double precision, exactly. -/
inductive Number where
  | nan
  | infinite (negative : Bool)
  /-- The number `significand * 2 ^ exponent`, negated if `negative`. -/
  | finite (negative : Bool) (significand : Nat) (exponent : Int)
deriving DecidableEq, Repr, Inhabited

namespace Number

/-- Significands have 53 bits. -/
def precision : Nat := 53

def leastExponent : Int := -1074

def greatestExponent : Int := 971

end Number

end Holov
