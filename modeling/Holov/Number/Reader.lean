import Holov.Number.Rounding

namespace Holov

def digitValue (c : Char) : Nat :=
  c.toNat - '0'.toNat

def appendDigits (n : Nat) (digits : List Char) : Nat :=
  digits.foldl (fun n c => 10 * n + digitValue c) n

/-- An exact decimal: `digits * 10 ^ exponent`. -/
structure Decimal where
  digits : Nat
  exponent : Int
deriving DecidableEq, Repr, Inhabited

namespace Decimal

/-- From this size on, further digits of an exponent no longer count. -/
def exponentCap : Nat := 0x10000

def exponentOfDigits (digits : List Char) : Nat :=
  digits.foldl (fun n c => if n < exponentCap then 10 * n + digitValue c else n) 0

def splitSign : List Char → Bool × List Char
  | '+' :: cs => (false, cs)
  | '-' :: cs => (true, cs)
  | cs => (false, cs)

/-- The exponent part, which is empty or runs to the end of the text. -/
def readExponent? : List Char → Option Int
  | [] => some 0
  | c :: cs =>
    let (negative, digits) := splitSign cs
    if (c = 'e' || c = 'E') && !digits.isEmpty && digits.all Char.isDigit then
      let n : Int := exponentOfDigits digits
      some (if negative then -n else n)
    else none

def splitFraction : List Char → List Char × List Char
  | '.' :: cs => (cs.takeWhile Char.isDigit, cs.dropWhile Char.isDigit)
  | cs => ([], cs)

/-- An unsigned decimal. It has at least one digit on either side of its point. -/
def read? (cs : List Char) : Option Decimal := do
  let whole := cs.takeWhile Char.isDigit
  let (fraction, rest) := splitFraction (cs.dropWhile Char.isDigit)
  guard (!whole.isEmpty || !fraction.isEmpty)
  let e ← readExponent? rest
  return ⟨appendDigits (appendDigits 0 whole) fraction, e - fraction.length⟩

def toNumber (negative : Bool) (d : Decimal) : Number :=
  .ofFraction negative (d.digits * Nat.pow 10 d.exponent.toNat)
    (Nat.pow 10 (-d.exponent).toNat)

end Decimal

def Number.read? (s : String) : Option Number :=
  let (negative, cs) := Decimal.splitSign s.toList
  let name := String.ofList (cs.map Char.toLower)
  if name = "nan" then some .nan
  else if name = "inf" || name = "infinity" then some (.infinite negative)
  else (Decimal.read? cs).map (Decimal.toNumber negative)

end Holov
