import CssTree.Token.Name

namespace CssTree

def signLength : Text → Nat
  | c :: _ => if c = '+' || c = '-' then 1 else 0
  | [] => 0

def digitsLength (t : Text) : Nat := runLength Char.isDigit t

/-- The length of a point with digits after it. -/
def fractionLength : Text → Nat
  | '.' :: cs => if 0 < digitsLength cs then digitsLength cs + 1 else 0
  | _ => 0

/-- The length of an exponent mark with digits after it. -/
def exponentLength : Text → Nat
  | c :: cs =>
    let digits := digitsLength (cs.drop (signLength cs))
    if (c = 'e' || c = 'E') && 0 < digits then signLength cs + digits + 1 else 0
  | [] => 0

/-- A text that starts with a number. -/
def startsNumber (t : Text) : Bool :=
  match t.drop (signLength t) with
  | '.' :: c :: _ => c.isDigit
  | c :: _ => c.isDigit
  | [] => false

/-- The parts of the number at the start of a text: what precedes the point, the fraction with
its point, and the exponent with its mark. -/
def numberParts (t : Text) : Text × Text × Text :=
  let whole := signLength t + digitsLength (t.drop (signLength t))
  let rest := t.drop whole
  let fraction := fractionLength rest
  let tail := rest.drop fraction
  (t.take whole, rest.take fraction, tail.take (exponentLength tail))

/-- The length of the number at the start of a text. -/
def numberLength (t : Text) : Nat :=
  let (whole, fraction, exponent) := numberParts t
  whole.length + fraction.length + exponent.length

/-- The number that decimal digits denote. -/
def decimalNumber (t : Text) : Nat := t.foldl (fun n c => 10 * n + (c.toNat - '0'.toNat)) 0

/-- A sign, the digits of an integer, and the power of ten that multiplies it. Zero keeps its
sign. -/
structure Decimal where
  negative : Bool
  digits : Nat
  exponent : Int
deriving DecidableEq, Inhabited

/-- Digits after an optional sign, as an integer. -/
def signedNumber (t : Text) : Int :=
  let n : Int := decimalNumber (t.drop (signLength t))
  if t.head? = some '-' then -n else n

/-- The value of the number at the start of a text. -/
def Decimal.ofText (t : Text) : Decimal :=
  let (whole, fraction, exponent) := numberParts t
  let places := fraction.drop 1
  { negative := whole.head? = some '-'
    digits := decimalNumber (whole.drop (signLength whole) ++ places)
    exponent := signedNumber (exponent.drop 1) - places.length }

end CssTree
