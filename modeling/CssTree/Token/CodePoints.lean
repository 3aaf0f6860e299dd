import CssTree.Token.Character

namespace CssTree

/-- How many question marks at the start of a text complete `digits` digits to at most six. -/
def wildcardLength (digits : Nat) (t : Text) : Nat := runLength (· = '?') (t.take (6 - digits))

/-- The length of a hyphen with hexadecimal digits after it. -/
def upperEndLength : Text → Nat
  | '-' :: cs => if 0 < hexLength cs then hexLength cs + 1 else 0
  | _ => 0

/-- The length of the range of code points at the start of a text. -/
def codePointsLength? : Text → Option Nat
  | u :: '+' :: cs =>
    let digits := hexLength cs
    let rest := cs.drop digits
    let wildcards := wildcardLength digits rest
    if (u = 'u' || u = 'U') && 0 < digits + wildcards then
      some (2 + digits + if 0 < wildcards then wildcards else upperEndLength rest)
    else none
  | _ => none

/-- The first and the last code point of a range. -/
structure CodePointRange where
  first : Nat
  last : Nat
deriving DecidableEq, Inhabited

/-- Hexadecimal digits with `d` in the place of each question mark. -/
def fillWildcards (d : Char) (t : Text) : Text := t.map fun c => if c = '?' then d else c

/-- The number that hexadecimal digits denote, with a plus sign in front of them or without. Other
text denotes none, nor do digits of a number that takes more than 32 bits. -/
def parseHex? (t : Text) : Option Nat :=
  let digits := if t.head? = some '+' then t.drop 1 else t
  if digits ≠ [] ∧ digits.all isHex ∧ hexNumber digits < 0x1_0000_0000 then some (hexNumber digits)
  else none

/-- The code points that a text denotes as a range. -/
def CodePointRange.ofText? : Text → Option CodePointRange
  | _ :: _ :: body => do
    let lower := body.takeWhile (· ≠ '-')
    if '?' ∈ lower then
      return ⟨← parseHex? (fillWildcards '0' lower), ← parseHex? (fillWildcards 'F' lower)⟩
    let first ← parseHex? lower
    match body.drop lower.length with
    | _ :: upper => return ⟨first, ← parseHex? upper⟩
    | [] => return ⟨first, first⟩
  | _ => none

end CssTree
