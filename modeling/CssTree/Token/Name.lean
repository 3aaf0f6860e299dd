import CssTree.Token.Escape

namespace CssTree

/-- A text that starts with a name. -/
def startsName : Text → Bool
  | '-' :: cs =>
    match cs with
    | '\\' :: _ => startsEscape cs
    | c :: _ => isNameStart c || c = '-'
    | [] => false
  | c :: cs => if c = '\\' then startsEscape (c :: cs) else isNameStart c
  | [] => false

/-- The length of the name at the start of a text once `skip` characters have been passed. -/
def nameLengthFrom : (skip : Nat) → Text → Nat
  | _, [] => 0
  | skip + 1, _ :: cs => nameLengthFrom skip cs + 1
  | 0, c :: cs =>
    if isNameChar c then nameLengthFrom 0 cs + 1
    else if startsEscape (c :: cs) then nameLengthFrom (escapeLength cs) cs + 1
    else 0

/-- The length of the name at the start of a text. -/
def nameLength (t : Text) : Nat := nameLengthFrom 0 t

theorem nameLengthFrom_le (skip : Nat) (t : Text) : nameLengthFrom skip t ≤ t.length := by
  induction t generalizing skip with
  | nil => simp [nameLengthFrom]
  | cons c cs ih =>
    cases skip with
    | succ skip => simpa [nameLengthFrom] using ih skip
    | zero =>
      unfold nameLengthFrom
      split
      · simpa using ih 0
      · split
        · simpa using ih _
        · simp

end CssTree
