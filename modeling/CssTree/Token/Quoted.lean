import CssTree.Token.Kind
import CssTree.Token.Escape

namespace CssTree

/-- The length and the kind of what follows an opening quote, once `skip` characters have been
passed. -/
def stringTailFrom (quote : Char) : (skip : Nat) → Text → TokenKind × Nat
  | _, [] => (.string, 0)
  | skip + 1, _ :: cs => (stringTailFrom quote skip cs).map id (· + 1)
  | 0, c :: cs =>
    if c = quote then (.string, 1)
    else if isNewline c then (.badString, 0)
    else if c = '\\' then
      let hidden := newlineLength cs
      (stringTailFrom quote (if 0 < hidden then hidden else escapeLength cs) cs).map id (· + 1)
    else (stringTailFrom quote 0 cs).map id (· + 1)

/-- The kind and the length of the string at the start of a text. -/
def quotedLexeme (quote : Char) (t : Text) : TokenKind × Nat :=
  (stringTailFrom quote 0 t).map id (· + 1)

end CssTree
