import CssTree.Token.Lexeme
import CssTree.Token.Binary

namespace CssTree

/-- The value of a token. -/
inductive TokenValue where
  /-- A number or a percentage. -/
  | number (value : Decimal)
  /-- A number with its unit. -/
  | dimension (value : Decimal) (unit : Text)
  /-- A name, a string or an address with its escapes replaced. -/
  | text (t : Text)
  | codePoints (range : CodePointRange)
deriving DecidableEq, Inhabited

/-- The value that a text has as a token of a kind; punctuation has none. -/
def TokenValue.decode? (kind : TokenKind) (t : Text) : Option TokenValue :=
  match kind with
  | .ident => some (.text (unescape t))
  | .function => some (.text (unescape t.dropLast))
  | .atKeyword | .hash => some (.text (unescape (t.drop 1)))
  | .string => t.head?.map fun quote => .text (unescapeString quote (t.drop 1))
  | .url => some (.text (unescapeUrl t))
  | .number => some (.number (Decimal.ofText t))
  | .percentage => some (.number (Decimal.ofText t.dropLast))
  | .dimension => some (.dimension (Decimal.ofText t) (unescape (t.drop (numberLength t))))
  | .codePoints => (CodePointRange.ofText? t).map .codePoints
  | _ => none

end CssTree
