import CssTree.Token.Kind
import CssTree.Token.Escape

namespace CssTree

/-- The length of the rest of a bad address once `skip` characters have been passed. -/
def badUrlLengthFrom : (skip : Nat) → Text → Nat
  | _, [] => 0
  | skip + 1, _ :: cs => badUrlLengthFrom skip cs + 1
  | 0, c :: cs =>
    if c = ')' then 1
    else if startsEscape (c :: cs) then badUrlLengthFrom (escapeLength cs) cs + 1
    else badUrlLengthFrom 0 cs + 1

def badUrlLength (t : Text) : Nat := badUrlLengthFrom 0 t

/-- The kind and the length of what follows the blanks after an address. -/
def urlEnd (t : Text) : TokenKind × Nat :=
  match t with
  | [] => (.url, 0)
  | c :: _ => if c = ')' then (.url, 1) else (.badUrl, badUrlLength t)

/-- The kind and the length of the rest of an address once `skip` characters have been passed. -/
def urlTailFrom : (skip : Nat) → Text → TokenKind × Nat
  | _, [] => (.url, 0)
  | skip + 1, _ :: cs => (urlTailFrom skip cs).map id (· + 1)
  | 0, c :: cs =>
    if c = ')' then (.url, 1)
    else if isBlank c then
      let blanks := blankLength (c :: cs)
      (urlEnd ((c :: cs).drop blanks)).map id (· + blanks)
    else if c = '"' || c = '\'' || c = '(' || isNonPrintable c then
      (.badUrl, badUrlLength (c :: cs))
    else if c = '\\' then
      if startsEscape (c :: cs) then (urlTailFrom (escapeLength cs) cs).map id (· + 1)
      else (.badUrl, badUrlLength (c :: cs))
    else (urlTailFrom 0 cs).map id (· + 1)

/-- The kind and the length of the text after `url(`, up to its closing parenthesis. -/
def urlTail (t : Text) : TokenKind × Nat :=
  let blanks := blankLength t
  (urlTailFrom 0 (t.drop blanks)).map id (· + blanks)

/-- What an address denotes: the text after its first parenthesis, without a closing one and
without blanks at its ends, with its escapes replaced. -/
def unescapeUrl (t : Text) : Text :=
  let body := (t.dropWhile (· ≠ '(')).drop 1
  let body := if body.getLast? = some ')' then body.dropLast else body
  unescape (trimBlanks body)

end CssTree
