import CssTree.Token.Basic

namespace CssTree

/-- A list with its last element changed. -/
def mapLast {α : Type} (f : α → α) : List α → List α
  | [] => []
  | [x] => [f x]
  | x :: y :: xs => x :: mapLast f (y :: xs)

namespace Token

/-- Tokens without what leads the first and what trails the last. -/
def stripEnds (ts : List Token) : List Token :=
  mapLast (fun t => { t with trailing := [] }) (ts.modifyHead fun t => { t with leading := [] })

/-- The trivia of a token that stands on the line of the token before it. -/
def sameLine (t : Token) : List Lexeme := t.leading.takeWhile (!·.breaksLine)

/-- A token without the trivia that stands on the line of the token before it. -/
def dropSameLine (t : Token) : Token := { t with leading := t.leading.dropWhile (!·.breaksLine) }

/-- Attaches all trivia to the token after it; `carried` comes from the token before. What
trails the last token stays there. -/
def trailingToLeading (carried : List Lexeme) : List Token → List Token
  | [] => []
  | [t] => [{ t with leading := carried ++ t.leading }]
  | t :: u :: ts =>
    { t with leading := carried ++ t.leading, trailing := [] } ::
      trailingToLeading t.trailing (u :: ts)

/-- Attaches to each token the trivia that trails it up to the end of its line, except for what
`t`, the first token, has in front of it. -/
def leadingToTrailing (t : Token) : List Token → List Token
  | [] => [t]
  | u :: ts =>
    { t with trailing := t.trailing ++ u.sameLine } :: leadingToTrailing u.dropSameLine ts

end Token

end CssTree
