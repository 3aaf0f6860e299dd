import CssTree.Edit.Basic

namespace CssTree

namespace Edit

/-- Changes the tokens of the whole tree together, and the spans that follow from them. -/
def moveTrivia (f : List Token → List Token) : Edit Unit := do
  alter (·.mapRoot fun n => (n.mapTokens f).respan)
  report .trivia

/-- Attaches all trivia to the token after it. -/
def trailingToLeading : Edit Unit := moveTrivia (Token.trailingToLeading [])

/-- Attaches trivia to the token before it as far as it shares the line of that token. -/
def leadingToTrailing : Edit Unit :=
  moveTrivia fun
    | [] => []
    | t :: ts => t.leadingToTrailing ts

end Edit

end CssTree
