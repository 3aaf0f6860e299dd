import CssTree.Config
import CssTree.Token.Trivia

namespace CssTree

/-- Tokens with the token that ends the text. -/
structure Stream where
  tokens : List Token
  last : Token
deriving DecidableEq, Inhabited

namespace Stream

/-- All tokens, with the one that ends the text. -/
def toList (s : Stream) : List Token := s.tokens ++ [s.last]

/-- The tokens of a list, the last of them as the end. -/
def ofList (ts : List Token) : Stream := ⟨ts.dropLast, ts.getLastD default⟩

/-- The next token. -/
def head (s : Stream) : Token := s.tokens.headD s.last

/-- Puts tokens in front. -/
def prepend (ts : List Token) (s : Stream) : Stream := { s with tokens := ts ++ s.tokens }

def length (s : Stream) : Nat := s.tokens.length

def render (s : Stream) : Text := Token.renderAll s.toList

/-- The token that ends a text at a position. -/
def endToken (leading : List Lexeme) (p : Position) : Token :=
  .ofLexeme leading (.place .eof [] p)

/-- Attaches trivia to the token after it; `leading` is the trivia read so far, `p` the place
reached. -/
def ofLexemes (p : Position) (leading : List Lexeme) : List Lexeme → Stream
  | [] => ⟨[], endToken leading p⟩
  | l :: ls =>
    if l.kind.isTrivia then ofLexemes l.span.stop (leading ++ [l]) ls
    else (ofLexemes l.span.stop [] ls).prepend [.ofLexeme leading l]

/-- Attaches trivia to the token before it as far as it shares the line of that token. -/
def trail (s : Stream) : Stream :=
  match s.toList with
  | [] => s
  | t :: ts => ofList (t.leadingToTrailing ts)

/-- The tokens of a text. -/
def ofText (config : Config) (t : Text) : Stream :=
  let s := ofLexemes .origin [] (Lexeme.ofText config.comments t)
  if config.trailing then s.trail else s

end Stream

end CssTree
