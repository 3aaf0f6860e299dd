import CssTree.Grammar.Rule

namespace CssTree

/-- What a text is read as. -/
inductive Production where
  | styleSheet
  | rule
  | keyframeRule
  | ruleBlock
  | selectorList
  | selector
  | declarationBlock
  | declaration
  | values
  | mediaQueryList
  | keyframeSelectors
deriving DecidableEq

namespace Production

open Grammar

/-- Reads the production at the next token. -/
def read : Production → Attempt Node
  | styleSheet => OptionT.lift Grammar.styleSheet
  | rule => OptionT.lift (ruleItem false false)
  | keyframeRule => OptionT.lift (ruleItem true false)
  | ruleBlock => requireBlock (Grammar.ruleBlock false)
  | selectorList => Grammar.selectorList
  | selector => Grammar.selector
  | declarationBlock => requireBlock Grammar.declarationBlock
  | declaration => Grammar.declaration
  | values => OptionT.lift (Grammar.values [])
  | mediaQueryList => OptionT.lift (Grammar.mediaQueryList [])
  | keyframeSelectors => Grammar.keyframeSelectors

/-- Reads the production where it is all of the text. -/
def readAll (p : Production) : Attempt Node := do
  if (← rawKind) = .eof then failure
  else
    let n ← p.read
    if (← peekKind) = .eof then return n else failure

/-- All tokens, the end of the text among them. -/
def remaining : Parser (List Token) := do
  let ts ← many do
    if (← peekKind) = .eof then failure else bump
  return ts ++ [← bump]

/-- Reads a fragment. Trivia before the end of the text goes behind the last token. -/
def fragment (p : Production) : Parser Node := do
  match ← attempt p.readAll with
  | some n =>
    let trivia := (← bump).leading
    return if trivia.isEmpty then n else (n.appendTrailing trivia).respan
  | none => errorNode (← remaining)

/-- Reads a text, a style sheet with the token that ends it. -/
def parser (p : Production) : Parser Node :=
  if p = styleSheet then Grammar.styleSheet else p.fragment

/-- The node that a text is read as, positioned at the start of a text, and the arena with the
nodes of that text in it. -/
def parse (p : Production) (config : Config) (arena : Arena) (t : Text) : Node × Arena :=
  let (n, s) := p.parser.run (.start config arena t)
  (n, s.arena)

end Production

end CssTree
