import CssTree.Grammar.Value

namespace CssTree.Grammar

/-- A namespace before a name or an asterisk, with nothing between them; `first` is the next
token. -/
def nsPrefixFrom (first : Token) : Parser (List Element) := do
  if first.kind = .ident || first.isDelim '*' then
    if (← nth 1).isDelim '|' then
      if ← touchesNext 0 then
        let after ← nth 2
        if after.kind = .ident || after.isDelim '*' then
          if ← touchesNext 1 then
            let name ← bump
            return [.token name, .token (← bump)]
  else if first.isDelim '|' then
    let after ← nth 1
    if after.kind = .ident || after.isDelim '*' then
      if ← touchesNext 0 then return [.token (← bump)]
  return []

/-- A namespace before a name or an asterisk. -/
def nsPrefix : Parser (List Element) := do nsPrefixFrom (← peek)

/-- A colon that follows the token before it with nothing between them. -/
def secondColon : Parser (List Element) := do
  if (← peekKind) = .colon then
    if ← touchesTaken then return [.token (← bump)] else return []
  else return []

/-- A colon or two with a name or a function after them, with nothing between them. -/
def pseudoSelector : Attempt Node := do
  let colon ← bump
  let second ← secondColon
  if ← touchesTaken then
    match ← peekKind with
    | .ident => node .pseudoSelector (.token colon :: second ++ [.token (← bump)])
    | .function =>
      if ← enter then
        let name ← bump
        let arguments ← values [.closeParen]
        let closing ← OptionT.lift (eat .closeParen)
        exit
        match closing with
        | some paren =>
          node .pseudoSelector
            (.token colon :: second ++ [.token name, .node arguments, .token paren])
        | none => failure
      else failure
    | _ => failure
  else failure

/-- The sign between the name and the value of an attribute. -/
def attributeMatcher : Attempt Token := do
  match ← peekKind with
  | .includeMatch | .dashMatch | .prefixMatch | .suffixMatch | .substringMatch => bump
  | .delim => if ← atDelim '=' then bump else failure
  | _ => failure

/-- What an attribute has to be equal to or to contain, and how letter case counts. -/
def attributeComparison : Attempt (List Element) := do
  let matcher ← attributeMatcher
  let kind ← peekKind
  if kind = .ident || kind = .string then
    let value ← bump
    let modifier ← OptionT.lift (eat .ident)
    return .token matcher :: .token value :: Element.ofToken? modifier
  else failure

/-- A test of the value of an attribute, unless there is none. -/
def attributeTest : Attempt (List Element) := do
  if (← peekKind) = .closeBracket then return [] else attributeComparison

/-- A name in brackets, with a test of its value or without. -/
def attributeSelector : Attempt Node := do
  let opening ← bump
  let ns ← nsPrefix
  let name ← require .ident
  let test ← attributeTest
  let closing ← require .closeBracket
  node .attributeSelector (.token opening :: ns ++ .token name :: test ++ [.token closing])

/-- An asterisk after a namespace. -/
def universalSelector (ns : List Element) : Attempt Node := do
  if ← atDelim '*' then node .universalSelector (ns ++ [.token (← bump)]) else failure

/-- A simple selector that starts with an asterisk or a bar. -/
def starSelector : Attempt Node := do
  let ns ← nsPrefix
  if ns.isEmpty then universalSelector ns
  else if (← peekKind) = .ident then node .typeSelector (ns ++ [.token (← bump)])
  else universalSelector ns

def simpleSelector : Attempt Node := do
  let t ← peek
  match t.kind with
  | .ident => do
    let ns ← nsPrefix
    node .typeSelector (ns ++ [.token (← bump)])
  | .delim =>
    if t.isDelim '*' || t.isDelim '|' then starSelector
    else if t.isDelim '.' then
      if (← nth 1).kind = .ident then
        if ← touchesNext 0 then
          let dot ← bump
          node .classSelector [.token dot, .token (← bump)]
        else failure
      else failure
    else failure
  | .hash => node .idSelector [.token (← bump)]
  | .colon => pseudoSelector
  | .openBracket => attributeSelector
  | _ => failure

/-- The next token is a combinator. -/
def atCombinator : Parser Bool := do
  let t ← peek
  return t.kind = .column || t.isDelim '>' || t.isDelim '+' || t.isDelim '~'

/-- Kinds that a selector ends in front of. -/
def endsSelector : TokenKind → Bool
  | .eof | .comma | .openBrace | .closeBrace | .closeParen => true
  | _ => false

/-- The parts of a selector. `expectsSimple` says that a simple selector has to come next, and
the number of tokens `n` bounds the number of parts. -/
def selectorParts (expectsSimple : Bool) : (n : Nat) → Attempt (List Node)
  | 0 => if expectsSimple then failure else return []
  | n + 1 => do
    if endsSelector (← peekKind) then
      if expectsSimple then failure else return []
    else if ← atCombinator then
      if expectsSimple then failure
      else
        let combinator ← node .combinator [.token (← bump)]
        return combinator :: (← selectorParts true n)
    else
      let simple ← simpleSelector
      return simple :: (← selectorParts false n)

/-- Simple selectors, joined by combinators or by nothing but blanks. -/
def selector : Attempt Node := do
  let parts ← selectorParts true (← get).upcoming.length
  node .selector (parts.map .node)

/-- Selectors with commas between them. -/
def selectorList : Attempt Node := do
  let selectors ← separated selector
  node .selectorList (punctuatedNodes selectors)

/-- Percentages or names with commas between them. -/
def keyframeSelectors : Attempt Node := do
  let selectors ← separated do
    let kind ← peekKind
    if kind = .percentage || kind = .ident then bump else failure
  node .keyframeSelectorList (punctuatedTokens selectors)

end CssTree.Grammar
