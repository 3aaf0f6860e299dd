import CssTree.Grammar.Declaration

namespace CssTree.Grammar

/-- What an at-rule is, whatever its letter case and vendor. -/
inductive AtRule where
  | charset
  | customMedia
  | document
  | fontFace
  | host
  | import
  | keyframes
  | media
  | namespace
  | page
  | supports
  | generic
deriving DecidableEq

/-- The at-rule that a name introduces. -/
def AtRule.ofName (name : Text) : AtRule :=
  let name := lowerCase name
  if name = "charset".toList then .charset
  else if name = "custom-media".toList then .customMedia
  else if name = "document".toList || name = "-moz-document".toList then .document
  else if name = "font-face".toList then .fontFace
  else if name = "host".toList then .host
  else if name = "import".toList then .import
  else if name = "keyframes".toList then .keyframes
  else if name = "media".toList then .media
  else if name = "namespace".toList then .namespace
  else if name = "page".toList then .page
  else if name = "supports".toList then .supports
  else if name.head? = some '-' && "-keyframes".toList.isSuffixOf name then .keyframes
  else .generic

/-- A semicolon, or nothing before the end of the block. -/
def statementEnd : Attempt (List Element) := do
  match ← peekKind with
  | .semicolon => return [.token (← bump)]
  | .closeBrace | .eof => return []
  | _ => failure

/-- A block that has to be there. -/
def requireBlock (block : Parser Node) : Attempt Node := do
  if (← peekKind) = .openBrace then block else failure

/-- Functions that name the documents of a document rule. -/
def documentMatchers : List Text :=
  ["url".toList, "url-prefix".toList, "domain".toList, "regexp".toList]

/-- An address or a string. -/
def urlOrString : Attempt Node := do
  let t ← peek
  if t.kind = .url || t.kind = .string || (t.kind = .function && t.hasName "url".toList) then
    component
  else failure

/-- An address or a function that names documents. -/
def documentMatcher : Attempt Node := do
  let t ← peek
  if t.kind = .url || (t.kind = .function && documentMatchers.any t.hasName) then component
  else failure

/-- Media queries with commas between them, each a list of values. -/
def mediaQueryList (stop : List TokenKind) : Parser Node := do
  let kind ← peekKind
  if kind = .eof || kind = .closeBrace || kind ∈ stop then node .mediaQueryList []
  else
    let queries ← (separated (OptionT.lift (values (.comma :: stop)))).run
    node .mediaQueryList (punctuatedNodes (queries.getD .empty))

/-- The media queries of an import, unless it ends here. -/
def importMedia : Parser (List Element) := do
  let kind ← peekKind
  if kind = .semicolon || kind = .eof || kind = .closeBrace then return []
  else return [.node (← mediaQueryList [.semicolon])]

/-- The selector of a page rule, unless its block starts here. -/
def pageSelector : Parser (List Element) := do
  if (← peekKind) = .openBrace then return []
  else return [.node (← values [.openBrace, .semicolon])]

/-- The block or the end of an at-rule of a name that says nothing about it. -/
def genericEnd : Attempt (List Element) := do
  if (← peekKind) = .openBrace then return [.node (← component)] else statementEnd

/-- An at-rule; `rules` reads a block of rules, of keyframes if it is told so. -/
def atRule (rules : (keyframes : Bool) → Parser Node) : Attempt Node := do
  let name := (← peek).name?.getD []
  let keyword : Element := .token (← bump)
  match AtRule.ofName name with
  | .charset => do
    let charset ← require .string
    let ending ← statementEnd
    node .charsetRule (keyword :: .token charset :: ending)
  | .customMedia => do
    let name ← require .ident
    let media ← mediaQueryList [.semicolon]
    let ending ← statementEnd
    node .customMediaRule (keyword :: .token name :: .node media :: ending)
  | .document => do
    let matchers ← separated documentMatcher
    let block ← requireBlock (rules false)
    node .documentRule (keyword :: punctuatedNodes matchers ++ [.node block])
  | .fontFace => do
    let block ← requireBlock declarationBlock
    node .fontFaceRule [keyword, .node block]
  | .host => do
    let block ← requireBlock (rules false)
    node .hostRule [keyword, .node block]
  | .import => do
    let url ← urlOrString
    let media ← importMedia
    let ending ← statementEnd
    node .importRule (keyword :: .node url :: media ++ ending)
  | .keyframes => do
    let kind ← peekKind
    if kind = .ident || kind = .string then
      let name ← bump
      let block ← requireBlock (rules true)
      node .keyframesRule [keyword, .token name, .node block]
    else failure
  | .media => do
    let media ← mediaQueryList [.openBrace, .semicolon]
    let block ← requireBlock (rules false)
    node .mediaRule [keyword, .node media, .node block]
  | .namespace => do
    let name ← OptionT.lift (eat .ident)
    let url ← urlOrString
    let ending ← statementEnd
    node .namespaceRule (keyword :: Element.ofToken? name ++ .node url :: ending)
  | .page => do
    let selector ← pageSelector
    let block ← requireBlock declarationBlock
    node .pageRule (keyword :: selector ++ [.node block])
  | .supports => do
    let condition ← values [.openBrace, .semicolon]
    let block ← requireBlock (rules false)
    node .supportsRule [keyword, .node condition, .node block]
  | .generic => do
    let prelude ← values [.openBrace, .semicolon]
    let ending ← genericEnd
    node .genericAtRule (keyword :: .node prelude :: ending)

end CssTree.Grammar
