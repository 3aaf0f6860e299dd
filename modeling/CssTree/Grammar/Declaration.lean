import CssTree.Grammar.Value

namespace CssTree.Grammar

/-- The next token ends a block. -/
def atBlockEnd : Parser Bool := do
  let kind ← peekKind
  return kind = .closeBrace || kind = .eof

/-- What ends a declaration: the end of its comment if it started with one, and else a semicolon
or the end of the block. -/
def declarationEnd (disabled semicolon : Bool) : Attempt (List Element) := do
  if disabled then return [.token (← require .closeComment)]
  else if semicolon then return []
  else if ← atBlockEnd then return []
  else failure

/-- A name, a colon, a value, the mark of importance and a semicolon, after the start of the
comment around them if there is one. -/
def declarationAfter (opening : Option Token) : Attempt Node := do
  let name ← require .ident
  let colon ← require .colon
  let value ← declarationValue [.semicolon, .closeComment]
  let mark ← OptionT.lift important
  let semicolon ← OptionT.lift (eat .semicolon)
  let ending ← declarationEnd opening.isSome semicolon.isSome
  node .declaration (Element.ofToken? opening ++ .token name :: .token colon :: .node value ::
    Element.ofNode? mark ++ Element.ofToken? semicolon ++ ending)

/-- A declaration, disabled or not. -/
def declaration : Attempt Node := do
  if (← rawKind) = .openComment then
    let disabled ← OptionT.lift (attempt do declarationAfter (some (← bumpRaw)))
    match disabled with
    | some n => return n
    | none => declarationAfter none
  else declarationAfter none

/-- The next token ends a block; a comment that starts there may be a disabled declaration. -/
def atItemsEnd : Parser Bool := do
  if (← rawKind) = .openComment then return false else atBlockEnd

/-- A declaration of a block, or what stands in its place. -/
def declarationItem : Attempt Node := do
  if ← atItemsEnd then failure
  else match ← OptionT.lift (attempt declaration) with
    | some n => return n
    | none =>
      if ← atBlockEnd then failure else recover ⟨[.closeBrace], [.semicolon], false⟩

/-- Declarations in braces. -/
def declarationBlock : Parser Node := do
  if ← enter then
    let opening ← bump
    let declarations ← many declarationItem
    let closing ← eat .closeBrace
    exit
    node .declarationList
      (.token opening :: declarations.map .node ++ Element.ofToken? closing)
  else recoverBlock

end CssTree.Grammar
