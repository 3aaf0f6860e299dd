import CssTree.Grammar.State

namespace CssTree.Grammar

/-- The next two tokens are an exclamation mark and the word `important`. -/
def atImportant : Parser Bool := do
  if ← atDelim '!' then
    return (← nth 1).isIdent ['i', 'm', 'p', 'o', 'r', 't', 'a', 'n', 't']
  else return false

/-- A value, unless the list of values ends here: at the end, at an unbalanced closing brace, at a
kind in `stop`, or, where `important` says so, at the mark of an important declaration. -/
def valueItem (component : Parser Node) (stop : List TokenKind) (important : Bool) :
    Attempt Node := do
  let kind ← peekKind
  if kind = .eof || kind = .closeBrace || kind ∈ stop then failure
  else if important then
    if ← atImportant then failure else component
  else component

/-- The values up to where their list ends. -/
def valuesOf (component : Parser Node) (stop : List TokenKind) (important : Bool) :
    Parser Node := do
  let values ← many (valueItem component stop important)
  node .valueList (values.map .node)

/-- One component value; `depth` bounds how deep brackets nest in it. -/
def componentWithin : (depth : Nat) → Parser Node
  | 0 => do node .preservedToken [.token (← bump)]
  | depth + 1 => do
    let kind ← peekKind
    match kind.closing? with
    | none => node .preservedToken [.token (← bump)]
    | some close =>
      if ← enter then
        let opening ← bump
        let values ← valuesOf (componentWithin depth) [close] false
        let closing ← eat close
        exit
        node (if kind = .function then .functionValue else .blockValue)
          (.token opening :: .node values :: Element.ofToken? closing)
      else recoverBlock

/-- One component value. Brackets nest no deeper than there are tokens. -/
def component : Parser Node := do componentWithin (← get).upcoming.length

/-- A list of component values. -/
def values (stop : List TokenKind) : Parser Node := valuesOf component stop false

/-- The value of a declaration. -/
def declarationValue (stop : List TokenKind) : Parser Node := valuesOf component stop true

/-- The mark of an important declaration. -/
def important : Parser (Option Node) := do
  if ← atImportant then
    let mark ← bump
    let word ← bump
    return some (← node .importantValue [.token mark, .token word])
  else return none

end CssTree.Grammar
