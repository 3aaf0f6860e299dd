import CssTree.Grammar.AtRule
import CssTree.Grammar.Selector

namespace CssTree.Grammar

/-- Selectors of some sort and a block of declarations. -/
def ruleWith (kind : NodeKind) (selectors : Attempt Node) : Attempt Node := do
  let selectors ← selectors
  let block ← requireBlock declarationBlock
  node kind [.node selectors, .node block]

def qualifiedRule : Attempt Node := ruleWith .rule selectorList

def keyframeRule : Attempt Node := ruleWith .keyframeRule keyframeSelectors

/-- Where capture stops after text that is no rule. In a block a closing brace ends it; at the
top such a brace is captured itself. -/
def ruleRecovery (nested : Bool) : Recovery :=
  if nested then ⟨[.closeBrace], [.semicolon], true⟩ else ⟨[], [.semicolon, .closeBrace], true⟩

/-- Rules in braces, read by `item`. -/
def blockOf (item : Parser Node) : Parser Node := do
  if ← enter then
    let opening ← bump
    let rules ← many do
      if ← atBlockEnd then failure else item
    let closing ← eat .closeBrace
    exit
    node .ruleList (.token opening :: rules.map .node ++ Element.ofToken? closing)
  else recoverBlock

/-- A rule, an at-rule, or what stands in its place; `depth` bounds how deep rules nest in it. -/
def ruleWithin (keyframes nested : Bool) : (depth : Nat) → Parser Node
  | 0 => recover (ruleRecovery nested)
  | depth + 1 => do
    let parsed ← attempt do
      if (← peekKind) = .atKeyword then
        atRule fun keyframes => blockOf (ruleWithin keyframes true depth)
      else if keyframes then keyframeRule
      else qualifiedRule
    match parsed with
    | some n => return n
    | none => recover (ruleRecovery nested)

/-- A rule, an at-rule, or what stands in its place. Rules nest no deeper than there are
tokens. -/
def ruleItem (keyframes nested : Bool) : Parser Node := do
  ruleWithin keyframes nested (← get).upcoming.length

/-- Rules in braces. -/
def ruleBlock (keyframes : Bool) : Parser Node := blockOf (ruleItem keyframes true)

/-- A whole style sheet: rules and the end of the text. -/
def styleSheet : Parser Node := do
  let rules ← many do
    if (← peekKind) = .eof then failure else ruleItem false false
  node .styleSheet (rules.map .node ++ [.token (← bump)])

end CssTree.Grammar
