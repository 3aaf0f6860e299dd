import CssTree.Edit.Error
import CssTree.Tree.Basic
import CssTree.Tree.View

namespace CssTree

/-- How two compound selectors are related. -/
inductive CombinatorKind where
  | descendant
  | child
  | nextSibling
  | subsequentSibling
  | column
deriving DecidableEq

namespace CombinatorKind

/-- The name under which a combinator is reported. -/
def name : CombinatorKind → String
  | descendant => "Descendant"
  | child => "Child"
  | nextSibling => "NextSibling"
  | subsequentSibling => "SubsequentSibling"
  | column => "Column"

/-- The combinator that a text denotes. -/
def ofText (t : Text) : CombinatorKind :=
  if t = ['>'] then child
  else if t = ['+'] then nextSibling
  else if t = ['~'] then subsequentSibling
  else column

end CombinatorKind

/-- A step of a selector. The descendant combinator has no node of its own. -/
inductive SelectorPart where
  | simple (node : NodeId)
  | combinator (kind : CombinatorKind) (node : Option NodeId)
deriving DecidableEq

namespace Node

/-- The combinator that a node is. -/
def combinator? (n : Node) : Option CombinatorKind :=
  if n.kind = .combinator then n.tokens.head?.map (.ofText ·.text) else none

/-- Trivia stands between the end of one node and the start of the other. -/
def separatedFrom (before after : Node) : Bool :=
  before.tokens.getLast?.any (!·.trailing.isEmpty) || !after.leading.isEmpty

/-- The parts of a selector; `previous` is the simple selector just before them. -/
def partsFrom (previous : Option Node) : List Node → List SelectorPart
  | [] => []
  | n :: ns =>
    match n.combinator? with
    | some kind => .combinator kind (some n.id) :: partsFrom none ns
    | none =>
      if previous.any (·.separatedFrom n) then
        .combinator .descendant none :: .simple n.id :: partsFrom (some n) ns
      else .simple n.id :: partsFrom (some n) ns

/-- The block `block?`, which has to be of kind `kind`. -/
def expectBlock (n : Node) (block? : Option Node) (kind : NodeKind) (outer inner : String) :
    Except EditError Node :=
  match block? with
  | none => .error (.wrongKind outer n.kind)
  | some block => if block.kind = kind then .ok block else .error (.wrongKind inner block.kind)

/-- The node that holds the rules of a style sheet, a block, or an at-rule with a block. -/
def ruleList (n : Node) : Except EditError Node :=
  if n.kind = .styleSheet ∨ n.kind = .ruleList then .ok n
  else n.expectBlock n.ruleBlock? .ruleList "stylesheet or rule block" "rule block"

/-- The node that holds the declarations of a block or of a rule with a block. -/
def declarationList (n : Node) : Except EditError Node :=
  if n.kind = .declarationList then .ok n
  else n.expectBlock n.declarationBlock? .declarationList "rule or declaration block"
    "declaration block"

/-- The node that holds the selectors of a rule, or that is a list of them. -/
def selectorList (n : Node) : Except EditError Node :=
  if n.kind = .selectorList then .ok n
  else n.expectBlock n.selectors? .selectorList "rule or selector list" "selector list"

/-- The declaration that a node has to be. -/
def expectDeclaration (n : Node) : Except EditError Declaration :=
  match n.declaration? with
  | some d => .ok d
  | none => .error (.wrongKind "declaration" n.kind)

end Node

namespace Tree

/-- The node called `id`, which has to be in the tree. -/
def get (tree : Tree) (id : NodeId) : Except EditError Node :=
  match tree.find? id with
  | some n => .ok n
  | none => .error .staleNode

def rules (tree : Tree) (id : NodeId) : Except EditError (List Node) := do
  return (← (← tree.get id).ruleList).children

def selectors (tree : Tree) (id : NodeId) : Except EditError (List Node) := do
  return (← (← tree.get id).selectorList).children

/-- The declarations of a block, with what stands in the place of malformed ones. -/
def declarations (tree : Tree) (id : NodeId) : Except EditError (List Node) := do
  return (← (← tree.get id).declarationList).children

/-- The texts of selectors without trivia at their ends. -/
def selectorTexts (tree : Tree) (id : NodeId) : Except EditError (List Text) := do
  return (← tree.selectors id).map Node.trimmedText

/-- The parts of a selector in order, descendant combinators among them. -/
def selectorParts (tree : Tree) (id : NodeId) : Except EditError (List SelectorPart) := do
  let n ← tree.get id
  if n.kind = .selector then return Node.partsFrom none n.children
  else throw (.wrongKind "selector" n.kind)

def declaration (tree : Tree) (id : NodeId) : Except EditError Declaration := do
  (← tree.get id).expectDeclaration

/-- The value of a declaration without trivia at its ends. -/
def declarationValue (tree : Tree) (id : NodeId) : Except EditError Text := do
  return (← tree.declaration id).value.trimmedText

end Tree

end CssTree
