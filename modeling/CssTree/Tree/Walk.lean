import CssTree.Token.Printer
import CssTree.Tree.Basic

namespace CssTree

mutual

/-- A node and all elements below it in document order, each with its depth. -/
def Node.outline (depth : Nat) : Node → List (Nat × Element)
  | ⟨id, kind, span, es⟩ =>
    (depth, .node ⟨id, kind, span, es⟩) :: Element.outlineAll (depth + 1) es

def Element.outlineAll (depth : Nat) : List Element → List (Nat × Element)
  | [] => []
  | .token t :: es => (depth, .token t) :: Element.outlineAll depth es
  | .node n :: es => n.outline depth ++ Element.outlineAll depth es

end

mutual

/-- The answer of `visit` for a node; where it has none, the answers for the child nodes combined
by the kind of the node. -/
def Node.walk {α : Type} (visit : Node → Option α) (combine : NodeKind → List α → α) : Node → α
  | ⟨id, kind, span, es⟩ =>
    (visit ⟨id, kind, span, es⟩).getD (combine kind (Element.walkAll visit combine es))

def Element.walkAll {α : Type} (visit : Node → Option α) (combine : NodeKind → List α → α) :
    List Element → List α
  | [] => []
  | .token _ :: es => Element.walkAll visit combine es
  | .node n :: es => n.walk visit combine :: Element.walkAll visit combine es

end

namespace Node

/-- The number of nodes, counted by a walk. -/
def count (n : Node) : Nat := n.walk (fun _ => none) fun _ counts => counts.foldr (· + ·) 1

/-- The decoded name of a class selector. -/
def className? (n : Node) : Option Text :=
  if n.kind = .classSelector then n.tokens[1]?.bind Token.name? else none

/-- The decoded names of all class selectors in document order. -/
def classNames (n : Node) : List Text :=
  n.walk (fun m => m.className?.map ([·])) fun _ names => names.flatten

/-- The shape of a tree as text: kinds with their children in parentheses, and the text of a node
whose kind is in `skip` in angle brackets. -/
def shape (skip : List NodeKind) (n : Node) : Text :=
  n.walk (fun m => if m.kind ∈ skip then some (['<'] ++ m.render ++ ['>']) else none)
    fun kind shapes =>
      kind.name.toList ++
        if shapes.isEmpty then [] else ['('] ++ [','].intercalate shapes ++ [')']

end Node

/-- The text of tokens, token by token, without the trivia in front of the first one and behind the
last. -/
def Token.renderTrimmed (ts : List Token) : Text :=
  ts.zipIdx.flatMap fun (t, i) =>
    (if 0 < i then t.leadingText else []) ++ t.text ++
      if i < ts.length - 1 then t.trailingText else []

/-- What is done at the nodes that a walk comes to. -/
structure Visitor (σ α : Type) where
  /-- Handed every node. Without an answer of its own the walk goes on to the children. -/
  visit : Node → StateM σ (Option α)
  /-- The answer for a node of a kind out of the answers for its children. -/
  combine : NodeKind → List α → StateM σ α

namespace Visitor

/-- A visitor that does `note` at every node and goes on to the children of each. -/
def descending {σ α : Type} (note : Node → σ → σ) (combine : NodeKind → List α → α) :
    Visitor σ α where
  visit n := do
    modify (note n)
    return none
  combine kind answers := return combine kind answers

/-- A visitor that counts the nodes. -/
def counting : Visitor Unit Nat :=
  descending (fun _ s => s) fun _ counts => counts.foldr (· + ·) 1

end Visitor

namespace Tree

/-- The elements of the node called `id`; there are none if it is not in the tree. -/
def elements (tree : Tree) (id : NodeId) : List Element :=
  ((tree.find? id).map Node.elements).getD []

/-- The ids of the children of the node called `id`. -/
def children (tree : Tree) (id : NodeId) : List NodeId :=
  ((tree.elements id).filterMap Element.node?).map Node.id

/-- Takes ids from a stack and puts the children of each on it, the last child first; at most `fuel`
ids are taken. -/
def descendantsFrom (tree : Tree) : (fuel : Nat) → (out stack : List NodeId) →
    Option (List NodeId)
  | _, out, [] => some out
  | 0, _, _ :: _ => none
  | fuel + 1, out, id :: stack =>
    if tree.contains id then
      descendantsFrom tree fuel (out ++ [id])
        ((tree.children id).reverse.foldl (fun stack child => child :: stack) stack)
    else descendantsFrom tree fuel out stack

/-- The node called `id` and all nodes below it. -/
def descendants (tree : Tree) (fuel : Nat) (id : NodeId) : Option (List NodeId) :=
  tree.descendantsFrom fuel [] [id]

/-- Writes the tokens of the node called `id` and of the nodes below it, one after another; below
`fuel` nodes there is no answer. -/
def writeFrom {β : Type} (tree : Tree) (write : β → Token → β) :
    (fuel : Nat) → β → NodeId → Option β
  | 0, _, _ => none
  | fuel + 1, out, id =>
    (tree.elements id).foldlM
      (fun out e =>
        match e with
        | .token t => some (write out t)
        | .node n => writeFrom tree write fuel out n.id)
      out

/-- The tokens of the node called `id` in source order. -/
def tokens (tree : Tree) (fuel : Nat) (id : NodeId) : Option (List Token) :=
  tree.writeFrom (fun ts t => ts ++ [t]) fuel [] id

/-- The text of the node called `id`, if it is in the tree. -/
def text (tree : Tree) (fuel : Nat) (id : NodeId) : Option (Option Text) :=
  match tree.find? id with
  | none => some none
  | some n => (tree.writeFrom Printer.token fuel {} n.id).map fun printer => some printer.buffer

/-- The text of the node called `id` without the trivia at its two ends. -/
def trimmedText (tree : Tree) (fuel : Nat) (id : NodeId) : Option Text :=
  (tree.tokens fuel id).map Token.renderTrimmed

/-- The answer of a visitor for the node called `id`, if it is in the tree; below `fuel` nodes there
is no answer. -/
def walk {σ α : Type} (tree : Tree) (v : Visitor σ α) :
    (fuel : Nat) → NodeId → StateT σ Option (Option α)
  | 0, _ => StateT.lift none
  | fuel + 1, id => do
    match tree.find? id with
    | none => return none
    | some n =>
      match ← StateT.mk fun s => some ((v.visit n).run s) with
      | some answer => return some answer
      | none =>
        let answers ← (tree.children n.id).filterMapM (walk tree v fuel)
        return some (← StateT.mk fun s => some ((v.combine n.kind answers).run s))

end Tree

end CssTree
