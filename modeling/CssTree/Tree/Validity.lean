import CssTree.Text.LineIndex
import CssTree.Tree.Basic

namespace CssTree

/-- A span that is wrong. -/
inductive Violation where
  /-- The span of a node covers other text than the node renders. -/
  | nodeText (node : NodeId) (kind : NodeKind) (span : Span) (text : Text) (found : Option Text)
  /-- The span of a token or a piece of trivia covers other text. -/
  | tokenText (kind : TokenKind) (text : Text) (span : Span) (found : Option Text)
  /-- A span stops before it starts. -/
  | inverted (node : NodeId) (span : Span)
  /-- A node reaches out of its parent. -/
  | containment (parent : NodeId) (parentSpan : Span) (child : NodeId) (childSpan : Span)
  /-- An element starts before the element in front of it stops. -/
  | ordering (parent : NodeId) (previous span : Span)
deriving DecidableEq

namespace Violation

/-- A lexeme whose span covers other text than its own. -/
def ofLexeme (index : LineIndex) (l : Lexeme) : List Violation :=
  let found := index.slice? l.span
  if found = some l.text then [] else [tokenText l.kind l.text l.span found]

/-- What is wrong with a token and its trivia. -/
def ofToken (index : LineIndex) (t : Token) : List Violation :=
  (t.toLexeme :: t.leading ++ t.trailing).flatMap (ofLexeme index)

/-- What is wrong with an element of a node by itself. -/
def ofElement (index : LineIndex) (parent : Node) : Element → List Violation
  | .token t => ofToken index t
  | .node n =>
    if parent.span.Contains n.span then [] else [containment parent.id parent.span n.id n.span]

/-- What is wrong with the elements of a node; `previous` is the span of the element before. -/
def ofElements (index : LineIndex) (parent : Node) (previous : Option Span) :
    List Element → List Violation
  | [] => []
  | e :: es =>
    let disorder := match previous with
      | some p => if e.span.start < p.stop then [ordering parent.id p e.span] else []
      | none => []
    ofElement index parent e ++ disorder ++ ofElements index parent (some e.span) es

/-- What is wrong with a node, its child nodes aside. -/
def ofNode (index : LineIndex) (n : Node) : List Violation :=
  let found := index.slice? n.span
  (if n.span.IsValid then [] else [inverted n.id n.span]) ++
    (if found = some n.render then [] else [nodeText n.id n.kind n.span n.render found]) ++
    ofElements index n none n.elements

end Violation

/-- All wrong spans of a tree in document order. -/
def Tree.violations (tree : Tree) : List Violation :=
  tree.root.descendants.flatMap (Violation.ofNode (.ofText tree.render))

/-- A link between nodes that is wrong. -/
inductive LinkFault where
  /-- A child for which another parent is noted, or none. -/
  | parent (parent child : NodeId) (found : Option NodeId)
  /-- A node is in use but not in the tree. -/
  | unreachable (node : NodeId)
deriving DecidableEq

/-- The children of a node for which another parent is noted. -/
def LinkFault.ofNode (arena : Arena) (n : Node) : List LinkFault :=
  n.children.flatMap fun c =>
    if arena.parent? c.id = some n.id then [] else [parent n.id c.id (arena.parent? c.id)]

/-- All wrong links of a tree. -/
def Tree.linkFaults (tree : Tree) : List LinkFault :=
  let reached := tree.root.descendants.map (·.id)
  tree.root.descendants.flatMap (LinkFault.ofNode tree.arena) ++
    (tree.arena.parents.keys.filter (· ∉ reached)).map .unreachable

/-- Nothing is wrong with a tree: its spans agree with its text and its nodes with the arena. -/
def Tree.Valid (tree : Tree) : Prop := tree.violations = [] ∧ tree.linkFaults = []

end CssTree
