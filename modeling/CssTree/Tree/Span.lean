import CssTree.Tree.Node

namespace CssTree

mutual

/-- A node with every span in it moved: that of a node by `onNode`, which knows the node, and
that of a token or a piece of trivia by `onToken`. Subtrees of `frozen` nodes stay. -/
def Node.moveSpans (frozen : NodeId → Bool) (onNode : NodeId → Span → Span)
    (onToken : Span → Span) : Node → Node
  | ⟨id, kind, span, es⟩ =>
    if frozen id then ⟨id, kind, span, es⟩
    else ⟨id, kind, onNode id span, Element.moveSpansOf frozen onNode onToken es⟩

def Element.moveSpansOf (frozen : NodeId → Bool) (onNode : NodeId → Span → Span)
    (onToken : Span → Span) : List Element → List Element
  | [] => []
  | .token t :: es => .token (t.mapSpans onToken) :: Element.moveSpansOf frozen onNode onToken es
  | .node n :: es =>
    .node (n.moveSpans frozen onNode onToken) :: Element.moveSpansOf frozen onNode onToken es

end

mutual

/-- A node with its spans computed from its tokens. A node without tokens becomes a point where
the element before it stops, `hint` if there is none. -/
def Node.respanFrom (hint : Position) : Node → Node
  | ⟨id, kind, _, es⟩ =>
    let es := Element.respanAll hint es
    ⟨id, kind, (Element.spanOf? es).getD (.point hint), es⟩

def Element.respanAll (cursor : Position) : List Element → List Element
  | [] => []
  | .token t :: es => .token t :: Element.respanAll t.fullSpan.stop es
  | .node n :: es =>
    let n := n.respanFrom cursor
    .node n :: Element.respanAll n.span.stop es

end

namespace Node

/-- Every span of a subtree moved in the same way. -/
def mapSpans (f : Span → Span) (n : Node) : Node := n.moveSpans (fun _ => false) (fun _ => f) f

/-- A subtree shifted by `lines`, and by `columns` on the line on which it starts. -/
def shift (lines columns : Int) (n : Node) : Node :=
  n.mapSpans (·.shift n.span.start.line lines columns)

/-- A subtree written at the start of a text moved to a position. -/
def place (p : Position) (n : Node) : Node := n.shift p.line p.column

/-- A subtree with its spans computed from its tokens. -/
def respan (n : Node) : Node :=
  n.respanFrom ((n.tokens.head?.map (·.fullSpan.start)).getD n.span.start)

end Node

end CssTree
