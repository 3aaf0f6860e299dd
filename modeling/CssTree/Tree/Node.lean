import CssTree.Token.Trivia
import CssTree.Tree.Kind

namespace CssTree

/-- A name for a node that stays with it while the tree around it changes. -/
abbrev NodeId := Nat

mutual

/-- A node of a syntax tree. -/
structure Node where
  id : NodeId
  kind : NodeKind
  span : Span
  elements : List Element

/-- A token of a node or one of its child nodes. -/
inductive Element where
  | token (t : Token)
  | node (n : Node)

end

namespace Element

def token? : Element → Option Token
  | token t => some t
  | node _ => none

def node? : Element → Option Node
  | token _ => none
  | node n => some n

/-- The span of an element, trivia included. -/
def span : Element → Span
  | token t => t.fullSpan
  | node n => n.span

/-- The name of the kind of an element. -/
def kindName : Element → String
  | token t => t.kind.name
  | node n => n.kind.name

def ofToken? (t : Option Token) : List Element := t.toList.map token

def ofNode? (n : Option Node) : List Element := n.toList.map node

/-- The smallest span that covers all elements; none if there are none. -/
def spanOf? : List Element → Option Span
  | [] => none
  | e :: es => some (es.foldl (fun r e => r.join e.span) e.span)

end Element

namespace Node

/-- The child nodes. -/
def children (n : Node) : List Node := n.elements.filterMap Element.node?

end Node

mutual

/-- The tokens of a node in source order, in front of `ts`. -/
def Node.tokensBefore : Node → List Token → List Token
  | ⟨_, _, _, es⟩, ts => Element.allTokensBefore es ts

def Element.allTokensBefore : List Element → List Token → List Token
  | [], ts => ts
  | .token t :: es, ts => t :: Element.allTokensBefore es ts
  | .node n :: es, ts => n.tokensBefore (Element.allTokensBefore es ts)

end

/-- All tokens of a node in source order. -/
def Node.tokens (n : Node) : List Token := n.tokensBefore []

/-- All tokens of some elements in source order. -/
def Element.tokensOf (es : List Element) : List Token := Element.allTokensBefore es []

mutual

/-- A node and all nodes below it, each before its children, in front of `ns`. -/
def Node.descendantsBefore : Node → List Node → List Node
  | ⟨id, kind, span, es⟩, ns => ⟨id, kind, span, es⟩ :: Element.allDescendantsBefore es ns

def Element.allDescendantsBefore : List Element → List Node → List Node
  | [], ns => ns
  | .token _ :: es, ns => Element.allDescendantsBefore es ns
  | .node n :: es, ns => n.descendantsBefore (Element.allDescendantsBefore es ns)

end

/-- A node and all nodes below it, each before its children. -/
def Node.descendants (n : Node) : List Node := n.descendantsBefore []

/-- All nodes of some elements and below them, each before its children. -/
def Element.descendantsOf (es : List Element) : List Node := Element.allDescendantsBefore es []

mutual

theorem Node.tokensBefore_eq : ∀ (n : Node) (ts : List Token),
    n.tokensBefore ts = n.tokens ++ ts
  | ⟨_, _, _, es⟩, ts => Element.allTokensBefore_eq es ts

theorem Element.allTokensBefore_eq : ∀ (es : List Element) (ts : List Token),
    Element.allTokensBefore es ts = Element.tokensOf es ++ ts
  | [], _ => rfl
  | .token t :: es, ts => congrArg (List.cons t) (Element.allTokensBefore_eq es ts)
  | .node n :: es, ts => by
    simp [Element.tokensOf, Element.allTokensBefore, n.tokensBefore_eq,
      Element.allTokensBefore_eq es ts]

end

mutual

theorem Node.descendantsBefore_eq : ∀ (n : Node) (ns : List Node),
    n.descendantsBefore ns = n.descendants ++ ns
  | ⟨_, _, _, es⟩, ns => congrArg (List.cons _) (Element.allDescendantsBefore_eq es ns)

theorem Element.allDescendantsBefore_eq : ∀ (es : List Element) (ns : List Node),
    Element.allDescendantsBefore es ns = Element.descendantsOf es ++ ns
  | [], _ => rfl
  | .token _ :: es, ns => Element.allDescendantsBefore_eq es ns
  | .node n :: es, ns => by
    simp [Element.descendantsOf, Element.allDescendantsBefore, n.descendantsBefore_eq,
      Element.allDescendantsBefore_eq es ns]

end

namespace Node

@[simp]
theorem tokens_mk (id : NodeId) (kind : NodeKind) (span : Span) (es : List Element) :
    (Node.mk id kind span es).tokens = Element.tokensOf es := rfl

@[simp]
theorem descendants_mk (id : NodeId) (kind : NodeKind) (span : Span) (es : List Element) :
    (Node.mk id kind span es).descendants = ⟨id, kind, span, es⟩ :: Element.descendantsOf es :=
  rfl

@[simp]
theorem tokens_eq (n : Node) : Element.tokensOf n.elements = n.tokens := by
  cases n
  rfl

end Node

namespace Element

@[simp]
theorem tokensOf_nil : tokensOf [] = [] := rfl

@[simp]
theorem tokensOf_token (t : Token) (es : List Element) :
    tokensOf (.token t :: es) = t :: tokensOf es := rfl

@[simp]
theorem tokensOf_node (n : Node) (es : List Element) :
    tokensOf (.node n :: es) = n.tokens ++ tokensOf es := n.tokensBefore_eq _

@[simp]
theorem tokensOf_map_token (ts : List Token) : tokensOf (ts.map .token) = ts := by
  induction ts with
  | nil => rfl
  | cons t ts ih => simp [ih]

@[simp]
theorem descendantsOf_nil : descendantsOf [] = [] := rfl

@[simp]
theorem descendantsOf_token (t : Token) (es : List Element) :
    descendantsOf (.token t :: es) = descendantsOf es := rfl

@[simp]
theorem descendantsOf_node (n : Node) (es : List Element) :
    descendantsOf (.node n :: es) = n.descendants ++ descendantsOf es :=
  n.descendantsBefore_eq _

end Element

mutual

/-- A node with its tokens replaced in order, and the tokens that are left over. A token for
which there is no replacement stays. -/
def Node.refill : Node → List Token → Node × List Token
  | ⟨id, kind, span, es⟩, ts =>
    let (es, rest) := Element.refillAll es ts
    (⟨id, kind, span, es⟩, rest)

def Element.refillAll : List Element → List Token → List Element × List Token
  | [], ts => ([], ts)
  | .token t :: es, [] => (.token t :: (Element.refillAll es []).1, [])
  | .token _ :: es, t :: ts => (Element.refillAll es ts).map (.token t :: ·) id
  | .node n :: es, ts =>
    let (n, ts) := n.refill ts
    (Element.refillAll es ts).map (.node n :: ·) id

end

mutual

/-- A node with the node called `id` replaced by its image under `f`. -/
def Node.update (id : NodeId) (f : Node → Node) : Node → Node
  | ⟨i, kind, span, es⟩ =>
    if i = id then f ⟨i, kind, span, es⟩ else ⟨i, kind, span, Element.updateAll id f es⟩

def Element.updateAll (id : NodeId) (f : Node → Node) : List Element → List Element
  | [] => []
  | .token t :: es => .token t :: Element.updateAll id f es
  | .node n :: es => .node (n.update id f) :: Element.updateAll id f es

end

mutual

/-- The nodes around the node called `id`, the nearest first; none if it is not there. -/
def Node.around? (id : NodeId) : Node → Option (List Node)
  | ⟨i, kind, span, es⟩ =>
    if i = id then some []
    else (Element.aroundIn? id es).map (· ++ [⟨i, kind, span, es⟩])

def Element.aroundIn? (id : NodeId) : List Element → Option (List Node)
  | [] => none
  | .token _ :: es => Element.aroundIn? id es
  | .node n :: es => (n.around? id).or (Element.aroundIn? id es)

end

namespace Node

/-- The text of a node. -/
def render (n : Node) : Text := Token.renderAll n.tokens

/-- The text of a node without the trivia at its two ends. -/
def trimmedText (n : Node) : Text := Token.renderAll (Token.stripEnds n.tokens)

/-- The number of nodes, this one included. -/
def size (n : Node) : Nat := n.descendants.length

/-- The node called `id`. -/
def find? (id : NodeId) (n : Node) : Option Node := n.descendants.find? (·.id = id)

def isError (n : Node) : Bool := n.kind = .error

def containsError (n : Node) : Bool := n.descendants.any isError

/-- A node with its tokens changed together; `f` keeps their number. -/
def mapTokens (f : List Token → List Token) (n : Node) : Node := (n.refill (f n.tokens)).1

/-- The leading trivia of the first token. -/
def leading (n : Node) : List Lexeme := (n.tokens.head?.map (·.leading)).getD []

/-- A node with `trivia` in front of its first token in the place of what leads it. -/
def setLeading (trivia : List Lexeme) (n : Node) : Node :=
  n.mapTokens (·.modifyHead fun t => { t with leading := trivia })

/-- A node with `trivia` put in front of what leads it. -/
def prependLeading (trivia : List Lexeme) (n : Node) : Node := n.setLeading (trivia ++ n.leading)

/-- A node with `trivia` put after what trails it. -/
def appendTrailing (trivia : List Lexeme) (n : Node) : Node :=
  n.mapTokens (mapLast fun t => { t with trailing := t.trailing ++ trivia })

/-- The start of the first token, after its leading trivia. -/
def coreStart (n : Node) : Position := (n.tokens.head?.map (·.span.start)).getD n.span.start

end Node

end CssTree
