import CssTree.Punctuated
import CssTree.Tree.Node

namespace CssTree

/-- The first token of a list of elements if it is of a kind, and the elements after it. -/
def Element.splitToken (kind : TokenKind) : List Element → Option Token × List Element
  | .token t :: es => if t.kind = kind then (some t, es) else (none, .token t :: es)
  | es => (none, es)

/-- The first element if it is a node, and the elements after it. -/
def Element.splitNode : List Element → Option Node × List Element
  | .node n :: es => (some n, es)
  | es => (none, es)

/-- A declaration by the roles of its elements. The comment around a disabled declaration has its
delimiters here. -/
structure Declaration where
  opening : Option Token
  name : Token
  colon : Token
  value : Node
  important : Option Node
  semicolon : Option Token
  closing : Option Token

namespace Declaration

def elements (d : Declaration) : List Element :=
  Element.ofToken? d.opening ++ .token d.name :: .token d.colon :: .node d.value ::
    (Element.ofNode? d.important ++ Element.ofToken? d.semicolon ++ Element.ofToken? d.closing)

def ofElements? (es : List Element) : Option Declaration :=
  let (opening, es) := Element.splitToken .openComment es
  match es with
  | .token name :: .token colon :: .node value :: es =>
    let (important, es) := Element.splitNode es
    let (semicolon, es) := Element.splitToken .semicolon es
    let (closing, _) := Element.splitToken .closeComment es
    some ⟨opening, name, colon, value, important, semicolon, closing⟩
  | _ => none

def isDisabled (d : Declaration) : Bool := d.opening.isSome

def isImportant (d : Declaration) : Bool := d.important.isSome

/-- The name of the property with its escapes replaced. -/
def property (d : Declaration) : Text := d.name.name?.getD d.name.text

/-- The declaration would run into one that follows it. -/
def needsSemicolon (d : Declaration) : Bool := d.semicolon.isNone && !d.isDisabled

end Declaration

/-- What a list of nodes holds. -/
inductive ListKind where
  | rules
  | declarations
  | selectors
deriving DecidableEq

/-- A list of nodes with what stands before and after its items. -/
structure Listing where
  kind : ListKind
  opening : List Token
  items : Punctuated Node Token
  closing : List Token

namespace Listing

/-- The nodes of a list of elements, each with the separator after it if there are any, and the
tokens that belong to no node. -/
def split (separated : Bool) : List Element → List (Node × Option Token) × List Token
  | [] => ([], [])
  | .token t :: es => (split separated es).map id (t :: ·)
  | [.node n] => ([(n, none)], [])
  | .node n :: .token t :: es =>
    if separated then (split separated es).map ((n, some t) :: ·) id
    else (split separated es).map ((n, none) :: ·) (t :: ·)
  | .node n :: .node m :: es => (split separated (.node m :: es)).map ((n, none) :: ·) id

/-- A list whose first `opening` elements precede its items. -/
def ofElements (kind : ListKind) (opening : Nat) (es : List Element) : Listing :=
  let (items, closing) := split (kind = .selectors) (es.drop opening)
  ⟨kind, (es.take opening).filterMap Element.token?, ⟨items⟩, closing⟩

def elements (l : Listing) : List Element :=
  l.opening.map .token ++
    l.items.pairs.flatMap (fun (n, separator) => .node n :: Element.ofToken? separator) ++
    l.closing.map .token

def nodes (l : Listing) : List Node := l.items.values

end Listing

namespace Node

/-- The declaration that a node is. -/
def declaration? (n : Node) : Option Declaration :=
  if n.kind = .declaration then Declaration.ofElements? n.elements else none

/-- A node with its declaration changed. -/
def mapDeclaration (f : Declaration → Declaration) (n : Node) : Node :=
  match n.declaration? with
  | some d => { n with elements := (f d).elements }
  | none => n

/-- The list that a node is. -/
def listing? (n : Node) : Option Listing :=
  match n.kind with
  | .styleSheet => some (.ofElements .rules 0 n.elements)
  | .ruleList => some (.ofElements .rules 1 n.elements)
  | .declarationList => some (.ofElements .declarations 1 n.elements)
  | .selectorList => some (.ofElements .selectors 0 n.elements)
  | _ => none

/-- A node with its list changed. -/
def mapListing (f : Listing → Listing) (n : Node) : Node :=
  match n.listing? with
  | some l => { n with elements := (f l).elements }
  | none => n

/-- The block of rules that an at-rule ends with. -/
def ruleBlock? (n : Node) : Option Node :=
  match n.kind with
  | .documentRule | .hostRule | .keyframesRule | .mediaRule | .supportsRule => n.children.getLast?
  | _ => none

/-- The block of declarations that a rule ends with. -/
def declarationBlock? (n : Node) : Option Node :=
  match n.kind with
  | .rule | .keyframeRule | .fontFaceRule | .pageRule => n.children.getLast?
  | _ => none

/-- The selectors of a rule. -/
def selectors? (n : Node) : Option Node := if n.kind = .rule then n.children.head? else none

/-- The selectors of a keyframe rule. -/
def keyframeSelectors? (n : Node) : Option Node :=
  if n.kind = .keyframeRule then n.children.head? else none

/-- What stands between the name of an at-rule and its block or end. A page rule may have
nothing there. -/
def prelude? (n : Node) : Option Node :=
  match n.kind with
  | .mediaRule | .customMediaRule | .supportsRule | .genericAtRule => n.children.head?
  | .pageRule => if 1 < n.children.length then n.children.head? else none
  | _ => none

/-- The at-keyword that a node starts with. -/
def atKeyword? (n : Node) : Option Token :=
  if n.kind.isAtRule then n.elements.head?.bind Element.token? else none

/-- The name of an at-rule in small letters. -/
def atRuleName? (n : Node) : Option Text := (n.atKeyword?.bind Token.name?).map lowerCase

end Node

end CssTree
