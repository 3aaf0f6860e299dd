import CssTree.Tree.View

namespace CssTree

/-- A token that stands somewhere, and what holds it once another token is put in its place. -/
structure Place (α : Type) where
  token : Token
  write : Token → α

/-- The namespace in front of a name; the bar may stand alone. -/
structure Namespace where
  label : Option Token
  bar : Token

def Namespace.elements? : Option Namespace → List Element
  | some ns => Element.ofToken? ns.label ++ [.token ns.bar]
  | none => []

/-- Nodes with the tokens between them. -/
def Punctuated.elements (l : Punctuated Node Token) : List Element :=
  l.pairs.flatMap fun (n, separator) => .node n :: Element.ofToken? separator

/-- Tokens with the tokens between them. -/
def Punctuated.tokenElements (l : Punctuated Token Token) : List Element :=
  l.pairs.flatMap fun (t, separator) => .token t :: Element.ofToken? separator

namespace Place

variable {α β : Type}

/-- A place in something larger. -/
def map (f : α → β) (place : Place α) : Place β := ⟨place.token, fun t => f (place.write t)⟩

def ofToken (t : Token) (f : Token → α) : List (Place α) := [⟨t, f⟩]

def ofToken? (o : Option Token) (f : Option Token → α) : List (Place α) :=
  match o with
  | some t => ofToken t fun t => f (some t)
  | none => []

def ofTokens : List Token → (List Token → α) → List (Place α)
  | [], _ => []
  | t :: ts, f => ofToken t (fun t => f (t :: ts)) ++ ofTokens ts fun ts => f (t :: ts)

def ofNamespace? (o : Option Namespace) (f : Option Namespace → α) : List (Place α) :=
  match o with
  | some ns => ofToken? ns.label (fun label => f (some { ns with label })) ++
      ofToken ns.bar fun bar => f (some { ns with bar })
  | none => []

def ofSeparators : List (Node × Option Token) → (List (Node × Option Token) → α) → List (Place α)
  | [], _ => []
  | (n, separator) :: pairs, f =>
    ofToken? separator (fun separator => f ((n, separator) :: pairs)) ++
      ofSeparators pairs fun pairs => f ((n, separator) :: pairs)

def ofTokenPairs :
    List (Token × Option Token) → (List (Token × Option Token) → α) → List (Place α)
  | [], _ => []
  | (t, separator) :: pairs, f =>
    ofToken t (fun t => f ((t, separator) :: pairs)) ++
      ofToken? separator (fun separator => f ((t, separator) :: pairs)) ++
      ofTokenPairs pairs fun pairs => f ((t, separator) :: pairs)

def ofPunctuated (l : Punctuated Node Token) (f : Punctuated Node Token → α) : List (Place α) :=
  ofSeparators l.pairs fun pairs => f ⟨pairs⟩

def ofPunctuatedTokens (l : Punctuated Token Token) (f : Punctuated Token Token → α) :
    List (Place α) :=
  ofTokenPairs l.pairs fun pairs => f ⟨pairs⟩

end Place

/-- The fields of a node by its kind. -/
inductive Payload where
  | styleSheet (rules : List Node) (ending : Token)
  | ruleList (opening : Token) (rules : List Node) (closing : Option Token)
  | rule (selectors declarations : Node)
  | selectorList (selectors : Punctuated Node Token)
  | selector (parts : List Node)
  | typeSelector (ns : Option Namespace) (name : Token)
  | universalSelector (ns : Option Namespace) (star : Token)
  | attributeSelector (opening : Token) (ns : Option Namespace) (name : Token)
      (matcher value modifier : Option Token) (closing : Token)
  | classSelector (dot name : Token)
  | idSelector (hash : Token)
  | pseudoSelector (colon : Token) (second : Option Token) (name : Token)
      (arguments : Option Node) (closing : Option Token)
  | combinator (token : Token)
  | declarationList (opening : Token) (declarations : List Node) (closing : Option Token)
  | declaration (d : Declaration)
  | valueList (values : List Node)
  | preservedToken (token : Token)
  | functionValue (function : Token) (arguments : Node) (closing : Option Token)
  | blockValue (opening : Token) (values : Node) (closing : Option Token)
  | importantValue (mark word : Token)
  | mediaQueryList (queries : Punctuated Node Token)
  | charsetRule (keyword charset : Token) (semicolon : Option Token)
  | customMediaRule (keyword name : Token) (media : Node) (semicolon : Option Token)
  | documentRule (keyword : Token) (matchers : Punctuated Node Token) (rules : Node)
  | fontFaceRule (keyword : Token) (declarations : Node)
  | hostRule (keyword : Token) (rules : Node)
  | importRule (keyword : Token) (url : Node) (media : Option Node) (semicolon : Option Token)
  | keyframesRule (keyword name : Token) (rules : Node)
  | keyframeRule (selectors declarations : Node)
  | keyframeSelectorList (selectors : Punctuated Token Token)
  | mediaRule (keyword : Token) (media rules : Node)
  | namespaceRule (keyword : Token) (label : Option Token) (url : Node) (semicolon : Option Token)
  | pageRule (keyword : Token) (page : Option Node) (declarations : Node)
  | supportsRule (keyword : Token) (condition rules : Node)
  | genericAtRule (keyword : Token) (prelude : Node) (block : Option Node)
      (semicolon : Option Token)
  | error (tokens : List Token)

namespace Payload

open Element (ofToken? ofNode?)

def kind : Payload → NodeKind
  | styleSheet .. => .styleSheet
  | ruleList .. => .ruleList
  | rule .. => .rule
  | selectorList .. => .selectorList
  | selector .. => .selector
  | typeSelector .. => .typeSelector
  | universalSelector .. => .universalSelector
  | attributeSelector .. => .attributeSelector
  | classSelector .. => .classSelector
  | idSelector .. => .idSelector
  | pseudoSelector .. => .pseudoSelector
  | combinator .. => .combinator
  | declarationList .. => .declarationList
  | declaration .. => .declaration
  | valueList .. => .valueList
  | preservedToken .. => .preservedToken
  | functionValue .. => .functionValue
  | blockValue .. => .blockValue
  | importantValue .. => .importantValue
  | mediaQueryList .. => .mediaQueryList
  | charsetRule .. => .charsetRule
  | customMediaRule .. => .customMediaRule
  | documentRule .. => .documentRule
  | fontFaceRule .. => .fontFaceRule
  | hostRule .. => .hostRule
  | importRule .. => .importRule
  | keyframesRule .. => .keyframesRule
  | keyframeRule .. => .keyframeRule
  | keyframeSelectorList .. => .keyframeSelectorList
  | mediaRule .. => .mediaRule
  | namespaceRule .. => .namespaceRule
  | pageRule .. => .pageRule
  | supportsRule .. => .supportsRule
  | genericAtRule .. => .genericAtRule
  | error .. => .error

/-- The tokens and the child nodes in source order. -/
def elements : Payload → List Element
  | styleSheet rules ending => rules.map .node ++ [.token ending]
  | ruleList opening rules closing => .token opening :: rules.map .node ++ ofToken? closing
  | rule selectors declarations => [.node selectors, .node declarations]
  | selectorList selectors => selectors.elements
  | selector parts => parts.map .node
  | typeSelector ns name => Namespace.elements? ns ++ [.token name]
  | universalSelector ns star => Namespace.elements? ns ++ [.token star]
  | attributeSelector opening ns name matcher value modifier closing =>
    .token opening :: Namespace.elements? ns ++ .token name ::
      (ofToken? matcher ++ ofToken? value ++ ofToken? modifier ++ [.token closing])
  | classSelector dot name => [.token dot, .token name]
  | idSelector hash => [.token hash]
  | pseudoSelector colon second name arguments closing =>
    .token colon :: ofToken? second ++ .token name :: (ofNode? arguments ++ ofToken? closing)
  | combinator token => [.token token]
  | declarationList opening declarations closing =>
    .token opening :: declarations.map .node ++ ofToken? closing
  | declaration d => d.elements
  | valueList values => values.map .node
  | preservedToken token => [.token token]
  | functionValue function arguments closing =>
    .token function :: .node arguments :: ofToken? closing
  | blockValue opening values closing => .token opening :: .node values :: ofToken? closing
  | importantValue mark word => [.token mark, .token word]
  | mediaQueryList queries => queries.elements
  | charsetRule keyword charset semicolon => .token keyword :: .token charset :: ofToken? semicolon
  | customMediaRule keyword name media semicolon =>
    .token keyword :: .token name :: .node media :: ofToken? semicolon
  | documentRule keyword matchers rules => .token keyword :: matchers.elements ++ [.node rules]
  | fontFaceRule keyword declarations => [.token keyword, .node declarations]
  | hostRule keyword rules => [.token keyword, .node rules]
  | importRule keyword url media semicolon =>
    .token keyword :: .node url :: (ofNode? media ++ ofToken? semicolon)
  | keyframesRule keyword name rules => [.token keyword, .token name, .node rules]
  | keyframeRule selectors declarations => [.node selectors, .node declarations]
  | keyframeSelectorList selectors => selectors.tokenElements
  | mediaRule keyword media rules => [.token keyword, .node media, .node rules]
  | namespaceRule keyword label url semicolon =>
    .token keyword :: ofToken? label ++ .node url :: ofToken? semicolon
  | pageRule keyword page declarations => .token keyword :: ofNode? page ++ [.node declarations]
  | supportsRule keyword condition rules => [.token keyword, .node condition, .node rules]
  | genericAtRule keyword prelude block semicolon =>
    .token keyword :: .node prelude :: (ofNode? block ++ ofToken? semicolon)
  | error tokens => tokens.map .token

end Payload

namespace Payload

open Place

/-- The places of the tokens in source order. -/
def places : Payload → List (Place Payload)
  | styleSheet rules ending => ofToken ending fun ending => styleSheet rules ending
  | ruleList opening rules closing =>
    ofToken opening (fun opening => ruleList opening rules closing) ++
      ofToken? closing fun closing => ruleList opening rules closing
  | rule _ _ | selector _ | valueList _ | keyframeRule _ _ => []
  | selectorList selectors => ofPunctuated selectors fun selectors => selectorList selectors
  | typeSelector ns name =>
    ofNamespace? ns (fun ns => typeSelector ns name) ++ ofToken name fun name => typeSelector ns name
  | universalSelector ns star =>
    ofNamespace? ns (fun ns => universalSelector ns star) ++
      ofToken star fun star => universalSelector ns star
  | attributeSelector opening ns name matcher value modifier closing =>
    ofToken opening
        (fun opening => attributeSelector opening ns name matcher value modifier closing) ++
      ofNamespace? ns (fun ns => attributeSelector opening ns name matcher value modifier closing) ++
      ofToken name (fun name => attributeSelector opening ns name matcher value modifier closing) ++
      ofToken? matcher
        (fun matcher => attributeSelector opening ns name matcher value modifier closing) ++
      ofToken? value (fun value => attributeSelector opening ns name matcher value modifier closing) ++
      ofToken? modifier
        (fun modifier => attributeSelector opening ns name matcher value modifier closing) ++
      ofToken closing
        fun closing => attributeSelector opening ns name matcher value modifier closing
  | classSelector dot name =>
    ofToken dot (fun dot => classSelector dot name) ++ ofToken name fun name => classSelector dot name
  | idSelector hash => ofToken hash fun hash => idSelector hash
  | pseudoSelector colon second name arguments closing =>
    ofToken colon (fun colon => pseudoSelector colon second name arguments closing) ++
      ofToken? second (fun second => pseudoSelector colon second name arguments closing) ++
      ofToken name (fun name => pseudoSelector colon second name arguments closing) ++
      ofToken? closing fun closing => pseudoSelector colon second name arguments closing
  | combinator token => ofToken token fun token => combinator token
  | declarationList opening declarations closing =>
    ofToken opening (fun opening => declarationList opening declarations closing) ++
      ofToken? closing fun closing => declarationList opening declarations closing
  | declaration d =>
    ofToken? d.opening (fun opening => declaration { d with opening }) ++
      ofToken d.name (fun name => declaration { d with name }) ++
      ofToken d.colon (fun colon => declaration { d with colon }) ++
      ofToken? d.semicolon (fun semicolon => declaration { d with semicolon }) ++
      ofToken? d.closing fun closing => declaration { d with closing }
  | preservedToken token => ofToken token fun token => preservedToken token
  | functionValue function arguments closing =>
    ofToken function (fun function => functionValue function arguments closing) ++
      ofToken? closing fun closing => functionValue function arguments closing
  | blockValue opening values closing =>
    ofToken opening (fun opening => blockValue opening values closing) ++
      ofToken? closing fun closing => blockValue opening values closing
  | importantValue mark word =>
    ofToken mark (fun mark => importantValue mark word) ++
      ofToken word fun word => importantValue mark word
  | mediaQueryList queries => ofPunctuated queries fun queries => mediaQueryList queries
  | charsetRule keyword charset semicolon =>
    ofToken keyword (fun keyword => charsetRule keyword charset semicolon) ++
      ofToken charset (fun charset => charsetRule keyword charset semicolon) ++
      ofToken? semicolon fun semicolon => charsetRule keyword charset semicolon
  | customMediaRule keyword name media semicolon =>
    ofToken keyword (fun keyword => customMediaRule keyword name media semicolon) ++
      ofToken name (fun name => customMediaRule keyword name media semicolon) ++
      ofToken? semicolon fun semicolon => customMediaRule keyword name media semicolon
  | documentRule keyword matchers rules =>
    ofToken keyword (fun keyword => documentRule keyword matchers rules) ++
      ofPunctuated matchers fun matchers => documentRule keyword matchers rules
  | fontFaceRule keyword declarations =>
    ofToken keyword fun keyword => fontFaceRule keyword declarations
  | hostRule keyword rules => ofToken keyword fun keyword => hostRule keyword rules
  | importRule keyword url media semicolon =>
    ofToken keyword (fun keyword => importRule keyword url media semicolon) ++
      ofToken? semicolon fun semicolon => importRule keyword url media semicolon
  | keyframesRule keyword name rules =>
    ofToken keyword (fun keyword => keyframesRule keyword name rules) ++
      ofToken name fun name => keyframesRule keyword name rules
  | keyframeSelectorList selectors =>
    ofPunctuatedTokens selectors fun selectors => keyframeSelectorList selectors
  | mediaRule keyword media rules => ofToken keyword fun keyword => mediaRule keyword media rules
  | namespaceRule keyword label url semicolon =>
    ofToken keyword (fun keyword => namespaceRule keyword label url semicolon) ++
      ofToken? label (fun label => namespaceRule keyword label url semicolon) ++
      ofToken? semicolon fun semicolon => namespaceRule keyword label url semicolon
  | pageRule keyword page declarations =>
    ofToken keyword fun keyword => pageRule keyword page declarations
  | supportsRule keyword condition rules =>
    ofToken keyword fun keyword => supportsRule keyword condition rules
  | genericAtRule keyword prelude block semicolon =>
    ofToken keyword (fun keyword => genericAtRule keyword prelude block semicolon) ++
      ofToken? semicolon fun semicolon => genericAtRule keyword prelude block semicolon
  | error tokens => ofTokens tokens fun tokens => error tokens

/-- A node that holds a payload. -/
def node (id : NodeId) (span : Span) (p : Payload) : Node := ⟨id, p.kind, span, p.elements⟩

end Payload

mutual

/-- Where the tokens of a node stand in document order, each by the node that has it and by how many
tokens of that node's own stand in front of it. -/
def Node.tokenSlots : Node → List (NodeId × Nat)
  | ⟨id, _, _, es⟩ => Element.tokenSlotsIn id 0 es

def Element.tokenSlotsIn (id : NodeId) : Nat → List Element → List (NodeId × Nat)
  | _, [] => []
  | index, .token _ :: es => (id, index) :: Element.tokenSlotsIn id (index + 1) es
  | index, .node n :: es => n.tokenSlots ++ Element.tokenSlotsIn id index es

end

mutual

/-- The node that has the first token of a node. -/
def Node.firstOwner? : Node → Option NodeId
  | ⟨id, _, _, es⟩ => Element.firstOwnerIn? id es

def Element.firstOwnerIn? (id : NodeId) : List Element → Option NodeId
  | [] => none
  | .token _ :: _ => some id
  | .node n :: es => n.firstOwner?.or (Element.firstOwnerIn? id es)

end

mutual

/-- The node that has the last token of a node. -/
def Node.lastOwner? : Node → Option NodeId
  | ⟨id, _, _, es⟩ => Element.lastOwnerIn? id es

def Element.lastOwnerIn? (id : NodeId) : List Element → Option NodeId
  | [] => none
  | .token _ :: es => (Element.lastOwnerIn? id es).or (some id)
  | .node n :: es => (Element.lastOwnerIn? id es).or n.lastOwner?

end

/-- A tree in which the node called `id` holds something else. -/
def Node.hold (id : NodeId) (p : Payload) (root : Node) : Node :=
  root.update id fun n => p.node n.id n.span

/-- What the nodes in use hold. -/
abbrev Payloads := NodeId → Option Payload

namespace Payloads

variable (payloads : Payloads)

/-- One of the places in what a node holds, as a place in any tree with that node. -/
def placeOf? (id : NodeId) (choose : List (Place Payload) → Option (Place Payload)) :
    Option (Place (Node → Node)) :=
  (payloads id).bind fun p => (choose p.places).map (Place.map (Node.hold id))

/-- The place of the token that stands in a slot. -/
def tokenAt? (slot : NodeId × Nat) : Option (Place (Node → Node)) :=
  payloads.placeOf? slot.1 fun places => places[slot.2]?

/-- The place of the first token of a node. -/
def firstToken? (n : Node) : Option (Place (Node → Node)) :=
  n.firstOwner?.bind fun id => payloads.placeOf? id List.head?

/-- The place of the last token of a node. -/
def lastToken? (n : Node) : Option (Place (Node → Node)) :=
  n.lastOwner?.bind fun id => payloads.placeOf? id List.getLast?

end Payloads

end CssTree
