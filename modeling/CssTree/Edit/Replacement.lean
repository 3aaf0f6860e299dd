import CssTree.Edit.Insertion

namespace CssTree

namespace Tree

/-- A tree in which the node called `id` has the kind and the elements of another node, whose own
id is given up. What was below the node before is freed. -/
def putContent (id : NodeId) (n : Node) (tree : Tree) : Tree :=
  let children := ((tree.find? id).map (·.children)).getD []
  let arena := (tree.arena.remove n.id).adopt id n.children
  { tree.update id ({ · with kind := n.kind, elements := n.elements }) with
    arena := children.foldl (fun a c => c.free a) arena }

/-- What the text of an error node is read as, by the list it stands in. -/
def errorProduction? (tree : Tree) (n : Node) : Option Production := do
  let parent ← tree.parent? n.id
  match parent.kind with
  | .declarationList => some .declaration
  | .selectorList => some .selector
  | .ruleList => some (if tree.inKeyframes parent then .keyframeRule else .rule)
  | .styleSheet => some .rule
  | _ => none

/-- What the text of a node is read as. -/
def production? (tree : Tree) (n : Node) : Option Production :=
  match n.kind with
  | .styleSheet => some .styleSheet
  | .rule => some .rule
  | .keyframeRule => some .keyframeRule
  | .ruleList => some .ruleBlock
  | .selectorList => some .selectorList
  | .selector => some .selector
  | .declarationList => some .declarationBlock
  | .declaration => some .declaration
  | .valueList => some .values
  | .mediaQueryList => some .mediaQueryList
  | .keyframeSelectorList => some .keyframeSelectors
  | .error => tree.errorProduction? n
  | kind => if kind.isAtRule then some .rule else none

end Tree

/-- How the prelude of an at-rule is read, and what it is called. -/
def preludeProduction : NodeKind → Production × String
  | .mediaRule | .customMediaRule => (.mediaQueryList, "media query list")
  | .supportsRule => (.values, "supports condition")
  | .pageRule => (.values, "page selector")
  | _ => (.values, "at-rule prelude")

namespace Edit

/-- Replaces the content of the node `id` by that of a fragment. -/
def replaceWith (id : NodeId) (fragment : Node) : Edit Unit := do
  let old ← (← tree).get id
  let placed := fragment.place old.span.start
  if (← tree).contains placed.id then
    alter (·.putContent id placed)
    alter (·.resize id placed.span)
    match (← tree).parent? id with
    | some parent => alter (·.respan parent.id)
    | none => pure ()
    report (.replaced id)

/-- Reads a node anew from `t` between the trivia at its two ends. -/
def replaceCore (n : Node) (t : Text) (p : Production) (expected : String) : Edit Unit := do
  let lead := (n.tokens.head?.map Token.leadingText).getD []
  let trail := (n.tokens.getLast?.map Token.trailingText).getD []
  replaceWith n.id (← validFragment p (lead ++ t ++ trail) expected)

/-- Replaces the whole text of a node. Text that the node cannot be read from is kept in an error
node in its place. -/
def replaceText (id : NodeId) (t : Text) : Edit Unit := do
  let tree ← tree
  let n ← tree.get id
  let some p := tree.production? n | throw (.unsupported n.kind)
  replaceWith id (← fragment p t)

/-- Replaces the selectors of a rule. -/
def setSelectors (id : NodeId) (t : Text) : Edit Unit := do
  replaceCore (← (← (← tree).get id).selectorList) t .selectorList "selector list"

/-- Replaces what stands between the braces of a block of declarations. -/
def setDeclarations (id : NodeId) (t : Text) : Edit Unit := do
  let list ← (← (← tree).get id).declarationList
  let some listing := list.listing? | throw .staleNode
  let opening := (listing.opening.head?.map fun brace =>
    brace.leadingText ++ '{' :: brace.trailingText).getD []
  let closing := (listing.closing.head?.map fun brace =>
    brace.leadingText ++ '}' :: brace.trailingText).getD []
  let fragment ← validFragment .declarationBlock (opening ++ t ++ closing) "declaration block"
  replaceWith list.id fragment

/-- Replaces the selectors of a keyframe rule. -/
def setKeyframeSelectors (id : NodeId) (t : Text) : Edit Unit := do
  let n ← (← tree).get id
  let some target := n.keyframeSelectors? | throw (.wrongKind "keyframe rule" n.kind)
  replaceCore target t .keyframeSelectors "keyframe selectors"

/-- Replaces what stands between the name of an at-rule and its block or end. -/
def setPrelude (id : NodeId) (t : Text) : Edit Unit := do
  let n ← (← tree).get id
  let some target := n.prelude? | throw (.unsupported n.kind)
  let (p, expected) := preludeProduction n.kind
  if lexesToAny [.openBrace, .closeBrace, .semicolon] t then throw (.invalidFragment expected t)
  let separated := target.tokens.isEmpty && !t.head?.any isBlank
  replaceCore target (if separated then ' ' :: t else t) p expected

/-- Renames the property of a declaration. -/
def setProperty (id : NodeId) (name : Text) : Edit Unit := do
  let d ← (← tree).declaration id
  let renamed := { d with name := { d.name with text := name } }
  let fragment ← validFragment .declaration
    (Token.renderAll (Element.tokensOf renamed.elements)) "declaration"
  if fragment.declaration?.any (·.name.text = name) then replaceWith id fragment
  else reject fragment (.invalidFragment "property name" name)

/-- Replaces the value of a declaration, with the trivia around it kept. -/
def setValue (id : NodeId) (t : Text) : Edit Unit := do
  let d ← (← tree).declaration id
  if lexesToAny [.semicolon] t then throw (.invalidFragment "declaration value" t)
  replaceCore d.value t .values "declaration value"

end Edit

end CssTree
