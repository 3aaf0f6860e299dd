import CssTree.Edit.Basic

namespace CssTree

/-- A list with an item before the item at `index`, or at the end. -/
def Listing.insert (index : Nat) (n : Node) (separator : Option Token) (l : Listing) : Listing :=
  { l with items := (l.items.insert? index n separator).getD l.items }

/-- An item of a list lacks the semicolon that it needs there. -/
def ListKind.lacksSemicolon (kind : ListKind) (n : Node) : Bool :=
  kind = .declarations && n.needsSemicolon

namespace Listing

/-- Where content goes in a list without items. -/
def openEnd (l : Listing) (list : Node) : Position :=
  (l.opening.head?.map (·.fullSpan.stop)).getD list.span.start

/-- Where an item is appended. -/
def appendAt (l : Listing) (list : Node) : Position :=
  (l.items.last?.map (·.span.stop)).getD (l.openEnd list)

/-- The last item lacks the comma that separates it from one that is appended. -/
def lacksComma (l : Listing) : Bool :=
  l.kind = .selectors && l.items.last?.isSome && !l.items.endsSeparated

/-- The last item lacks the semicolon that separates it from one that is appended. -/
def lacksSemicolon (l : Listing) : Bool := l.items.last?.any l.kind.lacksSemicolon

/-- The separator that is missing behind the last item. -/
def missing (l : Listing) : Text :=
  if l.lacksComma then [','] else if l.lacksSemicolon then [';'] else []

end Listing

namespace Tree

/-- A tree with an item put into the list called `list`. -/
def insertInto (list : NodeId) (index : Nat) (n : Node) (separator : Option Token) (tree : Tree) :
    Tree :=
  { tree.update list (·.mapListing (·.insert index n separator)) with
    arena := tree.arena.setParent list n.id }

/-- The rules of a node are keyframes. -/
def inKeyframes (tree : Tree) (list : Node) : Bool :=
  (tree.parent? list.id).any (·.kind = .keyframesRule)

end Tree

/-- The gap in front of the item that another one is put in front of. -/
def gapBefore (kind : ListKind) (target : Node) (p : Position) : List Lexeme :=
  match kind with
  | .selectors => blankTrivia [' '] p
  | .rules =>
    if target.leading.isEmpty then blankTrivia ['\n'] p else copyTrivia target.leading p
  | .declarations =>
    if target.leading.isEmpty then blankTrivia [' '] p else copyTrivia target.leading p

/-- The gap in front of an item that is appended after `previous`. -/
def gapAfter (list : Node) (kind : ListKind) (previous : Option Node) (fragment : Node)
    (p : Position) : List Lexeme :=
  let lead := (previous.map (·.leading)).getD []
  let atTop := list.kind = .styleSheet
  if !fragment.leading.isEmpty then []
  else match kind with
    | .selectors => if previous.isSome then blankTrivia [' '] p else []
    | .rules =>
      if !lead.isEmpty then copyTrivia lead p
      else if atTop && previous.isNone then []
      else if atTop then blankTrivia ['\n'] p
      else blankTrivia [' '] p
    | .declarations => if !lead.isEmpty then copyTrivia lead p else blankTrivia [' '] p

namespace Edit

/-- The fragment `n` with a semicolon at a position where it needs one. -/
def closeFragment (needed : Bool) (p : Position) (n : Node) : Edit Node := do
  if needed then
    let _ ← n.expectDeclaration
    return n.mapDeclaration (·.addSemicolon p)
  else return n

/-- Puts `fragment` in front of `target` in a list. It takes over what leads the target, and the
target gets a fresh gap after the separator. -/
def insertBefore (list : Node) (kind : ListKind) (index : Nat) (target fragment : Node) :
    Edit Unit := do
  let start := target.coreStart
  let lacksSemicolon := kind.lacksSemicolon fragment
  let separator : Text := if kind = .selectors then [','] else if lacksSemicolon then [';'] else []
  let separatorAt := start.advance fragment.render
  let gap := gapBefore kind target (separatorAt.advance separator)
  alter (·.makeRoom list.id
    (some (.ofText start (fragment.render ++ separator ++ Lexeme.render gap))))
  let lead := (((← tree).find? target.id).map (·.leading)).getD []
  alter (·.update target.id (·.setLeading gap))
  let fragment ← closeFragment lacksSemicolon separatorAt
    ((fragment.place start).prependLeading lead)
  let comma := if kind = .selectors then some (.place .comma [','] separatorAt) else none
  alter (·.insertInto list.id index fragment comma)

/-- Puts the separator that is missing behind the last item of a list. -/
def separateLast (list : Node) (listing : Listing) : Edit Unit := do
  let p := listing.appendAt list
  if listing.lacksComma then
    alter (·.update list.id
      (·.mapListing (·.setSeparator (listing.items.size - 1) (some (.place .comma [','] p)))))
  else match listing.items.last? with
    | some n => if listing.lacksSemicolon then changeDeclaration n.id (·.addSemicolon p)
    | none => pure ()

/-- Puts `fragment` behind the last item of a list, with the separators that are missing. -/
def insertAfter (list : Node) (listing : Listing) (fragment : Node) : Edit Unit := do
  let start := listing.appendAt list
  let gapAt := start.advance listing.missing
  let gap := gapAfter list listing.kind listing.items.last? fragment gapAt
  let fragmentAt := gapAt.advance (Lexeme.render gap)
  let lacksSemicolon := listing.kind.lacksSemicolon fragment
  let ending : Text := if lacksSemicolon then [';'] else []
  alter (·.makeRoom list.id
    (some (.ofText start (listing.missing ++ Lexeme.render gap ++ fragment.render ++ ending))))
  separateLast list listing
  let fragment ← closeFragment lacksSemicolon (fragmentAt.advance fragment.render)
    ((fragment.place fragmentAt).prependLeading gap)
  alter (·.insertInto list.id listing.items.size fragment none)

/-- Inserts a text as an item of a list before the item at `index`. -/
def insertItem (list : Node) (index : Nat) (t : Text) (p : Production) (expected : String) :
    Edit Unit := do
  let some listing := list.listing?
    | throw (.wrongKind "rule, declaration or selector list" list.kind)
  if listing.items.size < index then throw (.indexOutOfBounds index listing.items.size)
  let fragment ← validFragment p t expected
  match listing.items.get? index with
  | some target => insertBefore list listing.kind index target fragment
  | none => insertAfter list listing fragment
  alter (·.respan list.id)
  report (.inserted list.id fragment.id)

/-- Inserts a rule before the rule at `index`; among keyframes it is a keyframe. -/
def insertRule (container : NodeId) (index : Nat) (t : Text) : Edit Unit := do
  let tree ← tree
  let list ← (← tree.get container).ruleList
  insertItem list index t (if tree.inKeyframes list then .keyframeRule else .rule) "rule"

def appendRule (container : NodeId) (t : Text) : Edit Unit := do
  insertRule container (← (← tree).rules container).length t

/-- Inserts a selector before the selector at `index`, with the comma between them. -/
def insertSelector (container : NodeId) (index : Nat) (t : Text) : Edit Unit := do
  insertItem (← (← (← tree).get container).selectorList) index t .selector "selector"

def appendSelector (container : NodeId) (t : Text) : Edit Unit := do
  insertSelector container (← (← tree).selectors container).length t

/-- Inserts a declaration before the declaration at `index`, with the semicolons that are
missing. -/
def insertDeclaration (container : NodeId) (index : Nat) (t : Text) : Edit Unit := do
  insertItem (← (← (← tree).get container).declarationList) index t .declaration "declaration"

def appendDeclaration (container : NodeId) (t : Text) : Edit Unit := do
  insertDeclaration container (← (← tree).declarations container).length t

end Edit

end CssTree
