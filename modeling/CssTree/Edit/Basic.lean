import CssTree.Edit.Repair
import CssTree.Tree.Query

namespace CssTree

/-- A change of a tree, as reported to an observer. -/
inductive Change where
  | inserted (parent node : NodeId)
  | removed (parent : NodeId) (index : Nat)
  /-- A node was read anew from other text. -/
  | replaced (node : NodeId)
  /-- Tokens of a node were added or taken away in place. -/
  | modified (node : NodeId)
  /-- Trivia moved between tokens across the whole tree. -/
  | trivia
deriving DecidableEq

/-- A tree under an edit, with the changes reported so far. -/
structure Draft where
  tree : Tree
  reported : List Change

/-- A step of an edit. A step that fails leaves the draft as it is at that moment. -/
abbrev Edit := ExceptT EditError (StateM Draft)

/-- Whitespace at a position; none for no text. -/
def blankTrivia (t : Text) (p : Position) : List Lexeme :=
  if t.isEmpty then [] else [.place .whitespace t p]

/-- Copies of trivia one after another from a position on. -/
def copyTrivia (template : List Lexeme) (p : Position) : List Lexeme :=
  Lexeme.placeAll p (template.map fun l => (l.kind, l.text))

/-- A token of one of some kinds occurs in a text by itself. -/
def lexesToAny (kinds : List TokenKind) (t : Text) : Bool :=
  (Stream.ofText {} t).toList.any (·.kind ∈ kinds)

def Node.needsSemicolon (n : Node) : Bool := n.declaration?.any (·.needsSemicolon)

/-- A declaration with a semicolon at a position. -/
def Declaration.addSemicolon (p : Position) (d : Declaration) : Declaration :=
  { d with semicolon := some (.place .semicolon [';'] p) }

/-- A list with another separator after the item at `index`. -/
def Listing.setSeparator (index : Nat) (separator : Option Token) (l : Listing) : Listing :=
  { l with items := (l.items.setSeparator index separator).2 }

namespace Tree

/-- A tree with the spans of one subtree computed from its tokens. -/
def respan (id : NodeId) (tree : Tree) : Tree := tree.update id Node.respan

/-- A tree whose arena no longer holds a subtree. -/
def free (n : Node) (tree : Tree) : Tree := { tree with arena := n.free tree.arena }

end Tree

namespace Edit

def tree : Edit Tree := do return (← get).tree

/-- Changes the tree. -/
def alter (f : Tree → Tree) : Edit Unit := modify fun d => { d with tree := f d.tree }

/-- Tells of a change. -/
def report (c : Change) : Edit Unit := modify fun d => { d with reported := d.reported ++ [c] }

/-- Changes the declaration called `id`, which has to be one. -/
def changeDeclaration (id : NodeId) (f : Declaration → Declaration) : Edit Unit := do
  let _ ← (← tree).declaration id
  alter (·.update id (·.mapDeclaration f))

/-- Reads a text as a fragment at the start of a text. Its nodes are in use, but in no tree. -/
def fragment (p : Production) (t : Text) : Edit Node := do
  let tree ← tree
  let config := if p = .declaration then { tree.config with comments := true } else tree.config
  let (n, arena) := p.parse config tree.arena t
  alter ({ · with arena })
  return n

/-- Gives a fragment up. -/
def reject {α : Type} (n : Node) (e : EditError) : Edit α := do
  alter (·.free n)
  throw e

/-- Reads a text as a fragment, which it has to be. -/
def validFragment (p : Production) (t : Text) (expected : String) : Edit Node := do
  let n ← fragment p t
  if n.isError then reject n (.invalidFragment expected t) else return n

end Edit

end CssTree
