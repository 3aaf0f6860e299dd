import CssTree.Grammar.Production

namespace CssTree

/-- A style sheet or a fragment as a tree. -/
structure Tree where
  root : Node
  /-- The settings the text was read with; edits read their texts with them too. -/
  config : Config
  arena : Arena

namespace Tree

/-- Reads a text. Comments around a single declaration are always structural. -/
def parse (p : Production) (config : Config) (t : Text) : Tree :=
  let config := if p = .declaration then { config with comments := true } else config
  let (root, arena) := p.parse config .empty t
  ⟨root, config, arena⟩

/-- The text of the tree. -/
def render (tree : Tree) : Text := tree.root.render

/-- The number of nodes in use. -/
def size (tree : Tree) : Nat := tree.arena.size

/-- The node called `id`. -/
def find? (tree : Tree) (id : NodeId) : Option Node := tree.root.find? id

def contains (tree : Tree) (id : NodeId) : Bool := tree.arena.contains id

/-- The nodes above the node called `id`, the nearest first. -/
def ancestors (tree : Tree) (id : NodeId) : List Node :=
  (tree.arena.above id).filterMap tree.find?

/-- The node noted as the parent of the node called `id`. -/
def parent? (tree : Tree) (id : NodeId) : Option Node :=
  (tree.arena.parent? id).bind tree.find?

end Tree

end CssTree
