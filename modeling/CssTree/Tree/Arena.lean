import Std.Data.ExtTreeMap
import CssTree.Tree.Node

namespace CssTree

/-- The nodes in use. A node that is made while a text is read stays in use until it is freed,
whether or not it ends up in a tree. -/
structure Arena where
  /-- The ids in use, each with the id of the parent that is noted for it. -/
  parents : Std.ExtTreeMap NodeId (Option NodeId)
  /-- Ids from here on have never been used. -/
  next : NodeId

namespace Arena

def empty : Arena := ⟨∅, 0⟩

def contains (a : Arena) (id : NodeId) : Bool := a.parents.contains id

/-- The number of nodes in use. -/
def size (a : Arena) : Nat := a.parents.size

/-- The parent noted for a node. -/
def parent? (a : Arena) (id : NodeId) : Option NodeId := a.parents[id]?.join

/-- A new node under an id that was never used. -/
def insert (parent : Option NodeId) (a : Arena) : NodeId × Arena :=
  (a.next, ⟨a.parents.insert a.next parent, a.next + 1⟩)

def remove (id : NodeId) (a : Arena) : Arena := { a with parents := a.parents.erase id }

/-- Notes a parent for a node, if the node is in use. -/
def setParent (parent id : NodeId) (a : Arena) : Arena :=
  if a.contains id then { a with parents := a.parents.insert id (some parent) } else a

/-- Notes a parent for each of some nodes. -/
def adopt (parent : NodeId) (children : List Node) (a : Arena) : Arena :=
  children.foldl (fun a c => a.setParent parent c.id) a

/-- The parents noted one above the other, from that of a node up; at most `n`. -/
def climb (a : Arena) : (n : Nat) → NodeId → List NodeId
  | 0, _ => []
  | n + 1, id =>
    match a.parent? id with
    | some parent => parent :: a.climb n parent
    | none => []

/-- All parents above a node. No way up is longer than there are nodes. -/
def above (a : Arena) (id : NodeId) : List NodeId := a.climb a.size id

end Arena

mutual

/-- Frees a node and what is below it, as far as it is in use. -/
def Node.free : Node → Arena → Arena
  | ⟨id, _, _, es⟩, a => if a.contains id then Element.freeAll es (a.remove id) else a

def Element.freeAll : List Element → Arena → Arena
  | [], a => a
  | .token _ :: es, a => Element.freeAll es a
  | .node n :: es, a => Element.freeAll es (n.free a)

end

end CssTree
