import CssTree.Tree.Basic

namespace CssTree

namespace Tree

def mapRoot (f : Node → Node) (tree : Tree) : Tree := { tree with root := f tree.root }

/-- A tree with one node changed. -/
def update (id : NodeId) (f : Node → Node) (tree : Tree) : Tree := tree.mapRoot (·.update id f)

/-- A tree with one subtree shifted. -/
def shift (id : NodeId) (lines columns : Int) (tree : Tree) : Tree :=
  tree.update id (·.shift lines columns)

/-- Every span moved past text inserted over `inserted`; the node `id` and the nodes around it
grow to cover the text. Without `inserted` the text is that of the node itself, which is in
place already and is left alone. -/
def makeRoom (id : NodeId) (inserted : Option Span) (tree : Tree) : Tree :=
  match inserted.or ((tree.find? id).map (·.span)) with
  | none => tree
  | some s =>
    let growing := tree.arena.above id ++ if inserted.isSome then [id] else []
    tree.mapRoot (·.moveSpans (fun i => inserted.isNone && i = id)
      (fun i r => if i ∈ growing then (s.insert r).join s else s.insert r) s.insert)

/-- Every span pulled back over the text of `deleted`, but for those of the subtree `kept`. -/
def closeGap (deleted : Span) (kept : Option NodeId) (tree : Tree) : Tree :=
  if deleted.IsEmpty then tree
  else tree.mapRoot (·.moveSpans (some · = kept) (fun _ => deleted.delete) deleted.delete)

/-- A node moved from its span to another that starts at the same place; the rest of the tree
moves along. -/
def resize (id : NodeId) (span : Span) (tree : Tree) : Tree :=
  match tree.find? id with
  | none => tree
  | some n =>
    ((tree.closeGap n.span (some id)).update id ({ · with span := span })).makeRoom id none

end Tree

end CssTree
