import CssTree.Edit.Toggle

namespace CssTree

/-- A list without the item at `index` and its separator. -/
def Listing.remove (index : Nat) (l : Listing) : Listing :=
  { l with items := ((l.items.remove? index).map (·.2)).getD l.items }

/-- The comma that goes with the last item, which is at `index`. -/
def Listing.commaBefore (index : Nat) (l : Listing) : Option Token :=
  if l.kind = .selectors && 0 < index then l.items.separator? (index - 1) else none

/-- A list without its last item, which is at `index`, and the comma in front of it. -/
def Listing.removeLast (index : Nat) (l : Listing) : Listing :=
  (if (l.commaBefore index).isSome then l.setSeparator (index - 1) none else l).remove index

namespace Tree

/-- A tree without the item at `index` of a list, `next` being the item after it. -/
def removeBefore (list : Node) (index : Nat) (removed next : Node) (tree : Tree) : Tree :=
  let listless := (tree.update list.id (·.mapListing (·.remove index))).free removed
  let closed := (listless.update next.id (·.setLeading [])).closeGap
    ⟨removed.coreStart, next.coreStart⟩ none
  closed.update next.id (·.prependLeading removed.leading)

/-- A tree without the last item of a list. -/
def removeLast (list : Node) (listing : Listing) (index : Nat) (removed : Node) (tree : Tree) :
    Tree :=
  let region := match listing.commaBefore index with
    | some t => t.fullSpan.join removed.span
    | none => removed.span
  ((tree.update list.id (·.mapListing (·.removeLast index))).free removed).closeGap region none

end Tree

namespace Edit

/-- Takes the item at `index` out of a list. -/
def removeItem (list : Node) (index : Nat) : Edit Unit := do
  let some listing := list.listing?
    | throw (.wrongKind "rule, declaration or selector list" list.kind)
  let some removed := listing.items.get? index
    | throw (.indexOutOfBounds index listing.items.size)
  match listing.items.get? (index + 1) with
  | some next => alter (·.removeBefore list index removed next)
  | none => alter (·.removeLast list listing index removed)
  alter (·.respan list.id)
  report (.removed list.id index)

def removeRule (container : NodeId) (index : Nat) : Edit Unit := do
  removeItem (← (← (← tree).get container).ruleList) index

def removeSelector (container : NodeId) (index : Nat) : Edit Unit := do
  removeItem (← (← (← tree).get container).selectorList) index

def removeDeclaration (container : NodeId) (index : Nat) : Edit Unit := do
  removeItem (← (← (← tree).get container).declarationList) index

/-- Removes an item of a list, or the mark of an important declaration. -/
def remove (id : NodeId) : Edit Unit := do
  let tree ← tree
  let n ← tree.get id
  let some parent := tree.parent? id | throw .rootRemoval
  match parent.listing? with
  | some listing => removeItem parent ((listing.nodes.map (·.id)).idxOf id)
  | none =>
    let marks := (parent.declaration?.bind (·.important)).any (·.id = id)
    if marks then setImportant parent.id false else throw (.unsupported n.kind)

end Edit

end CssTree
