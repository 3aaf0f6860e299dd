import CssTree.Tree.Kind
import CssTree.Text.Position

namespace CssTree

/-- Why an edit or a query cannot be carried out. -/
inductive EditError where
  /-- The node is not in the tree. -/
  | staleNode
  | wrongKind (expected : String) (found : NodeKind)
  | indexOutOfBounds (index length : Nat)
  | unsupported (kind : NodeKind)
  /-- The text cannot be read as what the edit needs. -/
  | invalidFragment (expected : String) (text : Text)
  | rootRemoval
deriving DecidableEq

/-- The text of an error; a stale node has none. -/
def EditError.message? : EditError → Option String
  | staleNode => none
  | wrongKind expected found => some s!"expected {expected}, found {found}"
  | indexOutOfBounds index length => some s!"index {index} out of bounds for {length} items"
  | unsupported kind => some s!"operation not supported on {kind} nodes"
  | invalidFragment expected text => some s!"`{String.ofList text}` is not a valid {expected}"
  | rootRemoval => some "the root node cannot be removed"

end CssTree
