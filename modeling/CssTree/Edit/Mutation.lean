import CssTree.Edit.Removal
import CssTree.Edit.Replacement
import CssTree.Edit.Trivia

namespace CssTree

/-- An edit of a tree. -/
inductive Mutation where
  | insertRule (container : NodeId) (index : Nat) (text : Text)
  | insertSelector (container : NodeId) (index : Nat) (text : Text)
  | insertDeclaration (container : NodeId) (index : Nat) (text : Text)
  | appendRule (container : NodeId) (text : Text)
  | appendSelector (container : NodeId) (text : Text)
  | appendDeclaration (container : NodeId) (text : Text)
  | removeRule (container : NodeId) (index : Nat)
  | removeSelector (container : NodeId) (index : Nat)
  | removeDeclaration (container : NodeId) (index : Nat)
  | remove (node : NodeId)
  | setSelectors (node : NodeId) (text : Text)
  | setDeclarations (node : NodeId) (text : Text)
  | setProperty (node : NodeId) (name : Text)
  | setValue (node : NodeId) (text : Text)
  | setPrelude (node : NodeId) (text : Text)
  | setKeyframeSelectors (node : NodeId) (text : Text)
  | replaceText (node : NodeId) (text : Text)
  | setImportant (node : NodeId) (value : Bool)
  | setDisabled (node : NodeId) (value : Bool)
  | trailingToLeading
  | leadingToTrailing
deriving DecidableEq

/-- The steps of an edit. -/
def Mutation.steps : Mutation → Edit Unit
  | .insertRule container index text => Edit.insertRule container index text
  | .insertSelector container index text => Edit.insertSelector container index text
  | .insertDeclaration container index text => Edit.insertDeclaration container index text
  | .appendRule container text => Edit.appendRule container text
  | .appendSelector container text => Edit.appendSelector container text
  | .appendDeclaration container text => Edit.appendDeclaration container text
  | .removeRule container index => Edit.removeRule container index
  | .removeSelector container index => Edit.removeSelector container index
  | .removeDeclaration container index => Edit.removeDeclaration container index
  | .remove node => Edit.remove node
  | .setSelectors node text => Edit.setSelectors node text
  | .setDeclarations node text => Edit.setDeclarations node text
  | .setProperty node name => Edit.setProperty node name
  | .setValue node text => Edit.setValue node text
  | .setPrelude node text => Edit.setPrelude node text
  | .setKeyframeSelectors node text => Edit.setKeyframeSelectors node text
  | .replaceText node text => Edit.replaceText node text
  | .setImportant node value => Edit.setImportant node value
  | .setDisabled node value => Edit.setDisabled node value
  | .trailingToLeading => Edit.trailingToLeading
  | .leadingToTrailing => Edit.leadingToTrailing

/-- A call that may change a tree or its observer. -/
inductive Call where
  | edit (m : Mutation)
  | shift (node : NodeId) (lines columns : Int)
  | makeRoom (node : NodeId) (inserted : Option Span)
  | closeGap (deleted : Span)
  | resize (node : NodeId) (span : Span)
  | observe
  | release

/-- A tree under edit. -/
structure Session where
  tree : Tree
  /-- An observer is told of each change. -/
  observed : Bool := false

namespace Session

/-- A session after an edit, with the change made or the reason of the failure, and with what the
observer is told. -/
def apply (s : Session) (m : Mutation) : Except EditError (Option Change) × Session × List Change :=
  let (result, draft) := m.steps.run.run ⟨s.tree, []⟩
  (result.map fun _ => draft.reported.getLast?, { s with tree := draft.tree },
    if s.observed then draft.reported else [])

/-- A session without its observer, and whether there was one. -/
def release (s : Session) : Bool × Session := (s.observed, { s with observed := false })

/-- A session with the spans of its tree changed by hand; no observer is told. -/
def mapTree (f : Tree → Tree) (s : Session) : Session := { s with tree := f s.tree }

/-- A session after a call, whether or not it failed. -/
def call (s : Session) : Call → Session
  | .edit m => (s.apply m).2.1
  | .shift node lines columns => s.mapTree (·.shift node lines columns)
  | .makeRoom node inserted => s.mapTree (·.makeRoom node inserted)
  | .closeGap deleted => s.mapTree (·.closeGap deleted none)
  | .resize node span => s.mapTree (·.resize node span)
  | .observe => { s with observed := true }
  | .release => s.release.2

/-- A session after calls one after another. -/
def run (s : Session) (calls : List Call) : Session := calls.foldl call s

end Session

end CssTree
