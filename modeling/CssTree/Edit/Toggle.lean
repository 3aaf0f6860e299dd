import CssTree.Edit.Basic

namespace CssTree

/-- The text that makes a declaration important, as a node at a position. -/
def importantNode (id : NodeId) (p : Position) : Node :=
  let mark : Token := .place .delim ['!'] (p.advance [' '])
  let word : Token := .place .ident "important".toList (p.advance [' ', '!'])
  ⟨id, .importantValue, .ofText p " !important".toList,
    [.token { mark with leading := blankTrivia [' '] p }, .token word]⟩

/-- The start of a comment put in front of the name of a declaration, with what leads the name. -/
def Declaration.openComment (p : Position) (d : Declaration) : Declaration :=
  let opening : Token := .place .openComment ['/', '*'] p
  { d with
    opening := some { opening with leading := d.name.leading }
    name := { d.name with leading := blankTrivia [' '] (p.advance ['/', '*']) } }

/-- The start of the comment around a declaration taken away. -/
def Declaration.dropOpening (d : Declaration) : Declaration :=
  { d with
    opening := none
    name := { d.name with leading := (d.opening.map (·.leading)).getD d.name.leading } }

/-- The end of a comment put behind a declaration, with what trails it. -/
def Node.closeComment (p : Position) (n : Node) : Node :=
  let trailing := (n.tokens.getLast?.map (·.trailing)).getD []
  let closing : Token := .place .closeComment ['*', '/'] (p.advance [' '])
  (n.mapTokens (mapLast ({ · with trailing := [] }))).mapDeclaration
    ({ · with closing := some { closing with leading := blankTrivia [' '] p, trailing } })

/-- The end of the comment around a declaration taken away; what trails it stays. -/
def Node.dropClosing (n : Node) : Node :=
  let trailing := ((n.declaration?.bind (·.closing)).map (·.trailing)).getD []
  (n.mapDeclaration ({ · with closing := none })).appendTrailing trailing

namespace Edit

/-- Marks a declaration as important; `value` is its value. -/
def addMark (id : NodeId) (value : Node) : Edit Unit := do
  let p := value.span.stop
  alter (·.makeRoom id (some (.ofText p " !important".toList)))
  let (mark, arena) := (← tree).arena.insert (some id)
  alter ({ · with arena })
  changeDeclaration id ({ · with important := some (importantNode mark p) })

/-- Takes the mark of an important declaration away. -/
def dropMark (id : NodeId) (mark : Node) : Edit Unit := do
  changeDeclaration id ({ · with important := none })
  alter (·.free mark)
  alter (·.closeGap mark.span none)

/-- Makes a declaration important or not. -/
def setImportant (id : NodeId) (value : Bool) : Edit Unit := do
  let d ← (← tree).declaration id
  if d.isImportant ≠ value then
    match d.important with
    | none => addMark id d.value
    | some mark => dropMark id mark
    alter (·.respan id)
    report (.modified id)

/-- Puts a comment around a declaration. -/
def wrapComment (id : NodeId) : Edit Unit := do
  let d ← (← tree).declaration id
  let start := d.name.span.start
  alter (·.makeRoom id (some (.ofText start ['/', '*', ' '])))
  changeDeclaration id (·.openComment start)
  let last := ((← tree).find? id).bind (·.tokens.getLast?)
  let stop := (last.map (·.span.stop)).getD start
  alter (·.makeRoom id (some (.ofText stop [' ', '*', '/'])))
  let _ ← (← tree).declaration id
  alter (·.update id (·.closeComment stop))

/-- Takes away the end of the comment around a declaration. -/
def dropClosing (id : NodeId) : Edit Unit := do
  let d ← (← tree).declaration id
  match d.closing with
  | some closing =>
    alter (·.closeGap ⟨closing.fullSpan.start, closing.span.stop⟩ none)
    let _ ← (← tree).declaration id
    alter (·.update id (·.dropClosing))
  | none => pure ()

/-- Takes away the start of the comment around a declaration. -/
def dropOpening (id : NodeId) : Edit Unit := do
  let d ← (← tree).declaration id
  match d.opening with
  | some opening =>
    alter (·.closeGap ⟨opening.span.start, d.name.span.start⟩ none)
    changeDeclaration id (·.dropOpening)
  | none => pure ()

/-- Takes away the comment around a declaration. -/
def unwrapComment (id : NodeId) : Edit Unit := do
  dropClosing id
  dropOpening id

/-- Disables a declaration by a comment around it, or takes the comment away. -/
def setDisabled (id : NodeId) (value : Bool) : Edit Unit := do
  let d ← (← tree).declaration id
  if d.isDisabled ≠ value then
    if value then wrapComment id else unwrapComment id
    alter (·.respan id)
    report (.modified id)

end Edit

end CssTree
