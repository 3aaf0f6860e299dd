import CssTree.Edit.Mutation
import CssTree.Proofs.Tree.Sound

namespace CssTree.Edit

variable {α β : Type}

/-- From the draft `d` an edit leads to a result and a draft with `Q`, or it fails and leaves a
draft with `E`. -/
def Leads (d : Draft) (x : Edit α) (Q : α → Draft → Prop) (E : Draft → Prop) : Prop :=
  match x.run.run d with
  | (.ok a, d') => Q a d'
  | (.error _, d') => E d'

namespace Leads

variable {d : Draft} {Q : β → Draft → Prop} {E : Draft → Prop}

theorem fail {e : EditError} (h : E d) : Leads d (throw e) Q E := h

theorem bind {x : Edit α} {f : α → Edit β} (h : Leads d x (fun a d' => Leads d' (f a) Q E) E) :
    Leads d (x >>= f) Q E := by
  unfold Leads at *
  have hrun : (x >>= f).run.run d = match x.run.run d with
      | (.ok a, d') => (f a).run.run d'
      | (.error e, d') => (.error e, d') := by
    rw [ExceptT.run_bind, StateT.run_bind]
    generalize x.run.run d = r
    obtain ⟨a | a, d'⟩ := r <;> rfl
  rw [hrun]
  generalize x.run.run d = r at h ⊢
  obtain ⟨a | a, d'⟩ := r
  · exact h
  · exact h

/-- A step whose run is known. -/
theorem known {x : Edit α} {f : α → Edit β} {a : α} {d' : Draft}
    (hx : x.run.run d = (.ok a, d')) (h : Leads d' (f a) Q E) : Leads d (x >>= f) Q E := by
  refine bind ?_
  rw [Leads, hx]
  exact h

theorem tree {f : Tree → Edit β} (h : Leads d (f d.tree) Q E) : Leads d (Edit.tree >>= f) Q E :=
  bind h

theorem alter {g : Tree → Tree} {f : Unit → Edit β}
    (h : Leads { d with tree := g d.tree } (f ()) Q E) :
    Leads d (Edit.alter g >>= f) Q E := bind h

theorem report {c : Change} {Q : Unit → Draft → Prop}
    (h : Q () { d with reported := d.reported ++ [c] }) : Leads d (Edit.report c) Q E := h

/-- A query, which changes nothing. -/
theorem query {r : Except EditError α} {f : α → Edit β} (hfail : E d)
    (h : ∀ a, r = .ok a → Leads d (f a) Q E) : Leads d ((liftM r : Edit α) >>= f) Q E := by
  refine bind ?_
  cases r with
  | ok a => exact h a rfl
  | error e => exact hfail

end Leads

end CssTree.Edit

namespace CssTree

namespace Node

/-- A fragment with the semicolon that it needs. -/
def closed (needed : Bool) (p : Position) (n : Node) : Node :=
  if needed then n.mapDeclaration (·.addSemicolon p) else n

end Node

namespace Tree

/-- A tree with `fragment` in front of `target` in a list. -/
def insertedBefore (list : Node) (kind : ListKind) (index : Nat) (target fragment : Node)
    (tree : Tree) : Tree :=
  let start := target.coreStart
  let lacksSemicolon := kind.lacksSemicolon fragment
  let separator : Text := if kind = .selectors then [','] else if lacksSemicolon then [';'] else []
  let separatorAt := start.advance fragment.render
  let gap := gapBefore kind target (separatorAt.advance separator)
  let moved := tree.makeRoom list.id
    (some (.ofText start (fragment.render ++ separator ++ Lexeme.render gap)))
  let lead := ((moved.find? target.id).map (·.leading)).getD []
  let item := ((fragment.place start).prependLeading lead).closed lacksSemicolon separatorAt
  let comma := if kind = .selectors then some (.place .comma [','] separatorAt) else none
  (moved.update target.id (·.setLeading gap)).insertInto list.id index item comma

/-- A tree with the separator that is missing behind the last item of a list. -/
def separatedLast (list : Node) (listing : Listing) (tree : Tree) : Tree :=
  let p := listing.appendAt list
  if listing.lacksComma then
    tree.update list.id
      (·.mapListing (·.setSeparator (listing.items.size - 1) (some (.place .comma [','] p))))
  else match listing.items.last? with
    | some n =>
      if listing.lacksSemicolon then tree.update n.id (·.mapDeclaration (·.addSemicolon p)) else tree
    | none => tree

/-- A tree with `fragment` behind the last item of a list. -/
def insertedAfter (list : Node) (listing : Listing) (fragment : Node) (tree : Tree) : Tree :=
  let start := listing.appendAt list
  let gapAt := start.advance listing.missing
  let gap := gapAfter list listing.kind listing.items.last? fragment gapAt
  let fragmentAt := gapAt.advance (Lexeme.render gap)
  let lacksSemicolon := listing.kind.lacksSemicolon fragment
  let ending : Text := if lacksSemicolon then [';'] else []
  let moved := tree.makeRoom list.id
    (some (.ofText start (listing.missing ++ Lexeme.render gap ++ fragment.render ++ ending)))
  let item := ((fragment.place fragmentAt).prependLeading gap).closed lacksSemicolon
    (fragmentAt.advance fragment.render)
  (moved.separatedLast list listing).insertInto list.id listing.items.size item none

/-- A tree with the node called `id` read anew. -/
def replacedWith (id : NodeId) (placed : Node) (tree : Tree) : Tree :=
  let resized := (tree.putContent id placed).resize id placed.span
  match resized.parent? id with
  | some parent => resized.respan parent.id
  | none => resized

/-- A tree with a declaration made important; `value` is its value. -/
def marked (id : NodeId) (value : Node) (tree : Tree) : Tree :=
  let p := value.span.stop
  let moved := tree.makeRoom id (some (.ofText p " !important".toList))
  let (mark, arena) := moved.arena.insert (some id)
  { moved with arena }.update id
    (·.mapDeclaration ({ · with important := some (importantNode mark p) }))

/-- A tree with a declaration that is no longer important. -/
def unmarked (id : NodeId) (mark : Node) (tree : Tree) : Tree :=
  ((tree.update id (·.mapDeclaration ({ · with important := none }))).free mark).closeGap
    mark.span none

/-- A tree with a comment around a declaration. -/
def wrapped (id : NodeId) (d : Declaration) (tree : Tree) : Tree :=
  let start := d.name.span.start
  let opened := (tree.makeRoom id (some (.ofText start ['/', '*', ' ']))).update id
    (·.mapDeclaration (·.openComment start))
  let last := (opened.find? id).bind (·.tokens.getLast?)
  let stop := (last.map (·.span.stop)).getD start
  (opened.makeRoom id (some (.ofText stop [' ', '*', '/']))).update id (·.closeComment stop)

/-- A tree without the end of the comment around a declaration. -/
def closingDropped (id : NodeId) (d : Declaration) (tree : Tree) : Tree :=
  match d.closing with
  | some closing =>
    (tree.closeGap ⟨closing.fullSpan.start, closing.span.stop⟩ none).update id (·.dropClosing)
  | none => tree

/-- A tree without the start of the comment around a declaration. -/
def openingDropped (id : NodeId) (d : Declaration) (tree : Tree) : Tree :=
  match d.opening with
  | some opening =>
    (tree.closeGap ⟨opening.span.start, d.name.span.start⟩ none).update id
      (·.mapDeclaration (·.dropOpening))
  | none => tree

end Tree

namespace Edit

variable {d : Draft}

theorem run_alter {α : Type} (g : Tree → Tree) (f : Unit → Edit α) :
    (alter g >>= f).run.run d = (f ()).run.run { d with tree := g d.tree } := rfl

theorem run_tree {α : Type} (f : Tree → Edit α) :
    (tree >>= f).run.run d = (f d.tree).run.run d := rfl

/-- A step whose run is known. -/
theorem run_of {α β : Type} {x : Edit α} {a : α} {d' : Draft} (h : x.run.run d = (.ok a, d'))
    (f : α → Edit β) : (x >>= f).run.run d = (f a).run.run d' := by
  rw [ExceptT.run_bind, StateT.run_bind, h]
  rfl

theorem closeFragment_run {needed : Bool} {p : Position} {n : Node}
    (h : needed = true → n.declaration?.isSome = true) :
    (closeFragment needed p n).run.run d = (.ok (n.closed needed p), d) := by
  cases needed with
  | false => rfl
  | true =>
    obtain ⟨decl, hd⟩ := Option.isSome_iff_exists.mp (h rfl)
    have hexpect : n.expectDeclaration = .ok decl := by rw [Node.expectDeclaration, hd]
    rw [closeFragment, if_pos rfl, hexpect]
    rfl

/-- What is read as a declaration is one wherever it is moved to. -/
theorem declaration?_of_skeleton {n m : Node} (hn : n.Formed) (h : n.declaration?.isSome = true)
    (heq : m.skeleton = n.skeleton) : m.declaration?.isSome = true := by
  obtain ⟨decl, hd⟩ := Option.isSome_iff_exists.mp h
  obtain ⟨hkind, -, -⟩ := hn.of_declaration? hd
  have hkind' : m.kind = .declaration := by
    rw [← m.skeleton_kind, heq, Node.skeleton_kind, hkind]
  obtain ⟨decl', -, -, hd'⟩ := (hn.of_skeleton heq).declaration? hkind'
  rw [hd']
  rfl

theorem declaration?_of_needsSemicolon {n : Node} (h : n.needsSemicolon = true) :
    n.declaration?.isSome = true := by
  rw [Node.needsSemicolon] at h
  cases hd : n.declaration? <;> simp_all

theorem declaration?_of_lacksSemicolon {kind : ListKind} {n m : Node} (hn : n.Formed)
    (h : kind.lacksSemicolon n = true) (heq : m.skeleton = n.skeleton) :
    m.declaration?.isSome = true := by
  rw [ListKind.lacksSemicolon, Bool.and_eq_true] at h
  exact declaration?_of_skeleton hn (declaration?_of_needsSemicolon h.2) heq

theorem insertBefore_run {list target fragment : Node} {kind : ListKind} {index : Nat}
    (hfragment : fragment.Formed) :
    (insertBefore list kind index target fragment).run.run d =
      (.ok (), { d with tree := d.tree.insertedBefore list kind index target fragment }) := by
  simp only [insertBefore, run_alter, run_tree]
  rw [run_of (closeFragment_run fun hneeds => declaration?_of_lacksSemicolon hfragment hneeds ?_)]
  · rfl
  · rw [Node.skeleton_prependLeading, Node.skeleton_place]

theorem changeDeclaration_run {id : NodeId} (hformed : ∀ x ∈ d.tree.root.descendants, x.Formed)
    (h : d.tree.IsDeclaration id) (f : Declaration → Declaration) :
    (changeDeclaration id f).run.run d =
      (.ok (), { d with tree := d.tree.update id (·.mapDeclaration f) }) := by
  obtain ⟨n, decl, -, -, hd⟩ := h.declaration hformed
  rw [changeDeclaration, run_tree, hd]
  rfl

theorem separateLast_run {list : Node} {listing : Listing}
    (hformed : ∀ x ∈ d.tree.root.descendants, x.Formed)
    (h : ∀ n ∈ listing.items.last?, n.needsSemicolon = true → d.tree.IsDeclaration n.id) :
    (separateLast list listing).run.run d =
      (.ok (), { d with tree := d.tree.separatedLast list listing }) := by
  rw [separateLast, Tree.separatedLast]
  split
  next => rfl
  next =>
    cases hlast : listing.items.last? with
    | none => rfl
    | some n =>
      dsimp only
      split
      next hlacks =>
        rw [Listing.lacksSemicolon, hlast, Option.any_some, ListKind.lacksSemicolon,
          Bool.and_eq_true] at hlacks
        exact changeDeclaration_run hformed (h n hlast hlacks.2) _
      next => rfl

theorem insertAfter_run {list fragment : Node} {listing : Listing}
    (hformed : ∀ x ∈ d.tree.root.descendants, x.Formed) (hfragment : fragment.Formed)
    (h : ∀ n ∈ listing.items.last?, n.needsSemicolon = true → d.tree.IsDeclaration n.id) :
    (insertAfter list listing fragment).run.run d =
      (.ok (), { d with tree := d.tree.insertedAfter list listing fragment }) := by
  simp only [insertAfter, run_alter]
  rw [run_of (separateLast_run (Node.formed_of_skeleton hformed ?_) fun n hn hneeds =>
    (h n hn hneeds).alike ?_)]
  rw [run_of (closeFragment_run fun hneeds => declaration?_of_lacksSemicolon hfragment hneeds ?_)]
  · rfl
  · rw [Node.skeleton_prependLeading, Node.skeleton_place]
  · exact (Tree.Alike.makeRoom list.id _ d.tree).root
  · dsimp only
    exact Tree.Alike.makeRoom _ _ _

end Edit

end CssTree
