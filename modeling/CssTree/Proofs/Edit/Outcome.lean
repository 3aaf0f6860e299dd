import CssTree.Proofs.Edit.Sound
import CssTree.Proofs.Grammar.Fragment
import CssTree.Proofs.Grammar.Proper

namespace CssTree

/-- The text of a declaration under another name. -/
def Declaration.renamed (name : Text) (d : Declaration) : Text :=
  Token.renderAll (Element.tokensOf { d with name := { d.name with text := name } }.elements)

/-- What a text is read as, and the tree with the nodes of that in use besides its own. -/
def Tree.reads (p : Production) (t : Text) (tree : Tree) : Node × Tree :=
  let config := if p = .declaration then { tree.config with comments := true } else tree.config
  let (n, arena) := p.parse config tree.arena t
  (n, { tree with arena })

/-- An insertion: the list, the place in it, how the item is read and from which text. -/
inductive Mutation.Inserts (tree : Tree) : Mutation → Node → Nat → Production → Text → Prop
  | rule {container : NodeId} {n list : Node} {index : Nat} {t : Text} :
      tree.get container = .ok n → n.ruleList = .ok list →
      Inserts tree (.insertRule container index t) list index
        (if tree.inKeyframes list then .keyframeRule else .rule) t
  | selector {container : NodeId} {n list : Node} {index : Nat} {t : Text} :
      tree.get container = .ok n → n.selectorList = .ok list →
      Inserts tree (.insertSelector container index t) list index .selector t
  | declaration {container : NodeId} {n list : Node} {index : Nat} {t : Text} :
      tree.get container = .ok n → n.declarationList = .ok list →
      Inserts tree (.insertDeclaration container index t) list index .declaration t
  | lastRule {container : NodeId} {n list : Node} {t : Text} :
      tree.get container = .ok n → n.ruleList = .ok list →
      Inserts tree (.appendRule container t) list list.children.length
        (if tree.inKeyframes list then .keyframeRule else .rule) t
  | lastSelector {container : NodeId} {n list : Node} {t : Text} :
      tree.get container = .ok n → n.selectorList = .ok list →
      Inserts tree (.appendSelector container t) list list.children.length .selector t
  | lastDeclaration {container : NodeId} {n list : Node} {t : Text} :
      tree.get container = .ok n → n.declarationList = .ok list →
      Inserts tree (.appendDeclaration container t) list list.children.length .declaration t

/-- The node that an edit reads anew, what it is read as, and from which text. -/
inductive Mutation.Rereads (tree : Tree) : Mutation → Node → Production → Text → Prop
  | text {id : NodeId} {t : Text} {n : Node} {p : Production} :
      tree.get id = .ok n → tree.production? n = some p → Rereads tree (.replaceText id t) n p t
  | selectors {id : NodeId} {t u : Text} {n list : Node} :
      tree.get id = .ok n → n.selectorList = .ok list →
      Rereads tree (.setSelectors id t) list .selectorList u
  | declarations {id : NodeId} {t u : Text} {n list : Node} :
      tree.get id = .ok n → n.declarationList = .ok list →
      Rereads tree (.setDeclarations id t) list .declarationBlock u
  | property {name : Text} {n : Node} {d : Declaration} :
      n ∈ tree.root.descendants → n.declaration? = some d →
      (tree.reads .declaration (d.renamed name)).1.declaration?.any (·.name.text = name) →
      Rereads tree (.setProperty n.id name) n .declaration (d.renamed name)
  | value {t u : Text} {n : Node} {d : Declaration} :
      n ∈ tree.root.descendants → n.declaration? = some d →
      Rereads tree (.setValue n.id t) d.value .values u
  | prelude {id : NodeId} {t u : Text} {n target : Node} :
      tree.get id = .ok n → n.prelude? = some target →
      Rereads tree (.setPrelude id t) target (preludeProduction n.kind).1 u
  | keyframes {id : NodeId} {t u : Text} {n target : Node} :
      tree.get id = .ok n → n.keyframeSelectors? = some target →
      Rereads tree (.setKeyframeSelectors id t) target .keyframeSelectors u

/-- An edit that attaches trivia to other tokens all over the tree. -/
def Mutation.MovesTrivia (m : Mutation) : Prop := m = .trailingToLeading ∨ m = .leadingToTrailing

namespace Tree

theorem Sound.reads {tree tree' : Tree} {p : Production} {t : Text} {fragment : Node}
    (h : tree.Sound []) (hreads : tree.reads p t = (fragment, tree')) :
    tree'.Sound (fragment.entries none) ∧ fragment.Complete tree.arena tree'.arena ∧
      tree'.root = tree.root ∧ tree'.config = tree.config := by
  rw [Tree.reads] at hreads
  obtain ⟨rfl, rfl⟩ := Prod.mk.inj hreads
  have hcomplete := (p.complete_parse (if p = .declaration then
    { tree.config with comments := true } else tree.config) h.fresh t).1
  exact ⟨h.grow hcomplete.grown, hcomplete, rfl, rfl⟩

/-- What a successful edit makes of a tree, and how it is reported. -/
inductive Edited (tree : Tree) (m : Mutation) : Tree → Change → Prop
  | insertedBefore {tree' : Tree} {list target fragment : Node} {listing : Listing} {index : Nat}
      {p : Production} {t : Text} : list ∈ tree.root.descendants → list.listing? = some listing →
      listing.items.get? index = some target → p.slot? = some listing.kind.slot →
      tree.reads p t = (fragment, tree') → fragment.isError = false →
      m.Inserts tree list index p t →
      Edited tree m ((tree'.insertedBefore list listing.kind index target fragment).respan list.id)
        (.inserted list.id fragment.id)
  | insertedAfter {tree' : Tree} {list fragment : Node} {listing : Listing} {p : Production}
      {t : Text} : list ∈ tree.root.descendants → list.listing? = some listing →
      p.slot? = some listing.kind.slot → tree.reads p t = (fragment, tree') →
      fragment.isError = false → m.Inserts tree list listing.items.size p t →
      Edited tree m ((tree'.insertedAfter list listing fragment).respan list.id)
        (.inserted list.id fragment.id)
  | removedBefore {list removed next : Node} {listing : Listing} {index : Nat} :
      list ∈ tree.root.descendants → list.listing? = some listing →
      listing.items.get? index = some removed → listing.items.get? (index + 1) = some next →
      Edited tree m ((tree.removeBefore list index removed next).respan list.id)
        (.removed list.id index)
  | removedLast {list removed : Node} {listing : Listing} {index : Nat} :
      list ∈ tree.root.descendants → list.listing? = some listing →
      listing.items.get? index = some removed → listing.items.get? (index + 1) = none →
      Edited tree m ((tree.removeLast list listing index removed).respan list.id)
        (.removed list.id index)
  | replaced {tree' : Tree} {n fragment : Node} {p : Production} {t : Text} :
      n ∈ tree.root.descendants → m.Rereads tree n p t → tree.reads p t = (fragment, tree') →
      Edited tree m (tree'.replacedWith n.id (fragment.place n.span.start)) (.replaced n.id)
  | marked {n : Node} {d : Declaration} : n ∈ tree.root.descendants → n.declaration? = some d →
      d.important = none → m = .setImportant n.id true →
      Edited tree m ((tree.marked n.id d.value).respan n.id) (.modified n.id)
  | unmarked {n mark : Node} {d : Declaration} : n ∈ tree.root.descendants →
      n.declaration? = some d → d.important = some mark →
      Edited tree m ((tree.unmarked n.id mark).respan n.id) (.modified n.id)
  | wrapped {n : Node} {d : Declaration} : n ∈ tree.root.descendants → n.declaration? = some d →
      d.opening = none → m = .setDisabled n.id true →
      Edited tree m ((tree.wrapped n.id d).respan n.id) (.modified n.id)
  | unwrapped {n : Node} {d d' : Declaration} : n ∈ tree.root.descendants →
      n.declaration? = some d → d.opening ≠ none →
      (tree.closingDropped n.id d).declaration n.id = .ok d' → m = .setDisabled n.id false →
      Edited tree m (((tree.closingDropped n.id d).openingDropped n.id d').respan n.id)
        (.modified n.id)
  | regrouped {f : List Token → List Token} : Token.Regroups f → m.MovesTrivia →
      Edited tree m (tree.mapRoot fun n => (n.mapTokens f).respan) .trivia

/-- Whatever an edit does to a sound tree, it is sound afterwards. -/
theorem Edited.sound {tree tree' : Tree} {m : Mutation} {c : Change} (h : tree.Sound [])
    (hedited : tree.Edited m tree' c) : tree'.Sound [] := by
  cases hedited with
  | insertedBefore hlist hlisting htarget hp hreads herror =>
    obtain ⟨hread, hcomplete, hroot, -⟩ := h.reads hreads
    rw [← hroot] at hlist
    exact (hread.insertedBefore hlist hlisting htarget hcomplete.formed).alike (.respan _ _)
  | insertedAfter hlist hlisting hp hreads herror =>
    obtain ⟨hread, hcomplete, hroot, -⟩ := h.reads hreads
    rw [← hroot] at hlist
    exact (hread.insertedAfter hlist hlisting hcomplete.formed).alike (.respan _ _)
  | removedBefore hlist hlisting hget hnext =>
    exact (h.removeBefore hlist hlisting hget hnext).alike (.respan _ _)
  | removedLast hlist hlisting hget hnext =>
    exact (h.removeLast hlist hlisting hget hnext).alike (.respan _ _)
  | @replaced tree₁ n fragment p t hn _ hreads =>
    obtain ⟨hread, hcomplete, hroot, -⟩ := h.reads hreads
    rw [← hroot] at hn
    have hskeleton := fragment.skeleton_place n.span.start
    have hplaced : tree₁.Sound ((fragment.place n.span.start).entries none) := by
      rwa [← Node.entries_skeleton, hskeleton, Node.entries_skeleton]
    exact hplaced.replacedWith hn (Node.formed_of_skeleton hcomplete.formed hskeleton)
  | marked hn hd hnone => exact (h.marked hn hd hnone).alike (.respan _ _)
  | unmarked hn hd hmark => exact (h.unmarked hn hd hmark).alike (.respan _ _)
  | wrapped hn hd hnone _ => exact (h.wrapped _ _).alike (.respan _ _)
  | unwrapped hn hd hsome hd' _ =>
    exact ((h.closingDropped _ _).openingDropped _ _).alike (.respan _ _)
  | regrouped hf _ =>
    refine h.alike ⟨?_, rfl⟩
    exact (Node.skeleton_respan _).trans (Node.skeleton_mapTokens (hf.kinds _))

end Tree

/-- An edit of `tree` that failed. Nothing but the supply of ids is changed. -/
structure Draft.Undone (tree : Tree) (d : Draft) : Prop where
  root : d.tree.root = tree.root
  config : d.tree.config = tree.config
  arena : tree.arena.Grown [] d.tree.arena
  reported : d.reported = []

/-- The edit `m` of `tree` made a change and reported it. -/
def Draft.Done (tree : Tree) (m : Mutation) (d : Draft) : Prop :=
  ∃ c, d.reported = [c] ∧ tree.Edited m d.tree c

end CssTree
