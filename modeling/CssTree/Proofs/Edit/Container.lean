import CssTree.Proofs.Edit.Evolve
import CssTree.Proofs.Tree.Moved
import CssTree.Proofs.Tree.Query

namespace CssTree

theorem Element.nodes_map (g : Node → Node) (k : Token → Token) (es : List Element) :
    nodes (es.map (Element.map g k)) = (nodes es).map g := by
  induction es with
  | nil => rfl
  | cons e es ih =>
    cases e with
    | token t => exact ih
    | node n => exact congrArg (g n :: ·) ih

namespace Node

variable {n m list list' : Node} {onNode : NodeId → Span → Span} {f : Span → Span}

/-- A block that was exchanged is still found as one. -/
theorem expectBlock_map {block? : Option Node} {g : Node → Node} {kind : NodeKind}
    {outer inner : String} (h : n.expectBlock block? kind outer inner = .ok list)
    (hkind : (g list).kind = list.kind) :
    m.expectBlock (block?.map g) kind outer inner = .ok (g list) := by
  cases block? with
  | none => cases h
  | some block =>
    rw [expectBlock] at h
    split at h
    next hsame =>
      obtain rfl := Except.ok.inj h
      rw [Option.map_some, expectBlock, if_pos (hkind.trans hsame)]
    next => cases h

/-- A list of rules that is exchanged for another one is found where it was. -/
theorem ruleList_exchanged {g : Node → Node} (h : n.ruleList = .ok list)
    (hkind : (g list).kind = list.kind)
    (hchild : list ∈ n.children → (g n).kind = n.kind ∧ (g n).children = n.children.map g) :
    (g n).ruleList = .ok (g list) := by
  rw [ruleList] at h
  split at h
  next hself =>
    obtain rfl := Except.ok.inj h
    rw [ruleList, if_pos (by rwa [hkind])]
  next hself =>
    obtain ⟨hsame, hchildren⟩ := hchild (child_of_expectBlock h child_of_ruleBlock?)
    have hblock : (g n).ruleBlock? = n.ruleBlock?.map g := by
      rw [ruleBlock?, ruleBlock?, hsame, hchildren, List.getLast?_map]
      split <;> rfl
    rw [ruleList, if_neg (by rwa [hsame]), hblock]
    exact expectBlock_map h hkind

theorem selectorList_exchanged {g : Node → Node} (h : n.selectorList = .ok list)
    (hkind : (g list).kind = list.kind)
    (hchild : list ∈ n.children → (g n).kind = n.kind ∧ (g n).children = n.children.map g) :
    (g n).selectorList = .ok (g list) := by
  rw [selectorList] at h
  split at h
  next hself =>
    obtain rfl := Except.ok.inj h
    rw [selectorList, if_pos (by rwa [hkind])]
  next hself =>
    obtain ⟨hsame, hchildren⟩ := hchild (child_of_expectBlock h child_of_selectors?)
    have hblock : (g n).selectors? = n.selectors?.map g := by
      rw [selectors?, selectors?, hsame, hchildren, List.head?_map]
      split <;> rfl
    rw [selectorList, if_neg (by rwa [hsame]), hblock]
    exact expectBlock_map h hkind

/-- A node whose spans are moved while a list in it is exchanged. -/
theorem exchanged_child (hnodup : (n.descendants.map Node.id).Nodup) (hlist : list ∈ n.children)
    (list' : Node) :
    let g : Node → Node := fun m => (m.moved onNode f).update list.id fun _ => list'
    (g n).kind = n.kind ∧ (g n).children = n.children.map g := by
  intro g
  have hne : (n.moved onNode f).id ≠ list.id := by
    rw [id_moved]
    intro heq
    rw [descendants_children, List.map_cons, List.nodup_cons] at hnodup
    refine hnodup.1 (heq ▸ List.mem_map_of_mem ?_)
    exact List.mem_flatMap.mpr ⟨list, hlist, list.mem_descendants_self⟩
  have hg : g n = { n.moved onNode f with
      elements := (n.moved onNode f).elements.map
        (Element.map (·.update list.id fun _ => list') fun t => t) } := update_of_ne hne _
  rw [hg]
  refine ⟨n.kind_moved _ _, ?_⟩
  show Element.nodes _ = (Element.nodes n.elements).map g
  rw [elements_moved, Element.nodes_map, Element.nodes_map, List.map_map]
  rfl

end Node

/-- The container of a list in a tree in which the list was exchanged. -/
theorem Tree.get_exchanged {tree tree' : Tree} {n list list' : Node} {onNode : NodeId → Span → Span}
    {f : Span → Span} (hnodup : (tree.root.descendants.map Node.id).Nodup)
    (hnodup' : (tree'.root.descendants.map Node.id).Nodup) (hn : n ∈ tree.root.descendants)
    (hlist : list ∈ n.descendants) (hid : list'.id = list.id)
    (hroot : tree'.root = (tree.root.moved onNode f).update list.id fun _ => list') :
    tree'.get n.id = .ok ((n.moved onNode f).update list.id fun _ => list') := by
  have hmem : (n.moved onNode f).update list.id (fun _ => list') ∈ tree'.root.descendants := by
    rw [hroot]
    refine Node.mem_update _ (by rwa [Node.ids_moved]) (Node.mem_moved onNode f hn) ?_
    rw [Node.ids_moved]
    exact List.mem_map_of_mem hlist
  have hsame : ((n.moved onNode f).update list.id fun _ => list').id = n.id := by
    by_cases heq : n.id = list.id
    · rw [Node.update_self (by rwa [Node.id_moved]), hid, heq]
    · rw [Node.update_of_ne (by rwa [Node.id_moved]), ← Node.id_moved onNode f n]
  have hfind : tree'.find? n.id = some ((n.moved onNode f).update list.id fun _ => list') := by
    rw [← hsame]
    exact Node.find?_of_mem hnodup' hmem
  rw [Tree.get, hfind]

end CssTree
