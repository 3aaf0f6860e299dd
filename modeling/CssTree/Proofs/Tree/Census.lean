import CssTree.Proofs.Tree.Context
import CssTree.Proofs.Tree.Sound

namespace CssTree

/-- A node by its id and kind and by the id of the node that lists it. -/
structure Standing where
  id : NodeId
  kind : NodeKind
  parent : Option NodeId
deriving DecidableEq

mutual

/-- How a node that is listed by `parent` and all nodes below it stand in the tree. -/
def Node.census (parent : Option NodeId) : Node → List Standing
  | ⟨id, kind, _, es⟩ => ⟨id, kind, parent⟩ :: Element.censusOf (some id) es

def Element.censusOf (parent : Option NodeId) : List Element → List Standing
  | [] => []
  | .token _ :: es => Element.censusOf parent es
  | .node n :: es => n.census parent ++ Element.censusOf parent es

end

namespace Element

@[simp] theorem censusOf_nil (p : Option NodeId) : censusOf p [] = [] := rfl

@[simp] theorem censusOf_token (p : Option NodeId) (t : Token) (es : List Element) :
    censusOf p (.token t :: es) = censusOf p es := rfl

@[simp] theorem censusOf_node (p : Option NodeId) (n : Node) (es : List Element) :
    censusOf p (.node n :: es) = n.census p ++ censusOf p es := rfl

@[simp] theorem censusOf_append (p : Option NodeId) (es fs : List Element) :
    censusOf p (es ++ fs) = censusOf p es ++ censusOf p fs := by
  induction es with
  | nil => rfl
  | cons e es ih => cases e <;> simp [ih]

theorem censusOf_eq (p : Option NodeId) (es : List Element) :
    censusOf p es = (nodes es).flatMap (·.census p) := by
  induction es with
  | nil => rfl
  | cons e es ih => cases e <;> simp [ih]

end Element

theorem Node.census_mk (p : Option NodeId) (id : NodeId) (kind : NodeKind) (span : Span)
    (es : List Element) :
    (Node.mk id kind span es).census p = ⟨id, kind, p⟩ :: Element.censusOf (some id) es := rfl

theorem Node.census_children (p : Option NodeId) (n : Node) :
    n.census p = ⟨n.id, n.kind, p⟩ :: n.children.flatMap (·.census (some n.id)) := by
  cases n
  rw [census_mk, Element.censusOf_eq]
  rfl

mutual

theorem Node.census_skeleton : ∀ (p : Option NodeId) (n : Node), n.skeleton.census p = n.census p
  | p, ⟨id, _, _, es⟩ => by
    rw [Node.skeleton_mk, Node.census_mk, Node.census_mk, Element.censusOf_skeleton]

theorem Element.censusOf_skeleton : ∀ (p : Option NodeId) (es : List Element),
    Element.censusOf p (Element.skeletonAll es) = Element.censusOf p es
  | _, [] => rfl
  | p, .token _ :: es => Element.censusOf_skeleton p es
  | p, .node n :: es => by
    rw [Element.skeletonAll_node, Element.censusOf_node, Element.censusOf_node,
      Node.census_skeleton, Element.censusOf_skeleton]

end

mutual

theorem Node.entries_census : ∀ (p : Option NodeId) (n : Node),
    (n.census p).map (fun s => (s.id, s.parent)) = n.entries p
  | p, ⟨id, kind, span, es⟩ => by
    rw [Node.census_mk, List.map_cons, Element.entriesOf_census, Node.entries]

theorem Element.entriesOf_census : ∀ (p : Option NodeId) (es : List Element),
    (Element.censusOf p es).map (fun s => (s.id, s.parent)) = Element.entriesOf p es
  | _, [] => rfl
  | p, .token _ :: es => Element.entriesOf_census p es
  | p, .node n :: es => by
    rw [Element.censusOf_node, List.map_append, Node.entries_census, Element.entriesOf_census,
      Element.entriesOf_node]

end

mutual

theorem Node.kinds_census : ∀ (p : Option NodeId) (n : Node),
    (n.census p).map (fun s => (s.id, s.kind)) = n.descendants.map fun x => (x.id, x.kind)
  | p, ⟨id, kind, span, es⟩ => by
    rw [Node.census_mk, Node.descendants_mk, List.map_cons, List.map_cons, Element.kindsOf_census]

theorem Element.kindsOf_census : ∀ (p : Option NodeId) (es : List Element),
    (Element.censusOf p es).map (fun s => (s.id, s.kind)) =
      (Element.descendantsOf es).map fun x => (x.id, x.kind)
  | _, [] => rfl
  | p, .token _ :: es => by
    rw [Element.censusOf_token, Element.descendantsOf_token, Element.kindsOf_census]
  | p, .node n :: es => by
    rw [Element.censusOf_node, Element.descendantsOf_node, List.map_append, List.map_append,
      Node.kinds_census, Element.kindsOf_census]

end

namespace Node

variable {m n x : Node} {p : Option NodeId}

theorem census_of_skeleton (h : m.skeleton = n.skeleton) (p : Option NodeId) :
    m.census p = n.census p := by
  rw [← m.census_skeleton, h, n.census_skeleton]

theorem ids_census (p : Option NodeId) (n : Node) :
    (n.census p).map Standing.id = n.descendants.map id := by
  have hids := congrArg (List.map Prod.fst) (n.entries_census p)
  rwa [List.map_map, n.ids_entries] at hids

theorem mem_census (hx : x ∈ n.descendants) (p : Option NodeId) :
    ∃ q, ⟨x.id, x.kind, q⟩ ∈ n.census p := by
  have hmem : (x.id, x.kind) ∈ (n.census p).map fun s => (s.id, s.kind) := by
    rw [kinds_census]
    exact List.mem_map.mpr ⟨x, hx, rfl⟩
  obtain ⟨⟨i, kind, q⟩, hs, heq⟩ := List.mem_map.mp hmem
  obtain ⟨rfl, rfl⟩ := Prod.mk.inj heq
  exact ⟨q, hs⟩

theorem exists_of_mem_census {s : Standing} (hs : s ∈ n.census p) :
    ∃ x ∈ n.descendants, x.id = s.id ∧ x.kind = s.kind := by
  have hmem : (s.id, s.kind) ∈ n.descendants.map fun x => (x.id, x.kind) := by
    rw [← n.kinds_census p]
    exact List.mem_map.mpr ⟨s, hs, rfl⟩
  obtain ⟨x, hx, heq⟩ := List.mem_map.mp hmem
  obtain ⟨hid, hkind⟩ := Prod.mk.inj heq
  exact ⟨x, hx, hid, hkind⟩

/-- Children that are exchanged take their standing along. -/
theorem census_perm {m m' : Node} {gone fresh : List Node} (hid : m'.id = m.id)
    (hkind : m'.kind = m.kind)
    (h : ((gone ++ m'.children).flatMap (·.census (some m.id))).Perm
      ((fresh ++ m.children).flatMap (·.census (some m.id)))) (p : Option NodeId) :
    (gone.flatMap (·.census (some m.id)) ++ m'.census p).Perm
      (fresh.flatMap (·.census (some m.id)) ++ m.census p) := by
  rw [List.flatMap_append, List.flatMap_append] at h
  rw [census_children, census_children, hid, hkind]
  exact List.perm_middle.trans ((h.cons _).trans List.perm_middle.symm)

end Node

namespace Frame

/-- Around a node in a context all nodes stand in the same way, whatever node it is. -/
theorem census_plug (C : List Frame) (p : Option NodeId) :
    ∃ around q, ∀ n, ((plug C n).census p).Perm (around ++ n.census q) := by
  induction C generalizing p with
  | nil => exact ⟨[], p, fun _ => List.Perm.refl _⟩
  | cons F C ih =>
    obtain ⟨around, q, h⟩ := ih (some F.id)
    let front := Element.censusOf (some F.id) F.front
    let back := Element.censusOf (some F.id) F.back
    refine ⟨⟨F.id, F.kind, p⟩ :: (front ++ (back ++ around)), q, fun n => ?_⟩
    rw [plug_cons, fill, Node.census_mk, Element.censusOf_append, Element.censusOf_node,
      List.cons_append, List.append_assoc, List.append_assoc]
    refine List.Perm.cons _ (List.Perm.append_left front ?_)
    exact List.perm_append_comm.trans ((h n).append_left back)

end Frame

namespace Tree

/-- Of the nodes of one tree, all that are not in the subtrees `gone` stand in the other tree as they
did, and besides them there is nothing but the subtrees `fresh`. -/
structure Spares (tree : Tree) (gone fresh : List Node) (tree' : Tree) : Prop where
  kept : ∀ x ∈ tree.root.descendants, x.id ∉ (gone.flatMap (·.descendants)).map Node.id →
    ∃ y ∈ tree'.root.descendants, y.id = x.id ∧ y.kind = x.kind ∧
      tree'.arena.parent? y.id = tree.arena.parent? x.id
  known : ∀ y ∈ tree'.root.descendants, y.id ∉ (fresh.flatMap (·.descendants)).map Node.id →
    ∃ x ∈ tree.root.descendants, x.id = y.id

/-- The parent noted for a node is the one that lists it. -/
theorem Linked.parent?_census {tree : Tree} (h : tree.Linked) {s : Standing}
    (hs : s ∈ tree.root.census none) : tree.arena.parent? s.id = s.parent := by
  have hmem : (s.id, s.parent) ∈ tree.root.entries none := by
    rw [← Node.entries_census]
    exact List.mem_map.mpr ⟨s, hs, rfl⟩
  rw [Arena.parent?, h.found _ hmem, Option.join_some]

theorem ids_flatMap_census (q : Option NodeId) (ns : List Node) :
    (ns.flatMap (·.census q)).map Standing.id = (ns.flatMap (·.descendants)).map Node.id := by
  simp only [List.map_flatMap, Node.ids_census]

/-- Where the same nodes stand in two trees but for those of some subtrees, the rest is spared. -/
theorem Linked.spares {tree tree' : Tree} {gone fresh : List Node} {q : Option NodeId}
    (h : tree.Linked) (h' : tree'.Linked)
    (hperm : (gone.flatMap (·.census q) ++ tree'.root.census none).Perm
      (fresh.flatMap (·.census q) ++ tree.root.census none)) : tree.Spares gone fresh tree' := by
  constructor
  · intro x hx hnot
    obtain ⟨r, hr⟩ := Node.mem_census hx none
    have hmem : ⟨x.id, x.kind, r⟩ ∈ tree'.root.census none := by
      refine (List.mem_append.mp (hperm.mem_iff.mpr (List.mem_append_right _ hr))).resolve_left ?_
      intro hgone
      refine hnot ?_
      rw [← ids_flatMap_census q]
      exact List.mem_map_of_mem hgone
    obtain ⟨y, hy, hid, hkind⟩ := Node.exists_of_mem_census hmem
    refine ⟨y, hy, hid, hkind, ?_⟩
    rw [hid]
    exact (h'.parent?_census hmem).trans (h.parent?_census hr).symm
  · intro y hy hnot
    obtain ⟨r, hr⟩ := Node.mem_census hy none
    have hmem : ⟨y.id, y.kind, r⟩ ∈ tree.root.census none := by
      refine (List.mem_append.mp (hperm.mem_iff.mp (List.mem_append_right _ hr))).resolve_left ?_
      intro hfresh
      refine hnot ?_
      rw [← ids_flatMap_census q]
      exact List.mem_map_of_mem hfresh
    obtain ⟨x, hx, hid, -⟩ := Node.exists_of_mem_census hmem
    exact ⟨x, hx, hid⟩

end Tree

end CssTree
