import CssTree.Proofs.Tree.Arena
import CssTree.Tree.Validity

namespace CssTree

namespace Tree

/-- The nodes in use are those of the tree, under different ids, each with its parent noted. -/
def Linked (tree : Tree) : Prop := Arena.empty.Grown (tree.root.entries none) tree.arena

end Tree

mutual

/-- What is noted for a child is the node that lists it. -/
theorem Node.mem_entries_child : ∀ {p : Option NodeId} {n m c : Node}, m ∈ n.descendants →
    c ∈ m.children → (c.id, some m.id) ∈ n.entries p
  | p, ⟨id, kind, span, es⟩, m, c, hm, hc => by
    rw [Node.descendants_mk] at hm
    rw [Node.entries]
    rcases List.mem_cons.mp hm with rfl | hm
    · refine List.mem_cons_of_mem _ ((Element.entriesOf_perm (some id) es).mem_iff.mpr ?_)
      exact List.mem_append_left _ (List.mem_map.mpr ⟨c, hc, rfl⟩)
    · exact List.mem_cons_of_mem _ (Element.mem_entries_child hm hc)

theorem Element.mem_entries_child : ∀ {p : Option NodeId} {es : List Element} {m c : Node},
    m ∈ Element.descendantsOf es → c ∈ m.children → (c.id, some m.id) ∈ Element.entriesOf p es
  | _, [], _, _, hm, _ => by simp at hm
  | p, .token t :: es, m, c, hm, hc => by
    rw [Element.descendantsOf_token] at hm
    rw [Element.entriesOf_token]
    exact Element.mem_entries_child hm hc
  | p, .node n :: es, m, c, hm, hc => by
    rw [Element.descendantsOf_node] at hm
    rw [Element.entriesOf_node]
    rcases List.mem_append.mp hm with hm | hm
    · exact List.mem_append_left _ (Node.mem_entries_child hm hc)
    · exact List.mem_append_right _ (Element.mem_entries_child hm hc)

end

namespace Tree

variable {tree : Tree}

theorem Linked.mem_iff (h : tree.Linked) (id : NodeId) :
    tree.contains id = true ↔ id ∈ tree.root.descendants.map Node.id := by
  rw [← tree.root.ids_entries none, Tree.contains, Arena.contains_iff]
  constructor
  · rintro ⟨p, hp⟩
    by_contra hid
    rw [h.others id hid] at hp
    simp [Arena.empty] at hp
  · intro hid
    obtain ⟨e, he, rfl⟩ := List.mem_map.mp hid
    exact ⟨e.2, h.found e he⟩

theorem Linked.nodup (h : tree.Linked) : (tree.root.descendants.map Node.id).Nodup := by
  rw [← tree.root.ids_entries none]
  exact Arena.Grown.nodup h

/-- There are as many nodes in use as there are in the tree. -/
theorem Linked.size_eq (h : tree.Linked) : tree.size = tree.root.descendants.length := by
  have hkeys : tree.arena.parents.keys.Perm (tree.root.descendants.map Node.id) := by
    refine (List.perm_ext_iff_of_nodup tree.arena.parents.nodup_keys h.nodup).mpr fun id => ?_
    rw [← h.mem_iff id, Std.ExtTreeMap.mem_keys, ← Std.ExtTreeMap.contains_iff_mem]
    rfl
  rw [Tree.size, Arena.size, ← Std.ExtTreeMap.length_keys, hkeys.length_eq, List.length_map]

/-- The node noted as the parent of a child is the one that lists it. -/
theorem Linked.parent?_child (h : tree.Linked) {m c : Node} (hm : m ∈ tree.root.descendants)
    (hc : c ∈ m.children) : tree.arena.parent? c.id = some m.id := by
  rw [Arena.parent?, h.found _ (Node.mem_entries_child hm hc), Option.join_some]

theorem Linked.parent?_root (h : tree.Linked) : tree.arena.parent? tree.root.id = none := by
  have hroot : (tree.root.id, none) ∈ tree.root.entries none := by
    rw [Node.entries_eq]
    exact List.mem_cons_self
  rw [Arena.parent?, h.found _ hroot, Option.join_some]

theorem Linked.linkFaults_eq_nil (h : tree.Linked) : tree.linkFaults = [] := by
  simp only [Tree.linkFaults, List.append_eq_nil_iff, List.map_eq_nil_iff,
    List.flatMap_eq_nil_iff, LinkFault.ofNode]
  refine ⟨fun m hm c hc => if_pos (h.parent?_child hm hc), ?_⟩
  rw [List.filter_eq_nil_iff]
  intro id hid
  have hmem := (h.mem_iff id).mp (by
    rwa [Tree.contains, Arena.contains, Std.ExtTreeMap.contains_iff_mem,
      ← Std.ExtTreeMap.mem_keys])
  simpa using hmem

end Tree

end CssTree
