import CssTree.Proofs.Tree.Bare
import CssTree.Proofs.Tree.Declared
import CssTree.Proofs.Tree.Faded

namespace CssTree

/-- No other id becomes the same. -/
def NodeId.Kept (ρ : NodeId → NodeId) (id : NodeId) : Prop := ∀ i, ρ i = id ↔ i = id

mutual

theorem Node.mapIds_mapIds (ρ σ : NodeId → NodeId) :
    ∀ n : Node, (n.mapIds ρ).mapIds σ = n.mapIds fun i => σ (ρ i)
  | ⟨_, _, _, es⟩ => by
    rw [Node.mapIds_mk, Node.mapIds_mk, Node.mapIds_mk, Element.mapIdsAll_mapIdsAll ρ σ es]

theorem Element.mapIdsAll_mapIdsAll (ρ σ : NodeId → NodeId) : ∀ es : List Element,
    Element.mapIdsAll σ (Element.mapIdsAll ρ es) = Element.mapIdsAll (fun i => σ (ρ i)) es
  | [] => rfl
  | .token t :: es => by
    simp only [Element.mapIdsAll_token, Element.mapIdsAll_mapIdsAll ρ σ es]
  | .node n :: es => by
    simp only [Element.mapIdsAll_node, Node.mapIds_mapIds ρ σ n, Element.mapIdsAll_mapIdsAll ρ σ es]

end

mutual

theorem Node.mapIds_congr {ρ σ : NodeId → NodeId} : ∀ {n : Node},
    (∀ i ∈ n.descendants.map Node.id, ρ i = σ i) → n.mapIds ρ = n.mapIds σ
  | ⟨id, _, _, es⟩, h => by
    rw [Node.descendants_mk, List.map_cons, List.forall_mem_cons] at h
    rw [Node.mapIds_mk, Node.mapIds_mk, Element.mapIdsAll_congr h.2, show ρ id = σ id from h.1]

theorem Element.mapIdsAll_congr {ρ σ : NodeId → NodeId} : ∀ {es : List Element},
    (∀ i ∈ (Element.descendantsOf es).map Node.id, ρ i = σ i) →
      Element.mapIdsAll ρ es = Element.mapIdsAll σ es
  | [], _ => rfl
  | .token t :: es, h => by
    rw [Element.descendantsOf_token] at h
    rw [Element.mapIdsAll_token, Element.mapIdsAll_token, Element.mapIdsAll_congr h]
  | .node n :: es, h => by
    rw [Element.descendantsOf_node, List.map_append, List.forall_mem_append] at h
    rw [Element.mapIdsAll_node, Element.mapIdsAll_node, Node.mapIds_congr h.1,
      Element.mapIdsAll_congr h.2]

end

mutual

theorem Node.anonymous_id : ∀ n : Node,
    n.anonymous (fun t => t) = n.mapIds fun _ => 0
  | ⟨_, _, _, es⟩ => by rw [Node.anonymous, Node.mapIds_mk, Element.anonymousAll_id es]

theorem Element.anonymousAll_id : ∀ es : List Element,
    Element.anonymousAll (fun t => t) es = Element.mapIdsAll (fun _ => 0) es
  | [] => rfl
  | .token t :: es => by
    rw [Element.anonymousAll, Element.mapIdsAll_token, Element.anonymousAll_id es]
  | .node n :: es => by
    rw [Element.anonymousAll, Element.mapIdsAll_node, Node.anonymous_id n,
      Element.anonymousAll_id es]

end

/-- Nodes that are the same but for their ids, none of which is below `k`. -/
theorem Node.mapIds_min_of_anonymous {n m : Node} {k : NodeId}
    (h : n.anonymous (fun t => t) = m.anonymous fun t => t)
    (hn : ∀ i ∈ n.descendants.map Node.id, k ≤ i) (hm : ∀ i ∈ m.descendants.map Node.id, k ≤ i) :
    n.mapIds (min · k) = m.mapIds (min · k) := by
  have hconst : ∀ x : Node, (∀ i ∈ x.descendants.map Node.id, k ≤ i) →
      x.mapIds (min · k) = (x.anonymous fun t => t).mapIds fun _ => k := by
    intro x hx
    rw [Node.anonymous_id, Node.mapIds_mapIds]
    exact Node.mapIds_congr fun i hi => Nat.min_eq_right (hx i hi)
  rw [hconst n hn, hconst m hm, h]

mutual

theorem Node.ids_mapIds (ρ : NodeId → NodeId) : ∀ n : Node,
    (n.mapIds ρ).descendants.map Node.id = (n.descendants.map Node.id).map ρ
  | ⟨id, kind, span, es⟩ => by
    rw [Node.mapIds_mk, Node.descendants_mk, Node.descendants_mk, List.map_cons, List.map_cons,
      List.map_cons, Element.ids_mapIdsAll ρ es]

theorem Element.ids_mapIdsAll (ρ : NodeId → NodeId) : ∀ es : List Element,
    (Element.descendantsOf (Element.mapIdsAll ρ es)).map Node.id =
      ((Element.descendantsOf es).map Node.id).map ρ
  | [] => rfl
  | .token t :: es => by
    rw [Element.mapIdsAll_token, Element.descendantsOf_token, Element.descendantsOf_token,
      Element.ids_mapIdsAll ρ es]
  | .node n :: es => by
    rw [Element.mapIdsAll_node, Element.descendantsOf_node, Element.descendantsOf_node,
      List.map_append, List.map_append, List.map_append, Node.ids_mapIds ρ n,
      Element.ids_mapIdsAll ρ es]

end

section Update

variable {i j : NodeId} {y z : Node}

mutual

theorem Node.mapIds_update {ρ : NodeId → NodeId} (h : NodeId.Kept ρ i) : ∀ n : Node,
    (n.update i fun _ => y).mapIds ρ = (n.mapIds ρ).update i fun _ => y.mapIds ρ
  | ⟨id, kind, span, es⟩ => by
    rw [Node.mapIds_mk, Node.update, Node.update]
    by_cases heq : id = i
    · rw [if_pos heq, if_pos ((h id).mpr heq)]
    · rw [if_neg heq, if_neg fun hρ => heq ((h id).mp hρ), Node.mapIds_mk,
        Element.mapIdsAll_updateAll h es]

theorem Element.mapIdsAll_updateAll {ρ : NodeId → NodeId} (h : NodeId.Kept ρ i) :
    ∀ es : List Element, Element.mapIdsAll ρ (Element.updateAll i (fun _ => y) es) =
      Element.updateAll i (fun _ => y.mapIds ρ) (Element.mapIdsAll ρ es)
  | [] => rfl
  | .token t :: es => by
    rw [Element.updateAll, Element.mapIdsAll_token, Element.mapIdsAll_token, Element.updateAll,
      Element.mapIdsAll_updateAll h es]
  | .node n :: es => by
    rw [Element.updateAll, Element.mapIdsAll_node, Element.mapIdsAll_node, Element.updateAll,
      Node.mapIds_update h n, Element.mapIdsAll_updateAll h es]

end

mutual

/-- Two nodes are exchanged for others, neither of which has the other id below it. -/
theorem Node.update_comm (hne : i ≠ j) (hy : j ∉ y.descendants.map Node.id)
    (hz : i ∉ z.descendants.map Node.id) : ∀ n : Node,
    (n.update i fun _ => y).update j (fun _ => z) = (n.update j fun _ => z).update i fun _ => y
  | ⟨id, kind, span, es⟩ => by
    rw [Node.update, Node.update]
    by_cases hi : id = i
    · have hj : id ≠ j := fun hj => hne (hi.symm.trans hj)
      rw [if_pos hi, if_neg hj, Node.update, if_pos hi, Node.update_of_not_mem _ hy]
    · by_cases hj : id = j
      · rw [if_neg hi, if_pos hj, Node.update, if_pos hj, Node.update_of_not_mem _ hz]
      · rw [if_neg hi, if_neg hj, Node.update, Node.update, if_neg hi, if_neg hj,
          Element.updateAll_comm hne hy hz es]

theorem Element.updateAll_comm (hne : i ≠ j) (hy : j ∉ y.descendants.map Node.id)
    (hz : i ∉ z.descendants.map Node.id) : ∀ es : List Element,
    Element.updateAll j (fun _ => z) (Element.updateAll i (fun _ => y) es) =
      Element.updateAll i (fun _ => y) (Element.updateAll j (fun _ => z) es)
  | [] => rfl
  | .token t :: es => by simp only [Element.updateAll, Element.updateAll_comm hne hy hz es]
  | .node n :: es => by
    simp only [Element.updateAll, Node.update_comm hne hy hz n, Element.updateAll_comm hne hy hz es]

end

end Update

theorem Element.mapIdsAll_eq_map (ρ : NodeId → NodeId) (es : List Element) :
    mapIdsAll ρ es = es.map (Element.map (·.mapIds ρ) fun t => t) := by
  induction es with
  | nil => rfl
  | cons e es ih => cases e <;> simp [ih, Element.map]

/-- What is made of a declaration is the same if its parts are. -/
theorem Node.mapIds_mapDeclaration_congr {ρ : NodeId → NodeId} {F G : Declaration → Declaration}
    {n : Node} (h : ∀ d, n.declaration? = some d →
      (F d).map (·.mapIds ρ) (fun t => t) = (G d).map (·.mapIds ρ) fun t => t) :
    (n.mapDeclaration F).mapIds ρ = (n.mapDeclaration G).mapIds ρ := by
  rw [mapDeclaration, mapDeclaration]
  cases hd : n.declaration? with
  | none => rfl
  | some d =>
    have helements := congrArg Declaration.elements (h d hd)
    rw [Declaration.elements_map, Declaration.elements_map, ← Element.mapIdsAll_eq_map,
      ← Element.mapIdsAll_eq_map] at helements
    exact congrArg (Node.mk (ρ n.id) n.kind n.span) helements

end CssTree
