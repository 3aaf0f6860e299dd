import CssTree.Edit.Basic
import CssTree.Proofs.Tree.Laid
import CssTree.Proofs.Tree.Relist
import CssTree.Proofs.Tree.Respan
import CssTree.Proofs.Tree.Update

namespace CssTree

mutual

/-- The tokens in front of the node called `id`; none if it is not there. -/
def Node.ahead? (id : NodeId) : Node → Option (List Token)
  | ⟨i, _, _, es⟩ => if i = id then some [] else Element.aheadIn? id es

def Element.aheadIn? (id : NodeId) : List Element → Option (List Token)
  | [] => none
  | .token t :: es => (Element.aheadIn? id es).map (t :: ·)
  | .node n :: es => (n.ahead? id).or ((Element.aheadIn? id es).map (n.tokens ++ ·))

end

theorem Node.ahead?_self (n : Node) : n.ahead? n.id = some [] := by
  cases n
  rw [Node.ahead?, if_pos rfl]

mutual

theorem Node.ahead?_of_not_mem {id : NodeId} : ∀ {n : Node}, id ∉ n.descendants.map Node.id →
    n.ahead? id = none
  | ⟨i, kind, span, es⟩, h => by
    rw [Node.descendants_mk, List.map_cons, List.mem_cons, not_or] at h
    rw [Node.ahead?, if_neg (Ne.symm h.1), Element.aheadIn?_of_not_mem h.2]

theorem Element.aheadIn?_of_not_mem {id : NodeId} : ∀ {es : List Element},
    id ∉ (Element.descendantsOf es).map Node.id → Element.aheadIn? id es = none
  | [], _ => rfl
  | .token t :: es, h => by
    rw [Element.descendantsOf_token] at h
    rw [Element.aheadIn?, Element.aheadIn?_of_not_mem h]
    rfl
  | .node n :: es, h => by
    rw [Element.descendantsOf_node, List.map_append, List.mem_append, not_or] at h
    rw [Element.aheadIn?, Node.ahead?_of_not_mem h.1, Element.aheadIn?_of_not_mem h.2]
    rfl

end

namespace Element

variable {id : NodeId}

theorem aheadIn?_append {es : List Element} (h : id ∉ (descendantsOf es).map Node.id)
    (fs : List Element) : aheadIn? id (es ++ fs) = (aheadIn? id fs).map (tokensOf es ++ ·) := by
  induction es with
  | nil =>
    show aheadIn? id fs = _
    cases aheadIn? id fs <;> rfl
  | cons e es ih =>
    cases e with
    | token t =>
      rw [List.cons_append, aheadIn?, ih (by simpa using h), tokensOf_token]
      cases aheadIn? id fs <;> rfl
    | node n =>
      rw [descendantsOf_node, List.map_append, List.mem_append, not_or] at h
      rw [List.cons_append, aheadIn?, ih h.2, Node.ahead?_of_not_mem h.1, tokensOf_node]
      cases aheadIn? id fs <;> simp

end Element

mutual

/-- A change of a node leaves the tokens in front of it and behind it alone. -/
theorem Node.ahead?_split : ∀ {n m : Node}, (n.descendants.map Node.id).Nodup →
    m ∈ n.descendants → ∃ front back, n.ahead? m.id = some front ∧
      n.tokens = front ++ m.tokens ++ back ∧
        ∀ f, (n.update m.id f).tokens = front ++ (f m).tokens ++ back
  | ⟨i, kind, span, es⟩, m, hnodup, hm => by
    rw [Node.descendants_mk] at hnodup hm
    rcases List.mem_cons.mp hm with rfl | hm
    · refine ⟨[], [], Node.ahead?_self _, by simp, fun f => ?_⟩
      rw [Node.update, if_pos rfl]
      simp
    · rw [List.map_cons, List.nodup_cons] at hnodup
      have hmem : m.id ∈ (Element.descendantsOf es).map Node.id := List.mem_map_of_mem hm
      have hne : i ≠ m.id := fun heq => hnodup.1 (heq ▸ hmem)
      obtain ⟨front, back, hahead, htokens, hupdate⟩ := Element.aheadIn?_split hnodup.2 hm
      refine ⟨front, back, ?_, htokens, fun f => ?_⟩
      · rw [Node.ahead?, if_neg hne, hahead]
      · rw [Node.update, if_neg hne, Node.tokens_mk, hupdate f]

theorem Element.aheadIn?_split : ∀ {es : List Element} {m : Node},
    ((Element.descendantsOf es).map Node.id).Nodup → m ∈ Element.descendantsOf es →
      ∃ front back, Element.aheadIn? m.id es = some front ∧
        Element.tokensOf es = front ++ m.tokens ++ back ∧
          ∀ f, Element.tokensOf (Element.updateAll m.id f es) = front ++ (f m).tokens ++ back
  | [], _, _, hm => by simp at hm
  | .token t :: es, m, hnodup, hm => by
    rw [Element.descendantsOf_token] at hnodup hm
    obtain ⟨front, back, hahead, htokens, hupdate⟩ := Element.aheadIn?_split hnodup hm
    refine ⟨t :: front, back, ?_, by simp [htokens], fun f => ?_⟩
    · rw [Element.aheadIn?, hahead]
      rfl
    · rw [Element.updateAll, Element.tokensOf_token, hupdate f]
      rfl
  | .node n :: es, m, hnodup, hm => by
    rw [Element.descendantsOf_node, List.map_append, List.nodup_append] at hnodup
    obtain ⟨hfirst, hrest, hdisjoint⟩ := hnodup
    rw [Element.descendantsOf_node] at hm
    rcases List.mem_append.mp hm with hm | hm
    · have hnot : m.id ∉ (Element.descendantsOf es).map Node.id := fun hmem =>
        hdisjoint _ (List.mem_map_of_mem hm) _ hmem rfl
      obtain ⟨front, back, hahead, htokens, hupdate⟩ := Node.ahead?_split hfirst hm
      refine ⟨front, back ++ Element.tokensOf es, ?_, by simp [htokens], fun f => ?_⟩
      · rw [Element.aheadIn?, hahead]
        rfl
      · rw [Element.updateAll, Element.tokensOf_node, hupdate f,
          Element.updateAll_of_not_mem f hnot]
        simp
    · have hnot : m.id ∉ n.descendants.map Node.id := fun hmem =>
        hdisjoint _ hmem _ (List.mem_map_of_mem hm) rfl
      obtain ⟨front, back, hahead, htokens, hupdate⟩ := Element.aheadIn?_split hrest hm
      refine ⟨n.tokens ++ front, back, ?_, by simp [htokens], fun f => ?_⟩
      · rw [Element.aheadIn?, Node.ahead?_of_not_mem hnot, hahead]
        rfl
      · rw [Element.updateAll, Element.tokensOf_node, hupdate f, Node.update_of_not_mem f hnot]
        simp

end

mutual

/-- The way to a node leads through the nodes around it. -/
theorem Node.ahead?_trans {id : NodeId} : ∀ {n m : Node} {front inner : List Token},
    (n.descendants.map Node.id).Nodup → m ∈ n.descendants → n.ahead? m.id = some front →
      m.ahead? id = some inner → n.ahead? id = some (front ++ inner)
  | ⟨i, kind, span, es⟩, m, front, inner, hnodup, hm, hfront, hinner => by
    rw [Node.descendants_mk] at hnodup hm
    rcases List.mem_cons.mp hm with rfl | hm
    · obtain rfl : front = [] := by simpa [Node.ahead?] using hfront.symm
      exact hinner
    · rw [List.map_cons, List.nodup_cons] at hnodup
      have hid : id ∈ (Element.descendantsOf es).map Node.id := by
        by_contra hnot
        have hmissing : id ∉ m.descendants.map Node.id := fun hmem =>
          hnot (List.map_subset Node.id (Element.descendants_contiguous hm).subset hmem)
        rw [Node.ahead?_of_not_mem hmissing] at hinner
        cases hinner
      have hmem : m.id ∈ (Element.descendantsOf es).map Node.id := List.mem_map_of_mem hm
      have hne : i ≠ m.id := fun heq => hnodup.1 (heq ▸ hmem)
      have hne' : i ≠ id := fun heq => hnodup.1 (heq ▸ hid)
      rw [Node.ahead?, if_neg hne] at hfront
      rw [Node.ahead?, if_neg hne', Element.aheadIn?_trans hnodup.2 hm hfront hinner]

theorem Element.aheadIn?_trans {id : NodeId} : ∀ {es : List Element} {m : Node}
    {front inner : List Token}, ((Element.descendantsOf es).map Node.id).Nodup →
      m ∈ Element.descendantsOf es → Element.aheadIn? m.id es = some front →
        m.ahead? id = some inner → Element.aheadIn? id es = some (front ++ inner)
  | [], _, _, _, _, hm, _, _ => by simp at hm
  | .token t :: es, m, front, inner, hnodup, hm, hfront, hinner => by
    rw [Element.descendantsOf_token] at hnodup hm
    rw [Element.aheadIn?] at hfront
    obtain ⟨front', hfront', rfl⟩ := Option.map_eq_some_iff.mp hfront
    rw [Element.aheadIn?, Element.aheadIn?_trans hnodup hm hfront' hinner]
    rfl
  | .node n :: es, m, front, inner, hnodup, hm, hfront, hinner => by
    rw [Element.descendantsOf_node, List.map_append, List.nodup_append] at hnodup
    obtain ⟨hfirst, hrest, hdisjoint⟩ := hnodup
    rw [Element.descendantsOf_node] at hm
    rw [Element.aheadIn?] at hfront
    rcases List.mem_append.mp hm with hm | hm
    · obtain ⟨front', -, hahead, -⟩ := Node.ahead?_split hfirst hm
      rw [hahead, Option.some_or] at hfront
      obtain rfl := Option.some.inj hfront
      rw [Element.aheadIn?, Node.ahead?_trans hfirst hm hahead hinner]
      rfl
    · have hmem : m.descendants.map Node.id ⊆ (Element.descendantsOf es).map Node.id :=
        List.map_subset Node.id (Element.descendants_contiguous hm).subset
      have hnot : ∀ i ∈ m.descendants.map Node.id, i ∉ n.descendants.map Node.id :=
        fun i hi hin => hdisjoint _ hin _ (hmem hi) rfl
      have hid : id ∈ m.descendants.map Node.id := by
        by_contra hmissing
        rw [Node.ahead?_of_not_mem hmissing] at hinner
        cases hinner
      have hself : m.id ∈ m.descendants.map Node.id := List.mem_map_of_mem m.mem_descendants_self
      rw [Node.ahead?_of_not_mem (hnot _ hself), Option.none_or] at hfront
      obtain ⟨front', hfront', rfl⟩ := Option.map_eq_some_iff.mp hfront
      rw [Element.aheadIn?, Node.ahead?_of_not_mem (hnot _ hid),
        Element.aheadIn?_trans hrest hm hfront' hinner]
      simp

end

mutual

/-- A node lies behind the tokens in front of it. -/
theorem Node.Laid.ahead : ∀ {before : Text} {n m : Node} {front : List Token}, n.Laid before →
    (n.descendants.map Node.id).Nodup → m ∈ n.descendants → n.ahead? m.id = some front →
      m.Laid (before ++ Token.renderAll front)
  | before, ⟨i, kind, span, es⟩, m, front, h, hnodup, hm, hfront => by
    rw [Node.descendants_mk] at hnodup hm
    rcases List.mem_cons.mp hm with rfl | hm
    · obtain rfl : front = [] := by simpa [Node.ahead?] using hfront.symm
      simpa using h
    · rw [List.map_cons, List.nodup_cons] at hnodup
      have hmem : m.id ∈ (Element.descendantsOf es).map Node.id := List.mem_map_of_mem hm
      have hne : i ≠ m.id := fun heq => hnodup.1 (heq ▸ hmem)
      rw [Node.ahead?, if_neg hne] at hfront
      exact Element.LaidAll.ahead h.2 hnodup.2 hm hfront

theorem Element.LaidAll.ahead : ∀ {before : Text} {es : List Element} {m : Node}
    {front : List Token}, Element.LaidAll before es →
      ((Element.descendantsOf es).map Node.id).Nodup → m ∈ Element.descendantsOf es →
        Element.aheadIn? m.id es = some front → m.Laid (before ++ Token.renderAll front)
  | _, [], _, _, _, _, hm, _ => by simp at hm
  | before, .token t :: es, m, front, h, hnodup, hm, hfront => by
    rw [Element.descendantsOf_token] at hnodup hm
    rw [Element.aheadIn?] at hfront
    obtain ⟨front', hfront', rfl⟩ := Option.map_eq_some_iff.mp hfront
    simpa using Element.LaidAll.ahead h.2 hnodup hm hfront'
  | before, .node n :: es, m, front, h, hnodup, hm, hfront => by
    rw [Element.descendantsOf_node, List.map_append, List.nodup_append] at hnodup
    obtain ⟨hfirst, hrest, hdisjoint⟩ := hnodup
    rw [Element.descendantsOf_node] at hm
    rw [Element.aheadIn?] at hfront
    rcases List.mem_append.mp hm with hm | hm
    · obtain ⟨front', -, hahead, -⟩ := Node.ahead?_split hfirst hm
      rw [hahead, Option.some_or] at hfront
      exact Node.Laid.ahead h.1 hfirst hm (hahead.trans hfront)
    · have hnot : m.id ∉ n.descendants.map Node.id := fun hmem =>
        hdisjoint _ hmem _ (List.mem_map_of_mem hm) rfl
      rw [Node.ahead?_of_not_mem hnot, Option.none_or] at hfront
      obtain ⟨front', hfront', rfl⟩ := Option.map_eq_some_iff.mp hfront
      simpa [Node.render] using Element.LaidAll.ahead h.2 hrest hm hfront'

end

mutual

/-- A change of a node is a change of any node around it. -/
theorem Node.update_within (id : NodeId) (f : Node → Node) : ∀ {n m : Node},
    (n.descendants.map Node.id).Nodup → m ∈ n.descendants → id ∈ m.descendants.map Node.id →
      n.update id f = n.update m.id (·.update id f)
  | ⟨i, kind, span, es⟩, m, hnodup, hm, hid => by
    rw [Node.descendants_mk] at hnodup hm
    rcases List.mem_cons.mp hm with rfl | hm
    · conv_rhs => rw [Node.update, if_pos rfl]
    · rw [List.map_cons, List.nodup_cons] at hnodup
      have hin : id ∈ (Element.descendantsOf es).map Node.id :=
        List.map_subset Node.id (Element.descendants_contiguous hm).subset hid
      have hmem : m.id ∈ (Element.descendantsOf es).map Node.id := List.mem_map_of_mem hm
      have hne : i ≠ m.id := fun heq => hnodup.1 (heq ▸ hmem)
      have hne' : i ≠ id := fun heq => hnodup.1 (heq ▸ hin)
      rw [Node.update, if_neg hne', Node.update, if_neg hne,
        Element.updateAll_within id f hnodup.2 hm hid]

theorem Element.updateAll_within (id : NodeId) (f : Node → Node) :
    ∀ {es : List Element} {m : Node},
    ((Element.descendantsOf es).map Node.id).Nodup → m ∈ Element.descendantsOf es →
      id ∈ m.descendants.map Node.id →
        Element.updateAll id f es = Element.updateAll m.id (·.update id f) es
  | [], _, _, hm, _ => by simp at hm
  | .token t :: es, m, hnodup, hm, hid => by
    rw [Element.descendantsOf_token] at hnodup hm
    rw [Element.updateAll, Element.updateAll, Element.updateAll_within id f hnodup hm hid]
  | .node n :: es, m, hnodup, hm, hid => by
    rw [Element.descendantsOf_node, List.map_append, List.nodup_append] at hnodup
    obtain ⟨hfirst, hrest, hdisjoint⟩ := hnodup
    rw [Element.descendantsOf_node] at hm
    rw [Element.updateAll, Element.updateAll]
    have hself : m.id ∈ m.descendants.map Node.id := List.mem_map_of_mem m.mem_descendants_self
    rcases List.mem_append.mp hm with hm | hm
    · have hnot : ∀ i ∈ m.descendants.map Node.id, i ∉ (Element.descendantsOf es).map Node.id :=
        fun i hi hin =>
          hdisjoint _ (List.map_subset Node.id (Node.descendants_contiguous hm).subset hi) _ hin rfl
      rw [Node.update_within id f hfirst hm hid, Element.updateAll_of_not_mem _ (hnot _ hid),
        Element.updateAll_of_not_mem _ (hnot _ hself)]
    · have hnot : ∀ i ∈ m.descendants.map Node.id, i ∉ n.descendants.map Node.id :=
        fun i hi hin =>
          hdisjoint _ hin _ (List.map_subset Node.id (Element.descendants_contiguous hm).subset hi) rfl
      rw [Element.updateAll_within id f hrest hm hid, Node.update_of_not_mem _ (hnot _ hid),
        Node.update_of_not_mem _ (hnot _ hself)]

end

mutual

/-- A change that keeps the tokens of nodes keeps those of the tree. -/
theorem Node.tokens_update {id : NodeId} {f : Node → Node} (hf : ∀ m, (f m).tokens = m.tokens) :
    ∀ n : Node, (n.update id f).tokens = n.tokens
  | ⟨i, kind, span, es⟩ => by
    rw [Node.update]
    split
    · exact hf _
    · exact Element.tokensOf_updateAll hf es

theorem Element.tokensOf_updateAll {id : NodeId} {f : Node → Node}
    (hf : ∀ m, (f m).tokens = m.tokens) :
    ∀ es : List Element, Element.tokensOf (Element.updateAll id f es) = Element.tokensOf es
  | [] => rfl
  | .token t :: es => by
    rw [Element.updateAll, Element.tokensOf_token, Element.tokensOf_token,
      Element.tokensOf_updateAll hf es]
  | .node n :: es => by
    rw [Element.updateAll, Element.tokensOf_node, Element.tokensOf_node, Node.tokens_update hf n,
      Element.tokensOf_updateAll hf es]

end

namespace Tree

variable {tree : Tree}

theorem tokens_respan (id : NodeId) (tree : Tree) :
    (tree.respan id).root.tokens = tree.root.tokens :=
  Node.tokens_update Node.tokens_respan tree.root

theorem render_respan (id : NodeId) (tree : Tree) : (tree.respan id).render = tree.render :=
  congrArg Token.renderAll (tokens_respan id tree)

theorem find?_respan {n : Node} {id : NodeId} (h : tree.find? id = some n) :
    (tree.respan id).find? id = some n.respan := by
  show (tree.root.update id Node.respan).find? id = some n.respan
  rw [Node.find?_update id fun m => Node.id_of_skeleton m.skeleton_respan]
  exact congrArg (Option.map Node.respan) h

end Tree

end CssTree
