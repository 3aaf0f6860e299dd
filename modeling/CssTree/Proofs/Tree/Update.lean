import CssTree.Proofs.Tree.Skeleton

namespace CssTree

mutual

theorem Node.update_of_not_mem {id : NodeId} (f : Node → Node) : ∀ {n : Node},
    id ∉ n.descendants.map Node.id → n.update id f = n
  | ⟨i, kind, span, es⟩, h => by
    rw [Node.descendants_mk, List.map_cons, List.mem_cons, not_or] at h
    rw [Node.update, if_neg (Ne.symm h.1), Element.updateAll_of_not_mem f h.2]

theorem Element.updateAll_of_not_mem {id : NodeId} (f : Node → Node) : ∀ {es : List Element},
    id ∉ (Element.descendantsOf es).map Node.id → Element.updateAll id f es = es
  | [], _ => rfl
  | .token t :: es, h => by
    rw [Element.descendantsOf_token] at h
    rw [Element.updateAll, Element.updateAll_of_not_mem f h]
  | .node n :: es, h => by
    rw [Element.descendantsOf_node, List.map_append, List.mem_append, not_or] at h
    rw [Element.updateAll, Node.update_of_not_mem f h.1, Element.updateAll_of_not_mem f h.2]

end

mutual

theorem Node.descendants_contiguous : ∀ {n m : Node}, m ∈ n.descendants →
    m.descendants <:+: n.descendants
  | ⟨id, kind, span, es⟩, m, hm => by
    rw [Node.descendants_mk] at hm
    rcases List.mem_cons.mp hm with rfl | hm
    · exact List.infix_refl _
    · rw [Node.descendants_mk]
      exact List.infix_cons (Element.descendants_contiguous hm)

theorem Element.descendants_contiguous : ∀ {es : List Element} {m : Node},
    m ∈ Element.descendantsOf es → m.descendants <:+: Element.descendantsOf es
  | [], _, hm => by simp at hm
  | .token t :: es, m, hm => by
    rw [Element.descendantsOf_token] at hm ⊢
    exact Element.descendants_contiguous hm
  | .node n :: es, m, hm => by
    rw [Element.descendantsOf_node] at hm ⊢
    rcases List.mem_append.mp hm with hm | hm
    · exact List.IsInfix.trans (Node.descendants_contiguous hm) (List.prefix_append _ _).isInfix
    · exact List.IsInfix.trans (Element.descendants_contiguous hm) (List.suffix_append _ _).isInfix

end

mutual

/-- Every node below another is a child of one of its nodes. -/
theorem Node.exists_parent : ∀ {n x : Node}, x ∈ n.descendants →
    x = n ∨ ∃ m ∈ n.descendants, x ∈ m.children
  | ⟨id, kind, span, es⟩, x, hx => by
    rw [Node.descendants_mk] at hx ⊢
    rcases List.mem_cons.mp hx with rfl | hx
    · exact Or.inl rfl
    · rcases Element.exists_parent hx with hx | ⟨m, hm, hx⟩
      · exact Or.inr ⟨_, List.mem_cons_self, hx⟩
      · exact Or.inr ⟨m, List.mem_cons_of_mem _ hm, hx⟩

theorem Element.exists_parent : ∀ {es : List Element} {x : Node}, x ∈ Element.descendantsOf es →
    x ∈ Element.nodes es ∨ ∃ m ∈ Element.descendantsOf es, x ∈ m.children
  | [], _, hx => by simp at hx
  | .token t :: es, x, hx => by
    rw [Element.descendantsOf_token] at hx ⊢
    rw [Element.nodes_token]
    exact Element.exists_parent hx
  | .node n :: es, x, hx => by
    rw [Element.descendantsOf_node] at hx ⊢
    rw [Element.nodes_node]
    rcases List.mem_append.mp hx with hx | hx
    · rcases Node.exists_parent hx with rfl | ⟨m, hm, hx⟩
      · exact Or.inl List.mem_cons_self
      · exact Or.inr ⟨m, List.mem_append_left _ hm, hx⟩
    · rcases Element.exists_parent hx with hx | ⟨m, hm, hx⟩
      · exact Or.inl (List.mem_cons_of_mem _ hx)
      · exact Or.inr ⟨m, List.mem_append_right _ hm, hx⟩

end

theorem Node.mem_descendants_trans {n m x : Node} (hm : m ∈ n.descendants)
    (hx : x ∈ m.descendants) : x ∈ n.descendants := (Node.descendants_contiguous hm).subset hx

/-- Where the nodes below one have ids of their own, so have those below any of them. -/
theorem Node.nodup_below {n m : Node} (hnodup : (n.descendants.map Node.id).Nodup)
    (hm : m ∈ n.descendants) : (m.descendants.map Node.id).Nodup :=
  hnodup.sublist ((Node.descendants_contiguous hm).sublist.map Node.id)

mutual

/-- The entries of a node that is changed stand in the middle of those of the tree. -/
theorem Node.entries_update : ∀ {p : Option NodeId} {n m : Node},
    (n.descendants.map Node.id).Nodup → m ∈ n.descendants →
      ∃ l r q, n.entries p = l ++ m.entries q ++ r ∧
        ∀ f, (n.update m.id f).entries p = l ++ (f m).entries q ++ r
  | p, ⟨i, kind, span, es⟩, m, hnodup, hm => by
    rw [Node.descendants_mk, List.map_cons, List.nodup_cons] at hnodup
    rw [Node.descendants_mk] at hm
    rcases List.mem_cons.mp hm with rfl | hm
    · refine ⟨[], [], p, by simp, fun f => ?_⟩
      rw [Node.update, if_pos rfl]
      simp
    · have hmem : m.id ∈ (Element.descendantsOf es).map Node.id := List.mem_map_of_mem hm
      have hne : i ≠ m.id := fun heq => hnodup.1 (heq ▸ hmem)
      obtain ⟨l, r, q, hentries, hupdate⟩ :=
        Element.entriesOf_updateAll (p := some i) hnodup.2 hm
      refine ⟨(i, p) :: l, r, q, ?_, fun f => ?_⟩
      · rw [Node.entries, hentries]
        rfl
      · rw [Node.update, if_neg hne, Node.entries, hupdate f]
        rfl

theorem Element.entriesOf_updateAll : ∀ {p : Option NodeId} {es : List Element} {m : Node},
    ((Element.descendantsOf es).map Node.id).Nodup → m ∈ Element.descendantsOf es →
      ∃ l r q, Element.entriesOf p es = l ++ m.entries q ++ r ∧
        ∀ f, Element.entriesOf p (Element.updateAll m.id f es) = l ++ (f m).entries q ++ r
  | _, [], _, _, hm => by simp at hm
  | p, .token t :: es, m, hnodup, hm => by
    rw [Element.descendantsOf_token] at hnodup hm
    rw [Element.entriesOf_token]
    simp only [Element.updateAll, Element.entriesOf_token]
    exact Element.entriesOf_updateAll hnodup hm
  | p, .node n :: es, m, hnodup, hm => by
    rw [Element.descendantsOf_node, List.map_append, List.nodup_append] at hnodup
    obtain ⟨hfirst, hrest, hdisjoint⟩ := hnodup
    rw [Element.descendantsOf_node] at hm
    rcases List.mem_append.mp hm with hm | hm
    · have hnot : m.id ∉ (Element.descendantsOf es).map Node.id := fun hmem =>
        hdisjoint _ (List.mem_map_of_mem hm) _ hmem rfl
      obtain ⟨l, r, q, hentries, hupdate⟩ := Node.entries_update (p := p) hfirst hm
      refine ⟨l, r ++ Element.entriesOf p es, q, ?_, fun f => ?_⟩
      · rw [Element.entriesOf_node, hentries]
        simp
      · rw [Element.updateAll, Element.entriesOf_node, hupdate f,
          Element.updateAll_of_not_mem f hnot]
        simp
    · have hnot : m.id ∉ n.descendants.map Node.id := fun hmem =>
        hdisjoint _ hmem _ (List.mem_map_of_mem hm) rfl
      obtain ⟨l, r, q, hentries, hupdate⟩ := Element.entriesOf_updateAll (p := p) hrest hm
      refine ⟨n.entries p ++ l, r, q, ?_, fun f => ?_⟩
      · rw [Element.entriesOf_node, hentries]
        simp
      · rw [Element.updateAll, Element.entriesOf_node, hupdate f,
          Node.update_of_not_mem f hnot]
        simp

end

theorem Element.roles_updateAll (id : NodeId) (f : Node → Node) (es : List Element) :
    (updateAll id f es).map role = es.map role := by
  induction es with
  | nil => rfl
  | cons e es ih => cases e <;> simp [updateAll, role, ih]

theorem Element.nodes_updateAll (id : NodeId) (f : Node → Node) (es : List Element) :
    nodes (updateAll id f es) = (nodes es).map (·.update id f) := by
  induction es with
  | nil => rfl
  | cons e es ih => cases e <;> simp [updateAll, ih]

mutual

/-- What holds of every node of a tree holds after a change of one if it holds of the changed node
and what is below it, and still of the nodes around it. -/
theorem Node.all_update {Q : Node → Prop} {id : NodeId} {f : Node → Node} : ∀ {n : Node},
    (∀ x ∈ n.descendants, Q x) →
      (∀ m ∈ n.descendants, m.id = id → ∀ x ∈ (f m).descendants, Q x) →
        (∀ p ∈ n.descendants, Q { p with elements := Element.updateAll id f p.elements }) →
          ∀ x ∈ (n.update id f).descendants, Q x
  | ⟨i, kind, span, es⟩, h, hf, haround => by
    rw [Node.update]
    split
    next heq => exact hf _ (by simp) heq
    next hne =>
      intro x hx
      rw [Node.descendants_mk] at hx
      rcases List.mem_cons.mp hx with rfl | hx
      · exact haround ⟨i, kind, span, es⟩ (by simp)
      · exact Element.all_updateAll (fun y hy => h y (by simp [hy]))
          (fun m hm => hf m (by simp [hm])) (fun p hp => haround p (by simp [hp])) x hx

theorem Element.all_updateAll {Q : Node → Prop} {id : NodeId} {f : Node → Node} :
    ∀ {es : List Element}, (∀ x ∈ Element.descendantsOf es, Q x) →
      (∀ m ∈ Element.descendantsOf es, m.id = id → ∀ x ∈ (f m).descendants, Q x) →
        (∀ p ∈ Element.descendantsOf es,
          Q { p with elements := Element.updateAll id f p.elements }) →
          ∀ x ∈ Element.descendantsOf (Element.updateAll id f es), Q x
  | [], _, _, _ => by simp [Element.updateAll]
  | .token t :: es, h, hf, haround => by
    rw [Element.descendantsOf_token] at h hf haround
    rw [Element.updateAll, Element.descendantsOf_token]
    exact Element.all_updateAll h hf haround
  | .node n :: es, h, hf, haround => by
    intro x hx
    rw [Element.updateAll, Element.descendantsOf_node] at hx
    rcases List.mem_append.mp hx with hx | hx
    · exact Node.all_update (fun y hy => h y (by simp [hy])) (fun m hm => hf m (by simp [hm]))
        (fun p hp => haround p (by simp [hp])) x hx
    · exact Element.all_updateAll (fun y hy => h y (by simp [hy]))
        (fun m hm => hf m (by simp [hm])) (fun p hp => haround p (by simp [hp])) x hx

end

/-- A tree stays well-formed if the changed node is well-formed. -/
theorem Node.formed_update {id : NodeId} {f : Node → Node} {n : Node}
    (h : ∀ x ∈ n.descendants, x.Formed)
    (hf : ∀ m ∈ n.descendants, m.id = id → ∀ x ∈ (f m).descendants, x.Formed) :
    ∀ x ∈ (n.update id f).descendants, x.Formed :=
  Node.all_update h hf fun p hp => (h p hp).of_roles rfl (Element.roles_updateAll id f p.elements)

mutual

/-- A node around the one that is changed stays in the tree, with the change in it. -/
theorem Node.mem_update {id : NodeId} (f : Node → Node) : ∀ {n m : Node},
    (n.descendants.map Node.id).Nodup → m ∈ n.descendants → id ∈ m.descendants.map Node.id →
      m.update id f ∈ (n.update id f).descendants
  | ⟨i, kind, span, es⟩, m, hnodup, hm, hid => by
    have hself : ∀ x : Node, x ∈ x.descendants := fun x => by
      cases x
      simp
    rw [Node.descendants_mk] at hm
    rcases List.mem_cons.mp hm with rfl | hm
    · exact hself _
    · rw [Node.descendants_mk, List.map_cons, List.nodup_cons] at hnodup
      obtain ⟨x, hx, rfl⟩ := List.mem_map.mp hid
      have hmem : x.id ∈ (Element.descendantsOf es).map Node.id :=
        List.mem_map_of_mem ((Element.descendants_contiguous hm).subset hx)
      have hne : i ≠ x.id := fun heq => hnodup.1 (heq ▸ hmem)
      rw [Node.update, if_neg hne, Node.descendants_mk]
      exact List.mem_cons_of_mem _ (Element.mem_updateAll f hnodup.2 hm hid)

theorem Element.mem_updateAll {id : NodeId} (f : Node → Node) : ∀ {es : List Element} {m : Node},
    ((Element.descendantsOf es).map Node.id).Nodup → m ∈ Element.descendantsOf es →
      id ∈ m.descendants.map Node.id →
        m.update id f ∈ Element.descendantsOf (Element.updateAll id f es)
  | [], _, _, hm, _ => by simp at hm
  | .token t :: es, m, hnodup, hm, hid => by
    rw [Element.descendantsOf_token] at hnodup hm
    rw [Element.updateAll, Element.descendantsOf_token]
    exact Element.mem_updateAll f hnodup hm hid
  | .node n :: es, m, hnodup, hm, hid => by
    rw [Element.descendantsOf_node, List.map_append, List.nodup_append] at hnodup
    rw [Element.descendantsOf_node] at hm
    rw [Element.updateAll, Element.descendantsOf_node]
    rcases List.mem_append.mp hm with hm | hm
    · exact List.mem_append_left _ (Node.mem_update f hnodup.1 hm hid)
    · exact List.mem_append_right _ (Element.mem_updateAll f hnodup.2.1 hm hid)

end

mutual

/-- Two changes of one node. -/
theorem Node.update_update {id : NodeId} {f : Node → Node} (hf : ∀ m, (f m).id = m.id)
    (g : Node → Node) : ∀ n : Node, (n.update id f).update id g = n.update id fun m => g (f m)
  | ⟨i, kind, span, es⟩ => by
    rw [Node.update, Node.update]
    by_cases heq : i = id
    · rw [if_pos heq, if_pos heq]
      have hid : (f ⟨i, kind, span, es⟩).id = id := (hf _).trans heq
      generalize f ⟨i, kind, span, es⟩ = m at hid ⊢
      cases m
      rw [Node.update, if_pos hid]
    · rw [if_neg heq, if_neg heq, Node.update, if_neg heq, Element.updateAll_updateAll hf g]

theorem Element.updateAll_updateAll {id : NodeId} {f : Node → Node} (hf : ∀ m, (f m).id = m.id)
    (g : Node → Node) : ∀ es : List Element,
      Element.updateAll id g (Element.updateAll id f es) =
        Element.updateAll id (fun m => g (f m)) es
  | [] => rfl
  | .token t :: es => by
    rw [Element.updateAll, Element.updateAll, Element.updateAll,
      Element.updateAll_updateAll hf g]
  | .node n :: es => by
    rw [Element.updateAll, Element.updateAll, Element.updateAll, Node.update_update hf g,
      Element.updateAll_updateAll hf g]

end

@[simp] theorem Node.find?_self (n : Node) : n.find? n.id = some n := by
  cases n
  rw [Node.find?, Node.descendants_mk]
  exact List.find?_cons_of_pos (by simp)

theorem Node.find?_of_mem {n m : Node} (hnodup : (n.descendants.map Node.id).Nodup)
    (hm : m ∈ n.descendants) : n.find? m.id = some m := by
  obtain ⟨x, hx⟩ : ∃ x, n.find? m.id = some x := by
    rw [← Option.isSome_iff_exists, Node.find?, List.find?_isSome]
    exact ⟨m, hm, by simp⟩
  have hid : x.id = m.id := by simpa using List.find?_some hx
  rw [hx, List.inj_on_of_nodup_map hnodup (List.mem_of_find?_eq_some hx) hm hid]

mutual

theorem Node.find?_update (id : NodeId) {f : Node → Node} (hf : ∀ m, (f m).id = m.id) :
    ∀ n : Node, (n.update id f).find? id = (n.find? id).map f
  | ⟨i, kind, span, es⟩ => by
    rw [Node.update]
    by_cases heq : i = id
    · subst heq
      have hself := Node.find?_self (f ⟨i, kind, span, es⟩)
      rw [hf] at hself
      rw [if_pos rfl, Node.find?_self ⟨i, kind, span, es⟩, Option.map_some]
      exact hself
    · rw [if_neg heq]
      have hrest := Element.find?_updateAll id hf es
      rw [Node.find?, Node.find?, Node.descendants_mk, Node.descendants_mk,
        List.find?_cons_of_neg (by simpa using heq), List.find?_cons_of_neg (by simpa using heq)]
      exact hrest

theorem Element.find?_updateAll (id : NodeId) {f : Node → Node} (hf : ∀ m, (f m).id = m.id) :
    ∀ es : List Element,
      (Element.descendantsOf (Element.updateAll id f es)).find? (·.id = id) =
        ((Element.descendantsOf es).find? (·.id = id)).map f
  | [] => rfl
  | .token t :: es => Element.find?_updateAll id hf es
  | .node n :: es => by
    have hn : (n.update id f).descendants.find? (·.id = id) =
        (n.descendants.find? (·.id = id)).map f := Node.find?_update id hf n
    have hes := Element.find?_updateAll id hf es
    rw [Element.updateAll, Element.descendantsOf_node, Element.descendantsOf_node,
      List.find?_append, List.find?_append, hn, hes]
    cases n.descendants.find? (·.id = id) <;> rfl

end

mutual

/-- Only what a change makes of the one node called so matters. -/
theorem Node.update_congr {f g : Node → Node} : ∀ {n m : Node},
    (n.descendants.map Node.id).Nodup → m ∈ n.descendants → f m = g m →
      n.update m.id f = n.update m.id g
  | ⟨i, kind, span, es⟩, m, hnodup, hm, h => by
    rw [Node.descendants_mk, List.map_cons, List.nodup_cons] at hnodup
    rw [Node.descendants_mk] at hm
    rcases List.mem_cons.mp hm with rfl | hm
    · rw [Node.update, if_pos rfl, Node.update, if_pos rfl, h]
    · have hmem : m.id ∈ (Element.descendantsOf es).map Node.id := List.mem_map_of_mem hm
      have hne : i ≠ m.id := fun heq => hnodup.1 (heq ▸ hmem)
      rw [Node.update, if_neg hne, Node.update, if_neg hne, Element.updateAll_congr hnodup.2 hm h]

theorem Element.updateAll_congr {f g : Node → Node} : ∀ {es : List Element} {m : Node},
    ((Element.descendantsOf es).map Node.id).Nodup → m ∈ Element.descendantsOf es → f m = g m →
      Element.updateAll m.id f es = Element.updateAll m.id g es
  | [], _, _, hm, _ => by simp at hm
  | .token t :: es, m, hnodup, hm, h => by
    rw [Element.descendantsOf_token] at hnodup hm
    rw [Element.updateAll, Element.updateAll, Element.updateAll_congr hnodup hm h]
  | .node n :: es, m, hnodup, hm, h => by
    rw [Element.descendantsOf_node, List.map_append, List.nodup_append] at hnodup
    obtain ⟨hfirst, hrest, hdisjoint⟩ := hnodup
    rw [Element.descendantsOf_node] at hm
    rw [Element.updateAll, Element.updateAll]
    rcases List.mem_append.mp hm with hm | hm
    · have hnot : m.id ∉ (Element.descendantsOf es).map Node.id := fun hin =>
        hdisjoint _ (List.mem_map_of_mem hm) _ hin rfl
      rw [Node.update_congr hfirst hm h, Element.updateAll_of_not_mem f hnot,
        Element.updateAll_of_not_mem g hnot]
    · have hnot : m.id ∉ n.descendants.map Node.id := fun hin =>
        hdisjoint _ hin _ (List.mem_map_of_mem hm) rfl
      rw [Node.update_of_not_mem f hnot, Node.update_of_not_mem g hnot,
        Element.updateAll_congr hrest hm h]

end

namespace Node

variable {n m : Node}

theorem mem_update_self (f : Node → Node) (hnodup : (n.descendants.map Node.id).Nodup)
    (hm : m ∈ n.descendants) : f m ∈ (n.update m.id f).descendants := by
  have hself : m.update m.id f = f m ∧ m ∈ m.descendants := by
    cases m
    exact ⟨by rw [update, if_pos rfl], List.mem_cons_self⟩
  have hmem := mem_update f hnodup hm (List.mem_map_of_mem hself.2)
  rwa [hself.1] at hmem

/-- A node takes the place of another one, and is changed there. -/
theorem update_const {x : Node} (hnodup : (n.descendants.map Node.id).Nodup)
    (hm : m ∈ n.descendants) (hx : x.id = m.id) (f : Node → Node) :
    (n.update m.id fun _ => x).update m.id f = n.update m.id fun _ => f x := by
  let g : Node → Node := fun k => { x with id := k.id }
  have hg : ∀ k, (g k).id = k.id := fun _ => rfl
  have hself : g m = x := by
    cases x
    exact congrArg (Node.mk · _ _ _) hx.symm
  rw [update_congr (f := fun _ => x) (g := g) hnodup hm hself.symm, update_update hg,
    update_congr (f := fun k => f (g k)) (g := fun _ => f x) hnodup hm (congrArg f hself)]

end Node

end CssTree
