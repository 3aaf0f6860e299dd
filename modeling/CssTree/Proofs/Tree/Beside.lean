import CssTree.Proofs.Tree.Tailed

namespace CssTree

mutual

theorem Node.filled_update {i : NodeId} {y : Node} (hy : Lexeme.Filled (Token.lexemesOf y.tokens)) :
    ∀ n : Node, Lexeme.Filled (Token.lexemesOf n.tokens) →
      Lexeme.Filled (Token.lexemesOf (n.update i fun _ => y).tokens)
  | ⟨id, _, _, es⟩, h => by
    rw [Node.update]
    split
    · exact hy
    · exact Element.filled_updateAll hy es h

theorem Element.filled_updateAll {i : NodeId} {y : Node}
    (hy : Lexeme.Filled (Token.lexemesOf y.tokens)) : ∀ es : List Element,
    Lexeme.Filled (Token.lexemesOf (Element.tokensOf es)) →
      Lexeme.Filled (Token.lexemesOf (Element.tokensOf (Element.updateAll i (fun _ => y) es)))
  | [], h => h
  | .token t :: es, h => by
    rw [Element.tokensOf_token, Token.lexemesOf_cons, Lexeme.filled_append] at h
    rw [Element.updateAll, Element.tokensOf_token, Token.lexemesOf_cons, Lexeme.filled_append]
    exact ⟨h.1, Element.filled_updateAll hy es h.2⟩
  | .node n :: es, h => by
    rw [Element.tokensOf_node, Token.lexemesOf_append, Lexeme.filled_append] at h
    rw [Element.updateAll, Element.tokensOf_node, Token.lexemesOf_append, Lexeme.filled_append]
    exact ⟨Node.filled_update hy n h.1, Element.filled_updateAll hy es h.2⟩

end

@[simp] theorem Node.filled_faded (n : Node) :
    Lexeme.Filled (Token.lexemesOf n.faded.tokens) ↔ Lexeme.Filled (Token.lexemesOf n.tokens) := by
  have hlexemes : Token.lexemesOf n.faded.tokens =
      (Token.lexemesOf n.tokens).map (·.moved fun _ => default) := by
    rw [tokens_faded]
    exact Token.lexemesOf_mapSpans _ _
  rw [hlexemes, Lexeme.filled_map_moved]

namespace Element

@[simp] theorem tailed_faded (es : List Element) :
    tailed (mapSpansAll (fun _ => default) es) = tailed es :=
  (Node.mk 0 .error default es).tailed_faded

@[simp] theorem filled_faded (es : List Element) :
    Lexeme.Filled (Token.lexemesOf (tokensOf (mapSpansAll (fun _ => default) es))) ↔
      Lexeme.Filled (Token.lexemesOf (tokensOf es)) := by
  rw [tokensOf_mapSpansAll, Token.lexemesOf_mapSpans, Lexeme.filled_map_moved]

end Element

namespace Frame

/-- A frame with one of the nodes beside its place changed. -/
def updated (id : NodeId) (f : Node → Node) (F : Frame) : Frame :=
  { F with front := Element.updateAll id f F.front, back := Element.updateAll id f F.back }

variable {C D : List Frame} {n m x y : Node} {i : NodeId}

theorem update_plug_beside (hC : ∀ F ∈ C, F.id ≠ i) (hn : i ∉ n.descendants.map Node.id)
    (f : Node → Node) : (plug C n).update i f = plug (C.map (updated i f)) n := by
  induction C with
  | nil => exact Node.update_of_not_mem f hn
  | cons F C ih =>
    rw [List.forall_mem_cons] at hC
    rw [plug_cons, fill, Node.update, if_neg hC.1, Element.updateAll_append, Element.updateAll,
      ih hC.2]
    rfl

/-- A node that does not hold another one is not around it. -/
theorem id_ne_of_not_mem (hnodup : ((plug C n).descendants.map Node.id).Nodup)
    (hm : m ∈ (plug C n).descendants) (h : n ∉ m.descendants) : ∀ F ∈ C, F.id ≠ m.id := by
  intro F hF hid
  obtain ⟨A, B, rfl⟩ := List.append_of_mem hF
  have hmem : plug (F :: B) n ∈ (plug (A ++ F :: B) n).descendants := plug_append A _ n ▸ mem_plug A _
  obtain rfl : plug (F :: B) n = m := List.inj_on_of_nodup_map hnodup hmem hm hid
  exact h (mem_plug _ n)

/-- A node is beside another one if neither holds the other. -/
theorem id_mem_beside (hnodup : ((plug C n).descendants.map Node.id).Nodup)
    (hm : m ∈ (plug C n).descendants) (h : n ∉ m.descendants) (h' : m ∉ n.descendants) :
    ∃ F ∈ C, m.id ∈ F.beside.map Node.id := by
  have hid := (ids_plug C n).mem_iff.mp (List.mem_map_of_mem (f := Node.id) hm)
  rcases List.mem_append.mp hid with hid | hid
  · obtain ⟨F, hF, hid⟩ := List.mem_map.mp hid
    exact absurd hid (id_ne_of_not_mem hnodup hm h F hF)
  rcases List.mem_append.mp hid with hid | hid
  · obtain ⟨x, hx, hid⟩ := List.mem_map.mp hid
    obtain ⟨F, hF, hx⟩ := List.mem_flatMap.mp hx
    exact ⟨F, hF, hid ▸ List.mem_map_of_mem hx⟩
  · obtain ⟨x, hx, hid⟩ := List.mem_map.mp hid
    obtain rfl := List.inj_on_of_nodup_map hnodup (Node.mem_descendants_trans (mem_plug C n) hx) hm hid
    exact absurd hx h'

/-- A node and what stands around it are found again without the places. -/
theorem exists_plug_of_faded (h : n.faded = plug D m) :
    ∃ C x, n = plug C x ∧ C.map faded = D ∧ x.faded = m := by
  induction D generalizing n with
  | nil => exact ⟨[], n, rfl, rfl, h⟩
  | cons F D ih =>
    obtain ⟨id, kind, span, es⟩ := n
    rw [plug_cons, fill, Node.faded_mk, Node.mk.injEq] at h
    obtain ⟨hid, hkind, hspan, hes⟩ := h
    rw [Element.mapSpansAll, Element.moveSpansOf_eq_map] at hes
    obtain ⟨fs, es, rfl, hfront, hes⟩ := List.map_eq_append_iff.mp hes
    obtain ⟨e, bs, rfl, he, hback⟩ := List.map_eq_cons_iff.mp hes
    obtain ⟨x, rfl, hx⟩ : ∃ x, e = .node x ∧ x.faded = plug D m := by
      cases e with
      | token t => cases he
      | node x => exact ⟨x, rfl, Element.node.inj he⟩
    obtain ⟨C, x, rfl, hC, hx⟩ := ih hx
    refine ⟨⟨id, kind, span, fs, bs⟩ :: C, x, rfl, ?_, hx⟩
    rw [← Element.moveSpansOf_eq_map] at hfront hback
    obtain ⟨_, _, _, _, _⟩ := F
    subst hid hkind hspan hfront hback
    rw [List.map_cons, hC]
    rfl

theorem length_render_plug (C : List Frame) (n x : Node) :
    (plug C x).render.length + n.render.length = (plug C n).render.length + x.render.length := by
  induction C with
  | nil => exact Nat.add_comm _ _
  | cons F C ih =>
    have hfill : ∀ y : Node, (F.fill y).render.length = (Element.renderAll F.front).length +
        (y.render.length + (Element.renderAll F.back).length) := by
      intro y
      simp [fill, Node.render, Element.renderAll]
    rw [plug_cons, plug_cons, hfill, hfill]
    omega

/-- What stands around a node, and the node itself, are parts of the text. -/
theorem filled_plug (h : Lexeme.Filled (Token.lexemesOf (plug C n).tokens)) :
    Lexeme.Filled (Token.lexemesOf n.tokens) ∧
      ∀ F ∈ C, Lexeme.Filled (Token.lexemesOf (Element.tokensOf F.front)) := by
  induction C with
  | nil => exact ⟨h, by simp⟩
  | cons F C ih =>
    rw [plug_cons, fill, Node.tokens_mk, Element.tokensOf_append, Element.tokensOf_node,
      Token.lexemesOf_append, Token.lexemesOf_append, Lexeme.filled_append,
      Lexeme.filled_append] at h
    obtain ⟨hn, hrest⟩ := ih h.2.1
    exact ⟨hn, List.forall_mem_cons.mpr ⟨h.1, hrest⟩⟩

end Frame

end CssTree
