import CssTree.Proofs.Tree.Refill

namespace CssTree

mutual

theorem Node.tokens_respanFrom : ∀ (hint : Position) (n : Node),
    (n.respanFrom hint).tokens = n.tokens
  | hint, ⟨_, _, _, es⟩ => by
    rw [Node.respanFrom, Node.tokens_mk, Node.tokens_mk, Element.tokensOf_respanAll]

theorem Element.tokensOf_respanAll : ∀ (cursor : Position) (es : List Element),
    Element.tokensOf (Element.respanAll cursor es) = Element.tokensOf es
  | _, [] => rfl
  | cursor, .token t :: es => by
    rw [Element.respanAll, Element.tokensOf_token, Element.tokensOf_token,
      Element.tokensOf_respanAll]
  | cursor, .node n :: es => by
    rw [Element.respanAll]
    simp only [Element.tokensOf_node]
    rw [Node.tokens_respanFrom, Element.tokensOf_respanAll]

end

mutual

theorem Node.laid_respanFrom : ∀ {before : Text} {n : Node}, Token.LaidAll before n.tokens →
    (n.respanFrom (Position.origin.advance before)).Laid before
  | before, ⟨id, kind, span, es⟩, h => by
    have hes : Element.LaidAll before (Element.respanAll (Position.origin.advance before) es) :=
      Element.laidAll_respanAll h
    rw [Node.respanFrom]
    refine ⟨?_, hes⟩
    cases hall : Element.respanAll (Position.origin.advance before) es with
    | nil => simp [Element.spanOf?]
    | cons f fs =>
      rw [hall] at hes
      rw [hes.spanOf?, Option.getD_some]

theorem Element.laidAll_respanAll : ∀ {before : Text} {es : List Element},
    Token.LaidAll before (Element.tokensOf es) →
      Element.LaidAll before (Element.respanAll (Position.origin.advance before) es)
  | _, [], _ => trivial
  | before, .token t :: es, h => by
    rw [Element.tokensOf_token, Token.laidAll_cons] at h
    have hes := Element.laidAll_respanAll h.2
    rw [Element.respanAll, h.1.fullSpan, Span.stop_behind]
    exact ⟨h.1, hes⟩
  | before, .node n :: es, h => by
    rw [Element.tokensOf_node, Token.laidAll_append] at h
    have hn := Node.laid_respanFrom h.1
    have hes := Element.laidAll_respanAll h.2
    have hrender : (n.respanFrom (Position.origin.advance before)).render = n.render := by
      rw [Node.render, Node.tokens_respanFrom, Node.render]
    rw [Element.respanAll]
    simp only [hn.span, hrender, Span.stop_behind]
    refine ⟨hn, ?_⟩
    rw [hrender]
    exact hes

end

mutual

/-- Where a node lies where the text says, its spans are those that are computed. -/
theorem Node.Laid.respanFrom : ∀ {before : Text} {n : Node}, n.Laid before →
    n.respanFrom (Position.origin.advance before) = n
  | before, ⟨id, kind, span, es⟩, h => by
    have hspan : span = .behind before (Element.renderAll es) := h.1
    have hes : Element.respanAll (Position.origin.advance before) es = es :=
      Element.LaidAll.respanAll h.2
    rw [Node.respanFrom, hes, hspan]
    cases es with
    | nil => simp [Element.spanOf?]
    | cons e es => rw [h.2.spanOf?, Option.getD_some]

theorem Element.LaidAll.respanAll : ∀ {before : Text} {es : List Element},
    Element.LaidAll before es → Element.respanAll (Position.origin.advance before) es = es
  | _, [], _ => rfl
  | before, .token t :: es, h => by
    obtain ⟨ht, hes⟩ := Element.laidAll_token.mp h
    rw [Element.respanAll, ht.fullSpan, Span.stop_behind, Element.LaidAll.respanAll hes]
  | before, .node n :: es, h => by
    obtain ⟨hn, hes⟩ := Element.laidAll_node.mp h
    have hspan : n.respanFrom (Position.origin.advance before) = n := Node.Laid.respanFrom hn
    rw [Element.respanAll, hspan, hn.span, Span.stop_behind, Element.LaidAll.respanAll hes]

end

theorem Element.exists_respanFrom {n : Node} : ∀ {cursor : Position} {es : List Element},
    .node n ∈ respanAll cursor es → ∃ hint m, n = Node.respanFrom hint m
  | _, [], h => by simp [respanAll] at h
  | _, .token t :: es, h => by
    rw [respanAll, List.mem_cons] at h
    exact exists_respanFrom (h.resolve_left (by simp))
  | _, .node m :: es, h => by
    rw [respanAll, List.mem_cons] at h
    rcases h with h | h
    · exact ⟨_, m, Element.node.inj h⟩
    · exact exists_respanFrom h

namespace Node

/-- A child of a node whose spans were computed covers its elements. -/
theorem span_child_respan {m n : Node} {r : Span} (h : m ∈ n.respan.children)
    (hr : Element.spanOf? m.elements = some r) : m.span = r := by
  obtain ⟨id, kind, span, es⟩ := n
  obtain ⟨hint, ⟨id', kind', span', es'⟩, rfl⟩ := Element.exists_respanFrom (mem_children.mp h)
  rw [respanFrom] at hr ⊢
  rw [hr, Option.getD_some]

@[simp] theorem tokens_respan (n : Node) : n.respan.tokens = n.tokens := n.tokens_respanFrom _

@[simp] theorem render_respan (n : Node) : n.respan.render = n.render := by
  rw [render, tokens_respan, render]

/-- A node without tokens has to be in place before. -/
theorem respan_of_laid {before : Text} {n : Node} (h : Token.LaidAll before n.tokens)
    (hempty : n.tokens = [] → n.span.start = Position.origin.advance before) :
    n.respan = n.respanFrom (Position.origin.advance before) := by
  suffices hhint : (n.tokens.head?.map (·.fullSpan.start)).getD n.span.start =
      Position.origin.advance before by rw [respan, hhint]
  cases htokens : n.tokens with
  | nil => exact hempty htokens
  | cons t ts =>
    rw [htokens, Token.laidAll_cons] at h
    rw [List.head?_cons, Option.map_some, Option.getD_some, h.1.fullSpan, Span.start_behind]

theorem laid_respan {before : Text} {n : Node} (h : Token.LaidAll before n.tokens)
    (hempty : n.tokens = [] → n.span.start = Position.origin.advance before) :
    n.respan.Laid before := by
  rw [respan_of_laid h hempty]
  exact laid_respanFrom h

theorem Laid.respan {before : Text} {n : Node} (h : n.Laid before) : n.respan = n := by
  rw [respan_of_laid h.laidAll_tokens fun _ => by rw [h.span, Span.start_behind], h.respanFrom]

end Node

end CssTree
