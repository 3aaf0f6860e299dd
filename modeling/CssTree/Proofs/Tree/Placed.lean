import CssTree.Proofs.Tree.Context

namespace CssTree

/-- A lexeme list is cut at each of its lexemes. -/
theorem Lexeme.Laid.of_mem {before : Text} {ls : List Lexeme} {l : Lexeme} (h : Laid before ls)
    (hl : l ∈ ls) : ∃ s u, render ls = s ++ l.text ++ u ∧ l.span = .behind (before ++ s) l.text := by
  obtain ⟨xs, ys, rfl⟩ := List.append_of_mem hl
  rw [laid_append, laid_cons] at h
  exact ⟨render xs, render ys, by simp, h.2.1⟩

theorem Token.mapSpans_congr {f g : Span → Span} {t : Token}
    (h : ∀ l ∈ t.lexemes, f l.span = g l.span) : t.mapSpans f = t.mapSpans g := by
  have hall : ∀ ls : List Lexeme, (∀ l ∈ ls, f l.span = g l.span) →
      ls.map (·.moved f) = ls.map (·.moved g) := fun ls hls =>
    List.map_congr_left fun l hl => by rw [Lexeme.moved, Lexeme.moved, hls l hl]
  rw [lexemes, List.forall_mem_append, List.forall_mem_cons] at h
  obtain ⟨hleading, hcore, htrailing⟩ := h
  obtain ⟨⟨kind, text, span⟩, value, leading, trailing⟩ := t
  show (⟨⟨kind, text, f span⟩, value, leading.map (·.moved f), trailing.map (·.moved f)⟩ : Token) = _
  rw [show f span = g span from hcore, hall leading hleading, hall trailing htrailing]
  rfl

mutual

theorem Node.mapSpans_congr {f g : Span → Span} : ∀ {n : Node},
    (∀ x ∈ n.descendants, f x.span = g x.span) →
      (∀ t ∈ n.tokens, t.mapSpans f = t.mapSpans g) → n.mapSpans f = n.mapSpans g
  | ⟨id, kind, span, es⟩, hnode, htoken => by
    rw [Node.descendants_mk, List.forall_mem_cons] at hnode
    have hes : Element.mapSpansAll f es = Element.mapSpansAll g es :=
      Element.mapSpansAll_congr hnode.2 htoken
    show (⟨id, kind, f span, Element.mapSpansAll f es⟩ : Node) = _
    rw [hes, show f span = g span from hnode.1]
    rfl

theorem Element.mapSpansAll_congr {f g : Span → Span} : ∀ {es : List Element},
    (∀ x ∈ Element.descendantsOf es, f x.span = g x.span) →
      (∀ t ∈ Element.tokensOf es, t.mapSpans f = t.mapSpans g) →
        Element.mapSpansAll f es = Element.mapSpansAll g es
  | [], _, _ => rfl
  | .token t :: es, hnode, htoken => by
    rw [Element.tokensOf_token, List.forall_mem_cons] at htoken
    have hes : Element.mapSpansAll f es = Element.mapSpansAll g es :=
      Element.mapSpansAll_congr hnode htoken.2
    show Element.token (t.mapSpans f) :: Element.mapSpansAll f es = _
    rw [hes, htoken.1]
    rfl
  | .node n :: es, hnode, htoken => by
    rw [Element.descendantsOf_node, List.forall_mem_append] at hnode
    rw [Element.tokensOf_node, List.forall_mem_append] at htoken
    have hes : Element.mapSpansAll f es = Element.mapSpansAll g es :=
      Element.mapSpansAll_congr hnode.2 htoken.2
    show Element.node (n.mapSpans f) :: Element.mapSpansAll f es = _
    rw [hes, Node.mapSpans_congr hnode.1 htoken.1]
    rfl

end

/-- A node is moved as its spans are. -/
theorem Node.mapSpans_congr_spans {f g : Span → Span} {n : Node}
    (h : ∀ r ∈ n.spans, f r = g r) : n.mapSpans f = n.mapSpans g := by
  rw [spans, Element.spansOf, List.forall_mem_append] at h
  simp only [Element.descendantsOf_node, Element.descendantsOf_nil, Element.tokensOf_node,
    Element.tokensOf_nil, List.append_nil] at h
  refine mapSpans_congr (fun x hx => h.1 _ (List.mem_map_of_mem hx)) fun t ht => ?_
  exact Token.mapSpans_congr fun l hl =>
    h.2 _ (List.mem_map_of_mem (List.mem_flatMap.mpr ⟨t, ht, hl⟩))

/-- The spans of a node are those of parts of its text. -/
theorem Node.Laid.of_mem_spans {n : Node} (h : n.Laid []) {r : Span} (hr : r ∈ n.spans) :
    ∃ s u v, n.render = s ++ u ++ v ∧ r = .behind s u := by
  rw [spans, Element.spansOf, List.mem_append] at hr
  simp only [Element.descendantsOf_node, Element.descendantsOf_nil, Element.tokensOf_node,
    Element.tokensOf_nil, List.append_nil] at hr
  rcases hr with hr | hr
  · obtain ⟨x, hx, rfl⟩ := List.mem_map.mp hr
    obtain ⟨xs, ys, htokens, hlaid⟩ := h.descendant hx
    refine ⟨Token.renderAll xs, x.render, Token.renderAll ys, ?_, hlaid.span⟩
    rw [render, htokens, Token.renderAll_append, Token.renderAll_append]
    rfl
  · obtain ⟨l, hl, rfl⟩ := List.mem_map.mp hr
    obtain ⟨s, u, hrender, hspan⟩ := h.laidAll_tokens.of_mem hl
    exact ⟨s, l.text, u, (Token.render_lexemesOf n.tokens).symm.trans hrender, hspan⟩

/-- The spans of a node lie no further than its text is long. -/
theorem Node.Laid.within_length {n : Node} (h : n.Laid []) {r : Span} (hr : r ∈ n.spans) :
    (r.start.line ≤ n.render.length ∧ r.start.column ≤ n.render.length) ∧
      r.stop.line ≤ n.render.length ∧ r.stop.column ≤ n.render.length := by
  obtain ⟨s, u, v, hrender, rfl⟩ := h.of_mem_spans hr
  have hstart := Position.origin.advance_bound s
  have hstop := Position.origin.advance_bound (s ++ u)
  have hlength := congrArg List.length hrender
  simp only [List.length_append, Position.origin, Nat.zero_add, Span.start_behind,
    Span.stop_behind] at *
  omega

/-- A span as it lies in a text that is written from `p` on. -/
def Span.plus (p : Position) (r : Span) : Span := ⟨p.plus r.start, p.plus r.stop⟩

/-- A node is moved to a place as it is. -/
theorem Node.Laid.place_eq {n : Node} (h : n.Laid []) {p : Position}
    (hroom : p.HasRoom n.render.length) : n.place p = n.mapSpans (.plus p) := by
  have hline : n.span.start.line = 0 := by
    rw [h.span]
    rfl
  rw [place, shift, hline]
  refine mapSpans_congr_spans fun r hr => ?_
  obtain ⟨hstart, hstop⟩ := h.within_length hr
  exact Span.ext (Position.shift_eq_plus hroom hstart.1 hstart.2)
    (Position.shift_eq_plus hroom hstop.1 hstop.2)

/-- A node that was moved to a place is moved back. -/
theorem Node.Laid.shift_place {n : Node} (h : n.Laid []) {p : Position}
    (hroom : p.HasRoom n.render.length) : (n.place p).shift (-p.line) (-p.column) = n := by
  have hline : (n.mapSpans (.plus p)).span.start.line = p.line := by
    rw [mapSpans, ← moved, span_moved, h.span]
    rfl
  rw [h.place_eq hroom, shift, hline]
  change (n.moved _ _).moved _ _ = n
  rw [moved_moved]
  refine mapSpans_eq_self fun r hr => ?_
  obtain ⟨hstart, hstop⟩ := h.within_length hr
  exact Span.ext (Position.shift_back hroom hstart.1 hstart.2)
    (Position.shift_back hroom hstop.1 hstop.2)

theorem Node.Laid.strung_place {n : Node} (h : n.Laid [])
    (hwhole : Lexeme.Whole (Token.lexemesOf n.tokens)) {p : Position}
    (hroom : p.HasRoom n.render.length) : (n.place p).Strung p := by
  have hstrung : n.Strung (Position.origin.plus .origin) := (Node.laid_iff_of_whole hwhole).mp h
  have hpush : Span.Pushes (fun r => ⟨r.start, p.plus r.stop⟩) (.plus p) .origin .origin p :=
    ⟨fun u v _ => by simp [Span.plus], fun o u _ => by simp⟩
  have hpushed := hstrung.pushed hpush
  rw [Position.plus_origin] at hpushed
  rwa [h.place_eq hroom]

end CssTree
