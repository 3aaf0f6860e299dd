import CssTree.Proofs.Tree.Faded

namespace CssTree

mutual

/-- A node without nodes behind its last token, as far down as its last child goes. -/
def Node.tailed : Node → Bool
  | ⟨_, _, _, es⟩ => Element.tailed es

def Element.tailed : List Element → Bool
  | [] => false
  | .token _ :: es => es.isEmpty || Element.tailed es
  | .node n :: es => es.isEmpty && n.tailed || Element.tailed es

end

namespace Node

theorem tailed_mk (id : NodeId) (kind : NodeKind) (span : Span) (es : List Element) :
    (Node.mk id kind span es).tailed = Element.tailed es := rfl

theorem tailed_eq (n : Node) : n.tailed = Element.tailed n.elements := by
  cases n
  rfl

end Node

namespace Element

variable {e : Element} {es fs : List Element} {t : Token} {n : Node}

@[simp] theorem tailed_nil : tailed [] = false := rfl

theorem tailed_token : tailed (.token t :: es) = (es.isEmpty || tailed es) := rfl

theorem tailed_node : tailed (.node n :: es) = (es.isEmpty && n.tailed || tailed es) := rfl

theorem tailed_append (hfs : fs ≠ []) : tailed (es ++ fs) = tailed fs := by
  induction es with
  | nil => rfl
  | cons e es ih =>
    have hempty : (es ++ fs).isEmpty = false := by simp [hfs]
    cases e with
    | token t => rw [List.cons_append, tailed_token, hempty, ih, Bool.false_or]
    | node n => rw [List.cons_append, tailed_node, hempty, ih, Bool.false_and, Bool.false_or]

theorem tailed_of_nodes (h : nodes es = []) (hes : es ≠ []) : tailed es = true := by
  induction es with
  | nil => exact absurd rfl hes
  | cons e es ih =>
    cases e with
    | node n => cases h
    | token t =>
      rw [tailed_token, Bool.or_eq_true, List.isEmpty_iff]
      exact or_iff_not_imp_left.mpr (ih h)

end Element

mutual

theorem Node.tailed_skeleton : ∀ n : Node, n.skeleton.tailed = n.tailed
  | ⟨_, _, _, es⟩ => by
    rw [Node.skeleton, Node.tailed_mk, Node.tailed_mk, Element.tailed_skeletonAll es]

theorem Element.tailed_skeletonAll : ∀ es : List Element,
    Element.tailed (Element.skeletonAll es) = Element.tailed es
  | [] => rfl
  | .token t :: es => by
    rw [Element.skeletonAll, Element.tailed_token, Element.tailed_token,
      Element.tailed_skeletonAll es]
    cases es with
    | nil => rfl
    | cons e es => cases e <;> rfl
  | .node n :: es => by
    rw [Element.skeletonAll, Element.tailed_node, Element.tailed_node, Node.tailed_skeleton n,
      Element.tailed_skeletonAll es]
    cases es with
    | nil => rfl
    | cons e es => cases e <;> rfl

end

namespace Node

variable {n m : Node}

theorem tailed_of_skeleton (h : m.skeleton = n.skeleton) : m.tailed = n.tailed := by
  rw [← tailed_skeleton, h, tailed_skeleton]

@[simp] theorem tailed_faded (n : Node) : n.faded.tailed = n.tailed :=
  tailed_of_skeleton (n.skeleton_moved _ _)

end Node

/-- A declaration ends in a token unless what it ends in does not. -/
theorem Declaration.tailed_elements (d : Declaration) : Element.tailed d.elements =
    (d.closing.isSome || d.semicolon.isSome || (d.important.getD d.value).tailed) := by
  let back : List Element := Element.ofNode? d.important ++ Element.ofToken? d.semicolon ++
    Element.ofToken? d.closing
  have hsplit : d.elements = (Element.ofToken? d.opening ++ [.token d.name, .token d.colon]) ++
      (.node d.value :: back) := by simp [Declaration.elements, back]
  rw [hsplit, Element.tailed_append (by simp)]
  simp only [back]
  cases d.important <;> cases d.semicolon <;> cases d.closing <;>
    simp [Element.tailed_node, Element.tailed_token]

/-- A declaration that cannot run into what follows it has something at its end. -/
theorem Declaration.ended {d : Declaration} (hcomment : d.closing.isSome = d.opening.isSome)
    (hneeds : d.needsSemicolon = false) : d.closing.isSome = true ∨ d.semicolon.isSome = true := by
  rw [hcomment]
  cases hsemicolon : d.semicolon <;> simp_all [needsSemicolon, isDisabled]

theorem Node.Formed.tailed {n : Node} {d : Declaration} (h : n.Formed)
    (hd : n.declaration? = some d) (hended : d.closing.isSome = true ∨ d.semicolon.isSome = true) :
    n.tailed = true := by
  rw [tailed_eq, (h.of_declaration? hd).2.2, Declaration.tailed_elements, Bool.or_eq_true,
    Bool.or_eq_true]
  exact Or.inl hended

mutual

theorem Node.tokens_ne_nil_of_tailed : ∀ n : Node, n.tailed = true → n.tokens ≠ []
  | ⟨_, _, _, es⟩, h => Element.tokensOf_ne_nil_of_tailed es h

theorem Element.tokensOf_ne_nil_of_tailed : ∀ es : List Element,
    Element.tailed es = true → Element.tokensOf es ≠ []
  | .token t :: es, _ => by simp
  | .node n :: es, h => by
    rw [Element.tailed_node, Bool.or_eq_true, Bool.and_eq_true] at h
    rw [Element.tokensOf_node, Ne, List.append_eq_nil_iff, not_and_or]
    exact h.imp (fun hn => Node.tokens_ne_nil_of_tailed n hn.2) (Element.tokensOf_ne_nil_of_tailed es)

end

/-- Tokens with text take room. -/
theorem Token.lt_after {p : Position} {ts : List Token} (h : Lexeme.Filled (lexemesOf ts))
    (hts : ts ≠ []) : p < after p ts := by
  obtain ⟨t, ts, rfl⟩ := List.exists_cons_of_ne_nil hts
  exact Lexeme.lt_after h (by simp [lexemes])

mutual

/-- All that a node holds starts in front of its end. -/
theorem Node.Strung.start_lt : ∀ {p : Position} {n : Node}, n.Strung p →
    Lexeme.Filled (Token.lexemesOf n.tokens) → n.tailed = true →
      ∀ x ∈ n.descendants, x.span.start < Token.after p n.tokens
  | p, ⟨id, kind, span, es⟩, h, hfilled, htailed, x, hx => by
    rcases List.mem_cons.mp hx with rfl | hx
    · rw [h.span]
      exact Token.lt_after hfilled (Node.tokens_ne_nil_of_tailed _ htailed)
    · exact Element.StrungAll.start_lt h.2 hfilled htailed x hx

theorem Element.StrungAll.start_lt : ∀ {p : Position} {es : List Element}, Element.StrungAll p es →
    Lexeme.Filled (Token.lexemesOf (Element.tokensOf es)) → Element.tailed es = true →
      ∀ x ∈ Element.descendantsOf es, x.span.start < Token.after p (Element.tokensOf es)
  | p, .token t :: es, h, hfilled, htailed, x, hx => by
    rw [Element.descendantsOf_token] at hx
    rw [Element.tokensOf_token, Token.lexemesOf_cons, Lexeme.filled_append] at hfilled
    rw [Element.tokensOf_token, Token.after_cons]
    refine Element.StrungAll.start_lt h.2 hfilled.2 ?_ x hx
    rw [Element.tailed_token, Bool.or_eq_true, List.isEmpty_iff] at htailed
    refine htailed.resolve_left ?_
    rintro rfl
    cases hx
  | p, .node n :: es, h, hfilled, htailed, x, hx => by
    rw [Element.tokensOf_node, Token.lexemesOf_append, Lexeme.filled_append] at hfilled
    rw [Element.tailed_node, Bool.or_eq_true, Bool.and_eq_true, List.isEmpty_iff] at htailed
    rw [Element.tokensOf_node, Token.after_append]
    rw [Element.descendantsOf_node] at hx
    rcases List.mem_append.mp hx with hxn | hx
    · rcases htailed with ⟨rfl, hn⟩ | hes
      · exact Node.Strung.start_lt h.1 hfilled.1 hn x hxn
      · obtain ⟨-, hvalid, hstop⟩ := h.1.within x hxn
        exact Position.lt_of_le_of_lt (Position.le_trans hvalid hstop)
          (Token.lt_after hfilled.2 (Element.tokensOf_ne_nil_of_tailed es hes))
    · refine Element.StrungAll.start_lt h.2 hfilled.2 (htailed.resolve_left ?_) x hx
      rintro ⟨rfl, -⟩
      cases hx

end

/-- The spans in front of a token that ends them start in front of its end. -/
theorem Element.StrungAll.spans_start_lt {p : Position} {es : List Element}
    (h : Element.StrungAll p es) (hfilled : Lexeme.Filled (Token.lexemesOf (Element.tokensOf es)))
    (htailed : Element.tailed es = true) :
    ∀ r ∈ Element.spansOf es, r.start < Token.after p (Element.tokensOf es) := by
  intro r hr
  rcases List.mem_append.mp hr with hr | hr
  · obtain ⟨x, hx, rfl⟩ := List.mem_map.mp hr
    exact h.start_lt hfilled htailed x hx
  · obtain ⟨l, hl, rfl⟩ := List.mem_map.mp hr
    exact Position.lt_of_lt_of_le (Lexeme.Strung.start_lt h.tokensOf hfilled l hl)
      (Lexeme.le_of_mem_strung h.tokensOf l hl).2

namespace Frame

variable {C : List Frame} {F : Frame} {v : Node} {p : Position}

theorem startIn_append (p : Position) (C : List Frame) (F : Frame) :
    startIn p (C ++ [F]) = Token.after (startIn p C) (Element.tokensOf F.front) := List.foldl_append

/-- What stands in front of a node starts in front of it, if it ends in a token. -/
theorem ahead (h : (plug (C ++ [F]) v).Strung p)
    (hfilled : Lexeme.Filled (Token.lexemesOf (Element.tokensOf F.front)))
    (htailed : Element.tailed F.front = true) :
    ∀ G ∈ C ++ [F], ∀ r ∈ Element.spansOf G.front, r.start < startIn p (C ++ [F]) := by
  rw [plug_append, strung_plug, plug_cons, plug_nil] at h
  obtain ⟨haround, hfill⟩ := h
  have hfront : Element.StrungAll (startIn p C) F.front :=
    (Element.strungAll_append.mp hfill.elements).1
  rw [startIn_append]
  intro G hG r hr
  rcases List.mem_append.mp hG with hG | hG
  · obtain ⟨hvalid, hstop⟩ := haround.front G hG r hr
    exact Position.lt_of_le_of_lt (Position.le_trans hvalid hstop)
      (Token.lt_after hfilled (Element.tokensOf_ne_nil_of_tailed _ htailed))
  · obtain rfl := List.mem_singleton.mp hG
    exact hfront.spans_start_lt hfilled htailed r hr

end Frame

end CssTree
