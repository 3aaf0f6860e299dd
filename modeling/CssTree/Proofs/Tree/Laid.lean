import CssTree.Proofs.Text.Slice
import CssTree.Proofs.Token.Laid
import CssTree.Tree.Validity

namespace CssTree

namespace Element

@[simp] theorem tokensOf_append (es fs : List Element) :
    tokensOf (es ++ fs) = tokensOf es ++ tokensOf fs := by
  induction es with
  | nil => rfl
  | cons e es ih => cases e <;> simp [ih]

@[simp] theorem descendantsOf_append (es fs : List Element) :
    descendantsOf (es ++ fs) = descendantsOf es ++ descendantsOf fs := by
  induction es with
  | nil => rfl
  | cons e es ih => cases e <;> simp [ih]

/-- The text of some elements. -/
def renderAll (es : List Element) : Text := Token.renderAll (tokensOf es)

@[simp] theorem renderAll_nil : renderAll [] = [] := rfl

@[simp] theorem renderAll_token (t : Token) (es : List Element) :
    renderAll (.token t :: es) = t.render ++ renderAll es := by simp [renderAll]

@[simp] theorem renderAll_node (n : Node) (es : List Element) :
    renderAll (.node n :: es) = n.render ++ renderAll es := by simp [renderAll, Node.render]

end Element

mutual

/-- A node that lies with all that it holds behind the text `before`. -/
def Node.Laid (before : Text) : Node → Prop
  | ⟨_, _, span, es⟩ => span = .behind before (Element.renderAll es) ∧ Element.LaidAll before es

/-- Elements that lie one after another behind the text `before`. -/
def Element.LaidAll (before : Text) : List Element → Prop
  | [] => True
  | .token t :: es => t.Laid before ∧ Element.LaidAll (before ++ t.render) es
  | .node n :: es => n.Laid before ∧ Element.LaidAll (before ++ n.render) es

end

theorem Node.Laid.span {before : Text} {n : Node} (h : n.Laid before) :
    n.span = .behind before n.render := by
  cases n
  exact h.1

theorem Node.Laid.elements {before : Text} {n : Node} (h : n.Laid before) :
    Element.LaidAll before n.elements := by
  cases n
  exact h.2

namespace Element

@[simp] theorem laidAll_nil (before : Text) : LaidAll before [] := trivial

@[simp] theorem laidAll_token {before : Text} {t : Token} {es : List Element} :
    LaidAll before (.token t :: es) ↔ t.Laid before ∧ LaidAll (before ++ t.render) es := Iff.rfl

@[simp] theorem laidAll_node {before : Text} {n : Node} {es : List Element} :
    LaidAll before (.node n :: es) ↔ n.Laid before ∧ LaidAll (before ++ n.render) es := Iff.rfl

theorem laidAll_append {before : Text} {es fs : List Element} :
    LaidAll before (es ++ fs) ↔ LaidAll before es ∧ LaidAll (before ++ renderAll es) fs := by
  induction es generalizing before with
  | nil => simp
  | cons e es ih => cases e <;> simp [ih, and_assoc]

/-- The text of one element. -/
def render : Element → Text
  | .token t => t.render
  | .node n => n.render

theorem renderAll_cons (e : Element) (es : List Element) :
    renderAll (e :: es) = e.render ++ renderAll es := by cases e <;> simp [render]

theorem laidAll_cons {before : Text} {e : Element} {es : List Element} :
    LaidAll before (e :: es) ↔ LaidAll before [e] ∧ LaidAll (before ++ e.render) es := by
  cases e <;> simp [render]

theorem LaidAll.span {before : Text} {e : Element} (h : LaidAll before [e]) :
    e.span = .behind before e.render := by
  cases e with
  | token t => exact h.1.fullSpan
  | node n => exact h.1.span

/-- Elements cover the span of their text. -/
theorem LaidAll.spanOf? {before : Text} {e : Element} {es : List Element}
    (h : LaidAll before (e :: es)) :
    Element.spanOf? (e :: es) = some (.behind before (renderAll (e :: es))) := by
  have hfold : ∀ (es : List Element) (t : Text), LaidAll (before ++ t) es →
      es.foldl (fun (r : Span) e => r.join e.span) (Span.behind before t) =
        Span.behind before (t ++ renderAll es) := by
    intro es
    induction es with
    | nil => simp
    | cons e es ih =>
      intro t ht
      obtain ⟨he, hes⟩ := laidAll_cons.mp ht
      rw [List.foldl_cons, he.span, Span.join_behind, ih _ (by simpa using hes)]
      rw [renderAll_cons, List.append_assoc]
  obtain ⟨he, hes⟩ := laidAll_cons.mp h
  rw [Element.spanOf?, he.span, hfold es _ hes, renderAll_cons]

end Element

/-- The span of lexemes in a text that cuts no line break between lexemes covers their text. -/
theorem Lexeme.Whole.slice? {xs ys zs : List Lexeme} (h : Whole (xs ++ ys ++ zs)) :
    (LineIndex.ofText (render (xs ++ ys ++ zs))).slice? (.behind (render xs) (render ys)) =
      some (render ys) := by
  have hstart : ¬Fuse (render xs) (render ys ++ render zs) := by
    have := h (xs.map Lexeme.text) ((ys ++ zs).map Lexeme.text) (by simp)
    simpa [flatten_texts] using this
  have hstop : ¬Fuse (render xs ++ render ys) (render zs) := by
    have := h ((xs ++ ys).map Lexeme.text) (zs.map Lexeme.text) (by simp)
    simpa [flatten_texts] using this
  simpa using LineIndex.slice?_behind hstart hstop

mutual

theorem Node.Laid.laidAll_tokens : ∀ {before : Text} {n : Node}, n.Laid before →
    Token.LaidAll before n.tokens
  | _, ⟨_, _, _, _⟩, h => Element.LaidAll.laidAll_tokens h.2

theorem Element.LaidAll.laidAll_tokens : ∀ {before : Text} {es : List Element},
    Element.LaidAll before es → Token.LaidAll before (Element.tokensOf es)
  | _, [], _ => trivial
  | _, .token _ :: _, h => by
    rw [Element.tokensOf_token]
    exact Token.laidAll_cons.mpr ⟨h.1, Element.LaidAll.laidAll_tokens h.2⟩
  | _, .node _ :: _, h => by
    rw [Element.tokensOf_node]
    exact Token.laidAll_append.mpr
      ⟨Node.Laid.laidAll_tokens h.1, Element.LaidAll.laidAll_tokens h.2⟩

end

mutual

/-- A node below another lies behind the tokens in front of it. -/
theorem Node.Laid.descendant : ∀ {before : Text} {n m : Node}, n.Laid before →
    m ∈ n.descendants →
      ∃ xs ys, n.tokens = xs ++ m.tokens ++ ys ∧ m.Laid (before ++ Token.renderAll xs)
  | before, ⟨id, kind, span, es⟩, m, h, hm => by
    rw [Node.descendants_mk] at hm
    rcases List.mem_cons.mp hm with rfl | hm
    · exact ⟨[], [], by simp, by simpa using h⟩
    · exact Element.LaidAll.descendant h.2 hm

theorem Element.LaidAll.descendant : ∀ {before : Text} {es : List Element} {m : Node},
    Element.LaidAll before es → m ∈ Element.descendantsOf es →
      ∃ xs ys, Element.tokensOf es = xs ++ m.tokens ++ ys ∧ m.Laid (before ++ Token.renderAll xs)
  | _, [], _, _, hm => by simp at hm
  | before, .token t :: es, m, h, hm => by
    obtain ⟨xs, ys, htokens, hlaid⟩ := Element.LaidAll.descendant h.2 (by simpa using hm)
    exact ⟨t :: xs, ys, by simp [htokens], by simpa using hlaid⟩
  | before, .node n :: es, m, h, hm => by
    rw [Element.descendantsOf_node] at hm
    rcases List.mem_append.mp hm with hm | hm
    · obtain ⟨xs, ys, htokens, hlaid⟩ := Node.Laid.descendant h.1 hm
      exact ⟨xs, ys ++ Element.tokensOf es, by simp [htokens], hlaid⟩
    · obtain ⟨xs, ys, htokens, hlaid⟩ := Element.LaidAll.descendant h.2 hm
      exact ⟨n.tokens ++ xs, ys, by simp [htokens], by simpa [Node.render] using hlaid⟩

end

namespace Violation

theorem ofToken_eq_nil {xs zs : List Lexeme} {t : Token} (hlaid : t.Laid (Lexeme.render xs))
    (hwhole : Lexeme.Whole (xs ++ t.lexemes ++ zs)) :
    ofToken (.ofText (Lexeme.render (xs ++ t.lexemes ++ zs))) t = [] := by
  have hlexeme : ∀ l ∈ t.lexemes,
      ofLexeme (.ofText (Lexeme.render (xs ++ t.lexemes ++ zs))) l = [] := by
    intro l hl
    obtain ⟨as, bs, hsplit⟩ := List.append_of_mem hl
    have hspan : l.span = .behind (Lexeme.render (xs ++ as)) l.text := by
      rw [Token.Laid, hsplit, Lexeme.laid_append] at hlaid
      simpa using hlaid.2.1
    have hslice := Lexeme.Whole.slice? (show Lexeme.Whole (xs ++ as ++ [l] ++ (bs ++ zs)) by
      simpa [hsplit] using hwhole)
    have htext : xs ++ as ++ [l] ++ (bs ++ zs) = xs ++ t.lexemes ++ zs := by simp [hsplit]
    rw [htext] at hslice
    simp only [Lexeme.render_cons, Lexeme.render_nil, List.append_nil] at hslice
    rw [ofLexeme, hspan, if_pos hslice]
  rw [ofToken, List.flatMap_eq_nil_iff]
  intro l hl
  apply hlexeme
  simp only [Token.lexemes, List.mem_append, List.mem_cons] at hl ⊢
  tauto

theorem ofElements_eq_nil (parent : Node) (before : Text) (previous : Option Span)
    {es : List Element} {xs zs : List Lexeme}
    (hlaid : Element.LaidAll (Lexeme.render xs) es)
    (hwhole : Lexeme.Whole (xs ++ Token.lexemesOf (Element.tokensOf es) ++ zs))
    (hprevious : ∀ r ∈ previous, r.stop = Position.origin.advance (Lexeme.render xs))
    (hparent : ∃ s, Lexeme.render xs = before ++ s ∧
      parent.span = .behind before (s ++ Element.renderAll es)) :
    ofElements (.ofText (Lexeme.render (xs ++ Token.lexemesOf (Element.tokensOf es) ++ zs)))
      parent previous es = [] := by
  induction es generalizing previous xs with
  | nil => rfl
  | cons e es ih =>
    obtain ⟨he, hes⟩ := Element.laidAll_cons.mp hlaid
    obtain ⟨s, hs, hspan⟩ := hparent
    have hlexemes : Token.lexemesOf (Element.tokensOf (e :: es)) =
        Token.lexemesOf (Element.tokensOf [e]) ++ Token.lexemesOf (Element.tokensOf es) := by
      cases e <;> simp
    have hrender : Lexeme.render (Token.lexemesOf (Element.tokensOf [e])) = e.render := by
      rw [Token.render_lexemesOf]
      cases e <;> simp [Element.render, Node.render]
    have hassoc : xs ++ Token.lexemesOf (Element.tokensOf (e :: es)) ++ zs =
        xs ++ Token.lexemesOf (Element.tokensOf [e]) ++
          Token.lexemesOf (Element.tokensOf es) ++ zs := by
      rw [hlexemes, List.append_assoc, List.append_assoc, List.append_assoc, List.append_assoc]
    have hrest : ofElements (.ofText (Lexeme.render (xs ++
        Token.lexemesOf (Element.tokensOf (e :: es)) ++ zs))) parent (some e.span) es = [] := by
      rw [hassoc] at hwhole ⊢
      refine ih _ (by rwa [Lexeme.render_append, hrender]) hwhole ?_ ⟨s ++ e.render, ?_, ?_⟩
      · rintro r hr
        obtain rfl := Option.some.inj hr
        rw [he.span, Lexeme.render_append, hrender, Span.stop_behind]
      · rw [Lexeme.render_append, hrender, hs, List.append_assoc]
      · rw [hspan, Element.renderAll_cons, List.append_assoc]
    have horder : ∀ p ∈ previous, ¬e.span.start < p.stop := by
      intro p hp hlt
      rw [hprevious p hp, he.span, Span.start_behind] at hlt
      exact Position.not_le.mpr hlt (Position.le_refl _)
    have hown : ofElement (.ofText (Lexeme.render (xs ++
        Token.lexemesOf (Element.tokensOf (e :: es)) ++ zs))) parent e = [] := by
      cases e with
      | token t =>
        rw [hassoc, List.append_assoc] at hwhole ⊢
        simp only [Element.tokensOf_token, Element.tokensOf_nil, Token.lexemesOf_cons,
          Token.lexemesOf_nil, List.append_nil] at hwhole ⊢
        exact ofToken_eq_nil he.1 hwhole
      | node n =>
        have hcontains : parent.span.Contains n.span := by
          rw [hspan, he.1.span, hs, Element.renderAll_node, ← List.append_assoc]
          exact Span.contains_behind
        rw [ofElement, if_pos hcontains]
    cases previous with
    | none => simp only [ofElements, hown, hrest, List.append_nil]
    | some p => simp only [ofElements, hown, hrest, if_neg (horder p rfl), List.append_nil]

/-- A node that lies where its text says has no wrong span. -/
theorem ofNode_eq_nil {n : Node} {xs zs : List Lexeme} (hlaid : n.Laid (Lexeme.render xs))
    (hwhole : Lexeme.Whole (xs ++ Token.lexemesOf n.tokens ++ zs)) :
    ofNode (.ofText (Lexeme.render (xs ++ Token.lexemesOf n.tokens ++ zs))) n = [] := by
  have hslice := hwhole.slice?
  rw [Token.render_lexemesOf] at hslice
  have helements :=
    ofElements_eq_nil n (Lexeme.render xs) none hlaid.elements (by rwa [n.tokens_eq]) (by simp)
    ⟨[], by simp, by rw [hlaid.span]; simp [Element.renderAll, Node.render]⟩
  rw [n.tokens_eq] at helements
  have hfound : (LineIndex.ofText (Lexeme.render (xs ++ Token.lexemesOf n.tokens ++ zs))).slice?
      n.span = some n.render := by rw [hlaid.span]; exact hslice
  have hvalid : n.span.IsValid := by rw [hlaid.span]; exact Span.isValid_behind _ _
  simp only [ofNode, hfound, hvalid, helements, if_true, List.append_nil]

end Violation

/-- A tree that lies at the start of a text and cuts no line break has no wrong spans. -/
theorem Tree.violations_eq_nil {tree : Tree} (hlaid : tree.root.Laid [])
    (hwhole : Lexeme.Whole (Token.lexemesOf tree.root.tokens)) : tree.violations = [] := by
  rw [Tree.violations, List.flatMap_eq_nil_iff]
  intro n hn
  obtain ⟨xs, ys, htokens, hn'⟩ := hlaid.descendant hn
  have hrender : tree.render = Lexeme.render
      (Token.lexemesOf xs ++ Token.lexemesOf n.tokens ++ Token.lexemesOf ys) := by
    rw [Tree.render, Node.render, htokens]
    simp [Token.render_lexemesOf]
  rw [hrender]
  refine Violation.ofNode_eq_nil ?_ ?_
  · simpa [Token.render_lexemesOf] using hn'
  · simpa [htokens] using hwhole

end CssTree
