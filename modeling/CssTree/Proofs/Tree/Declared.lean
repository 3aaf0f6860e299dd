import CssTree.Edit.Toggle
import CssTree.Proofs.Tree.Bare
import CssTree.Proofs.Tree.Sound
import CssTree.Proofs.Tree.Unspanned

namespace CssTree

namespace Element

variable (f : Node → Node) (g : Token → Token)

theorem map_ofToken? (o : Option Token) :
    (ofToken? o).map (Element.map f g) = ofToken? (o.map g) := by
  cases o <;> rfl

theorem map_ofNode? (o : Option Node) :
    (ofNode? o).map (Element.map f g) = ofNode? (o.map f) := by
  cases o <;> rfl

theorem splitToken_map {g : Token → Token} (hg : ∀ t, (g t).kind = t.kind) (kind : TokenKind)
    (es : List Element) : splitToken kind (es.map (Element.map f g)) =
      (splitToken kind es).map (·.map g) (·.map (Element.map f g)) := by
  cases es with
  | nil => rfl
  | cons e es =>
    cases e with
    | node n => rfl
    | token t =>
      rw [List.map_cons, Element.map, splitToken, splitToken, hg]
      split <;> rfl

theorem splitNode_map (es : List Element) : splitNode (es.map (Element.map f g)) =
    (splitNode es).map (·.map f) (·.map (Element.map f g)) := by
  cases es with
  | nil => rfl
  | cons e es => cases e <;> rfl

end Element

namespace Declaration

/-- A declaration with every node changed by `f` and every other token by `g`. -/
def map (f : Node → Node) (g : Token → Token) (d : Declaration) : Declaration :=
  ⟨d.opening.map g, g d.name, g d.colon, f d.value, d.important.map f, d.semicolon.map g,
    d.closing.map g⟩

theorem tokensOf_elements (d : Declaration) : Element.tokensOf d.elements =
    d.opening.toList ++ d.name :: d.colon :: (d.value.tokens ++
      ((d.important.map Node.tokens).getD [] ++ d.semicolon.toList ++ d.closing.toList)) := by
  obtain ⟨opening, name, colon, value, important, semicolon, closing⟩ := d
  cases opening <;> cases important <;> cases semicolon <;> cases closing <;>
    simp [elements, Element.ofToken?, Element.ofNode?]

/-- Declarations with the same skeletons and with tokens that say the same have the same name and
the same value. -/
theorem content_of_skeleton {d d' : Declaration} (hsame : d.SameDelimiters d')
    (hskeleton : Element.skeletonAll d'.elements = Element.skeletonAll d.elements)
    (htokens : (Element.tokensOf d'.elements).map Token.content =
      (Element.tokensOf d.elements).map Token.content) :
    d'.name.content = d.name.content ∧
      d'.value.tokens.map Token.content = d.value.tokens.map Token.content := by
  rw [tokensOf_elements, tokensOf_elements] at htokens
  have hopening : d'.opening.toList.length = d.opening.toList.length := by
    have hisSome := hsame.opening
    cases hd : d.opening <;> cases hd' : d'.opening <;> simp_all
  have hvalue : d'.value.tokens.length = d.value.tokens.length := by
    have hvalues : d'.value.skeleton = d.value.skeleton := by
      have hnodes := congrArg Element.nodes hskeleton
      rw [Element.nodes_skeletonAll, Element.nodes_skeletonAll, nodes_elements, nodes_elements, nodes,
        nodes, List.map_cons, List.map_cons] at hnodes
      exact (List.cons_eq_cons.mp hnodes).1
    rw [← Node.length_tokens_shape, hvalues, Node.length_tokens_shape]
  simp only [List.map_append, List.map_cons] at htokens
  obtain ⟨-, hrest⟩ := List.append_inj htokens (by simpa using hopening)
  obtain ⟨hname, hrest⟩ := List.cons_eq_cons.mp hrest
  obtain ⟨-, hrest⟩ := List.cons_eq_cons.mp hrest
  exact ⟨hname, (List.append_inj hrest (by simpa using hvalue)).1⟩

variable (f : Node → Node) {g : Token → Token}

theorem elements_map (g : Token → Token) (d : Declaration) :
    (d.map f g).elements = d.elements.map (Element.map f g) := by
  simp [elements, map, Element.map_ofToken?, Element.map_ofNode?, Element.map]

theorem ofElements?_map (hg : ∀ t, (g t).kind = t.kind) (es : List Element) :
    ofElements? (es.map (Element.map f g)) = (ofElements? es).map (·.map f g) := by
  rw [ofElements?, ofElements?, Element.splitToken_map f hg]
  obtain ⟨opening, rest⟩ := Element.splitToken .openComment es
  -- a name, a colon and a value, or no declaration
  obtain _ | ⟨name | _, rest⟩ := rest
  · rfl
  · obtain _ | ⟨colon | _, rest⟩ := rest
    · rfl
    · obtain _ | ⟨_ | value, rest⟩ := rest
      · rfl
      · rfl
      · simp only [Prod.map_apply, List.map_cons, Element.map, Element.splitNode_map,
          Element.splitToken_map f hg, Prod.map_fst, Prod.map_snd]
        rfl
    · rfl
  · rfl

end Declaration

namespace Node

variable {n : Node} {d : Declaration}

theorem declaration?_moved (onNode : NodeId → Span → Span) (onToken : Span → Span) (n : Node) :
    (n.moved onNode onToken).declaration? =
      n.declaration?.map (·.map (·.moved onNode onToken) (·.mapSpans onToken)) := by
  rw [declaration?, kind_moved, elements_moved, declaration?]
  split
  next => exact Declaration.ofElements?_map (g := (·.mapSpans onToken)) _ (fun _ => rfl) _
  next => rfl

theorem moved_mapDeclaration {onNode : NodeId → Span → Span} {onToken : Span → Span}
    {F G : Declaration → Declaration} (h : ∀ d : Declaration,
      (F d).map (·.moved onNode onToken) (·.mapSpans onToken) =
        G (d.map (·.moved onNode onToken) (·.mapSpans onToken))) (n : Node) :
    (n.mapDeclaration F).moved onNode onToken = (n.moved onNode onToken).mapDeclaration G := by
  rw [mapDeclaration, mapDeclaration, declaration?_moved]
  cases n.declaration? with
  | none => rfl
  | some d =>
    rw [Option.map_some]
    dsimp only
    rw [← h, Declaration.elements_map, ← Element.moveSpansOf_eq_map]
    cases n
    rw [moved_mk, moved_mk]

theorem Formed.mapDeclaration_eq_self (h : n.Formed) (hd : n.declaration? = some d)
    {F : Declaration → Declaration} (hF : F d = d) : n.mapDeclaration F = n := by
  have helements := h.elements_declaration hd
  rw [mapDeclaration_of hd, hF, ← helements]
  cases n
  rfl

theorem declaration?_mapDeclaration (hd : n.declaration? = some d) {F : Declaration → Declaration}
    (hF : (F d).Formed) : (n.mapDeclaration F).declaration? = some (F d) := by
  have hkind : n.kind = .declaration := by
    by_contra hne
    rw [declaration?, if_neg hne] at hd
    cases hd
  rw [mapDeclaration_of hd, declaration?, if_pos hkind, hF.ofElements?]

/-- Two changes of one declaration. -/
theorem mapDeclaration_mapDeclaration (hd : n.declaration? = some d)
    {F : Declaration → Declaration} (hF : (F d).Formed) (G : Declaration → Declaration) :
    (n.mapDeclaration F).mapDeclaration G = n.mapDeclaration fun d => G (F d) := by
  rw [mapDeclaration_of (declaration?_mapDeclaration hd hF), mapDeclaration_of hd,
    mapDeclaration_of hd]

end Node

namespace Declaration

variable {d : Declaration}

/-- A declaration with the start of a comment in front of its name: what leads the name leads the
comment, and `gap` leads the name. -/
def opened (opening : Token) (gap : List Lexeme) (d : Declaration) : Declaration :=
  { d with
    opening := some { opening with leading := d.name.leading }
    name := { d.name with leading := gap } }

theorem openComment_eq (p : Position) (d : Declaration) : d.openComment p =
    d.opened (.place .openComment ['/', '*'] p) (blankTrivia [' '] (p.advance ['/', '*'])) := rfl

theorem map_opened (f : Node → Node) (onToken : Span → Span) (opening : Token) (gap : List Lexeme)
    (d : Declaration) : (d.opened opening gap).map f (·.mapSpans onToken) =
      (d.map f (·.mapSpans onToken)).opened (opening.mapSpans onToken)
        (gap.map (·.moved onToken)) := rfl

/-- A declaration with the end of a comment. -/
def closed (closing : Token) (d : Declaration) : Declaration := { d with closing := some closing }

theorem dropOpening_opened (h : d.opening = none) (opening : Token) (gap : List Lexeme) :
    (d.opened opening gap).dropOpening = d := by
  cases d
  cases h
  rfl

theorem map_dropOpening (f : Node → Node) (onToken : Span → Span) (d : Declaration) :
    d.dropOpening.map f (·.mapSpans onToken) = (d.map f (·.mapSpans onToken)).dropOpening := by
  obtain ⟨opening, name, colon, value, important, semicolon, closing⟩ := d
  cases opening <;> rfl

end Declaration

/-- The end of a comment, with a blank in front of it. -/
def Token.commentEnd (p : Position) : Token :=
  { Token.place .closeComment ['*', '/'] (p.advance [' ']) with leading := blankTrivia [' '] p }

/-- A token with nothing behind it. -/
def Token.cutTrailing (t : Token) : Token := { t with trailing := [] }

theorem mapLast_map {α β : Type} {f : α → α} {f' : β → β} {g : α → β} (h : ∀ x, g (f x) = f' (g x))
    (xs : List α) : (mapLast f xs).map g = mapLast f' (xs.map g) := by
  induction xs with
  | nil => rfl
  | cons x xs ih => cases xs <;> simp_all [mapLast]

namespace Node

variable {n : Node} {d : Declaration}

theorem Formed.opened (h : n.Formed) (hd : n.declaration? = some d) {opening : Token}
    (hopening : opening.kind = .openComment) (gap : List Lexeme) :
    (d.opened opening gap).Formed ∧ (n.mapDeclaration (·.opened opening gap)).Formed ∧
      (n.mapDeclaration (·.opened opening gap)).declaration? = some (d.opened opening gap) := by
  obtain ⟨hkind, hformed, -⟩ := h.of_declaration? hd
  have hopened : (d.opened opening gap).Formed := ⟨by
    rintro t ⟨rfl⟩
    exact hopening, hformed.name, hformed.semicolon, hformed.closing⟩
  refine ⟨hopened, ?_, declaration?_mapDeclaration hd hopened⟩
  rw [mapDeclaration_of hd]
  exact formed_of_declaration hkind hopened rfl

/-- A comment that was opened in front of a declaration is taken off again. -/
theorem Formed.dropOpening_opened (h : n.Formed) (hd : n.declaration? = some d)
    (hnone : d.opening = none) {opening : Token} (hopening : opening.kind = .openComment)
    (gap : List Lexeme) :
    (n.mapDeclaration (·.opened opening gap)).mapDeclaration (·.dropOpening) = n := by
  rw [mapDeclaration_mapDeclaration hd (h.opened hd hopening gap).1]
  exact h.mapDeclaration_eq_self hd (Declaration.dropOpening_opened hnone opening gap)

/-- A node with nothing behind its last token. -/
def cutTrailing (n : Node) : Node := n.mapTokens (mapLast Token.cutTrailing)

/-- What stands behind the last token of a node. -/
def trailing (n : Node) : List Lexeme := (n.tokens.getLast?.map (·.trailing)).getD []

/-- A declaration with the end of a comment behind it, with what trails the declaration. -/
def closedBy (closing : Token) (n : Node) : Node :=
  n.cutTrailing.mapDeclaration (·.closed { closing with trailing := n.trailing })

theorem closeComment_eq (p : Position) (n : Node) :
    n.closeComment p = n.closedBy (.commentEnd p) := rfl

theorem tokens_cutTrailing (n : Node) :
    n.cutTrailing.tokens = mapLast Token.cutTrailing n.tokens :=
  tokens_mapTokens (length_mapLast _ _)

theorem skeleton_cutTrailing (n : Node) : n.cutTrailing.skeleton = n.skeleton := by
  apply skeleton_mapTokens
  exact map_mapLast (f := Token.cutTrailing) (g := fun t => t.kind) (fun _ => rfl) _

section

variable (onNode : NodeId → Span → Span) (onToken : Span → Span)

theorem moved_cutTrailing (n : Node) :
    n.cutTrailing.moved onNode onToken = (n.moved onNode onToken).cutTrailing :=
  moved_mapTokens _ _
    (mapLast_map (f := Token.cutTrailing) (g := (·.mapSpans onToken)) (fun _ => rfl) _)

theorem trailing_moved (n : Node) :
    (n.moved onNode onToken).trailing = n.trailing.map (·.moved onToken) := by
  rw [trailing, trailing, tokens_moved, List.getLast?_map]
  cases n.tokens.getLast? <;> rfl

theorem moved_closedBy (closing : Token) (n : Node) : (n.closedBy closing).moved onNode onToken =
    (n.moved onNode onToken).closedBy (closing.mapSpans onToken) := by
  rw [closedBy, closedBy, ← moved_cutTrailing, trailing_moved]
  exact moved_mapDeclaration (F := (·.closed { closing with trailing := n.trailing }))
    (fun _ => rfl) _

end

/-- A node gets back what was cut off behind its last token. -/
theorem appendTrailing_cutTrailing (n : Node) : n.cutTrailing.appendTrailing n.trailing = n := by
  rw [appendTrailing, cutTrailing, mapTokens_mapTokens (length_mapLast _ _)
    (by rw [length_mapLast, length_mapLast])]
  apply mapTokens_eq_self
  rcases List.eq_nil_or_concat n.tokens with hnone | ⟨ts, t, hlast⟩
  · rw [hnone]
    rfl
  · rw [List.concat_eq_append] at hlast
    rw [trailing, hlast, mapLast_concat, mapLast_concat]
    simp [Token.cutTrailing]

/-- A comment that is closed behind a declaration. -/
theorem closedBy_spec (h : n.Formed) (hd : n.declaration? = some d) (hnone : d.closing = none)
    {closing : Token} (hclosing : closing.kind = .closeComment) :
    ∃ cut : Declaration, cut.closing = none ∧ d.SameDelimiters cut ∧
      n.cutTrailing.elements = cut.elements ∧
      n.closedBy closing = { n.cutTrailing with
        elements := (cut.closed { closing with trailing := n.trailing }).elements } ∧
      (n.closedBy closing).declaration? =
        some (cut.closed { closing with trailing := n.trailing }) := by
  obtain ⟨cut, hcut, hsame, -⟩ := declaration?_of_skeleton h hd n.skeleton_cutTrailing
  obtain ⟨-, hformed, helements⟩ :=
    (h.of_skeleton n.skeleton_cutTrailing).of_declaration? hcut
  have hopen : cut.closing = none := by simpa [hnone] using hsame.closing
  have hclosed : (cut.closed { closing with trailing := n.trailing }).Formed :=
    ⟨hformed.opening, hformed.name, hformed.semicolon, by
      rintro t ⟨rfl⟩
      exact hclosing⟩
  exact ⟨cut, hopen, hsame, helements, mapDeclaration_of hcut _,
    declaration?_mapDeclaration hcut hclosed⟩

/-- A comment that was closed behind a declaration is taken off again. -/
theorem dropClosing_closedBy (h : n.Formed) (hd : n.declaration? = some d) (hnone : d.closing = none)
    {closing : Token} (hclosing : closing.kind = .closeComment) :
    (n.closedBy closing).dropClosing = n := by
  obtain ⟨cut, hopen, -, helements, hn, hread⟩ := closedBy_spec h hd hnone hclosing
  have hback : (n.closedBy closing).mapDeclaration ({ · with closing := none }) = n.cutTrailing := by
    rw [mapDeclaration_of hread, hn]
    show ({ n.cutTrailing with elements := { cut with closing := none }.elements } : Node) = _
    rw [← hopen, ← helements]
    generalize n.cutTrailing = m
    cases m
    rfl
  rw [dropClosing, hread, hback]
  exact n.appendTrailing_cutTrailing

theorem tokens_closedBy (h : n.Formed) (hd : n.declaration? = some d) (hnone : d.closing = none)
    {closing : Token} (hclosing : closing.kind = .closeComment) : (n.closedBy closing).tokens =
      mapLast Token.cutTrailing n.tokens ++ [{ closing with trailing := n.trailing }] := by
  obtain ⟨cut, hopen, -, helements, hn, -⟩ := closedBy_spec h hd hnone hclosing
  rw [hn, ← tokens_eq, ← n.tokens_cutTrailing, ← tokens_eq, helements, Declaration.tokensOf_elements,
    Declaration.tokensOf_elements]
  simp [Declaration.closed, hopen]

/-- The declaration with the comment closed behind it, and what its tokens say. -/
theorem declaration?_closedBy (h : n.Formed) (hd : n.declaration? = some d)
    (hnone : d.closing = none) {closing : Token} (hclosing : closing.kind = .closeComment) :
    ∃ d' : Declaration, (n.closedBy closing).declaration? = some d' ∧
      d'.closing = some { closing with trailing := n.trailing } ∧
      d'.opening.isSome = d.opening.isSome ∧ d'.name.content = d.name.content ∧
        d'.value.tokens.map Token.content = d.value.tokens.map Token.content := by
  obtain ⟨cut, -, hsame, helements, -, hread⟩ := closedBy_spec h hd hnone hclosing
  obtain ⟨-, -, hd'⟩ := h.of_declaration? hd
  have hskeleton : Element.skeletonAll cut.elements = Element.skeletonAll d.elements := by
    rw [← helements, ← hd', ← skeleton_elements, ← skeleton_elements, skeleton_cutTrailing]
  have htokens : (Element.tokensOf cut.elements).map Token.content =
      (Element.tokensOf d.elements).map Token.content := by
    rw [← helements, ← hd', tokens_eq, tokens_eq, tokens_cutTrailing]
    exact map_mapLast (f := Token.cutTrailing) (g := Token.content) (fun _ => rfl) _
  obtain ⟨hname, hvalue⟩ := Declaration.content_of_skeleton hsame hskeleton htokens
  exact ⟨_, hread, rfl, hsame.opening, hname, hvalue⟩

theorem trailingText_eq (n : Node) : n.trailingText = Lexeme.render n.trailing := by
  rw [trailingText, trailing]
  cases n.tokens.getLast? <;> rfl

theorem render_eq_cutTrailing (n : Node) : n.render = n.cutTrailing.render ++ n.trailingText := by
  rw [render, render, tokens_cutTrailing, trailingText_eq, trailing]
  rcases List.eq_nil_or_concat n.tokens with hnone | ⟨ts, t, hlast⟩
  · rw [hnone]
    rfl
  · rw [List.concat_eq_append] at hlast
    rw [hlast, mapLast_concat]
    simp [Token.cutTrailing, Token.render, Lexeme.render]

theorem render_closedBy (h : n.Formed) (hd : n.declaration? = some d) (hnone : d.closing = none)
    {closing : Token} (hclosing : closing.kind = .closeComment) : (n.closedBy closing).render =
      n.cutTrailing.render ++ (Lexeme.render closing.leading ++ closing.text) ++ n.trailingText := by
  rw [render, tokens_closedBy h hd hnone hclosing, ← tokens_cutTrailing, Token.renderAll_append,
    trailingText_eq]
  simp [render, Token.render, Lexeme.render]

/-- The start of a comment stands between what leads a declaration and its name. -/
theorem render_opened (h : n.Formed) (hd : n.declaration? = some d) (hnone : d.opening = none)
    (opening : Token) (gap : List Lexeme) : ∃ rest, n.render = n.leadingText ++ rest ∧
      (n.mapDeclaration (·.opened opening gap)).render = n.leadingText ++
        (opening.text ++ Lexeme.render opening.trailing ++ Lexeme.render gap) ++ rest ∧
      (n.mapDeclaration (·.opened opening gap)).trailingText = n.trailingText := by
  have helements := h.elements_declaration hd
  obtain ⟨rest, htokens, hopened⟩ : ∃ rest, n.tokens = d.name :: d.colon :: rest ∧
      (n.mapDeclaration (·.opened opening gap)).tokens =
        { opening with leading := d.name.leading } :: { d.name with leading := gap } ::
          d.colon :: rest := by
    rw [mapDeclaration_of hd, ← n.tokens_eq, helements, tokens_mk, Declaration.tokensOf_elements,
      Declaration.tokensOf_elements, hnone]
    exact ⟨_, rfl, rfl⟩
  refine ⟨d.name.text ++ Lexeme.render d.name.trailing ++ Token.renderAll (d.colon :: rest), ?_, ?_, ?_⟩
  · simp [render, leadingText, htokens, Token.render, Token.leadingText, Lexeme.render]
  · simp [render, leadingText, htokens, hopened, Token.render, Token.leadingText, Lexeme.render]
  · rw [trailingText, trailingText, htokens, hopened]
    simp

end Node

theorem Element.roles_bareAll (es : List Element) : (bareAll es).map role = es.map role := by
  induction es with
  | nil => rfl
  | cons e es ih => cases e <;> simp [role, Token.bare, ih]

theorem Element.nodes_bareAll (es : List Element) :
    nodes (bareAll es) = (nodes es).map Node.bare := by
  induction es with
  | nil => rfl
  | cons e es ih => cases e <;> simp [ih]

namespace Node

variable {n m : Node} {d : Declaration}

theorem kind_of_shape (hshape : m.skeleton.bare = n.skeleton.bare) : m.kind = n.kind := by
  have hkinds : ∀ k : Node, k.skeleton.bare.kind = k.kind := by
    rintro ⟨id, kind, span, es⟩
    rfl
  rw [← hkinds m, hshape, hkinds n]

theorem roles_of_shape (hshape : m.skeleton.bare = n.skeleton.bare) :
    m.elements.map Element.role = n.elements.map Element.role := by
  have hroles : ∀ k : Node, k.skeleton.bare.elements.map Element.role =
      k.elements.map Element.role := by
    rintro ⟨id, kind, span, es⟩
    exact (Element.roles_bareAll _).trans (Element.roles_skeletonAll es)
  rw [← hroles m, hshape, hroles n]

theorem Formed.of_shape (hn : n.Formed) (hshape : m.skeleton.bare = n.skeleton.bare) : m.Formed :=
  hn.of_roles (kind_of_shape hshape) (roles_of_shape hshape)

/-- Which parts a declaration has can be told by its shape. -/
theorem declaration?_of_shape (hn : n.Formed) (hd : n.declaration? = some d)
    (hshape : m.skeleton.bare = n.skeleton.bare) : ∃ d' : Declaration,
      m.declaration? = some d' ∧ d.SameDelimiters d' ∧
        d'.important.isSome = d.important.isSome ∧
          d'.value.tokens.length = d.value.tokens.length := by
  have hchildren : ∀ k : Node, k.skeleton.bare.children =
      k.children.map fun x => x.skeleton.bare := by
    rintro ⟨id, kind, span, es⟩
    refine (Element.nodes_bareAll _).trans ?_
    rw [Element.nodes_skeletonAll, List.map_map]
    rfl
  obtain ⟨d', hd', hdelimiters⟩ :=
    declaration?_of_roles hn hd (kind_of_shape hshape) (roles_of_shape hshape)
  have hnodes : d'.nodes.map (fun x => x.skeleton.bare) = d.nodes.map fun x => x.skeleton.bare := by
    rw [← (hn.of_shape hshape).children_declaration hd', ← hn.children_declaration hd,
      ← hchildren m, hshape, hchildren n]
  rw [Declaration.nodes, Declaration.nodes, List.map_cons, List.map_cons, List.cons.injEq] at hnodes
  obtain ⟨hvalue, himportant⟩ := hnodes
  refine ⟨d', hd', hdelimiters, ?_, ?_⟩
  · have hlength := congrArg List.length himportant
    cases hmark : d.important <;> cases hmark' : d'.important <;> simp_all
  · rw [← d'.value.length_tokens_shape, hvalue, d.value.length_tokens_shape]

end Node

end CssTree
