import CssTree.Proofs.Edit.Remake
import CssTree.Proofs.Grammar.Filled
import CssTree.Proofs.Tree.Beside

namespace CssTree

open CssTree.Frame

/-- A node that has text throughout if another one has, and is longer by at most `k`. -/
structure Node.Grows (k : Nat) (n y : Node) : Prop where
  filled : Lexeme.Filled (Token.lexemesOf n.tokens) → Lexeme.Filled (Token.lexemesOf y.tokens)
  length : y.render.length ≤ n.render.length + k

namespace Node

variable {n m y : Node} {d : Declaration} {j k : Nat}

namespace Grows

theorem refl (k : Nat) (n : Node) : n.Grows k n := ⟨fun h => h, Nat.le_add_right _ _⟩

theorem trans (h : n.Grows j m) (h' : m.Grows k y) : n.Grows (j + k) y :=
  ⟨fun hn => h'.filled (h.filled hn), by have := h.length; have := h'.length; omega⟩

/-- Lexemes take the place of others. -/
theorem of_cut {xs us zs ys : List Lexeme} (hn : Token.lexemesOf n.tokens = xs ++ (us ++ ys))
    (hy : Token.lexemesOf y.tokens = xs ++ (zs ++ ys)) (hzs : Lexeme.Filled zs)
    (hlength : (Lexeme.render zs).length ≤ (Lexeme.render us).length + k) : n.Grows k y := by
  refine ⟨fun hfilled => ?_, ?_⟩
  · rw [hn, Lexeme.filled_append, Lexeme.filled_append] at hfilled
    rw [hy, Lexeme.filled_append, Lexeme.filled_append]
    exact ⟨hfilled.1, hzs, hfilled.2.2⟩
  · rw [render, render, ← Token.render_lexemesOf, ← Token.render_lexemesOf, hn, hy]
    simp only [Lexeme.render_append, List.length_append]
    omega

theorem faded (n : Node) : n.Grows 0 n.faded :=
  ⟨n.filled_faded.mpr, Nat.le_of_eq (congrArg List.length (render_moved _ _ n))⟩

/-- Tokens take the place of others. -/
theorem of_tokens {xs us zs ys : List Token} (hn : n.tokens = xs ++ (us ++ ys))
    (hy : y.tokens = xs ++ (zs ++ ys)) (hzs : Lexeme.Filled (Token.lexemesOf zs))
    (hlength : (Token.renderAll zs).length ≤ (Token.renderAll us).length + k) : n.Grows k y := by
  have hcut : Token.lexemesOf n.tokens =
      Token.lexemesOf xs ++ (Token.lexemesOf us ++ Token.lexemesOf ys) := by
    rw [hn, Token.lexemesOf_append, Token.lexemesOf_append]
  have hput : Token.lexemesOf y.tokens =
      Token.lexemesOf xs ++ (Token.lexemesOf zs ++ Token.lexemesOf ys) := by
    rw [hy, Token.lexemesOf_append, Token.lexemesOf_append]
  refine of_cut hcut hput hzs ?_
  rw [Token.render_lexemesOf, Token.render_lexemesOf]
  exact hlength

/-- A value is read anew. -/
theorem setValue {value : Node} (h : n.Formed) (hd : n.declaration? = some d)
    (hvalue : Lexeme.Filled (Token.lexemesOf value.tokens))
    (hlength : value.render.length ≤ d.value.render.length + k) :
    n.Grows k (n.mapDeclaration (·.setValue value)) := by
  obtain ⟨F, -, -, hfill, hset⟩ := h.exists_frame hd
  have htokens : ∀ w, (F.fill w).tokens =
      Element.tokensOf F.front ++ (w.tokens ++ Element.tokensOf F.back) := by
    intro w
    rw [fill, tokens_mk, Element.tokensOf_append, Element.tokensOf_node]
  exact of_tokens ((congrArg tokens hfill).trans (htokens d.value))
    ((congrArg tokens (hset value).symm).trans (htokens value)) hvalue hlength

theorem setMark {mark : Option Node} (h : n.Formed) (hd : n.declaration? = some d)
    (hmark : ∀ m ∈ mark, Lexeme.Filled (Token.lexemesOf m.tokens) ∧ m.render.length ≤ k) :
    n.Grows k (n.mapDeclaration (·.setMark mark)) := by
  have helements := h.elements_declaration hd
  let front := d.opening.toList ++ d.name :: d.colon :: d.value.tokens
  let back := d.semicolon.toList ++ d.closing.toList
  have htokens : n.tokens = front ++ ((d.important.map Node.tokens).getD [] ++ back) := by
    rw [← n.tokens_eq, helements, Declaration.tokensOf_elements]
    simp [front, back]
  have hmarked : (n.mapDeclaration (·.setMark mark)).tokens =
      front ++ ((mark.map Node.tokens).getD [] ++ back) := by
    rw [mapDeclaration_of hd, tokens_mk, Declaration.tokensOf_elements]
    simp [front, back, Declaration.setMark]
  refine of_tokens htokens hmarked ?_ ?_
  · cases mark with
    | none => exact Lexeme.filled_nil
    | some m => exact (hmark m rfl).1
  · cases mark with
    | none => exact Nat.zero_le _
    | some m => exact Nat.le_trans (hmark m rfl).2 (Nat.le_add_left _ _)

/-- Lexemes are put in between others. -/
theorem of_put {xs zs ys : List Lexeme} (hn : Token.lexemesOf n.tokens = xs ++ ys)
    (hy : Token.lexemesOf y.tokens = xs ++ (zs ++ ys)) (hzs : Lexeme.Filled zs)
    (hlength : (Lexeme.render zs).length ≤ k) : n.Grows k y := by
  refine of_cut (hn.trans (congrArg (xs ++ ·) ys.nil_append.symm)) hy hzs ?_
  rwa [Lexeme.render_nil, List.length_nil, Nat.zero_add]

/-- Lexemes are taken out from between others. -/
theorem of_drop {xs us ys : List Lexeme} (hn : Token.lexemesOf n.tokens = xs ++ (us ++ ys))
    (hy : Token.lexemesOf y.tokens = xs ++ ys) : n.Grows 0 y :=
  of_cut hn (hy.trans (congrArg (xs ++ ·) ys.nil_append.symm)) Lexeme.filled_nil (Nat.zero_le _)

theorem openComment (h : n.Formed) (hd : n.declaration? = some d) (hopening : d.opening = none)
    (p : Position) : n.Grows 3 (n.mapDeclaration (·.openComment p)) := by
  obtain ⟨rest, hcut, hopened⟩ := lexemesOf_openComment h hd hopening p
  exact of_put hcut hopened (by simp [Lexeme.place]) (by simp [Lexeme.place])

theorem closeComment (h : n.Formed) (hd : n.declaration? = some d) (hclosing : d.closing = none)
    (p : Position) : n.Grows 3 (n.closeComment p) := by
  obtain ⟨us, t, -, hcut, hclosed⟩ := lexemesOf_closeComment h hd hclosing p
  exact of_put hcut hclosed (by simp [Lexeme.place]) (by simp [Lexeme.place])

theorem dropClosing {c : Token} (h : n.Formed) (hd : n.declaration? = some d)
    (hclosing : d.closing = some c) : n.Grows 0 n.dropClosing := by
  obtain ⟨us, -, htokens, hdropped, -⟩ := tokens_dropClosing h hd hclosing
  have hcut : Token.lexemesOf n.tokens =
      Token.lexemesOf us ++ ((c.leading ++ [c.toLexeme]) ++ c.trailing) := by
    rw [htokens, Token.lexemesOf_append]
    simp [Token.lexemes]
  exact of_drop hcut hdropped

theorem dropOpening {o : Token} (h : n.Formed) (hd : n.declaration? = some d)
    (hopening : d.opening = some o) : n.Grows 0 (n.mapDeclaration (·.dropOpening)) := by
  obtain ⟨rest, hcut, hdropped⟩ := tokens_dropOpening h hd hopening
  exact of_drop hcut hdropped

end Grows

end Node

namespace Node

variable {n : Node} {d : Declaration}

/-- A declaration without the end of its comment ends in what stood there. -/
theorem Formed.tailed_dropClosing {d' : Declaration} (h : n.Formed) (hd : n.declaration? = some d)
    (hd' : n.dropClosing.declaration? = some d') :
    Element.tailed d'.elements = (d.semicolon.isSome || (d.important.getD d.value).tailed) := by
  obtain ⟨hm, hread, hdropped, hskeleton, -⟩ := h.dropClosing hd
  rw [← (hdropped.of_declaration? hd').2.2, ← tailed_eq, tailed_of_skeleton hskeleton, tailed_eq,
    (hm.of_declaration? hread).2.2, Declaration.tailed_elements]
  rfl

end Node

namespace Mutation

variable {m : Mutation} {config : Config} {arena : Arena} {n : Node} {d : Declaration}

/-- What an edit of a declaration makes of it has text throughout, and is not much longer. -/
theorem remade_grows (harena : arena.Fresh) (h : n.Formed) (hd : n.declaration? = some d)
    (hcomment : d.closing.isSome = d.opening.isSome) :
    n.Grows m.growth (m.remade config arena n d).2 := by
  cases m with
  | setValue id t =>
    let text := d.value.leadingText ++ t ++ d.value.trailingText
    let value := (Production.values.parse config arena text).1
    rw [remade]
    split
    next => exact .refl _ n
    next =>
      dsimp only
      split
      next => exact .refl _ n
      next herror =>
        have hfaded := Node.Grows.faded value
        obtain ⟨core, hcore⟩ := d.value.exists_core
        have htokens : ({ value.faded with id := d.value.id } : Node).tokens = value.faded.tokens := by
          rw [← Node.tokens_eq, ← Node.tokens_eq]
        refine .setValue h hd ?_ ?_
        · rw [htokens]
          exact hfaded.filled
            (Production.filled_parse (by decide) config harena text (Bool.eq_false_iff.mpr herror))
        · have hlength : value.render.length ≤ text.length :=
            Production.length_parse _ config harena text
          rw [Node.render, htokens]
          refine Nat.le_trans hfaded.length (Nat.le_trans hlength ?_)
          rw [hcore]
          simp only [text, List.length_append, growth]
          omega
  | setImportant id value =>
    rw [remade]
    split
    next => exact .refl _ n
    next =>
      refine .setMark h hd fun mark hmark => ?_
      have hfaded := Node.Grows.faded (importantNode arena.next default)
      cases value with
      | false => cases hmark
      | true =>
        obtain rfl := Option.some.inj hmark
        refine ⟨hfaded.filled ?_, hfaded.length.trans ?_⟩
        · simp [importantNode, Token.lexemes, Token.place, Token.ofLexeme, blankTrivia, Lexeme.place]
        · exact Nat.le_of_eq rfl
  | setDisabled id value =>
    rw [remade]
    split
    next => exact .refl _ n
    next hvalue =>
      cases value with
      | true =>
        have hopening : d.opening = none := by simpa [Declaration.isDisabled] using hvalue
        have hclosing : d.closing = none := by simpa [hopening] using hcomment
        have hkind : (Token.place .openComment ['/', '*'] default).kind = .openComment := rfl
        obtain ⟨-, hx, hxd⟩ := h.opened hd hkind
          (blankTrivia [' '] ((default : Position).advance ['/', '*']))
        exact ((Node.Grows.openComment h hd hopening default).trans
          (.closeComment hx hxd hclosing default)).trans (.faded _)
      | false =>
        have hopening : d.opening.isSome = true := by
          simpa [Declaration.isDisabled, Option.isSome_iff_ne_none] using hvalue
        obtain ⟨c, hclosing⟩ := Option.isSome_iff_exists.mp (hcomment.trans hopening)
        obtain ⟨-, -, hdropped, -, d', hd', hsame⟩ := h.dropClosing hd
        obtain ⟨o, ho⟩ := Option.isSome_iff_exists.mp (hsame.trans hopening)
        have hgrows := (Node.Grows.dropClosing h hd hclosing).trans (.dropOpening hdropped hd' ho)
        exact hgrows.trans (.refl 6 _)
  | _ => exact .refl _ n

/-- What an edit makes of a declaration that cannot run into what follows ends in a token, unless
the end of a comment is taken away and nothing is left to end in one. -/
theorem remade_tailed (h : n.Formed) (hd : n.declaration? = some d)
    (hcomment : d.closing.isSome = d.opening.isSome) (hneeds : d.needsSemicolon = false)
    (hstray : (∃ id, m = .setDisabled id false) → d.isDisabled = true → d.semicolon = none →
      (d.important.getD d.value).tailed = true) :
    (m.remade config arena n d).2.tailed = true := by
  have hended := Declaration.ended hcomment hneeds
  have hself : n.tailed = true := h.tailed hd hended
  have hset : ∀ F : Declaration → Declaration, (F d).closing = d.closing →
      (F d).semicolon = d.semicolon → (n.mapDeclaration F).tailed = true := by
    intro F hclosing hsemicolon
    rw [Node.mapDeclaration_of hd, Node.tailed_mk, Declaration.tailed_elements, hclosing, hsemicolon,
      Bool.or_eq_true, Bool.or_eq_true]
    exact Or.inl hended
  cases m with
  | setValue id t =>
    rw [remade]
    split
    next => exact hself
    next =>
      dsimp only
      split
      next => exact hself
      next => exact hset _ rfl rfl
  | setImportant id value =>
    rw [remade]
    split
    next => exact hself
    next => exact hset _ rfl rfl
  | setDisabled id value =>
    rw [remade]
    split
    next => exact hself
    next hvalue =>
      cases value with
      | true =>
        have hopening : d.opening = none := by simpa [Declaration.isDisabled] using hvalue
        have hclosing : d.closing = none := by simpa [hopening] using hcomment
        have hkind : (Token.place .openComment ['/', '*'] default).kind = .openComment := rfl
        obtain ⟨-, hx, hxd⟩ := h.opened hd hkind
          (blankTrivia [' '] ((default : Position).advance ['/', '*']))
        have hend : (Token.commentEnd default).kind = .closeComment := rfl
        obtain ⟨cut, -, -, -, hclosed, -⟩ := Node.closedBy_spec hx hxd hclosing hend
        show (((n.mapDeclaration (·.openComment default)).closeComment default).faded).tailed = true
        rw [Node.tailed_faded, Node.closeComment_eq]
        simp only [Declaration.openComment_eq, hclosed]
        exact Declaration.tailed_elements _
      | false =>
        have hdisabled : d.isDisabled = true := by simpa using hvalue
        obtain ⟨-, -, -, -, d', hd', -⟩ := h.dropClosing hd
        have htailed := h.tailed_dropClosing hd hd'
        show (n.dropClosing.mapDeclaration (·.dropOpening)).tailed = true
        have hsame : Element.tailed d'.dropOpening.elements = Element.tailed d'.elements := by
          rw [Declaration.tailed_elements, Declaration.tailed_elements]
          rfl
        rw [Node.mapDeclaration_of hd', Node.tailed_mk, hsame, htailed, Bool.or_eq_true]
        cases hsemicolon : d.semicolon with
        | some t => exact Or.inl rfl
        | none => exact Or.inr (hstray ⟨id, rfl⟩ hdisabled hsemicolon)
  | _ => exact hself

end Mutation

end CssTree
