import CssTree.Proofs.Grammar.Production

namespace CssTree

theorem Node.Laid.tokens_span {before : Text} {n : Node} (h : n.Laid before) {first last : Token}
    (hfirst : n.tokens.head? = some first) (hlast : n.tokens.getLast? = some last) :
    n.span = ⟨first.fullSpan.start, last.fullSpan.stop⟩ := by
  have hall : Token.LaidAll before n.tokens := h.laidAll_tokens
  obtain ⟨ts, hts⟩ := List.head?_eq_some_iff.mp hfirst
  obtain ⟨us, hus⟩ := List.getLast?_eq_some_iff.mp hlast
  have hstart := hall
  rw [hts, Token.laidAll_cons] at hstart
  have hstop := hall
  rw [hus, Token.laidAll_append, Token.laidAll_cons] at hstop
  rw [h.span, hstart.1.fullSpan, hstop.2.1.fullSpan]
  refine Span.ext rfl ?_
  rw [Span.stop_behind, Span.stop_behind, Node.render, hus]
  simp

namespace Tree

theorem complete_parse_styleSheet (config : Config) (t : Text) :
    (Tree.parse .styleSheet config t).root.Complete .empty (Tree.parse .styleSheet config t).arena ∧
      (Tree.parse .styleSheet config t).render = t := by
  obtain ⟨hcomplete, htext, -⟩ := Grammar.complete_styleSheet config Arena.fresh_empty t
  exact ⟨hcomplete, htext⟩

/-- Reading a style sheet, whatever the settings and however malformed the text, gives a tree that
renders the text; every token and every piece of trivia lies behind exactly the text before it,
every node spans its tokens with their trivia, and nothing is wrong with the tree. -/
theorem parse_styleSheet_faithful (config : Config) (t : Text) :
    let tree := Tree.parse .styleSheet config t
    tree.render = t ∧
      (∀ before l after, Token.lexemesOf tree.root.tokens = before ++ l :: after →
        t = Lexeme.render before ++ l.text ++ Lexeme.render after ∧
          l.span = ⟨Position.origin.advance (Lexeme.render before),
            Position.origin.advance (Lexeme.render before ++ l.text)⟩) ∧
      (∀ n ∈ tree.root.descendants, ∀ first last, n.tokens.head? = some first →
        n.tokens.getLast? = some last → n.span = ⟨first.fullSpan.start, last.fullSpan.stop⟩) ∧
      tree.Valid := by
  intro tree
  obtain ⟨hcomplete, htext⟩ : tree.root.Complete .empty tree.arena ∧ tree.render = t :=
    complete_parse_styleSheet config t
  refine ⟨htext, ?_, ?_, ?_, ?_⟩
  · intro before l after hsplit
    have hlaid := hcomplete.laid.laidAll_tokens
    rw [Token.LaidAll, hsplit, Lexeme.laid_append, Lexeme.laid_cons] at hlaid
    refine ⟨?_, by simpa [Span.behind] using hlaid.2.1⟩
    rw [← htext, Tree.render, Node.render, ← Token.render_lexemesOf, hsplit]
    simp
  · intro n hn first last hfirst hlast
    obtain ⟨xs, ys, -, hlaid⟩ := hcomplete.laid.descendant hn
    exact hlaid.tokens_span hfirst hlast
  · exact Tree.violations_eq_nil hcomplete.laid hcomplete.whole
  · exact Linked.linkFaults_eq_nil hcomplete.grown

end Tree

end CssTree
