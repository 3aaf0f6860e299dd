import CssTree.Proofs.Grammar.Fragment
import CssTree.Proofs.Grammar.Proper
import CssTree.Proofs.Token.Filled

namespace CssTree

namespace Grammar

variable {config : Config} {arena : Arena} {t : Text} {s : State} {es : List Element}

theorem Took.filled (h : Took (.start config arena t) es s) :
    Lexeme.Filled (Token.lexemesOf (Element.tokensOf es)) ∧
      Lexeme.Filled s.upcoming.last.leading := by
  have hfolded := Stream.filled_prepend.mp (h.folded.filled (Stream.filled_ofText config t))
  exact ⟨hfolded.1, (Lexeme.filled_append.mp hfolded.2).2⟩

end Grammar

open Grammar

namespace Production

variable {p : Production}

theorem filled_fragment (hp : p ≠ styleSheet) (config : Config) {arena : Arena}
    (harena : arena.Fresh) (t : Text) :
    let n := (p.fragment.run (.start config arena t)).1
    n.isError = false → Lexeme.Filled (Token.lexemesOf n.tokens) := by
  intro n herror
  have hread := attempt_keeps (sound_start config harena t) (readAll_tries hp)
  cases hrun : (attempt p.readAll).run (.start config arena t) with | mk result s => ?_
  rw [hrun] at hread
  cases result with
  | some m =>
    obtain ⟨⟨htook, hend⟩, -⟩ := hread
    obtain ⟨hfilled, hlast⟩ := htook.filled
    rw [Element.tokensOf_node, Element.tokensOf_nil, List.append_nil] at hfilled
    have hn : n = if s.upcoming.last.leading.isEmpty then m
        else (m.appendTrailing s.upcoming.last.leading).respan :=
      congrArg Prod.fst (fragment_read hrun hend)
    rw [hn]
    split
    next => exact hfilled
    next =>
      rw [Node.tokens_respan]
      by_cases hnone : m.tokens = []
      · rw [Node.tokens_appendTrailing, hnone]
        exact Lexeme.filled_nil
      · rw [Node.lexemes_appendTrailing _ hnone, Lexeme.filled_append]
        exact ⟨hfilled, hlast⟩
  | none =>
    have hn : n = ((do errorNode (← remaining) : Parser Node).run s).1 :=
      congrArg Prod.fst (fragment_kept hrun)
    have hkind : n.kind = .error := hn ▸ rfl
    simp [Node.isError, hkind] at herror

theorem filled_parse (hp : p ≠ styleSheet) (config : Config) {arena : Arena}
    (harena : arena.Fresh) (t : Text) (herror : (p.parse config arena t).1.isError = false) :
    Lexeme.Filled (Token.lexemesOf (p.parse config arena t).1.tokens) := by
  have hparse : (p.parse config arena t).1 = (p.fragment.run (.start config arena t)).1 := by
    rw [parse, parser, if_neg hp]
    rfl
  rw [hparse] at herror ⊢
  exact filled_fragment hp config harena t herror

end Production

/-- The rules of a style sheet have text. -/
theorem Tree.filled_rules (config : Config) (t : Text) :
    ∀ c ∈ (Tree.parse .styleSheet config t).root.children,
      Lexeme.Filled (Token.lexemesOf c.tokens) := by
  have hsheet := styleSheet_run (sound_start config Arena.fresh_empty t)
  generalize Grammar.rules.run (.start config .empty t) = rest at hsheet
  obtain ⟨ns, r⟩ := rest
  obtain ⟨htook, -, hrun⟩ := hsheet
  have hfilled := htook.filled.1
  have hroot : (Tree.parse .styleSheet config t).root.children = ns := by
    show ((styleSheet.run (.start config .empty t)).1).children = _
    rw [hrun]
    exact (Element.nodes_append _ _).trans (by simp)
  intro c hc
  obtain ⟨xs, ys, rfl⟩ := List.append_of_mem (hroot ▸ hc)
  rw [List.map_append, List.map_cons, Element.tokensOf_append, Element.tokensOf_node,
    Token.lexemesOf_append, Token.lexemesOf_append, Lexeme.filled_append,
    Lexeme.filled_append] at hfilled
  exact hfilled.2.1

end CssTree
