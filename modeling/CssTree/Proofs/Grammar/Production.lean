import CssTree.Grammar.Production
import CssTree.Proofs.Grammar.Rule
import CssTree.Proofs.Tree.Linked
import CssTree.Tree.Basic

namespace CssTree

open Grammar

/-- A node made of all tokens of a text, with its nodes added to an arena. -/
structure Node.Complete (n : Node) (arena₀ arena : Arena) : Prop where
  laid : n.Laid []
  whole : Lexeme.Whole (Token.lexemesOf n.tokens)
  grown : arena₀.Grown (n.entries none) arena
  formed : ∀ m ∈ n.descendants, m.Formed

namespace Grammar

variable {es : List Element} {arena : Arena}

theorem sound_start (config : Config) (harena : arena.Fresh) (t : Text) :
    (State.start config arena t).Sound :=
  ⟨Stream.sound_ofText config t, rfl, harena⟩

theorem text_start (config : Config) (arena : Arena) (t : Text) :
    (State.start config arena t).text = t := by
  simp [State.text, State.start, State.before, Stream.render_ofText]

/-- With no tokens left, the end of the text is given out and nothing else happens. -/
theorem bump_end {s : State} (hend : s.upcoming.tokens = []) :
    bump.run s = (s.upcoming.last, { s with place := s.upcoming.last.fullSpan.stop }) := by
  obtain ⟨taken, ⟨tokens, last⟩, place, guard, limit, arena, created⟩ := s
  obtain rfl : tokens = [] := hend
  have hsettle : (⟨[], last⟩ : Stream).settle 0 = ⟨[], last⟩ := by
    rw [Stream.settle_zero, Stream.foldFront]
  show State.take (State.settle 0 _) = _
  simp [State.settle, hsettle, State.take]

/-- The end of the text goes into the last node. -/
theorem complete_of_end {config : Config} {t : Text} {s : State} {kind : NodeKind}
    {fs : List Element} (h : Took (.start config arena t) es s) (hend : s.upcoming.tokens = [])
    (hfs : fs = es ++ [.token s.upcoming.last])
    (hformed : ∀ id span, (Node.mk id kind span fs).Formed) (place : Position) :
    let (n, s') := (node kind fs).run { s with place }
    n.Complete arena s'.arena ∧ n.render = t ∧ n.kind = kind := by
  have htaken : s.taken.reverse = Element.tokensOf es := by simp [h.taken, State.start]
  have hlist : s.taken.reverse ++ s.upcoming.toList = Element.tokensOf fs := by
    rw [htaken, hfs, Stream.toList, hend]
    simp
  have hlexemes := h.sound.upcoming.laid
  rw [hlist, hfs, Element.tokensOf_append, Token.lexemesOf_append, Lexeme.laid_append] at hlexemes
  have hlaid : Element.LaidAll [] fs := by
    rw [hfs]
    refine Element.laidAll_append.mpr ⟨h.laid, ?_, trivial⟩
    simpa [Token.Laid, Element.renderAll, Token.render_lexemesOf] using hlexemes.2
  have hspan : (Element.spanOf? fs).getD (.point place) = .behind [] (Element.renderAll fs) := by
    cases fs with
    | nil => simp at hfs
    | cons f fs => rw [hlaid.spanOf?, Option.getD_some]
  have hgrown := h.grown
  have hentries : Element.entriesOf none es = Element.entriesOf none ([] ++ fs) := by simp [hfs]
  rw [hentries] at hgrown
  refine ⟨⟨⟨hspan, hlaid⟩, ?_, ?_, ?_⟩, ?_, rfl⟩
  · rw [← Node.tokens_eq]
    exact hlist ▸ h.sound.upcoming.whole
  · have hnode := hgrown.node kind ((Element.spanOf? fs).getD (.point place))
    rw [List.nil_append, Element.entriesOf_node, Element.entriesOf_nil, List.append_nil] at hnode
    exact hnode
  · intro m hm
    change m ∈ Node.descendants (.mk _ _ _ _) at hm
    rw [Node.descendants_mk] at hm
    rcases List.mem_cons.mp hm with rfl | hm
    · exact hformed _ _
    · exact h.formed m (by simpa [hfs] using hm)
  · have htext := h.text
    rw [text_start] at htext
    rw [← htext, State.text, State.before, Stream.render, ← Token.renderAll_append, hlist]
    rfl

theorem formed_styleSheet (ns : List Node) (last : Token) (id : NodeId) (span : Span) :
    (Node.mk id .styleSheet span (ns.map .node ++ [.token last])).Formed := by
  have hl : (⟨.rules, [], .ofList ns, [last]⟩ : Listing).Formed .rules 0 := by
    refine ⟨rfl, rfl, fun _ pair hp => ?_, fun h => by simp at h⟩
    obtain ⟨n, -, rfl⟩ := List.mem_map.mp hp
    rfl
  refine Node.formed_of_listing rfl hl (Listing.endsSeparated_ofList ns) ?_
  rw [Listing.elements_ofList]
  rfl

/-- The rules of a style sheet. -/
def rules : Parser (List Node) := many do
  if (← peekKind) = .eof then failure else ruleItem false false

/-- A style sheet is the rules of its text, which take all tokens but the last, and that token. -/
theorem styleSheet_run {s : State} (hs : s.Sound) :
    let (ns, r) := rules.run s
    Took s (ns.map .node) r ∧ r.upcoming.tokens = [] ∧ styleSheet.run s =
      (node .styleSheet (ns.map .node ++ [.token r.upcoming.last])).run
        { r with place := r.upcoming.last.fullSpan.stop } := by
  have hall : Reads s ([] ++ (rules.run s).1.flatMap fun n => [.node n]) [] (rules.run s).2 ∧
      (rules.run s).2.upcoming.tokens = [] := rules_all s (Took.refl hs).reads
  have hrun : styleSheet.run s = (bump >>= fun last =>
      node .styleSheet ((rules.run s).1.map .node ++ [.token last]) : Parser Node).run
        (rules.run s).2 := rfl
  obtain ⟨⟨htook, -⟩, hend⟩ := hall
  rw [List.nil_append, ← List.map_eq_flatMap] at htook
  refine ⟨htook, hend, hrun.trans ?_⟩
  rw [StateT.run_bind, bump_end hend]
  rfl

/-- A style sheet is made of all tokens of its text. -/
theorem complete_styleSheet (config : Config) (harena : arena.Fresh) (t : Text) :
    let (n, s) := styleSheet.run (.start config arena t)
    n.Complete arena s.arena ∧ n.render = t ∧ n.kind = .styleSheet := by
  obtain ⟨htook, hend, hrun⟩ := styleSheet_run (sound_start config harena t)
  rw [hrun]
  exact complete_of_end htook hend rfl (formed_styleSheet _ _) _

end Grammar

end CssTree
