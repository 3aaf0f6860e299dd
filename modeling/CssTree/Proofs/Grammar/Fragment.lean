import CssTree.Proofs.Grammar.Production
import CssTree.Proofs.Tree.Respan

namespace CssTree

namespace Grammar

theorem attempt_keeps {α : Type} {p : Attempt α} {Q : α → State → Prop} {mark : State}
    (h : mark.Sound) (hp : Tries (Reads mark [] []) p Q (Lost mark)) :
    ((attempt p).run mark).1.elim (Took mark [] ((attempt p).run mark).2)
      (Q · ((attempt p).run mark).2) := by
  have hrun := hp mark (Took.refl h).reads
  rw [run_attempt]
  cases hr : (p.run.run mark).1 with
  | none =>
    rw [hr] at hrun
    obtain ⟨es, hlost⟩ := hrun
    exact hlost.rewind
  | some a =>
    rw [hr] at hrun
    simpa [hr] using hrun

/-- The tokens of a node that took all of a text, and the trivia in front of its end. -/
theorem laid_took_all {config : Config} {arena : Arena} {t : Text} {n : Node} {s : State}
    (h : Took (.start config arena t) [.node n] s) (hend : s.upcoming.tokens = []) :
    Lexeme.Laid [] (Token.lexemesOf n.tokens ++ s.upcoming.last.leading) ∧
      Lexeme.Whole (Token.lexemesOf n.tokens ++ s.upcoming.last.leading) := by
  have hlist : s.taken.reverse ++ s.upcoming.toList = n.tokens ++ [s.upcoming.last] := by
    simp [h.taken, State.start, Stream.toList, hend]
  have hlaid := h.sound.upcoming.laid
  have hwhole := h.sound.upcoming.whole
  have hlexemes : Token.lexemesOf (n.tokens ++ [s.upcoming.last]) =
      Token.lexemesOf n.tokens ++ s.upcoming.last.leading ++
        (s.upcoming.last.toLexeme :: s.upcoming.last.trailing) := by simp [Token.lexemes]
  rw [hlist, hlexemes] at hlaid hwhole
  rw [Lexeme.Whole, List.map_append] at hwhole
  exact ⟨(Lexeme.laid_append.mp hlaid).1, hwhole.left⟩

/-- A node that took all of a text. -/
theorem complete_of_took {config : Config} {arena : Arena} {t : Text} {n : Node} {s : State}
    (h : Took (.start config arena t) [.node n] s) (hend : s.upcoming.tokens = []) :
    n.Complete arena s.arena := by
  have hwhole := (laid_took_all h hend).2
  rw [Lexeme.Whole, List.map_append] at hwhole
  have hgrown := h.grown
  rw [Element.entriesOf_node, Element.entriesOf_nil, List.append_nil] at hgrown
  exact ⟨h.laid.1, hwhole.left, hgrown, fun m hm => h.formed m (by simpa using hm)⟩

/-- The trivia in front of the end of a text goes behind the last token. -/
theorem complete_appendTrailing {config : Config} {arena : Arena} {t : Text} {n : Node} {s : State}
    (h : Took (.start config arena t) [.node n] s) (hend : s.upcoming.tokens = []) :
    (n.appendTrailing s.upcoming.last.leading).respan.Complete arena s.arena := by
  have hcomplete := complete_of_took h hend
  have hskeleton : (n.appendTrailing s.upcoming.last.leading).respan.skeleton = n.skeleton := by
    rw [Node.skeleton_respan, Node.skeleton_appendTrailing]
  have hgrown : arena.Grown ((n.appendTrailing s.upcoming.last.leading).respan.entries none)
      s.arena := by
    rw [← Node.entries_skeleton, hskeleton, Node.entries_skeleton]
    exact hcomplete.grown
  have hformed := Node.formed_of_skeleton hcomplete.formed hskeleton
  by_cases htokens : n.tokens = []
  · have hnone : (n.appendTrailing s.upcoming.last.leading).tokens = [] := by
      rw [Node.tokens_appendTrailing, htokens]
      rfl
    refine ⟨Node.laid_respan ?_ fun _ => ?_, ?_, hgrown, hformed⟩
    · rw [hnone]
      trivial
    · rw [Node.appendTrailing, Node.span_mapTokens, hcomplete.laid.span, Span.start_behind]
    · rw [Node.tokens_respan, hnone]
      exact unfused_nil
  · have hlexemes := Node.lexemes_appendTrailing s.upcoming.last.leading htokens
    obtain ⟨hlaid, hwhole⟩ := laid_took_all h hend
    rw [← hlexemes] at hlaid hwhole
    refine ⟨Node.laid_respan hlaid fun hnone => ?_, ?_, hgrown, hformed⟩
    · rw [Node.tokens_appendTrailing] at hnone
      have hlength := congrArg List.length hnone
      rw [length_mapLast, List.length_nil] at hlength
      exact absurd (List.length_eq_zero_iff.mp hlength) htokens
    · rwa [Node.tokens_respan]

end Grammar

namespace Production

open Grammar

/-- The production reads the items of lists. -/
def IsItem (p : Production) : Prop := p ∈ [rule, keyframeRule, selector, declaration]

variable {mark : State}

theorem read_tries {p : Production} (hp : p ≠ styleSheet) :
    Tries (Reads mark [] []) p.read (fun n s => Reads mark [.node n] [] s ∧
      (p.IsItem → n.kind ≠ .error → n.tokens ≠ [])) (Lost mark) := by
  have hother : ∀ {read : Attempt Node}, ¬p.IsItem →
      Tries (Reads mark [] []) read (fun n => Reads mark [.node n] []) (Lost mark) →
        Tries (Reads mark [] []) read (fun n s => Reads mark [.node n] [] s ∧
          (p.IsItem → n.kind ≠ .error → n.tokens ≠ [])) (Lost mark) :=
    fun hp hread => hread.post fun _ _ h => ⟨h, fun hitem => absurd hitem hp⟩
  cases p with
  | styleSheet => exact absurd rfl hp
  | rule => exact Tries.lift (ruleItem_keeps.post fun _ _ h => ⟨h.1, fun _ => h.2⟩)
  | keyframeRule => exact Tries.lift (ruleItem_keeps.post fun _ _ h => ⟨h.1, fun _ => h.2⟩)
  | ruleBlock =>
    exact hother (by simp [IsItem]) ((requireBlock_tries fun t => ruleBlock_known).post
      fun _ _ h => h.1)
  | selectorList => exact hother (by simp [IsItem]) (selectorList_tries.post fun _ _ h => h.1)
  | selector => exact selector_tries.post fun _ _ h => ⟨h.1, fun _ _ => h.2⟩
  | declarationBlock =>
    exact hother (by simp [IsItem]) ((requireBlock_tries fun t => declarationBlock_known).post
      fun _ _ h => h.1)
  | declaration => exact declaration_tries.post fun _ _ h => ⟨h.1, fun _ _ => h.2⟩
  | values => exact hother (by simp [IsItem]) (Tries.lift (values_keeps _))
  | mediaQueryList => exact hother (by simp [IsItem]) (Tries.lift (mediaQueryList_keeps _))
  | keyframeSelectors =>
    exact hother (by simp [IsItem]) (keyframeSelectors_tries.post fun _ _ h => h.1)

theorem readAll_tries {p : Production} (hp : p ≠ styleSheet) :
    Tries (Reads mark [] []) p.readAll (fun n s => (Took mark [.node n] s ∧
      s.upcoming.tokens = []) ∧ (p.IsItem → n.kind ≠ .error → n.tokens ≠ [])) (Lost mark) := by
  refine Tries.rawKind fun kind => ?_
  split
  next => exact Tries.fail fun s hs => hs.1.lost
  next =>
    refine Tries.seq ((read_tries hp).pre fun s hs => hs.1) fun n hn => ?_
    refine Tries.peekKind_end (Tries.ret fun s hs => ⟨⟨hs.1.1, hs.2⟩, hn⟩) fun t ht => ?_
    rw [if_neg ht]
    exact Tries.fail fun s hs => hs.lost

theorem remaining_all : Keeps (Reads mark [] []) (many do
    if (← peekKind) = .eof then failure else bump) fun ts s =>
      Reads mark (ts.map .token) [] s ∧ s.upcoming.tokens = [] := by
  refine (many_all (fun t => [.token t]) (fun mark => ?_) []).post fun ts s hs => ?_
  · refine Tries.peekKind_end (Tries.fail fun s hs => hs) fun t ht => ?_
    rw [if_neg ht]
    exact Tries.bump (f := fun t => pure t) (Tries.ret fun s hs => ⟨hs, by simp⟩)
  · rwa [List.nil_append, ← List.map_eq_flatMap] at hs

/-- Where a production was read, the trivia in front of the end of the text goes behind it. -/
theorem fragment_read {p : Production} {n : Node} {s : State}
    (hrun : (attempt p.readAll).run mark = (some n, s)) (hend : s.upcoming.tokens = []) :
    p.fragment.run mark = (if s.upcoming.last.leading.isEmpty then n
      else (n.appendTrailing s.upcoming.last.leading).respan,
        { s with place := s.upcoming.last.fullSpan.stop }) := by
  unfold fragment
  rw [run_bind_of hrun]
  exact run_bind_of (bump_end hend)

/-- Where none was, all tokens up to the end of the text are kept. -/
theorem fragment_kept {p : Production} {s : State}
    (hrun : (attempt p.readAll).run mark = (none, s)) :
    p.fragment.run mark = (do errorNode (← remaining) : Parser Node).run s := by
  unfold fragment
  rw [run_bind_of hrun]

/-- All tokens but the last. -/
def remainder : Parser (List Token) := many do
  if (← peekKind) = .eof then failure else bump

theorem remaining_run {s : State} (hs : s.Sound) :
    let (ts, r) := remainder.run s
    Took s (ts.map .token) r ∧ r.upcoming.tokens = [] ∧
      (do errorNode (← remaining) : Parser Node).run s =
        (errorNode (ts ++ [r.upcoming.last])).run
          { r with place := r.upcoming.last.fullSpan.stop } := by
  have hall : Reads s ((remainder.run s).1.map .token) [] (remainder.run s).2 ∧
      (remainder.run s).2.upcoming.tokens = [] := remaining_all s (Took.refl hs).reads
  have hrun : (do errorNode (← remaining) : Parser Node).run s = (bump >>= fun last =>
      errorNode ((remainder.run s).1 ++ [last]) : Parser Node).run (remainder.run s).2 := rfl
  obtain ⟨⟨htook, -⟩, hend⟩ := hall
  refine ⟨htook, hend, hrun.trans ?_⟩
  rw [StateT.run_bind, bump_end hend]
  rfl

theorem complete_remaining {config : Config} {arena : Arena} {t : Text} {s : State}
    (h : Took (.start config arena t) [] s) :
    let (n, s') := (do errorNode (← remaining) : Parser Node).run s
    n.Complete arena s'.arena ∧ n.render = t ∧ n.kind = .error := by
  have hrun := remaining_run h.sound
  generalize remainder.run s = rest at hrun
  obtain ⟨ts, r⟩ := rest
  obtain ⟨htook, hend, hrun⟩ := hrun
  rw [hrun]
  have hlist : (ts ++ [r.upcoming.last]).map Element.token =
      ts.map .token ++ [.token r.upcoming.last] := by simp
  have hformed : ∀ id span, (Node.mk id .error span
      ((ts ++ [r.upcoming.last]).map .token)).Formed := fun _ _ =>
    Node.formed_of_kind rfl (by simp)
  exact complete_of_end (h.trans htook) hend hlist hformed r.upcoming.last.fullSpan.stop

theorem complete_fragment {p : Production} (hp : p ≠ styleSheet) (config : Config) {arena : Arena}
    (harena : arena.Fresh) (t : Text) :
    let (n, s) := p.fragment.run (.start config arena t)
    n.Complete arena s.arena ∧ (p.IsItem → n.kind ≠ .error → n.tokens ≠ []) := by
  have hread := attempt_keeps (sound_start config harena t) (readAll_tries hp)
  cases hrun : (attempt p.readAll).run (.start config arena t) with | mk result s => ?_
  rw [hrun] at hread
  cases result with
  | some n =>
    obtain ⟨⟨htook, hend⟩, hfilled⟩ := hread
    rw [fragment_read hrun hend]
    show Node.Complete (if s.upcoming.last.leading.isEmpty then n else
      (n.appendTrailing s.upcoming.last.leading).respan) arena s.arena ∧ _
    split
    next => exact ⟨complete_of_took htook hend, hfilled⟩
    next =>
      refine ⟨complete_appendTrailing htook hend, fun hitem hkind => ?_⟩
      have hskeleton : (n.appendTrailing s.upcoming.last.leading).respan.skeleton = n.skeleton := by
        rw [Node.skeleton_respan, Node.skeleton_appendTrailing]
      have hsame : (n.appendTrailing s.upcoming.last.leading).respan.kind = n.kind := by
        simpa using congrArg Node.kind hskeleton
      rw [Node.tokens_respan, Node.tokens_appendTrailing]
      intro hnone
      have hlength := congrArg List.length hnone
      rw [length_mapLast, List.length_nil] at hlength
      exact hfilled hitem (hsame ▸ hkind) (List.length_eq_zero_iff.mp hlength)
  | none =>
    rw [fragment_kept hrun]
    obtain ⟨hcomplete, -, hkind⟩ := complete_remaining hread
    exact ⟨hcomplete, fun _ h => absurd hkind h⟩

/-- Whatever a text is read as, the node is complete. Items of lists, unless they are errors, have
tokens. -/
theorem complete_parse (p : Production) (config : Config) {arena : Arena} (harena : arena.Fresh)
    (t : Text) : (p.parse config arena t).1.Complete arena (p.parse config arena t).2 ∧
      (p.IsItem → (p.parse config arena t).1.kind ≠ .error →
        (p.parse config arena t).1.tokens ≠ []) := by
  by_cases hp : p = styleSheet
  · subst hp
    exact ⟨(complete_styleSheet config harena t).1, fun h => by simp [IsItem] at h⟩
  · have hparse : p.parse config arena t = ((p.fragment.run (.start config arena t)).1,
        (p.fragment.run (.start config arena t)).2.arena) := by
      rw [parse, parser, if_neg hp]
      rfl
    rw [hparse]
    exact complete_fragment hp config harena t

end Production

/-- Whatever a text is read as, the tree lies where the text says. -/
theorem Tree.laid_parse (p : Production) (config : Config) (t : Text) :
    (Tree.parse p config t).root.Laid [] ∧
      Lexeme.Whole (Token.lexemesOf (Tree.parse p config t).root.tokens) := by
  have hcomplete := (p.complete_parse (if p = .declaration then
    { config with comments := true } else config) Arena.fresh_empty t).1
  exact ⟨hcomplete.laid, hcomplete.whole⟩

end CssTree
