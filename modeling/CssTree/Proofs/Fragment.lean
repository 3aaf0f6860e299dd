import CssTree.Proofs.Grammar.Fragment
import CssTree.Proofs.Parse
import CssTree.Proofs.Token.Settle

namespace CssTree

/-- There are comments to fold, and no tokens are left behind them. -/
def Stream.OnlyComments (s : Stream) : Prop := s.tokens ≠ [] ∧ s.foldFront.tokens = []

theorem Stream.tokens_ofText_nil (config : Config) : (Stream.ofText config []).tokens = [] := by
  obtain ⟨depth, comments, trailing⟩ := config
  cases comments <;> cases trailing <;>
    simp [Stream.ofText, Lexeme.ofText, cut, cutThroughComments, Lexeme.placeAll, Stream.ofLexemes,
      Stream.trail, Stream.toList, Stream.ofList, Token.leadingToTrailing]

/-- The production reads a node where there are no tokens. -/
def Production.ReadsNothing (p : Production) : Prop :=
  p ∈ [.rule, .keyframeRule, .values, .mediaQueryList]

namespace Grammar

variable {mark s : State} {α β : Type}

/-- A step does not notice comments that were folded before it. -/
def Refolds (p : Parser α) : Prop := ∀ s : State, p.run (s.settle 0) = p.run s

theorem refolds_peekKind : Refolds peekKind := by
  intro s
  have hstate : (s.settle 0).settle 0 = s.settle 0 :=
    congrArg (fun upcoming => { s with upcoming }) (Stream.settle_settle (Nat.le_refl 0) s.upcoming)
  rw [peekKind_run, peekKind_run, hstate]

theorem Refolds.bind {p : Parser α} (hp : Refolds p) (f : α → Parser β) : Refolds (p >>= f) := by
  intro s
  rw [StateT.run_bind, StateT.run_bind, hp s]

theorem Refolds.call {p : Parser α} (hp : Refolds p) (f : α → Attempt β) :
    Refolds ((liftM p : Attempt α) >>= f).run := fun s => hp.bind (fun a => (f a).run) s

theorem Refolds.attempt {p : Attempt α} (hp : Refolds p.run) : Refolds (Grammar.attempt p) := by
  intro s
  rw [run_attempt, run_attempt, hp s]
  rfl

theorem refolds_ruleWithin (keyframes nested : Bool) (depth : Nat) :
    Refolds (ruleWithin keyframes nested (depth + 1)) := by
  unfold ruleWithin
  exact (Refolds.attempt (refolds_peekKind.call _)).bind _

theorem refolds_collect_valueItem {component : Parser Node} {stop : List TokenKind}
    {important : Bool} (n : Nat) :
    Refolds (collect (valueItem component stop important) (n + 1)) := by
  have hitem : Refolds (valueItem component stop important).run :=
    refolds_peekKind.call _
  exact hitem.bind _

end Grammar

namespace Production

open Grammar

variable {mark s : State} {p : Production}

/-- What is read where there are no tokens is read behind the comments. -/
theorem readsNothing_run (hp : p.ReadsNothing) (hs : 0 < s.upcoming.length) :
    ∃ q : Parser Node, p.read.run.run s = (some <$> q : Parser (Option Node)).run (s.settle 0) ∧
      ∀ mark, Keeps (Reads mark [] []) q fun n => Reads mark [.node n] [] := by
  obtain ⟨k, hk⟩ := Nat.exists_eq_succ_of_ne_zero (Nat.ne_of_gt hs)
  have hsome : ∀ {q q' : Parser Node}, q'.run (s.settle 0) = q.run s →
      (some <$> q : Parser (Option Node)).run s =
        (some <$> q' : Parser (Option Node)).run (s.settle 0) := by
    intro q q' h
    rw [StateT.run_map, StateT.run_map, h]
  have hrule : ∀ keyframes, ∃ q : Parser Node,
      (some <$> ruleItem keyframes false : Parser (Option Node)).run s =
        (some <$> q : Parser (Option Node)).run (s.settle 0) ∧
          ∀ mark, Keeps (Reads mark [] []) q fun n => Reads mark [.node n] [] := by
    intro keyframes
    refine ⟨ruleWithin keyframes false (k + 1), hsome ?_, fun mark => ?_⟩
    · rw [refolds_ruleWithin keyframes false k s, ruleItem]
      change _ = (ruleWithin keyframes false s.upcoming.length).run s
      rw [hk]
    · exact (ruleWithin_keeps _).post fun _ _ h => h.1
  unfold ReadsNothing at hp
  cases p with
  | rule => exact hrule false
  | keyframeRule => exact hrule true
  | values =>
    let item := valueItem component [] false
    refine ⟨collect item (k + 1) >>= fun ns => node .valueList (ns.map .node), hsome ?_,
      fun mark => ?_⟩
    · rw [(refolds_collect_valueItem k).bind _ s]
      change _ = (collect item s.upcoming.length >>= fun ns => node .valueList (ns.map .node)).run s
      rw [hk]
    · refine Keeps.bind (collect_keeps (fun n => [.node n]) (fun es =>
        (valueItem_tries [] false (fun _ _ => component_known) es).post fun _ _ h => h.1) _ [])
        fun ns => ?_
      rw [← List.map_eq_flatMap]
      exact (node_keeps_plain rfl).post fun _ _ h => h.1
  | mediaQueryList =>
    exact ⟨Grammar.mediaQueryList [], hsome (refolds_peekKind.bind _ s), fun mark =>
      mediaQueryList_keeps []⟩
  | _ => simp at hp

/-- Other productions take a token. -/
theorem read_filled (hp : ¬p.ReadsNothing) (hsheet : p ≠ styleSheet) :
    Tries (Reads mark [] []) p.read (fun n s => Reads mark [.node n] [] s ∧ n.tokens ≠ [])
      (Lost mark) := by
  unfold ReadsNothing at hp
  cases p with
  | styleSheet => exact absurd rfl hsheet
  | ruleBlock => exact requireBlock_tries fun t => ruleBlock_known
  | selectorList => exact selectorList_tries
  | selector => exact selector_tries
  | declarationBlock => exact requireBlock_tries fun t => declarationBlock_known
  | declaration => exact declaration_tries
  | keyframeSelectors => exact keyframeSelectors_tries
  | _ => simp at hp

theorem readAll_filled (hp : ¬p.ReadsNothing) (hsheet : p ≠ styleSheet) :
    Tries (Reads mark [] []) p.readAll (fun n _ => n.tokens ≠ []) (Lost mark) := by
  refine Tries.rawKind fun kind => ?_
  split
  next => exact Tries.fail fun s hs => hs.1.lost
  next =>
    refine Tries.seq ((read_filled hp hsheet).pre fun s hs => hs.1) fun n hn => ?_
    refine Tries.peekKind (Tries.ret fun s hs => hn) fun t ht => ?_
    rw [if_neg ht]
    exact Tries.fail fun s hs => hs.lost

/-- The result of a production that reads a node in any case. -/
theorem readsNothing_readAll (h : mark.Sound) (hp : p.ReadsNothing)
    (hraw : mark.upcoming.tokens ≠ []) :
    ∃ n s, Took (mark.settle 0) [.node n] s ∧ (p.readAll.run.run mark).1 =
      if ((s.settle 0).upcoming.nth 0).kind = .eof then some n else none := by
  have hlength : 0 < mark.upcoming.length := List.length_pos_iff.mpr hraw
  obtain ⟨q, hread, hq⟩ := readsNothing_run hp hlength
  have hsettled : (mark.settle 0).Sound := (Took.settle h 0).sound
  obtain ⟨htook, -⟩ := hq (mark.settle 0) _ (Took.refl hsettled).reads
  refine ⟨_, _, htook, ?_⟩
  have hkind : mark.upcoming.head.kind ≠ .eof := fun heof => hraw (h.upcoming.tokens_eq_nil
    (by rwa [← Stream.head_eq_nth]))
  have hrun : p.readAll.run.run mark = (p.read >>= fun n => do
      if (← peekKind) = .eof then return n else failure : Attempt Node).run.run mark := by
    change ((if mark.upcoming.head.kind = .eof then failure else _ : Attempt Node)).run.run mark = _
    rw [if_neg hkind]
  have hsome : p.read.run.run mark = (some (q.run (mark.settle 0)).1, (q.run (mark.settle 0)).2) := by
    rw [hread, StateT.run_map]
    rfl
  rw [hrun, run_bind_some hsome]
  generalize q.run (mark.settle 0) = r
  change ((if ((r.2.settle 0).upcoming.nth 0).kind = .eof then pure r.1 else failure :
    Attempt Node).run.run (r.2.settle 0)).1 = _
  split <;> rfl

/-- A node without tokens is read where there are only comments. -/
theorem readAll_empty_iff (h : mark.Sound) (hsheet : p ≠ styleSheet) :
    (∃ n, (p.readAll.run.run mark).1 = some n ∧ n.tokens = []) ↔
      p.ReadsNothing ∧ mark.upcoming.OnlyComments := by
  constructor
  · rintro ⟨n, hsome, hnone⟩
    have hraw : mark.upcoming.tokens ≠ [] := by
      intro htokens
      have hhead : mark.upcoming.head.kind = .eof := by
        rw [Stream.head, htokens]
        exact h.upcoming.last_kind
      have hfail : (p.readAll.run.run mark).1 = none := by
        change (((if mark.upcoming.head.kind = .eof then failure else _ : Attempt Node)).run.run
          mark).1 = none
        rw [if_pos hhead]
        rfl
      rw [hfail] at hsome
      cases hsome
    have hp : p.ReadsNothing := by
      by_contra hp
      have hfilled := readAll_filled hp hsheet mark (Took.refl h).reads
      rw [hsome] at hfilled
      exact hfilled hnone
    obtain ⟨m, s, htook, hresult⟩ := readsNothing_readAll h hp hraw
    rw [hresult] at hsome
    split at hsome
    next heof =>
      cases hsome
      refine ⟨hp, hraw, ?_⟩
      have hend := (htook.trans (Took.settle htook.sound 0)).sound.upcoming.tokens_eq_nil heof
      have hsteady := (htook.trans (Took.settle htook.sound 0)).steady
      by_contra hleft
      obtain ⟨t, ts, htokens⟩ := List.exists_cons_of_ne_nil hleft
      have hfirst : (mark.settle 0).upcoming.Starts [t] := by
        have hsettled := mark.upcoming.settled_foldFront
        rw [Stream.eq_of_tokens htokens] at hsettled
        refine ⟨?_, by simpa using Stream.settled_zero_cons.mp hsettled⟩
        change [t] <+: mark.upcoming.foldFront.tokens
        simp [htokens]
      have hprefix := hsteady [t] hfirst
      rw [hend] at hprefix
      simp [hnone] at hprefix
    next => cases hsome
  · rintro ⟨hp, hraw, hfront⟩
    obtain ⟨n, s, htook, hresult⟩ := readsNothing_readAll h hp hraw
    have hshorter := htook.shorter
    have hlength : (mark.settle 0).upcoming.length = 0 :=
      List.length_eq_zero_iff.mpr hfront
    have hafter := (Took.settle htook.sound 0).shorter
    simp only [hlength, Element.tokensOf_node, Element.tokensOf_nil, List.append_nil,
      List.length_nil] at hshorter hafter
    have htokens : n.tokens = [] := List.length_eq_zero_iff.mp (by omega)
    have hend : (s.settle 0).upcoming.tokens = [] := List.length_eq_zero_iff.mp
      (Nat.le_zero.mp (by simp only [Stream.length] at *; omega))
    have heof : ((s.settle 0).upcoming.nth 0).kind = .eof := by
      rw [Stream.nth, hend]
      exact (Took.settle htook.sound 0).sound.upcoming.last_kind
    exact ⟨n, by rw [hresult, if_pos heof], htokens⟩

/-- A fragment renders its text, unless it was read where there are only comments. -/
theorem render_fragment (hsheet : p ≠ styleSheet) (config : Config) {arena : Arena}
    (harena : arena.Fresh) (t : Text) :
    (p.fragment.run (.start config arena t)).1.render = t ↔
      ¬(p.ReadsNothing ∧ (Stream.ofText config t).OnlyComments) := by
  have hsound := sound_start config harena t
  have hempty := readAll_empty_iff hsound hsheet
  have hread := attempt_keeps hsound (readAll_tries hsheet)
  have hresult : ((attempt p.readAll).run (.start config arena t)).1 =
      (p.readAll.run.run (.start config arena t)).1 := by
    rw [run_attempt]
    split <;> rfl
  change _ ↔ ¬(p.ReadsNothing ∧ (State.start config arena t).upcoming.OnlyComments)
  rw [← hempty, ← hresult]
  cases hrun : (attempt p.readAll).run (.start config arena t) with | mk result s => ?_
  rw [hrun] at hread
  cases result with
  | none =>
    rw [fragment_kept hrun]
    obtain ⟨-, hrender, -⟩ := complete_remaining hread
    exact ⟨fun _ => by simp, fun _ => hrender⟩
  | some n =>
    obtain ⟨⟨htook, hend⟩, -⟩ := hread
    change Took _ [.node n] s at htook
    change s.upcoming.tokens = [] at hend
    have htext := htook.text
    rw [text_start, State.text, htook.before_eq, Stream.render, Stream.toList, hend] at htext
    have hlast : s.upcoming.last.render = Lexeme.render s.upcoming.last.leading := by
      simp [Token.render, htook.sound.upcoming.last_text, htook.sound.upcoming.last_trailing]
    have hsplit : t = n.render ++ Lexeme.render s.upcoming.last.leading := by
      rw [← htext, ← hlast]
      simp [State.before, State.start, Node.render, Element.renderAll]
    rw [fragment_read hrun hend]
    by_cases htokens : n.tokens = []
    · have hne : t ≠ [] := by
        rintro rfl
        have hnothing := (hempty.mp ⟨n, by rw [← hresult, hrun], htokens⟩).2.1
        exact hnothing (Stream.tokens_ofText_nil config)
      have hlost : (if s.upcoming.last.leading.isEmpty then n
          else (n.appendTrailing s.upcoming.last.leading).respan).render = [] := by
        split
        next => simp [Node.render, htokens]
        next => simp [Node.render, Node.tokens_appendTrailing, htokens, mapLast]
      rw [hlost]
      simpa [htokens] using hne.symm
    · have hrender : (if s.upcoming.last.leading.isEmpty then n
          else (n.appendTrailing s.upcoming.last.leading).respan).render = t := by
        split
        next hnone => rw [hsplit, List.isEmpty_iff.mp hnone, Lexeme.render_nil, List.append_nil]
        next =>
          rw [Node.render_respan, Node.render, ← Token.render_lexemesOf,
            Node.lexemes_appendTrailing _ htokens, Lexeme.render_append, Token.render_lexemesOf,
            hsplit, Node.render]
      simpa [htokens] using hrender

/-- A fragment that has a token renders its text. -/
theorem render_fragment_of_tokens (hsheet : p ≠ styleSheet) (config : Config) {arena : Arena}
    (harena : arena.Fresh) (t : Text)
    (hfilled : (p.fragment.run (.start config arena t)).1.tokens ≠ []) :
    (p.fragment.run (.start config arena t)).1.render = t := by
  have hsound := sound_start config harena t
  refine (render_fragment hsheet config harena t).mpr fun hnothing => hfilled ?_
  obtain ⟨n, hsome, hnone⟩ := (readAll_empty_iff hsound hsheet).mpr hnothing
  have hread := attempt_keeps hsound (readAll_tries hsheet)
  have hresult : ((attempt p.readAll).run (.start config arena t)).1 = some n := by
    rw [run_attempt]
    split <;> exact hsome
  cases hrun : (attempt p.readAll).run (.start config arena t) with | mk result s => ?_
  rw [hrun] at hread hresult
  obtain rfl : result = some n := hresult
  rw [fragment_read hrun hread.1.2]
  show Node.tokens (if s.upcoming.last.leading.isEmpty then n
    else (n.appendTrailing s.upcoming.last.leading).respan) = []
  split
  · exact hnone
  · rw [Node.tokens_respan, Node.tokens_appendTrailing, hnone]
    rfl

/-- What is read from a text renders it, or nothing. -/
theorem render_parse (p : Production) (config : Config) {arena : Arena} (harena : arena.Fresh)
    (t : Text) :
    (p.parse config arena t).1.render = t ∨ (p.parse config arena t).1.render = [] := by
  by_cases hp : p = .styleSheet
  · subst hp
    exact Or.inl (complete_styleSheet config harena t).2.1
  have hparse : (p.parse config arena t).1 = (p.fragment.run (.start config arena t)).1 := by
    rw [parse, parser, if_neg hp]
    rfl
  rw [hparse]
  by_cases htokens : (p.fragment.run (.start config arena t)).1.tokens = []
  · right
    rw [Node.render, htokens]
    rfl
  · exact Or.inl (p.render_fragment_of_tokens hp config harena t htokens)

/-- What is read from a text is not longer. -/
theorem length_parse (p : Production) (config : Config) {arena : Arena} (harena : arena.Fresh)
    (t : Text) : (p.parse config arena t).1.render.length ≤ t.length := by
  rcases p.render_parse config harena t with h | h <;> simp [h]

end Production

namespace Tree

/-- Whatever a text is read as, nothing is wrong with the tree, and it renders its text unless a
rule, a keyframe, values or media queries were to be read and there are only comments. -/
theorem parse_lossless_iff (p : Production) (config : Config) (t : Text) :
    let tree := Tree.parse p config t
    tree.Valid ∧ (tree.render = t ↔
      ¬(p.ReadsNothing ∧ (Stream.ofText tree.config t).OnlyComments)) := by
  intro tree
  have hcomplete : tree.root.Complete .empty tree.arena :=
    (p.complete_parse tree.config Arena.fresh_empty t).1
  refine ⟨⟨Tree.violations_eq_nil hcomplete.laid hcomplete.whole,
    Linked.linkFaults_eq_nil hcomplete.grown⟩, ?_⟩
  by_cases hp : p = .styleSheet
  · subst hp
    have hrender : tree.render = t := (complete_parse_styleSheet config t).2
    simp [hrender, Production.ReadsNothing]
  · have hparse : tree.root = (p.fragment.run (.start tree.config .empty t)).1 := by
      change (p.parser.run (.start tree.config .empty t)).1 = _
      rw [Production.parser, if_neg hp]
    rw [Tree.render, hparse]
    exact Production.render_fragment hp tree.config Arena.fresh_empty t

/-- A text that is one comment is lost where a rule is to be read from it. -/
theorem parse_rule_loses_comment :
    (Tree.parse .rule { comments := true } "/* a */".toList).render ≠ "/* a */".toList := by
  decide +kernel

end Tree

end CssTree
