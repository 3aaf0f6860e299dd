import CssTree.Grammar.Selector
import CssTree.Proofs.Grammar.Value

namespace CssTree.Grammar

variable {mark : State} {es : List Element}

theorem touchesTaken_known {t : Token} {ts : List Token} :
    Keeps (Reads mark es (t :: ts)) touchesTaken fun _ => Reads mark es (t :: ts) := by
  intro s hs
  have hpeek : Keeps (Reads mark es (t :: ts)) (peek >>= fun u => pure u.leading.isEmpty)
      fun _ => Reads mark es (t :: ts) := Keeps.peek_known (Keeps.ret fun _ hs => hs)
  show Reads mark es (t :: ts) (StateT.run (if s.taken.head?.any (!·.trailing.isEmpty) then
    pure false else peek >>= fun u => pure u.leading.isEmpty : Parser Bool) s).2
  split
  · exact hs
  · exact hpeek s hs

theorem touchesTaken_keeps :
    Keeps (Reads mark es []) touchesTaken fun _ => Reads mark es [] := by
  intro s hs
  have hpeek : Keeps (Reads mark es []) (peek >>= fun u => pure u.leading.isEmpty)
      fun _ => Reads mark es [] := Keeps.peek (fun _ _ => Keeps.ret fun _ hs => hs.1)
        fun _ _ => Keeps.ret fun _ hs => hs.nil
  show Reads mark es [] (StateT.run (if s.taken.head?.any (!·.trailing.isEmpty) then
    pure false else peek >>= fun u => pure u.leading.isEmpty : Parser Bool) s).2
  split
  · exact hs
  · exact hpeek s hs

theorem touchesNext_known {ts : List Token} {n : Nat} (hn : n + 1 < ts.length) :
    Keeps (Reads mark es ts) (touchesNext n) fun _ => Reads mark es ts := by
  refine Keeps.nth_known (Nat.lt_of_succ_lt hn) ?_
  split
  next => exact Keeps.nth_known hn (Keeps.ret fun _ hs => hs)
  next => exact Keeps.ret fun _ hs => hs

/-- Behind a namespace the next token is known, as it is where there is none. -/
theorem nsPrefixFrom_known (t : Token) :
    Keeps (Reads mark es [t]) (nsPrefixFrom t) fun l s => ∃ u, Reads mark (es ++ l) [u] s := by
  have hnone : ∀ ts, Keeps (Reads mark es (t :: ts)) (pure [] : Parser (List Element))
      fun l s => ∃ u, Reads mark (es ++ l) [u] s := fun ts =>
    Keeps.ret fun s hs => ⟨t, by simpa using hs.weaken (List.prefix_append [t] ts)⟩
  unfold nsPrefixFrom
  dsimp only
  split
  next =>
    refine Keeps.nth (fun u hu => ?_) fun u _ => ?_
    · rw [isDelim_eof hu]
      exact hnone []
    · split
      next =>
        refine Keeps.bind (touchesNext_known (by simp)) fun touches => ?_
        split
        next =>
          refine Keeps.nth (fun v hv => ?_) fun v hv => ?_
          · rw [if_neg (by simp [hv, isDelim_eof])]
            exact hnone _
          · split
            next =>
              refine Keeps.bind (touchesNext_known (by simp)) fun touches => ?_
              split
              next =>
                refine Keeps.bump (Keeps.bump (Keeps.ret fun s hs => ⟨v, ?_⟩))
                simpa using hs
              next => exact hnone _
            next => exact hnone _
        next => exact hnone _
      next => exact hnone _
  next =>
    split
    next =>
      refine Keeps.nth (fun u hu => ?_) fun u _ => ?_
      · rw [if_neg (by simp [hu, isDelim_eof])]
        exact hnone []
      · split
        next =>
          refine Keeps.bind (touchesNext_known (by simp)) fun touches => ?_
          split
          next => exact Keeps.bump (Keeps.ret fun s hs => ⟨u, by simpa using hs⟩)
          next => exact hnone _
        next => exact hnone _
    next => exact hnone _

theorem nsPrefix_known {t : Token} :
    Keeps (Reads mark es [t]) nsPrefix fun l s => ∃ u, Reads mark (es ++ l) [u] s :=
  Keeps.peek_known (nsPrefixFrom_known t)

theorem nsPrefix_keeps :
    Keeps (Reads mark es []) nsPrefix fun l => Reads mark (es ++ l) [] := by
  refine Keeps.peek (fun t ht => ?_) fun t _ => ?_
  · rw [nsPrefixFrom, if_neg (by simp [ht, isDelim_eof])]
    rw [isDelim_eof ht]
    exact Keeps.ret fun s hs => by simpa using hs.1
  · exact (nsPrefixFrom_known t).post fun _ _ ⟨_, h⟩ => h.nil

theorem secondColon_keeps :
    Keeps (Reads mark es []) secondColon fun l => Reads mark (es ++ l) [] := by
  refine Keeps.peekKind ?_ fun t _ => ?_
  · exact Keeps.ret fun s hs => by simpa using hs.1
  · split
    next =>
      refine Keeps.bind touchesTaken_known fun touches => ?_
      split
      next => exact Keeps.bump (Keeps.ret fun s hs => hs)
      next => exact Keeps.ret fun s hs => by simpa using hs.nil
    next => exact Keeps.ret fun s hs => by simpa using hs.nil

theorem pseudoSelector_tries {t : Token} :
    Tries (Reads mark es [t]) pseudoSelector
      (fun n s => Reads mark (es ++ [.node n]) [] s ∧ n.tokens ≠ []) (Lost mark) := by
  refine Tries.bump (Tries.call secondColon_keeps fun second => ?_)
  refine Tries.call touchesTaken_keeps fun touches => ?_
  split
  next =>
    refine Tries.peekKind (Tries.fail fun s hs => hs.lost) fun u _ => ?_
    split
    next =>
      exact Tries.bump (filled_tries (t := t) (by simp) (by simp))
    next =>
      refine Tries.call enter_keeps fun entered => ?_
      split
      next =>
        refine Tries.bump (Tries.call (values_keeps _) fun arguments => ?_)
        refine Tries.eat (by decide) fun closing _ => Tries.call exit_keeps fun _ => ?_
        split
        next paren =>
          exact filled_tries (t := t) (by simp) (by simp)
        next => exact Tries.fail fun s hs => hs.lost
      next => exact Tries.fail fun s hs => hs.lost
    next => exact Tries.fail fun s hs => hs.lost
  next => exact Tries.fail fun s hs => hs.lost

theorem attributeMatcher_tries :
    Tries (Reads mark es []) attributeMatcher (fun t => Reads mark (es ++ [.token t]) [])
      (Lost mark) := by
  refine Tries.peekKind (Tries.fail fun s hs => hs.lost) fun t _ => ?_
  have hbump : Tries (Reads mark es [t]) (liftM bump)
      (fun t => Reads mark (es ++ [.token t]) []) (Lost mark) :=
    Tries.bump (f := fun t => pure t) (Tries.ret fun s hs => hs)
  split
  · exact hbump
  · exact hbump
  · exact hbump
  · exact hbump
  · exact hbump
  · refine Tries.atDelim_known ?_
    split
    next => exact hbump
    next => exact Tries.fail fun s hs => hs.lost
  · exact Tries.fail fun s hs => hs.lost

theorem attributeComparison_tries :
    Tries (Reads mark es []) attributeComparison (fun l => Reads mark (es ++ l) [])
      (Lost mark) := by
  refine Tries.bind attributeMatcher_tries fun matcher => ?_
  refine Tries.peekKind (Tries.fail fun s hs => hs.lost) fun t _ => ?_
  split
  next =>
    refine Tries.bump (Tries.eat (by decide) fun modifier _ => Tries.ret fun s hs => ?_)
    simpa using hs
  next => exact Tries.fail fun s hs => hs.lost

theorem attributeTest_tries :
    Tries (Reads mark es []) attributeTest (fun l => Reads mark (es ++ l) []) (Lost mark) := by
  refine Tries.peekKind attributeComparison_tries fun t _ => ?_
  split
  next => exact Tries.ret fun s hs => by simpa using hs.nil
  next => exact attributeComparison_tries.pre fun s hs => hs.nil

theorem attributeSelector_tries {t : Token} :
    Tries (Reads mark es [t]) attributeSelector
      (fun n s => Reads mark (es ++ [.node n]) [] s ∧ n.tokens ≠ []) (Lost mark) := by
  refine Tries.bump (Tries.call nsPrefix_keeps fun ns => ?_)
  refine Tries.require (by decide) (fun s hs => hs.lost) fun name _ => ?_
  refine Tries.bind attributeTest_tries fun test => ?_
  refine Tries.require (by decide) (fun s hs => hs.lost) fun closing _ => ?_
  exact filled_tries (t := t) (by simp) (by simp)

theorem universalSelector_tries {ns : List Element} :
    Tries (Reads mark (es ++ ns) []) (universalSelector ns)
      (fun n s => Reads mark (es ++ [.node n]) [] s ∧ n.tokens ≠ []) (Lost mark) := by
  refine Tries.atDelim (fun t _ => ?_) (Tries.fail fun s hs => hs.lost)
  exact Tries.bump (filled_tries (t := t) (by simp) (by simp))

theorem starSelector_tries :
    Tries (Reads mark es []) starSelector
      (fun n s => Reads mark (es ++ [.node n]) [] s ∧ n.tokens ≠ []) (Lost mark) := by
  refine Tries.call nsPrefix_keeps fun ns => ?_
  split
  next => exact universalSelector_tries
  next =>
    refine Tries.peekKind universalSelector_tries fun t _ => ?_
    split
    next =>
      exact Tries.bump (filled_tries (t := t) (by simp) (by simp))
    next => exact universalSelector_tries.pre fun s hs => hs.nil

theorem simpleSelector_tries {t : Token} :
    Tries (Reads mark es [t]) simpleSelector
      (fun n s => Reads mark (es ++ [.node n]) [] s ∧ n.tokens ≠ []) (Lost mark) := by
  refine Tries.peek_known ?_
  split
  next =>
    refine Tries.call nsPrefix_known fun ns => Tries.of_exists fun u => ?_
    exact Tries.bump (filled_tries (t := u) (by simp) (by simp))
  next =>
    split
    next => exact starSelector_tries.pre fun s hs => hs.nil
    next =>
      split
      next =>
        refine Tries.nth (fun u hu => ?_) fun u _ => ?_
        · rw [if_neg (by simp [hu])]
          exact Tries.fail fun s hs => hs.lost
        · split
          next =>
            refine Tries.call (touchesNext_known (by simp)) fun touches => ?_
            split
            next =>
              exact Tries.bump (Tries.bump (filled_tries (t := t) (by simp) (by simp)))
            next => exact Tries.fail fun s hs => hs.lost
          next => exact Tries.fail fun s hs => hs.lost
      next => exact Tries.fail fun s hs => hs.lost
  next => exact Tries.bump (filled_tries (t := t) rfl (by simp))
  next => exact pseudoSelector_tries
  next => exact attributeSelector_tries
  next => exact Tries.fail fun s hs => hs.lost

theorem atCombinator_known {t : Token} :
    Keeps (Reads mark es [t]) atCombinator fun _ => Reads mark es [t] :=
  Keeps.peek_known (Keeps.ret fun _ hs => hs)

theorem selectorParts_tries (n : Nat) (expectsSimple : Bool) (es : List Element) :
    Tries (Reads mark es []) (selectorParts expectsSimple n)
      (fun ns s => Reads mark (es ++ ns.map .node) [] s ∧
        (expectsSimple = true → Element.tokensOf (ns.map .node) ≠ [])) (Lost mark) := by
  have hend : ∀ es expectsSimple, Tries (Reads mark es [])
      (if expectsSimple = true then failure else pure [] : Attempt (List Node))
      (fun ns s => Reads mark (es ++ ns.map .node) [] s ∧
        (expectsSimple = true → Element.tokensOf (ns.map .node) ≠ [])) (Lost mark) := by
    intro es expectsSimple
    split
    next => exact Tries.fail fun s hs => hs.lost
    next hne => exact Tries.ret fun s hs => ⟨by simpa using hs, fun h => absurd h hne⟩
  induction n generalizing expectsSimple es with
  | zero => exact hend es expectsSimple
  | succ n ih =>
    refine Tries.peekKind (hend es expectsSimple) fun t _ => ?_
    split
    next => exact (hend es expectsSimple).pre fun s hs => hs.nil
    next =>
      refine Tries.call atCombinator_known fun combinator => ?_
      split
      next =>
        split
        next => exact Tries.fail fun s hs => hs.lost
        next hne =>
          refine Tries.bump (Tries.call_seq (node_keeps_plain rfl) fun c _ => ?_)
          refine Tries.seq (ih true _) fun ns _ => Tries.ret fun s hs => ?_
          exact ⟨by simpa using hs, fun h => absurd h hne⟩
      next =>
        refine Tries.seq simpleSelector_tries fun simple hsimple => ?_
        refine Tries.seq (ih false _) fun ns _ => Tries.ret fun s hs => ?_
        exact ⟨by simpa using hs, by simp [hsimple]⟩

theorem selector_tries :
    Tries (Reads mark es []) selector
      (fun n s => Reads mark (es ++ [.node n]) [] s ∧ n.tokens ≠ []) (Lost mark) := by
  have hnode : ∀ ns : List Node, Element.tokensOf (ns.map .node) ≠ [] →
      Tries (Reads mark (es ++ ns.map .node) []) (liftM (node .selector (ns.map .node)))
        (fun n s => Reads mark (es ++ [.node n]) [] s ∧ n.tokens ≠ []) (Lost mark) := by
    refine fun ns hns => Tries.run ((node_keeps_plain rfl).post fun n _ h => ⟨h.1, ?_⟩)
    rwa [← n.tokens_eq, h.2]
  exact fun s hs => Tries.seq (selectorParts_tries s.upcoming.length true es)
    (fun ns hns => hnode ns (hns rfl)) s hs

theorem formed_selectorList {l : Punctuated Node Token} (h : l.endsSeparated = false) (id : NodeId)
    (span : Span) :
    (Node.mk id .selectorList span (punctuatedNodes l)).Formed := by
  have hl : (⟨.selectors, [], l, []⟩ : Listing).Formed .selectors 0 :=
    ⟨rfl, rfl, fun h => absurd rfl h, fun _ => rfl⟩
  exact Node.formed_of_listing rfl hl h (by simp [Listing.elements, punctuatedNodes])

theorem selectorList_tries :
    Tries (Reads mark es []) selectorList
      (fun n s => Reads mark (es ++ [.node n]) [] s ∧ n.tokens ≠ []) (Lost mark) := by
  refine Tries.seq (separated_tries (fun n => [.node n]) (fun n => n.tokens ≠ []) Lost.trans
    fun _ => selector_tries) fun l hl => ?_
  obtain ⟨front, a, hpairs, ha⟩ := hl
  have hformed := formed_selectorList (endsSeparated_of_last hpairs)
  refine Tries.run ((node_keeps _ rfl hformed).post fun n _ h => ⟨h.1, ?_⟩)
  rw [← n.tokens_eq, h.2]
  simp [punctuatedNodes, hpairs, ha]

theorem keyframeSelectors_tries :
    Tries (Reads mark es []) keyframeSelectors
      (fun n s => Reads mark (es ++ [.node n]) [] s ∧ n.tokens ≠ []) (Lost mark) := by
  have hitem : ∀ mark, Tries (Reads mark [] []) (do
      let kind ← peekKind
      if kind = .percentage || kind = .ident then bump else failure)
      (fun t s => Reads mark [.token t] [] s ∧ True) (Lost mark) := by
    intro mark
    refine Tries.peekKind (Tries.fail fun s hs => hs.lost) fun t _ => ?_
    split
    next => exact Tries.bump (f := fun t => pure t) (Tries.ret fun s hs => ⟨hs, trivial⟩)
    next => exact Tries.fail fun s hs => hs.lost
  refine Tries.seq (separated_tries (fun t => [.token t]) _ Lost.trans hitem) fun l hl => ?_
  obtain ⟨front, a, hpairs, -⟩ := hl
  refine Tries.run ((node_keeps_plain rfl).post fun n _ h => ⟨h.1, ?_⟩)
  exact tokens_ne_nil_of_mem (t := a) h.2 (by simp [pairElements, hpairs])

end CssTree.Grammar
