import CssTree.Grammar.AtRule
import CssTree.Proofs.Grammar.Declaration

namespace CssTree.Grammar

variable {mark : State} {es : List Element}

theorem statementEnd_tries :
    Tries (Reads mark es []) statementEnd (fun l => Reads mark (es ++ l) []) (Lost mark) := by
  refine Tries.peekKind (Tries.ret fun s hs => by simpa using hs) fun t _ => ?_
  split
  next => exact Tries.bump (Tries.ret fun s hs => hs)
  next => exact Tries.ret fun s hs => by simpa using hs.nil
  next => exact Tries.ret fun s hs => by simpa using hs.nil
  next => exact Tries.fail fun s hs => hs.lost

theorem requireBlock_tries {block : Parser Node} {φ : Node → Prop}
    (hblock : ∀ t, Keeps (Reads mark es [t]) block fun n s =>
      Reads mark (es ++ [.node n]) [] s ∧ φ n) :
    Tries (Reads mark es []) (requireBlock block)
      (fun n s => Reads mark (es ++ [.node n]) [] s ∧ φ n) (Lost mark) := by
  refine Tries.peekKind (Tries.fail fun s hs => hs.lost) fun t _ => ?_
  split
  next => exact Tries.run (hblock t)
  next => exact Tries.fail fun s hs => hs.lost

theorem urlOrString_tries :
    Tries (Reads mark es []) urlOrString (fun n => Reads mark (es ++ [.node n]) [])
      (Lost mark) := by
  refine Tries.peek (fun t ht => ?_) fun t _ => ?_
  · rw [if_neg (by simp [ht])]
    exact Tries.fail fun s hs => hs.lost
  · split
    next => exact Tries.run (component_known.post fun _ _ h => h.1)
    next => exact Tries.fail fun s hs => hs.lost

theorem documentMatcher_tries :
    Tries (Reads mark es []) documentMatcher (fun n => Reads mark (es ++ [.node n]) [])
      (Lost mark) := by
  refine Tries.peek (fun t ht => ?_) fun t _ => ?_
  · rw [if_neg (by simp [ht])]
    exact Tries.fail fun s hs => hs.lost
  · split
    next => exact Tries.run (component_known.post fun _ _ h => h.1)
    next => exact Tries.fail fun s hs => hs.lost

/-- A list of media queries is never given up. -/
theorem queries_keeps (stop : List TokenKind) (es : List Element) :
    Keeps (Reads mark es []) (separated (OptionT.lift (values stop))).run fun queries =>
      Reads mark (es ++ punctuatedNodes (queries.getD .empty)) [] := by
  have hqueries : Tries (Reads mark es []) (separated (OptionT.lift (values stop)))
      (fun l => Reads mark (es ++ punctuatedNodes l) []) fun _ => False :=
    (separated_tries (F := fun _ _ => False) (fun n => [.node n]) (fun _ => True) (fun _ h => h)
      fun _ => Tries.lift ((values_keeps stop).post fun _ _ h => ⟨h, trivial⟩)).post fun _ _ h => h.1
  refine Keeps.post hqueries fun queries s hs => ?_
  cases queries with
  | none => exact False.elim hs
  | some l => exact hs

theorem mediaQueryList_keeps (stop : List TokenKind) :
    Keeps (Reads mark es []) (mediaQueryList stop) fun n => Reads mark (es ++ [.node n]) [] := by
  have hempty : Keeps (Reads mark es []) (node .mediaQueryList []) fun n =>
      Reads mark (es ++ [.node n]) [] :=
    (node_keeps_plain (List.append_nil es).symm).post fun _ _ h => h.1
  refine Keeps.peekKind (hempty.pre fun s hs => hs.1) fun t _ => ?_
  split
  next => exact hempty.pre fun s hs => hs.nil
  next =>
    refine (Keeps.bind (queries_keeps _ es) fun queries => ?_).pre fun s hs => hs.nil
    exact (node_keeps_plain rfl).post fun _ _ h => h.1

theorem importMedia_keeps :
    Keeps (Reads mark es []) importMedia fun l => Reads mark (es ++ l) [] := by
  refine Keeps.peekKind (Keeps.ret fun s hs => by simpa using hs.1) fun t _ => ?_
  split
  next => exact Keeps.ret fun s hs => by simpa using hs.nil
  next =>
    refine (Keeps.bind (mediaQueryList_keeps _) fun n => ?_).pre fun s hs => hs.nil
    exact Keeps.ret fun s hs => hs

theorem pageSelector_keeps :
    Keeps (Reads mark es []) pageSelector fun l => Reads mark (es ++ l) [] := by
  have hvalues : Keeps (Reads mark es []) (values [.openBrace, .semicolon] >>= fun n =>
      pure [.node n]) fun l => Reads mark (es ++ l) [] :=
    Keeps.bind (values_keeps _) fun n => Keeps.ret fun s hs => hs
  refine Keeps.peekKind (hvalues.pre fun s hs => hs.1) fun t _ => ?_
  split
  next => exact Keeps.ret fun s hs => by simpa using hs.nil
  next => exact hvalues.pre fun s hs => hs.nil

theorem genericEnd_tries :
    Tries (Reads mark es []) genericEnd (fun l => Reads mark (es ++ l) []) (Lost mark) := by
  refine Tries.peekKind statementEnd_tries fun t _ => ?_
  split
  next =>
    exact Tries.call_seq component_known fun n _ => Tries.ret fun s hs => hs
  next => exact statementEnd_tries.pre fun s hs => hs.nil

/-- An at-rule keeps its tokens, of which it has at least its name. -/
theorem atRule_tries {rules : Bool → Parser Node} {t : Token}
    (hrules : ∀ keyframes mark es t, Keeps (Reads mark es [t]) (rules keyframes) fun n s =>
      Reads mark (es ++ [.node n]) [] s) :
    Tries (Reads mark es [t]) (atRule rules)
      (fun n s => Reads mark (es ++ [.node n]) [] s ∧ n.tokens ≠ []) (Lost mark) := by
  have hblock : ∀ keyframes es, Tries (Reads mark es []) (requireBlock (rules keyframes))
      (fun n s => Reads mark (es ++ [.node n]) [] s ∧ True) (Lost mark) := fun keyframes es =>
    requireBlock_tries fun t => (hrules keyframes mark es t).post fun _ _ h => ⟨h, trivial⟩
  have hdeclarations : ∀ es, Tries (Reads mark es []) (requireBlock declarationBlock)
      (fun n s => Reads mark (es ++ [.node n]) [] s ∧ n.tokens ≠ []) (Lost mark) := fun es =>
    requireBlock_tries fun t => declarationBlock_known
  have hnode : ∀ {kind : NodeKind} {fs gs : List Element}, fs = es ++ .token t :: gs →
      kind.listShape? = none → kind ≠ .declaration →
      Tries (Reads mark fs []) (liftM (node kind (.token t :: gs)))
        (fun n s => Reads mark (es ++ [.node n]) [] s ∧ n.tokens ≠ []) (Lost mark) :=
    fun hfs hlist hkind => Tries.run ((node_keeps_plain hfs hlist hkind).post fun _ _ h =>
      ⟨h.1, tokens_ne_nil_of_token h.2⟩)
  refine Tries.peek_known (Tries.bump ?_)
  dsimp only
  cases AtRule.ofName (t.name?.getD []) with
  | charset =>
    refine Tries.require (by decide) (fun s hs => hs.lost) fun charset _ => ?_
    refine Tries.bind statementEnd_tries fun ending => hnode (by simp) rfl (by decide)
  | customMedia =>
    refine Tries.require (by decide) (fun s hs => hs.lost) fun name _ => ?_
    refine Tries.call (mediaQueryList_keeps _) fun media => ?_
    exact Tries.bind statementEnd_tries fun ending => hnode (by simp) rfl (by decide)
  | document =>
    refine Tries.seq (separated_tries (fun n => [.node n]) (fun _ => True) Lost.trans fun _ =>
      documentMatcher_tries.post fun _ _ h => ⟨h, trivial⟩) fun matchers _ => ?_
    refine Tries.seq (hblock false _) fun block _ => ?_
    exact hnode (by simp [punctuatedNodes, pairElements]) rfl (by decide)
  | fontFace =>
    exact Tries.seq (hdeclarations _) fun block _ => hnode (by simp) rfl (by decide)
  | host =>
    exact Tries.seq (hblock false _) fun block _ => hnode (by simp) rfl (by decide)
  | «import» =>
    refine Tries.bind urlOrString_tries fun url => ?_
    refine Tries.call importMedia_keeps fun media => ?_
    exact Tries.bind statementEnd_tries fun ending => hnode (by simp) rfl (by decide)
  | keyframes =>
    refine Tries.peekKind ?_ fun u _ => ?_
    · exact Tries.fail fun s hs => hs.lost
    · split
      next =>
        refine Tries.bump (Tries.seq (hblock true _) fun block _ => ?_)
        exact hnode (by simp) rfl (by decide)
      next => exact Tries.fail fun s hs => hs.lost
  | media =>
    refine Tries.call (mediaQueryList_keeps _) fun media => ?_
    exact Tries.seq (hblock false _) fun block _ => hnode (by simp) rfl (by decide)
  | «namespace» =>
    refine Tries.eat (by decide) fun name _ => Tries.bind urlOrString_tries fun url => ?_
    exact Tries.bind statementEnd_tries fun ending => hnode (by simp) rfl (by decide)
  | page =>
    refine Tries.call pageSelector_keeps fun selector => ?_
    exact Tries.seq (hdeclarations _) fun block _ => hnode (by simp) rfl (by decide)
  | supports =>
    refine Tries.call (values_keeps _) fun condition => ?_
    exact Tries.seq (hblock false _) fun block _ => hnode (by simp) rfl (by decide)
  | generic =>
    refine Tries.call (values_keeps _) fun prelude => ?_
    exact Tries.bind genericEnd_tries fun ending => hnode (by simp) rfl (by decide)

end CssTree.Grammar
