import CssTree.Grammar.Rule
import CssTree.Proofs.Grammar.AtRule
import CssTree.Proofs.Grammar.Selector

namespace CssTree.Grammar

variable {mark : State} {es : List Element}

theorem ruleWith_tries {kind : NodeKind} {selectors : Attempt Node}
    (hlist : kind.listShape? = none) (hkind : kind ≠ .declaration)
    (hselectors : Tries (Reads mark es []) selectors (fun n => Reads mark (es ++ [.node n]) [])
      (Lost mark)) :
    Tries (Reads mark es []) (ruleWith kind selectors)
      (fun n s => Reads mark (es ++ [.node n]) [] s ∧ n.tokens ≠ []) (Lost mark) := by
  refine Tries.bind hselectors fun selectors => ?_
  refine Tries.seq (requireBlock_tries fun t => declarationBlock_known) fun block hblock => ?_
  refine Tries.run ((node_keeps_plain (by simp) hlist hkind).post fun n _ h => ⟨h.1, ?_⟩)
  rw [← n.tokens_eq, h.2]
  simp [hblock]

theorem qualifiedRule_tries :
    Tries (Reads mark es []) qualifiedRule
      (fun n s => Reads mark (es ++ [.node n]) [] s ∧ n.tokens ≠ []) (Lost mark) :=
  ruleWith_tries rfl (by decide) (selectorList_tries.post fun _ _ h => h.1)

theorem keyframeRule_tries :
    Tries (Reads mark es []) keyframeRule
      (fun n s => Reads mark (es ++ [.node n]) [] s ∧ n.tokens ≠ []) (Lost mark) :=
  ruleWith_tries rfl (by decide) (keyframeSelectors_tries.post fun _ _ h => h.1)

/-- Rules in braces, each read by a step that takes a token at least. -/
theorem blockOf_known {item : Parser Node} {t : Token}
    (hitem : ∀ es u, u.kind ≠ .closeBrace → Keeps (Reads mark es [u]) item fun n s =>
      Reads mark (es ++ [.node n]) [] s) :
    Keeps (Reads mark es [t]) (blockOf item) fun n s =>
      Reads mark (es ++ [.node n]) [] s ∧ n.tokens ≠ [] := by
  refine Keeps.bind enter_keeps fun entered => ?_
  split
  next =>
    refine Keeps.bump (Keeps.bind (many_keeps (fun n => [.node n]) (fun es => ?_) _) fun ns => ?_)
    · exact Tries.atBlockEnd (Tries.fail fun s hs => hs) fun u hu => Tries.run (hitem es u hu)
    · refine Keeps.seq (eat_keeps (by decide)) fun closing _ => Keeps.bind exit_keeps fun _ => ?_
      refine (node_keeps _ ?_ (formed_block t ns closing rfl (by decide))).post fun _ _ h =>
        ⟨h.1, tokens_ne_nil_of_token h.2⟩
      simp [← List.map_eq_flatMap]
  next => exact recoverBlock_known

/-- A rule of any sort keeps its tokens. -/
theorem anyRule_tries {rules : Bool → Parser Node} (keyframes : Bool)
    (hrules : ∀ keyframes mark es t, Keeps (Reads mark es [t]) (rules keyframes) fun n s =>
      Reads mark (es ++ [.node n]) [] s) :
    Tries (Reads mark [] []) (do
        if (← peekKind) = .atKeyword then atRule rules
        else if keyframes then keyframeRule
        else qualifiedRule)
      (fun n s => Reads mark [.node n] [] s ∧ n.tokens ≠ []) (Lost mark) := by
  have hplain : Tries (Reads mark [] []) (if keyframes then keyframeRule else qualifiedRule)
      (fun n s => Reads mark [.node n] [] s ∧ n.tokens ≠ []) (Lost mark) := by
    split
    next => exact keyframeRule_tries
    next => exact qualifiedRule_tries
  refine Tries.peekKind hplain fun t _ => ?_
  split
  next => exact atRule_tries hrules
  next => exact hplain.pre fun s hs => hs.nil

/-- What is read as a rule takes the token that is known to come next. -/
theorem ruleWithin_known (depth : Nat) (keyframes nested : Bool) (mark : State)
    (es : List Element) (t : Token) (ht : t.kind ∉ (ruleRecovery nested).before) :
    Keeps (Reads mark es [t]) (ruleWithin keyframes nested depth) fun n s =>
      Reads mark (es ++ [.node n]) [] s ∧ n.tokens ≠ [] := by
  induction depth generalizing keyframes nested mark es t with
  | zero => exact recover_known ht
  | succ depth ih =>
    refine Keeps.attempt (fun n => [.node n]) (fun n => n.tokens ≠ []) (fun mark => ?_)
      (fun n hn => Keeps.ret fun s hs => ⟨hs, hn⟩) (recover_known ht)
    refine (anyRule_tries keyframes fun keyframes mark es t => ?_).pre fun s hs => hs.nil
    refine (blockOf_known fun es u hu => ?_).post fun _ _ h => h.1
    exact (ih keyframes true mark es u (by simpa [ruleRecovery] using hu)).post fun _ _ h => h.1

/-- A rule of any sort, with rules nested in it to a depth, keeps its tokens. -/
theorem rule_tries (depth : Nat) (keyframes : Bool) :
    Tries (Reads mark [] []) (do
        if (← peekKind) = .atKeyword then
          atRule fun keyframes => blockOf (ruleWithin keyframes true depth)
        else if keyframes then keyframeRule
        else qualifiedRule)
      (fun n s => Reads mark [.node n] [] s ∧ n.tokens ≠ []) (Lost mark) := by
  refine anyRule_tries keyframes fun keyframes mark es t => ?_
  refine (blockOf_known fun es u hu => ?_).post fun _ _ h => h.1
  exact (ruleWithin_known depth keyframes true mark es u
    (by simpa [ruleRecovery] using hu)).post fun _ _ h => h.1

theorem ruleItem_known {keyframes nested : Bool} {t : Token}
    (ht : t.kind ∉ (ruleRecovery nested).before) :
    Keeps (Reads mark es [t]) (ruleItem keyframes nested) fun n s =>
      Reads mark (es ++ [.node n]) [] s ∧ n.tokens ≠ [] :=
  fun s hs => ruleWithin_known s.upcoming.length keyframes nested mark es t ht s hs

theorem recover_kind (r : Recovery) (s : State) : ((recover r).run s).1.kind = .error := rfl

theorem ruleWithin_keeps {keyframes nested : Bool} (depth : Nat) :
    Keeps (Reads mark es []) (ruleWithin keyframes nested depth) fun n s =>
      Reads mark (es ++ [.node n]) [] s ∧ (n.kind ≠ .error → n.tokens ≠ []) := by
  have hrecover : Keeps (Reads mark es []) (recover (ruleRecovery nested)) fun n s =>
      Reads mark (es ++ [.node n]) [] s ∧ (n.kind ≠ .error → n.tokens ≠ []) :=
    fun s hs => ⟨recover_keeps _ s hs, fun h => absurd (recover_kind _ s) h⟩
  cases depth with
  | zero => exact hrecover
  | succ depth =>
    exact Keeps.attempt (fun n => [.node n]) (fun n => n.tokens ≠ [])
      (fun mark => rule_tries depth keyframes) (fun n hn => Keeps.ret fun s hs => ⟨hs, fun _ => hn⟩)
      hrecover

/-- What is read as a rule is an error, or takes a token. -/
theorem ruleItem_keeps {keyframes nested : Bool} :
    Keeps (Reads mark es []) (ruleItem keyframes nested) fun n s =>
      Reads mark (es ++ [.node n]) [] s ∧ (n.kind ≠ .error → n.tokens ≠ []) :=
  fun s hs => ruleWithin_keeps s.upcoming.length s hs

theorem ruleBlock_known {keyframes : Bool} {t : Token} :
    Keeps (Reads mark es [t]) (ruleBlock keyframes) fun n s =>
      Reads mark (es ++ [.node n]) [] s ∧ n.tokens ≠ [] :=
  blockOf_known fun _ _ hu =>
    (ruleItem_known (by simpa [ruleRecovery] using hu)).post fun _ _ h => h.1

/-- The rules of a style sheet take all tokens but the one that ends the text. -/
theorem rules_all :
    Keeps (Reads mark es []) (many do
      if (← peekKind) = .eof then failure else ruleItem false false) fun ns s =>
        Reads mark (es ++ ns.flatMap fun n => [.node n]) [] s ∧ s.upcoming.tokens = [] := by
  refine many_all (fun n => [.node n]) (fun mark => ?_) es
  refine Tries.peekKind_end (Tries.fail fun s hs => hs) fun t ht => ?_
  rw [if_neg ht]
  refine Tries.run ((ruleItem_known (by simp [ruleRecovery])).post fun n _ h => ⟨h.1, ?_⟩)
  simpa using h.2

end CssTree.Grammar
