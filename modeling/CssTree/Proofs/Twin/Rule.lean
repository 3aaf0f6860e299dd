import CssTree.Proofs.Grammar.AtRule
import CssTree.Proofs.Grammar.Rule
import CssTree.Proofs.Twin.Declaration
import CssTree.Proofs.Twin.Selector

namespace CssTree.Grammar

variable {P : Pairing} {m m' : Nat} {t t' : Token}

theorem statementEnd_tandem : Tandem Never (Twins P m m' [] []) statementEnd statementEnd
    (Same P m m') (Abreast P) := by
  refine Tandem.peekKind (Tandem.ret fun s s' hs => ⟨hs, rfl⟩) fun t t' ht _ => ?_
  split
  next => exact Tandem.bump (Tandem.ret fun s s' hs => ⟨hs, by simp [ht]⟩)
  next => exact Tandem.ret fun s s' hs => ⟨hs.nil, rfl⟩
  next => exact Tandem.ret fun s s' hs => ⟨hs.nil, rfl⟩
  next => exact Tandem.fail fun s s' hs => hs.abreast

/-- Two runs read the same block. -/
def ReadsBlock (P : Pairing) (m m' : Nat) (block block' : Parser Node) : Prop :=
  ∀ k k', k ≤ m → k' ≤ m' → ∀ t t' : Token, t.kind = .openBrace →
    Side P.Lost (Twins P k k' [t] [t']) block block' (Paired P (k - 1) (k' - 1))

theorem declarationBlock_reads (hread : P.ReadsDeclarations) :
    ReadsBlock P m m' declarationBlock declarationBlock :=
  fun _ _ _ _ _ _ hbrace => declarationBlock_side hread hbrace

theorem requireBlock_tandem {block block' : Parser Node} (h : ReadsBlock P m m' block block') :
    Tandem P.Lost (Twins P m m' [] []) (requireBlock block) (requireBlock block')
      (Paired P (m - 1) (m' - 1)) (Abreast P) := by
  refine Tandem.peekKind (Tandem.fail fun s s' hs => hs.abreast) fun t t' _ _ => ?_
  split
  next hbrace => exact Tandem.run (h m m' (Nat.le_refl m) (Nat.le_refl m') t t' hbrace)
  next => exact Tandem.fail fun s s' hs => hs.abreast

/-- A rule that ends with a block. -/
theorem blockRule_tandem {block block' : Parser Node} {kind : NodeKind} (es es' : List Element)
    (h : ReadsBlock P m m' block block') (hes : Element.bareAll es = Element.bareAll es') :
    Tandem P.Lost (Twins P m m' [] [])
      (requireBlock block >>= fun n => liftM (node kind (es ++ [.node n])))
      (requireBlock block' >>= fun n => liftM (node kind (es' ++ [.node n])))
      (Paired P (m - 1) (m' - 1)) (Abreast P) := by
  refine Tandem.seq_lost (requireBlock_tandem h) (fun n hn s => ⟨_, rfl, ?_⟩) fun n n' hn => ?_
  · exact node_lost (es ++ [.node n]) (by simp) hn s
  · exact node_tandem (by simp [hes, hn])

theorem urlOrString_tandem : Tandem Never (Twins P m m' [] []) urlOrString urlOrString
    (Paired P m m') (Abreast P) := by
  refine Tandem.peek (fun t t' ht hkind => ?_) fun t t' ht _ => ?_
  · have hnone : ∀ {t : Token}, t.kind = .eof →
        ¬(t.kind = .url || t.kind = .string || (t.kind = .function && t.hasName "url".toList)) := by
      intro t hkind
      simp [hkind]
    rw [if_neg (hnone hkind), if_neg (hnone (Token.kind_of_bare ht ▸ hkind))]
    exact Tandem.fail fun s s' hs => hs.abreast
  · rw [← Token.kind_of_bare ht, ← Token.hasName_of_bare ht]
    split
    next =>
      refine Tandem.run ((takesNext_component m m' (Nat.le_refl m) (Nat.le_refl m') t t').post ?_)
      exact fun _ _ _ _ h => h.mono (Nat.sub_le m 1) (Nat.sub_le m' 1)
    next => exact Tandem.fail fun s s' hs => hs.abreast

theorem documentMatcher_tandem : Tandem Never (Twins P m m' [] []) documentMatcher documentMatcher
    (Paired P m m') (Abreast P) := by
  refine Tandem.peek (fun t t' ht hkind => ?_) fun t t' ht _ => ?_
  · have hnone : ∀ {t : Token}, t.kind = .eof →
        ¬(t.kind = .url || (t.kind = .function && documentMatchers.any t.hasName)) := by
      intro t hkind
      simp [hkind]
    rw [if_neg (hnone hkind), if_neg (hnone (Token.kind_of_bare ht ▸ hkind))]
    exact Tandem.fail fun s s' hs => hs.abreast
  · have hname : t'.hasName = t.hasName := funext fun name => (Token.hasName_of_bare ht name).symm
    rw [← Token.kind_of_bare ht, hname]
    split
    next =>
      refine Tandem.run ((takesNext_component m m' (Nat.le_refl m) (Nat.le_refl m') t t').post ?_)
      exact fun _ _ _ _ h => h.mono (Nat.sub_le m 1) (Nat.sub_le m' 1)
    next => exact Tandem.fail fun s s' hs => hs.abreast

/-- A list of media queries is never given up. -/
theorem queries_side (stop : List TokenKind) : Side Never (Twins P m m' [] [])
    (separated (OptionT.lift (values stop))).run (separated (OptionT.lift (values stop))).run
    fun q q' s s' => Twins P m m' [] [] s s' ∧
      Element.bareAll (punctuatedNodes (q.getD .empty)) =
        Element.bareAll (punctuatedNodes (q'.getD .empty)) := by
  have hqueries : Tandem Never (Twins P m m' [] []) (separated (OptionT.lift (values stop)))
      (separated (OptionT.lift (values stop))) (fun l l' s s' => Twins P m m' [] [] s s' ∧
        viewPairs Node.bare l.pairs = viewPairs Node.bare l'.pairs) fun _ _ => False :=
    separated_tandem Node.bare fun _ _ _ _ => Tandem.lift (values_side stop)
  refine Side.pre (fun _ _ hs => hs) (fun s s' hs => Or.inr ?_)
  have hrun := (hqueries s s' hs).resolve_left (not_exists_never _)
  cases hq : ((separated (OptionT.lift (values stop))).run.run s).1 with
  | none =>
    cases hq' : ((separated (OptionT.lift (values stop))).run.run s').1 with
    | none => rw [hq, hq'] at hrun; exact hrun.elim
    | some l' => rw [hq, hq'] at hrun; exact hrun.elim
  | some l =>
    cases hq' : ((separated (OptionT.lift (values stop))).run.run s').1 with
    | none => rw [hq, hq'] at hrun; exact hrun.elim
    | some l' =>
      rw [hq, hq'] at hrun
      exact ⟨hrun.1, bareAll_punctuatedNodes hrun.2⟩

theorem mediaQueryList_side (stop : List TokenKind) : Side Never (Twins P m m' [] [])
    (mediaQueryList stop) (mediaQueryList stop) (Paired P m m') := by
  refine Side.peekKind (node_side rfl) fun t t' _ _ => ?_
  split
  next => exact Side.forget (node_side rfl)
  next => exact Side.forget (Side.seq (queries_side _) fun q q' hq => node_side hq)

theorem importMedia_side : Side Never (Twins P m m' [] []) importMedia importMedia
    (Same P m m') := by
  refine Side.peekKind (Side.ret fun s s' hs => ⟨hs, rfl⟩) fun t t' _ _ => ?_
  split
  next => exact Side.ret fun s s' hs => ⟨hs.nil, rfl⟩
  next =>
    refine Side.forget (Side.seq (mediaQueryList_side _) fun n n' hn => ?_)
    exact Side.ret fun s s' hs => ⟨hs, by simp [hn]⟩

theorem pageSelector_side : Side Never (Twins P m m' [] []) pageSelector pageSelector
    (Same P m m') := by
  have hvalues : Side Never (Twins P m m' [] [])
      (values [.openBrace, .semicolon] >>= fun n => pure [.node n])
      (values [.openBrace, .semicolon] >>= fun n => pure [.node n]) (Same P m m') :=
    Side.seq (values_side _) fun n n' hn => Side.ret fun s s' hs => ⟨hs, by simp [hn]⟩
  refine Side.peekKind hvalues fun t t' _ _ => ?_
  split
  next => exact Side.ret fun s s' hs => ⟨hs.nil, rfl⟩
  next => exact hvalues.forget

theorem genericEnd_tandem : Tandem Never (Twins P m m' [] []) genericEnd genericEnd
    (Same P m m') (Abreast P) := by
  refine Tandem.peekKind statementEnd_tandem fun t t' _ _ => ?_
  split
  next =>
    refine Tandem.call (takesNext_component m m' (Nat.le_refl m) (Nat.le_refl m') t t')
      fun n n' hn => Tandem.ret fun s s' hs => ⟨?_, by simp [hn]⟩
    exact hs.mono (Nat.sub_le m 1) (Nat.sub_le m' 1)
  next => exact statementEnd_tandem.forget

/-- A rule that ends with a semicolon, or with the block around it. -/
theorem statement_tandem {kind : NodeKind} (es es' : List Element) {ending : Attempt (List Element)}
    (h : Tandem Never (Twins P m m' [] []) ending ending (Same P m m') (Abreast P))
    (hes : Element.bareAll es = Element.bareAll es') :
    Tandem P.Lost (Twins P m m' [] []) (ending >>= fun l => liftM (node kind (es ++ l)))
      (ending >>= fun l => liftM (node kind (es' ++ l))) (Paired P m m') (Abreast P) :=
  Tandem.seq h fun l l' hl => node_tandem (by simp [hes, hl])

/-- Two runs read the same at-rule, which takes its name at least. -/
theorem atRule_tandem {rules rules' : Bool → Parser Node} (hread : P.ReadsDeclarations)
    (hrules : ∀ keyframes, ReadsBlock P (m - 1) (m' - 1) (rules keyframes) (rules' keyframes)) :
    Tandem P.Lost (Twins P m m' [t] [t']) (atRule rules) (atRule rules')
      (Paired P (m - 1) (m' - 1)) (Abreast P) := by
  have hdeclarations : ReadsBlock P (m - 1) (m' - 1) declarationBlock declarationBlock :=
    declarationBlock_reads hread
  refine Tandem.of_known fun ht _ _ _ => Tandem.peek_known (Tandem.bump_shorter ?_)
  rw [← Token.name?_of_bare ht]
  have hkeyword : Element.bareAll [.token t] = Element.bareAll [.token t'] := by simp [ht]
  have hblock : ∀ {kind : NodeKind} {block block' : Parser Node} (es es' : List Element),
      ReadsBlock P (m - 1) (m' - 1) block block' → Element.bareAll es = Element.bareAll es' →
      Tandem P.Lost (Twins P (m - 1) (m' - 1) [] [])
        (requireBlock block >>= fun n => liftM (node kind (es ++ [.node n])))
        (requireBlock block' >>= fun n => liftM (node kind (es' ++ [.node n])))
        (Paired P (m - 1) (m' - 1)) (Abreast P) := fun es es' h hes =>
    (blockRule_tandem es es' h hes).post (fun _ _ _ _ h => h.mono (Nat.sub_le _ 1) (Nat.sub_le _ 1))
      fun _ _ h => h
  dsimp only
  cases AtRule.ofName (t.name?.getD []) with
  | charset =>
    refine Tandem.require (by decide) (fun s s' hs => hs.abreast) fun charset charset' h _ _ _ => ?_
    refine Tandem.pre (fun s s' hs => hs.mono (Nat.sub_le _ 1) (Nat.sub_le _ 1)) ?_
    exact statement_tandem [.token t, .token charset] [.token t', .token charset']
      statementEnd_tandem (by simp [ht, h])
  | customMedia =>
    refine Tandem.require (by decide) (fun s s' hs => hs.abreast) fun name name' hname _ _ _ => ?_
    refine Tandem.pre (fun s s' hs => hs.mono (Nat.sub_le _ 1) (Nat.sub_le _ 1)) ?_
    refine Tandem.call (mediaQueryList_side _) fun media media' hmedia => ?_
    exact statement_tandem [.token t, .token name, .node media]
      [.token t', .token name', .node media'] statementEnd_tandem
      (by simp [ht, hname, hmedia])
  | document =>
    refine Tandem.seq (separated_tandem Node.bare fun _ _ _ _ => documentMatcher_tandem)
      fun matchers matchers' hmatchers => ?_
    exact hblock _ _ (hrules false) (by simp [ht, bareAll_punctuatedNodes hmatchers])
  | fontFace => exact hblock [.token t] [.token t'] hdeclarations hkeyword
  | host => exact hblock [.token t] [.token t'] (hrules false) hkeyword
  | «import» =>
    refine Tandem.seq urlOrString_tandem fun url url' hurl => ?_
    refine Tandem.call importMedia_side fun media media' hmedia => ?_
    exact statement_tandem (.token t :: .node url :: media)
      (.token t' :: .node url' :: media') statementEnd_tandem (by simp [ht, hurl, hmedia])
  | keyframes =>
    refine Tandem.peekKind (Tandem.fail fun s s' hs => hs.abreast) fun u u' hu _ => ?_
    split
    next =>
      exact Tandem.bump (hblock [.token t, .token u] [.token t', .token u']
        (hrules true) (by simp [ht, hu]))
    next => exact Tandem.fail fun s s' hs => hs.abreast
  | media =>
    refine Tandem.call (mediaQueryList_side _) fun media media' hmedia => ?_
    exact hblock [.token t, .node media] [.token t', .node media']
      (hrules false) (by simp [ht, hmedia])
  | «namespace» =>
    refine Tandem.call (eat_side (by decide)) fun name name' hname => ?_
    refine Tandem.seq urlOrString_tandem fun url url' hurl => ?_
    refine Tandem.seq statementEnd_tandem fun ending ending' hending => ?_
    exact node_tandem (by simp [ht, hname, hurl, hending])
  | page =>
    refine Tandem.call pageSelector_side fun selector selector' hselector => ?_
    exact hblock (.token t :: selector) (.token t' :: selector') hdeclarations
      (by simp [ht, hselector])
  | supports =>
    refine Tandem.call (values_side _) fun condition condition' hcondition => ?_
    exact hblock [.token t, .node condition] [.token t', .node condition']
      (hrules false) (by simp [ht, hcondition])
  | generic =>
    refine Tandem.call (values_side _) fun prelude prelude' hprelude => ?_
    exact statement_tandem [.token t, .node prelude] [.token t', .node prelude']
      genericEnd_tandem (by simp [ht, hprelude])

theorem ruleWith_tandem {kind : NodeKind} {selectors : Attempt Node} (hread : P.ReadsDeclarations)
    (hselectors : Tandem Never (Twins P m m' [] []) selectors selectors (Paired P m m')
      (Abreast P)) :
    Tandem P.Lost (Twins P m m' [] []) (ruleWith kind selectors) (ruleWith kind selectors)
      (Paired P (m - 1) (m' - 1)) (Abreast P) :=
  Tandem.seq hselectors fun n n' hn => blockRule_tandem [.node n] [.node n']
    (declarationBlock_reads hread) (by simp [hn])

/-- A step that reads a node takes the token ahead, unless that token ends a block. -/
def ReadsItem (P : Pairing) (m m' : Nat) (item item' : Parser Node) : Prop :=
  ∀ k k', k ≤ m → k' ≤ m' → ∀ t t' : Token, t.kind ≠ .closeBrace →
    Side P.Lost (Twins P k k' [t] [t']) item item' (Paired P (k - 1) (k' - 1))

theorem stops_blockItem {item : Parser Node} : Stops (do
    if ← atBlockEnd then failure else item : Attempt Node) :=
  stops_of_peekKind (f := fun kind =>
    if kind = .closeBrace || kind = .eof then failure else liftM item) rfl (by simp)

theorem blockOf_reads {item item' : Parser Node} (h : ReadsItem P (m - 1) (m' - 1) item item') :
    ReadsBlock P m m' (blockOf item) (blockOf item') := by
  intro k k' hk hk' t t' _
  refine Side.of_known fun ht _ _ _ => Side.enter fun entered => ?_
  split
  next =>
    refine Side.bump_shorter (Side.seq_lost (many_twins Node.bare (K := P.Lost) stops_blockItem
      stops_blockItem fun j j' hj hj' => ?_) ?_ fun ns ns' hns => ?_)
    · refine Tandem.atBlockEnd (Tandem.fail fun s s' hs => hs.1) fun u u' hu => ?_
      exact Tandem.run (h j j' (by omega) (by omega) u u' hu)
    · rintro ns ⟨n, hn, hlost⟩ s
      exact node_lost (.token t :: ns.map .node ++ Element.ofToken? _) (by simp [hn]) hlost _
    · refine Side.seq (eat_side (by decide)) fun closing closing' hclosing => Side.exit ?_
      exact Side.weaken (node_side (by simp [ht, hns, hclosing]))
  next => exact Side.weaken recoverBlock_side

/-- Two runs read the same rule if they read the same blocks of rules. -/
theorem rule_tandem {rules rules' : Bool → Parser Node} (hread : P.ReadsDeclarations)
    (hrules : ∀ keyframes, ReadsBlock P (m - 1) (m' - 1) (rules keyframes) (rules' keyframes))
    (keyframes : Bool) :
    Tandem P.Lost (Twins P m m' [] [])
      (do
        if (← peekKind) = .atKeyword then atRule rules
        else if keyframes then keyframeRule
        else qualifiedRule)
      (do
        if (← peekKind) = .atKeyword then atRule rules'
        else if keyframes then keyframeRule
        else qualifiedRule)
      (Paired P (m - 1) (m' - 1)) (Abreast P) := by
  have hother : Tandem P.Lost (Twins P m m' [] [])
      (if keyframes then keyframeRule else qualifiedRule)
      (if keyframes then keyframeRule else qualifiedRule) (Paired P (m - 1) (m' - 1))
        (Abreast P) := by
    split
    next => exact ruleWith_tandem hread keyframeSelectors_tandem
    next => exact ruleWith_tandem hread selectorList_tandem
  refine Tandem.peekKind hother fun t t' _ _ => ?_
  split
  next => exact atRule_tandem hread hrules
  next => exact hother.forget

theorem undoes_rule {ts : List Token} (depth : Nat) (keyframes : Bool) : Undoes ts (do
    if (← peekKind) = .atKeyword then
      atRule fun keyframes => blockOf (ruleWithin keyframes true depth)
    else if keyframes then keyframeRule
    else qualifiedRule) :=
  Undoes.of_tries fun _ => (rule_tries depth keyframes).pre fun _ hs => hs.nil

/-- What is read as a rule is the same on both sides, and takes the token ahead. -/
theorem ruleWithin_side (hread : P.ReadsDeclarations) (depth depth' : Nat) (hm : m ≤ depth)
    (hm' : m' ≤ depth') (keyframes nested : Bool) (t t' : Token)
    (ht : t.kind ∉ (ruleRecovery nested).before) :
    Side P.Lost (Twins P m m' [t] [t']) (ruleWithin keyframes nested depth)
      (ruleWithin keyframes nested depth') (Paired P (m - 1) (m' - 1)) := by
  induction depth generalizing depth' m m' keyframes nested t t' with
  | zero => exact Side.of_known fun _ _ hpos _ => absurd hpos (by omega)
  | succ depth ih =>
    cases depth' with
    | zero => exact Side.of_known fun _ _ _ hpos => absurd hpos (by omega)
    | succ depth' =>
      have hrecover : Side P.Lost (Twins P m m' [t] [t']) (recover (ruleRecovery nested))
          (recover (ruleRecovery nested)) (Paired P (m - 1) (m' - 1)) :=
        Side.weaken ((recover_next ht).post fun _ _ _ _ h => h.1)
      refine Side.attempt (R := Paired P (m - 1) (m' - 1)) (undoes_rule depth keyframes)
        (undoes_rule depth' keyframes) ?_ (fun n hn s => hn)
        (fun n n' => Side.ret fun s s' hs => hs) hrecover
      refine Tandem.of_known fun _ _ _ _ =>
        Tandem.forget (rule_tandem hread (fun keyframes => ?_) _)
      refine blockOf_reads fun k k' hk hk' u u' hu => ?_
      exact ih depth' (by omega) (by omega) keyframes true u u' (by simpa [ruleRecovery] using hu)

theorem ruleItem_side (hread : P.ReadsDeclarations) {keyframes nested : Bool}
    (ht : t.kind ∉ (ruleRecovery nested).before) :
    Side P.Lost (Twins P m m' [t] [t']) (ruleItem keyframes nested) (ruleItem keyframes nested)
      (Paired P (m - 1) (m' - 1)) := by
  intro s s' hs
  have hrun := ruleWithin_side hread s.upcoming.length s'.upcoming.length (Nat.le_refl _)
    (Nat.le_refl _) keyframes nested t t' ht s s' hs.exact
  have hbound := hs.left.bound
  have hbound' := hs.right.bound
  exact hrun.imp_right fun h => h.mono (by omega) (by omega)

theorem ruleBlock_reads (hread : P.ReadsDeclarations) (keyframes : Bool) :
    ReadsBlock P m m' (ruleBlock keyframes) (ruleBlock keyframes) :=
  blockOf_reads fun _ _ _ _ _ _ hu => ruleItem_side hread (by simpa [ruleRecovery] using hu)

/-- The rules of a style sheet are the same on both sides. -/
theorem rules_side (hread : P.ReadsDeclarations) :
    Side (fun ns => ∃ n ∈ ns, P.Lost n) (Twins P m m' [] [])
      (many do if (← peekKind) = .eof then failure else ruleItem false false)
      (many do if (← peekKind) = .eof then failure else ruleItem false false)
      fun ns ns' s s' => Twins P m m' [] [] s s' ∧ ns.map Node.bare = ns'.map Node.bare := by
  have hstop : Stops (do
      if (← peekKind) = .eof then failure else ruleItem false false : Attempt Node) :=
    stops_of_peekKind rfl (by simp)
  refine many_twins Node.bare hstop hstop fun k k' _ _ => ?_
  refine Tandem.peekKind (Tandem.fail fun s s' hs => hs) fun t t' _ hkind => ?_
  rw [if_neg hkind]
  exact Tandem.run (ruleItem_side hread (by simp [ruleRecovery]))

end CssTree.Grammar
