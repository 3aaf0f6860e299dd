import CssTree.Proofs.Grammar.Selector
import CssTree.Proofs.Twin.Value

namespace CssTree.Grammar

variable {P : Pairing} {m m' : Nat} {t t' : Token}

/-- The same elements, with one more token known that comes next. -/
def Ahead (P : Pairing) (m m' : Nat) (l l' : List Element) (s s' : State) : Prop :=
  (∃ u u', Twins P m m' [u] [u'] s s') ∧ Element.bareAll l = Element.bareAll l'

/-- A step that reads a node, the next token at least. -/
def ReadsNode (P : Pairing) (m m' : Nat) (ts ts' : List Token) (p p' : Attempt Node) : Prop :=
  Tandem Never (Twins P m m' ts ts') p p' (Paired P (m - 1) (m' - 1)) (Abreast P)

theorem nsPrefixFrom_side : Side Never (Twins P m m' [t] [t']) (nsPrefixFrom t) (nsPrefixFrom t')
    (Ahead P m m') := by
  have hnone : ∀ ts ts', Side Never (Twins P m m' (t :: ts) (t' :: ts'))
      (pure [] : Parser (List Element)) (pure []) (Ahead P m m') := fun ts ts' =>
    Side.ret fun s s' hs => ⟨⟨t, t', hs.weaken (List.prefix_append [t] ts)
      (List.prefix_append [t'] ts') rfl⟩, rfl⟩
  -- The tokens looked at stay known, so that whether they touch is the same on both sides.
  refine Side.of_known fun ht _ _ _ => ?_
  unfold nsPrefixFrom
  rw [← Token.kind_of_bare ht, ← Token.isDelim_of_bare ht, ← Token.isDelim_of_bare ht]
  dsimp only
  split
  next =>
    refine Side.nth [t] [t'] (fun u u' hu hkind => ?_) fun u u' hu _ => ?_
    · rw [← Token.isDelim_of_bare hu, isDelim_eof hkind]
      exact hnone [] []
    · rw [← Token.isDelim_of_bare hu]
      split
      next =>
        refine Side.touchesNext [] [] rfl ?_
        split
        next =>
          refine Side.nth [t, u] [t', u'] (fun v v' hv hkind => ?_)
            fun v v' hv _ => ?_
          · rw [← Token.kind_of_bare hv, ← Token.isDelim_of_bare hv,
              if_neg (by simp [hkind, isDelim_eof])]
            exact hnone _ _
          · rw [← Token.kind_of_bare hv, ← Token.isDelim_of_bare hv]
            split
            next =>
              refine Side.touchesNext [t] [t'] rfl ?_
              split
              next =>
                refine Side.bump (Side.bump (Side.ret fun s s' hs => ⟨⟨v, v', hs⟩, ?_⟩))
                simp [ht, hu]
              next => exact hnone _ _
            next => exact hnone _ _
        next => exact hnone _ _
      next => exact hnone _ _
  next =>
    split
    next =>
      refine Side.nth [t] [t'] (fun u u' hu hkind => ?_) fun u u' hu _ => ?_
      · rw [← Token.kind_of_bare hu, ← Token.isDelim_of_bare hu,
          if_neg (by simp [hkind, isDelim_eof])]
        exact hnone [] []
      · rw [← Token.kind_of_bare hu, ← Token.isDelim_of_bare hu]
        split
        next =>
          refine Side.touchesNext [] [] rfl ?_
          split
          next => exact Side.bump (Side.ret fun s s' hs => ⟨⟨u, u', hs⟩, by simp [ht]⟩)
          next => exact hnone _ _
        next => exact hnone _ _
    next => exact hnone _ _

theorem nsPrefix_ahead : Side Never (Twins P m m' [t] [t']) nsPrefix nsPrefix (Ahead P m m') :=
  Side.peek_known nsPrefixFrom_side

theorem nsPrefix_side : Side Never (Twins P m m' [] []) nsPrefix nsPrefix (Same P m m') := by
  refine Side.peek (fun t t' ht hkind => ?_) fun t t' _ _ => ?_
  · have hnone : ∀ {t : Token}, t.kind = .eof → nsPrefixFrom t = pure [] := by
      intro t hkind
      rw [nsPrefixFrom, if_neg (by simp [hkind, isDelim_eof]), isDelim_eof hkind]
      rfl
    rw [hnone hkind, hnone (Token.kind_of_bare ht ▸ hkind)]
    exact Side.ret fun s s' hs => ⟨hs, rfl⟩
  · refine nsPrefixFrom_side.post fun l l' s s' h => ?_
    obtain ⟨⟨ts, ts', hs⟩, hsame⟩ := h
    exact ⟨hs.nil, hsame⟩

/-- A second colon, and still the last token taken is one. -/
theorem secondColon_side : Side Never (Colons P m m' [] []) secondColon secondColon
    fun l l' s s' => Colons P m m' [] [] s s' ∧ Element.bareAll l = Element.bareAll l' := by
  have hnone : ∀ {ts ts' : List Token}, Side Never (Colons P m m' ts ts')
      (pure [] : Parser (List Element)) (pure [])
      fun l l' s s' => Colons P m m' [] [] s s' ∧ Element.bareAll l = Element.bareAll l' :=
    Side.ret fun s s' hs => ⟨⟨hs.1.nil, hs.2⟩, rfl⟩
  refine Side.peekKind_colons hnone fun t t' ht _ => ?_
  split
  next hcolon =>
    refine Side.seq touchesTaken_side fun b b' hb => ?_
    subst hb
    split
    next =>
      refine Side.pre (fun s s' hs => hs.1) (Side.bump_taken (Side.ret fun s s' hs => ?_))
      obtain ⟨hs, ⟨us, hus⟩, us', hus'⟩ := hs
      have hcolon' : t'.kind = .colon := (Token.kind_of_bare ht).symm.trans hcolon
      exact ⟨⟨hs.mono (Nat.sub_le m 1) (Nat.sub_le m' 1), ⟨t, us, hus, hcolon⟩,
        ⟨t', us', hus', hcolon'⟩⟩, by simp [ht]⟩
    next => exact hnone
  next => exact hnone

theorem pseudoSelector_tandem (hcolon : t.kind = .colon) :
    ReadsNode P m m' [t] [t'] pseudoSelector pseudoSelector := by
  refine Tandem.of_known fun ht _ _ _ => ?_
  have hcolon' : t'.kind = .colon := (Token.kind_of_bare ht).symm.trans hcolon
  refine Tandem.bump_taken (Tandem.pre (J := Colons P (m - 1) (m' - 1) [] []) ?_ ?_)
  · rintro s s' ⟨hs, ⟨us, hus⟩, us', hus'⟩
    exact ⟨hs, ⟨t, us, hus, hcolon⟩, ⟨t', us', hus', hcolon'⟩⟩
  refine Tandem.call secondColon_side fun second second' hsecond => ?_
  refine Tandem.call touchesTaken_side fun touches touches' htouches => ?_
  subst htouches
  refine Tandem.pre (fun s s' hs => hs.1) ?_
  split
  next =>
    refine Tandem.peekKind (Tandem.fail fun s s' hs => hs.abreast) fun u u' hu _ => ?_
    split
    next =>
      exact Tandem.bump (node_tandem (by simp [ht, hu, hsecond]))
    next =>
      refine Tandem.enter fun entered => ?_
      split
      next =>
        refine Tandem.bump (Tandem.call (values_side _) fun arguments arguments' harguments => ?_)
        refine Tandem.eat (by decide) ?_ fun paren paren' hparen _ _ _ => ?_
        · exact Tandem.exit (Tandem.fail fun s s' hs => hs.abreast)
        · refine Tandem.exit ((node_tandem ?_).pre fun s s' hs => ?_)
          · simp [ht, hu, hsecond, harguments, hparen]
          · exact hs.mono (Nat.sub_le _ 1) (Nat.sub_le _ 1)
      next => exact Tandem.fail fun s s' hs => hs.abreast
    next => exact Tandem.fail fun s s' hs => hs.abreast
  next => exact Tandem.fail fun s s' hs => hs.abreast

/-- The same token. -/
def SameToken (P : Pairing) (m m' : Nat) (t t' : Token) (s s' : State) : Prop :=
  Twins P m m' [] [] s s' ∧ t.bare = t'.bare

theorem attributeMatcher_tandem : Tandem Never (Twins P m m' [] []) attributeMatcher
    attributeMatcher (SameToken P m m') (Abreast P) := by
  refine Tandem.peekKind (Tandem.fail fun s s' hs => hs.abreast) fun t t' ht _ => ?_
  have hbump : Tandem Never (Twins P m m' [t] [t']) (liftM bump) (liftM bump) (SameToken P m m')
      (Abreast P) :=
    Tandem.bump (f := fun t => pure t) (g := fun t => pure t) (Tandem.ret fun s s' hs => ⟨hs, ht⟩)
  split
  · exact hbump
  · exact hbump
  · exact hbump
  · exact hbump
  · exact hbump
  · refine Tandem.atDelim_known ?_
    split
    next => exact hbump
    next => exact Tandem.fail fun s s' hs => hs.abreast
  · exact Tandem.fail fun s s' hs => hs.abreast

theorem attributeComparison_tandem : Tandem Never (Twins P m m' [] []) attributeComparison
    attributeComparison (Same P m m') (Abreast P) := by
  refine Tandem.seq attributeMatcher_tandem fun matcher matcher' hmatcher => ?_
  refine Tandem.peekKind (Tandem.fail fun s s' hs => hs.abreast) fun t t' ht _ => ?_
  split
  next =>
    refine Tandem.bump (Tandem.call (eat_side (by decide)) fun modifier modifier' hmodifier => ?_)
    exact Tandem.ret fun s s' hs => ⟨hs, by simp [hmatcher, ht, hmodifier]⟩
  next => exact Tandem.fail fun s s' hs => hs.abreast

theorem attributeTest_tandem : Tandem Never (Twins P m m' [] []) attributeTest attributeTest
    (Same P m m') (Abreast P) := by
  refine Tandem.peekKind attributeComparison_tandem fun t t' _ _ => ?_
  split
  next => exact Tandem.ret fun s s' hs => ⟨hs.nil, rfl⟩
  next => exact attributeComparison_tandem.forget

theorem attributeSelector_tandem :
    ReadsNode P m m' [t] [t'] attributeSelector attributeSelector := by
  refine Tandem.of_known fun ht _ _ _ => Tandem.bump_shorter ?_
  refine Tandem.call nsPrefix_side fun ns ns' hns => ?_
  refine Tandem.require (by decide) (fun s s' hs => hs.abreast) fun name name' hname _ _ _ => ?_
  refine Tandem.pre (fun s s' hs => hs.mono (Nat.sub_le _ 1) (Nat.sub_le _ 1)) ?_
  refine Tandem.seq attributeTest_tandem fun test test' htest => ?_
  refine Tandem.require (by decide) (fun s s' hs => hs.abreast)
    fun closing closing' hclosing _ _ _ => ?_
  refine Tandem.pre (fun s s' hs => hs.mono (Nat.sub_le _ 1) (Nat.sub_le _ 1)) ?_
  exact node_tandem (by simp [ht, hns, hname, htest, hclosing])

theorem universalSelector_tandem {ns ns' : List Element}
    (hns : Element.bareAll ns = Element.bareAll ns') :
    ReadsNode P m m' [] [] (universalSelector ns) (universalSelector ns') := by
  refine Tandem.atDelim (fun t t' ht _ => ?_) (Tandem.fail fun s s' hs => hs.abreast)
  exact Tandem.bump_shorter (node_tandem (by simp [ht, hns]))

theorem isEmpty_of_bareAll {l l' : List Element} (h : Element.bareAll l = Element.bareAll l') :
    l.isEmpty = l'.isEmpty := by
  have hempty : ∀ l : List Element, (Element.bareAll l).isEmpty = l.isEmpty := by
    intro l
    cases l with
    | nil => rfl
    | cons e l => cases e <;> rfl
  rw [← hempty, h, hempty]

theorem starSelector_tandem : ReadsNode P m m' [] [] starSelector starSelector := by
  refine Tandem.call nsPrefix_side fun ns ns' hns => ?_
  rw [← isEmpty_of_bareAll hns]
  split
  next => exact universalSelector_tandem hns
  next =>
    refine Tandem.peekKind (universalSelector_tandem hns) fun t t' ht _ => ?_
    split
    next => exact Tandem.bump_shorter (node_tandem (by simp [ht, hns]))
    next => exact Tandem.forget (universalSelector_tandem hns)

theorem simpleSelector_tandem : ReadsNode P m m' [t] [t'] simpleSelector simpleSelector := by
  refine Tandem.of_known fun ht _ _ _ => Tandem.peek_known ?_
  have hsingle : ∀ kind, ReadsNode P m m' [t] [t']
      (liftM Grammar.bump >>= fun t => liftM (node kind [.token t]))
      (liftM Grammar.bump >>= fun t => liftM (node kind [.token t])) := fun kind =>
    Tandem.bump_shorter (node_tandem (by simp [ht]))
  rw [← Token.kind_of_bare ht]
  split
  next =>
    refine Tandem.call (J := fun s s' => ∃ u u', Twins P m m' [u] [u'] s s') nsPrefix_ahead
      fun ns ns' hns => ?_
    rintro s s' ⟨u, u', hs⟩
    have hbare := hs.bare_head
    exact Tandem.bump_shorter (node_tandem (by simp [hns, hbare])) s s' hs
  next =>
    rw [← Token.isDelim_of_bare ht, ← Token.isDelim_of_bare ht, ← Token.isDelim_of_bare ht]
    split
    next => exact Tandem.forget starSelector_tandem
    next =>
      split
      next =>
        refine Tandem.nth [t] [t'] (fun u u' hu hkind => ?_) fun u u' hu _ => ?_
        · rw [← Token.kind_of_bare hu, if_neg (by simp [hkind])]
          exact Tandem.fail fun s s' hs => hs.abreast
        · rw [← Token.kind_of_bare hu]
          split
          next =>
            refine Tandem.touchesNext [] [] rfl ?_
            split
            next =>
              refine Tandem.bump_shorter (Tandem.bump (node_tandem ?_))
              simp [ht, hu]
            next => exact Tandem.fail fun s s' hs => hs.abreast
          next => exact Tandem.fail fun s s' hs => hs.abreast
      next => exact Tandem.fail fun s s' hs => hs.abreast
  next => exact hsingle .idSelector
  next hcolon => exact pseudoSelector_tandem hcolon
  next => exact attributeSelector_tandem
  next => exact Tandem.fail fun s s' hs => hs.abreast

theorem atCombinator_side : Side Never (Twins P m m' [t] [t']) atCombinator atCombinator
    fun b b' s s' => Twins P m m' [t] [t'] s s' ∧ b = b' := by
  refine Side.of_known fun ht _ _ _ => Side.peek_known (Side.ret fun s s' hs => ⟨hs, ?_⟩)
  simp only [Token.kind_of_bare ht, Token.isDelim_of_bare ht]

/-- The same nodes. -/
def SameNodes (P : Pairing) (m m' : Nat) (ns ns' : List Node) (s s' : State) : Prop :=
  Twins P m m' [] [] s s' ∧ ns.map Node.bare = ns'.map Node.bare

theorem selectorParts_end {s : State} {n : Nat} {expectsSimple : Bool}
    (h : ((s.settle 0).upcoming.nth 0).kind = .eof) :
    (selectorParts expectsSimple (n + 1)).run.run s =
      (selectorParts expectsSimple 0).run.run (s.settle 0) := by
  rw [run_of_peekKind (selectorParts expectsSimple (n + 1)) rfl, h]
  rfl

theorem selectorParts_tandem (n n' : Nat) (expectsSimple : Bool) :
    Tandem Never (Twins P n n' [] []) (selectorParts expectsSimple n)
      (selectorParts expectsSimple n') (SameNodes P n n') (Abreast P) := by
  have hend : ∀ {k k' : Nat} {ts ts' : List Token} (expectsSimple : Bool),
      Tandem Never (Twins P k k' ts ts')
        (if expectsSimple = true then failure else pure [] : Attempt (List Node))
        (if expectsSimple = true then failure else pure []) (SameNodes P k k') (Abreast P) := by
    intro k k' ts ts' expectsSimple
    split
    next => exact Tandem.fail fun s s' hs => hs.abreast
    next => exact Tandem.ret fun s s' hs => ⟨hs.nil, rfl⟩
  induction n generalizing n' expectsSimple with
  | zero =>
    cases n' with
    | zero => exact hend expectsSimple
    | succ n' =>
      intro s s' hs
      obtain ⟨-, hstep, heof⟩ := hs.left_end
      rw [selectorParts_end heof]
      exact hend expectsSimple _ _ hstep
  | succ n ih =>
    cases n' with
    | zero =>
      intro s s' hs
      obtain ⟨-, hstep, heof⟩ := hs.right_end
      rw [selectorParts_end heof]
      exact hend expectsSimple _ _ hstep
    | succ n' =>
      have hparts : ∀ (expectsSimple : Bool) (part part' : Node), part.bare = part'.bare →
          Tandem Never (Twins P n n' [] [])
            (selectorParts expectsSimple n >>= fun parts => pure (part :: parts))
            (selectorParts expectsSimple n' >>= fun parts => pure (part' :: parts))
            (SameNodes P (n + 1) (n' + 1)) (Abreast P) := by
        intro expectsSimple part part' hpart
        refine Tandem.seq (ih n' expectsSimple) fun parts parts' hsame => Tandem.ret ?_
        exact fun s s' hs => ⟨hs.mono (Nat.le_succ n) (Nat.le_succ n'), by simp [hpart, hsame]⟩
      refine Tandem.peekKind (hend expectsSimple) fun t t' ht _ => ?_
      split
      next => exact hend expectsSimple
      next =>
        refine Tandem.call atCombinator_side fun combinator combinator' hcombinator => ?_
        subst hcombinator
        split
        next =>
          split
          next => exact Tandem.fail fun s s' hs => hs.abreast
          next =>
            refine Tandem.bump_shorter (Tandem.call (node_side (by simp [ht])) fun c c' hc => ?_)
            exact hparts true c c' hc
        next =>
          exact Tandem.seq simpleSelector_tandem fun simple simple' hsimple =>
            hparts false simple simple' hsimple

theorem selector_tandem : Tandem Never (Twins P m m' [] []) selector selector (Paired P m m')
    (Abreast P) := by
  intro s s' hs
  have hparts : Tandem Never (Twins P s.upcoming.length s'.upcoming.length [] [])
      (selectorParts true s.upcoming.length >>= fun parts =>
        liftM (node .selector (parts.map .node)))
      (selectorParts true s'.upcoming.length >>= fun parts =>
        liftM (node .selector (parts.map .node)))
      (Paired P s.upcoming.length s'.upcoming.length) (Abreast P) :=
    Tandem.seq (selectorParts_tandem _ _ true) fun parts parts' hsame =>
      node_tandem (by simp [hsame])
  exact hparts.post (fun n n' r r' h => h.mono hs.left.bound hs.right.bound) (fun _ _ h => h) s s'
    hs.exact

theorem selectorList_tandem : Tandem Never (Twins P m m' [] []) selectorList selectorList
    (Paired P m m') (Abreast P) :=
  Tandem.seq (separated_tandem Node.bare fun _ _ _ _ => selector_tandem) fun _ _ hsame =>
    node_tandem (bareAll_punctuatedNodes hsame)

theorem keyframeSelectors_tandem : Tandem Never (Twins P m m' [] []) keyframeSelectors
    keyframeSelectors (Paired P m m') (Abreast P) := by
  refine Tandem.seq (separated_tandem Token.bare fun k k' _ _ => ?_) fun _ _ hsame =>
    node_tandem (bareAll_punctuatedTokens hsame)
  refine Tandem.peekKind (Tandem.fail fun s s' hs => hs.abreast) fun t t' ht _ => ?_
  split
  next =>
    exact Tandem.bump (f := fun t => pure t) (g := fun t => pure t)
      (Tandem.ret fun s s' hs => ⟨hs, ht⟩)
  next => exact Tandem.fail fun s s' hs => hs.abreast

end CssTree.Grammar
