import CssTree.Proofs.Grammar.Value
import CssTree.Proofs.Twin.Steps

namespace CssTree.Grammar

variable {β : Type} {P : Pairing} {m m' : Nat} {ts ts' : List Token} {t t' : Token}
  {s s' : State} {L : β → Prop} {Q : β → β → State → State → Prop}

/-- The kind of the next token is the same on both sides even if it starts a comment. -/
def Ready (s s' : State) : Prop :=
  s.behind ≠ some .colon ∨ s.upcoming.Settled 0 ∧ s'.upcoming.Settled 0

theorem Twins.ready (h : Twins P m m' (t :: ts) (t' :: ts') s s') : Ready s s' := by
  have hsettled : ∀ {c : Bool} {k : Nat} {s : State} {t : Token} {ts : List Token},
      Poised P.folds c k (t :: ts) s → s.upcoming.Settled 0 := by
    intro c k s t ts hp
    obtain ⟨us, hus⟩ := hp.tokens
    have ht := hp.starts.settled t List.mem_cons_self
    simpa [Stream.Settled, hus] using ht
  exact Or.inr ⟨hsettled h.left, hsettled h.right⟩

theorem ready_of_taken {us : List Token} (hs : s.taken = t :: us) (ht : t.kind ≠ .colon) :
    Ready s s' := by
  refine Or.inl ?_
  rw [State.behind, hs, List.reverse_cons, Stream.kindAfter_append, Stream.kindAfter_cons,
    Stream.kindAfter_nil]
  simpa using ht

/-- Behind a look at the next token the runs are ready. -/
theorem Side.peekKind_ready {f g : TokenKind → Parser β}
    (hlast : Side L (fun s s' => Twins P m m' [] [] s s' ∧ Ready s s') (f .eof) (g .eof) Q)
    (hnext : ∀ t t' : Token, t.bare = t'.bare → t.kind ≠ .eof →
      Side L (Twins P m m' [t] [t']) (f t.kind) (g t.kind) Q) :
    Side L (Twins P m m' [] []) (Grammar.peekKind >>= f) (Grammar.peekKind >>= g) Q := by
  refine Side.nth_end [] [] (f := fun t => f t.kind) (g := fun t => g t.kind)
    ?_ ?_
  · intro t t' hbare hkind
    rw [← Token.kind_of_bare hbare, hkind]
    exact hlast.pre fun s s' h => ⟨h.1, Or.inr h.2⟩
  · intro t t' hbare hkind
    rw [← Token.kind_of_bare hbare]
    exact hnext t t' hbare hkind

/-- Tokens that are the same on both sides but for their trivia. -/
def Alike (P : Pairing) (m m' : Nat) (ts ts' : List Token) (s s' : State) : Prop :=
  Twins P m m' [] [] s s' ∧ ts.map Token.bare = ts'.map Token.bare

theorem balancedFrom_bump {n n' : Nat} {expected : List TokenKind}
    (hrest : Side Never (Twins P n n' [] []) (balancedFrom expected n) (balancedFrom expected n')
      (Alike P n n')) :
    Side Never (Twins P (n + 1) (n' + 1) [t] [t'])
      (do
        let u ← Grammar.bump
        if expected.isEmpty then return [u] else return u :: (← balancedFrom expected n))
      (do
        let u ← Grammar.bump
        if expected.isEmpty then return [u] else return u :: (← balancedFrom expected n'))
      (Alike P n n') := by
  refine Side.of_known fun hbare _ _ _ => Side.bump_shorter ?_
  split
  next => exact Side.ret fun s s' hs => ⟨hs, by simp [hbare]⟩
  next =>
    refine Side.seq hrest fun us us' hus => Side.ret fun s s' hs => ⟨hs, ?_⟩
    rw [List.map_cons, List.map_cons, hbare, hus]

theorem balancedFrom_end {expected : List TokenKind} {n : Nat}
    (h : ((s.settle 0).upcoming.nth 0).kind = .eof) :
    (balancedFrom expected (n + 1)).run s = ([], s.settle 0) := by
  rw [balancedFrom, StateT.run_bind, peekKind_run, h]
  rfl

theorem balancedFrom_side (n n' : Nat) (expected : List TokenKind) :
    Side Never (Twins P n n' [] []) (balancedFrom expected n) (balancedFrom expected n')
      (Alike P n n') := by
  -- The fuels differ where one text has more tokens of comments; a run without fuel is at the end.
  induction n generalizing n' expected with
  | zero =>
    cases n' with
    | zero => exact Side.ret fun s s' hs => ⟨hs, rfl⟩
    | succ n' =>
      intro s s' hs
      obtain ⟨-, hstep, heof⟩ := hs.left_end
      rw [balancedFrom_end heof]
      exact Or.inr ⟨hstep, rfl⟩
  | succ n ih =>
    cases n' with
    | zero =>
      intro s s' hs
      obtain ⟨-, hstep, heof⟩ := hs.right_end
      rw [balancedFrom_end heof]
      exact Or.inr ⟨hstep, rfl⟩
    | succ n' =>
      unfold balancedFrom
      refine Side.peekKind (Side.ret fun s s' hs => ⟨hs, rfl⟩) fun t t' _ hkind => ?_
      rw [if_neg hkind, if_neg hkind]
      refine (balancedFrom_bump (ih n' _)).post fun us us' s s' hs => ⟨?_, hs.2⟩
      exact hs.1.mono (Nat.le_succ n) (Nat.le_succ n')

/-- With a token ahead, at least that token is taken. -/
theorem balanced_side : Side Never (Twins P m m' [t] [t']) balanced balanced
    (Alike P (m - 1) (m' - 1)) := by
  intro s s' hs
  have hexact := hs.exact
  obtain ⟨n, hn⟩ := Nat.exists_eq_succ_of_ne_zero (Nat.ne_of_gt hexact.left.pos)
  obtain ⟨n', hn'⟩ := Nat.exists_eq_succ_of_ne_zero (Nat.ne_of_gt hexact.right.pos)
  have hle := hs.left.bound
  have hle' := hs.right.bound
  rw [hn, hn'] at hexact
  have hside : Side Never (Twins P (n + 1) (n' + 1) [t] [t']) (balancedFrom [] (n + 1))
      (balancedFrom [] (n' + 1)) (Alike P n n') := by
    unfold balancedFrom
    refine Side.peekKind_known (Side.of_known fun _ hkind _ _ => ?_)
    rw [if_neg hkind, if_neg hkind]
    exact balancedFrom_bump (balancedFrom_side n n' _)
  have hrun : ∀ s : State, balanced.run s = (balancedFrom [] s.upcoming.length).run s :=
    fun _ => rfl
  rw [hrun, hrun, hn, hn']
  refine (hside s s' hexact).imp_right fun h => ⟨h.1.mono ?_ ?_, h.2⟩
  · omega
  · omega

/-- The runs capture the same tokens. If the capture stops neither behind a block nor behind a
colon, they are ready then. -/
def Captured (P : Pairing) (r : Recovery) (m m' : Nat) (ts ts' : List Token) (s s' : State) :
    Prop :=
  Alike P m m' ts ts' s s' ∧ (r.blockEnds = false → .colon ∉ r.behind → Ready s s')

theorem Captured.mono {r : Recovery} {k k' : Nat} (h : Captured P r m m' ts ts' s s') (hk : m ≤ k)
    (hk' : m' ≤ k') : Captured P r k k' ts ts' s s' := ⟨⟨h.1.1.mono hk hk', h.1.2⟩, h.2⟩

/-- A token ahead that does not stop the capture is taken. -/
theorem captureTokens_next {r : Recovery} {n n' : Nat}
    (hrest : Side Never (Twins P n n' [] []) (captureTokens r n) (captureTokens r n')
      (Captured P r n n')) :
    Side Never (Twins P (n + 1) (n' + 1) [t] [t'])
      (if t.kind ∈ r.behind then return [← Grammar.bump]
        else do
          let ts ← balanced
          if r.blockEnds && t.kind = .openBrace then return ts
          else return ts ++ (← captureTokens r n))
      (if t.kind ∈ r.behind then return [← Grammar.bump]
        else do
          let ts ← balanced
          if r.blockEnds && t.kind = .openBrace then return ts
          else return ts ++ (← captureTokens r n'))
      (Captured P r n n') := by
  refine Side.of_known fun hbare _ _ _ => ?_
  split
  next hbehind =>
    refine Side.bump_taken (f := fun u => pure [u]) (g := fun u => pure [u])
      (Side.ret fun s s' hs => ⟨⟨hs.1, by simp [hbare]⟩, fun _ hcolon => ?_⟩)
    obtain ⟨-, ⟨us, hus⟩, -⟩ := hs
    exact ready_of_taken hus fun hkind => hcolon (hkind ▸ hbehind)
  next =>
    refine Side.seq balanced_side fun us us' hus => ?_
    split
    next hend =>
      refine Side.ret fun s s' hs => ⟨⟨hs, hus⟩, fun hno => ?_⟩
      simp [hno] at hend
    next =>
      refine Side.bind hrest fun vs vs' => Side.ret fun s s' hs => ⟨⟨hs.1.1, ?_⟩, hs.2⟩
      rw [List.map_append, List.map_append, hus, hs.1.2]

theorem captureTokens_end {r : Recovery} {n : Nat}
    (h : ((s.settle 0).upcoming.nth 0).kind = .eof) :
    (captureTokens r (n + 1)).run s = ([], s.settle 0) := by
  rw [captureTokens, StateT.run_bind, peekKind_run, h]
  rfl

theorem captureTokens_side (r : Recovery) (n n' : Nat) :
    Side Never (Twins P n n' [] []) (captureTokens r n) (captureTokens r n')
      (Captured P r n n') := by
  induction n generalizing n' with
  | zero =>
    intro s s' hs
    obtain ⟨hnil, hstep, heof⟩ := hs.left_end
    cases n' with
    | zero =>
      have hnil' := hs.right_end.1
      exact Or.inr ⟨⟨hs, rfl⟩, fun _ _ =>
        Or.inr ⟨Stream.settled_nil hnil, Stream.settled_nil hnil'⟩⟩
    | succ n' =>
      rw [captureTokens_end heof]
      exact Or.inr ⟨⟨hstep, rfl⟩, fun _ _ =>
        Or.inr ⟨Stream.settled_nil hnil, Stream.settled_settle 0 _⟩⟩
  | succ n ih =>
    cases n' with
    | zero =>
      intro s s' hs
      obtain ⟨hnil, hstep, heof⟩ := hs.right_end
      rw [captureTokens_end heof]
      exact Or.inr ⟨⟨hstep, rfl⟩, fun _ _ =>
        Or.inr ⟨Stream.settled_settle 0 _, Stream.settled_nil hnil⟩⟩
    | succ n' =>
      unfold captureTokens
      refine Side.peekKind_ready (Side.ret fun s s' hs => ⟨⟨hs.1, rfl⟩, fun _ _ => hs.2⟩) ?_
      intro t t' _ hkind
      split
      next => exact Side.ret fun s s' hs => ⟨⟨hs.nil, rfl⟩, fun _ _ => hs.ready⟩
      next =>
        exact (captureTokens_next (ih n')).post fun us us' s s' h =>
          h.mono (Nat.le_succ n) (Nat.le_succ n')

/-- Two nodes, and the states behind them, of runs that stand at the same place. -/
def Paired (P : Pairing) (m m' : Nat) (n n' : Node) (s s' : State) : Prop :=
  Twins P m m' [] [] s s' ∧ n.bare = n'.bare

theorem Paired.mono {k k' : Nat} {n n' : Node} (h : Paired P m m' n n' s s') (hk : m ≤ k)
    (hk' : m' ≤ k') : Paired P k k' n n' s s' := ⟨h.1.mono hk hk', h.2⟩

/-- Two lists of elements, and the states behind them, of runs that stand at the same place. -/
def Same (P : Pairing) (m m' : Nat) (l l' : List Element) (s s' : State) : Prop :=
  Twins P m m' [] [] s s' ∧ Element.bareAll l = Element.bareAll l'

theorem node_tandem {M : Node → Prop} {kind : NodeKind} {es es' : List Element}
    (h : Element.bareAll es = Element.bareAll es') :
    Tandem M (Twins P m m' [] []) (liftM (node kind es)) (liftM (node kind es')) (Paired P m m')
      (Abreast P) := Tandem.weaken (Tandem.run (node_side h))

theorem errorNode_side {us us' : List Token} {I : State → State → Prop}
    (h : ∀ s s', I s s' → Twins P m m' [] [] s s')
    (hbare : us.map Token.bare = us'.map Token.bare) :
    Side Never I (errorNode us) (errorNode us') (Paired P m m') :=
  (node_side (by simp [hbare])).pre h

theorem recover_side (r : Recovery) :
    Side Never (Twins P m m' [] []) (recover r) (recover r) (Paired P m m') := by
  intro s s' hs
  have hcapture : Side Never (Twins P s.upcoming.length s'.upcoming.length [] [])
      (captureTokens r s.upcoming.length >>= errorNode)
      (captureTokens r s'.upcoming.length >>= errorNode)
      (Paired P s.upcoming.length s'.upcoming.length) :=
    Side.bind (captureTokens_side r _ _) fun us us' s s' h =>
      errorNode_side (fun _ _ h => h) h.1.2 s s' h.1.1
  exact (hcapture s s' hs.exact).imp_right fun h => h.mono hs.left.bound hs.right.bound

/-- With a token ahead that does not stop the capture, that token is captured. -/
theorem recover_next {r : Recovery} (hbefore : t.kind ∉ r.before) :
    Side Never (Twins P m m' [t] [t']) (recover r) (recover r) fun n n' s s' =>
      Paired P (m - 1) (m' - 1) n n' s s' ∧
        (r.blockEnds = false → .colon ∉ r.behind → Ready s s') := by
  intro s s' hs
  have hexact := hs.exact
  obtain ⟨n, hn⟩ := Nat.exists_eq_succ_of_ne_zero (Nat.ne_of_gt hexact.left.pos)
  obtain ⟨n', hn'⟩ := Nat.exists_eq_succ_of_ne_zero (Nat.ne_of_gt hexact.right.pos)
  have hle := hs.left.bound
  have hle' := hs.right.bound
  rw [hn, hn'] at hexact
  have hcapture : Side Never (Twins P (n + 1) (n' + 1) [t] [t'])
      (captureTokens r (n + 1) >>= errorNode) (captureTokens r (n' + 1) >>= errorNode)
      fun k k' s s' => Paired P n n' k k' s s' ∧
        (r.blockEnds = false → .colon ∉ r.behind → Ready s s') := by
    refine Side.bind (R := Captured P r n n') ?_ fun us us' s s' h => ?_
    · unfold captureTokens
      refine Side.peekKind_known (Side.of_known fun _ hkind _ _ => ?_)
      have hstop : ¬(t.kind = .eof || decide (t.kind ∈ r.before)) = true := by
        simp [hkind, hbefore]
      rw [if_neg hstop, if_neg hstop]
      exact captureTokens_next (captureTokens_side r n n')
    · exact (errorNode_side (fun _ _ h => h) h.1.2 s s' h.1.1).imp_right fun hpaired =>
        ⟨hpaired, h.2⟩
  have hrun : ∀ s : State, (recover r).run s =
      (captureTokens r s.upcoming.length >>= errorNode).run s := fun _ => rfl
  rw [hrun, hrun, hn, hn']
  exact (hcapture s s' hexact).imp_right fun h => ⟨h.1.mono (by omega) (by omega), h.2⟩

theorem recoverBlock_side : Side Never (Twins P m m' [t] [t']) recoverBlock recoverBlock
    (Paired P (m - 1) (m' - 1)) :=
  Side.bind balanced_side fun _ _ s s' h => errorNode_side (fun _ _ h => h) h.2 s s' h.1

end CssTree.Grammar

namespace CssTree.Grammar

variable {β : Type} {P : Pairing} {m m' : Nat} {t t' : Token} {s s' : State} {L : β → Prop}
  {Q : β → β → State → State → Prop}

theorem Side.atImportant {f g : Bool → Parser β}
    (htrue : ∀ t t' u u' : Token, t.bare = t'.bare → u.bare = u'.bare →
      Side L (Twins P m m' [t, u] [t', u']) (f true) (g true) Q)
    (hfalse : Side L (Twins P m m' [] []) (f false) (g false) Q) :
    Side L (Twins P m m' [] []) (Grammar.atImportant >>= f) (Grammar.atImportant >>= g) Q := by
  have hword : ∀ t t' : Token, t.bare = t'.bare → Side L (Twins P m m' [t] [t'])
      (Grammar.nth 1 >>= fun u => f (u.isIdent ['i', 'm', 'p', 'o', 'r', 't', 'a', 'n', 't']))
      (Grammar.nth 1 >>= fun u => g (u.isIdent ['i', 'm', 'p', 'o', 'r', 't', 'a', 'n', 't']))
      Q := by
    intro t t' ht
    refine Side.nth [t] [t'] (fun u u' hu hkind => ?_) fun u u' hu _ => ?_
    · have hident : u.isIdent ['i', 'm', 'p', 'o', 'r', 't', 'a', 'n', 't'] = false := by
        simp [Token.isIdent, hkind]
      rw [← Token.isIdent_of_bare hu, hident]
      exact hfalse.forget
    · rw [← Token.isIdent_of_bare hu]
      cases u.isIdent ['i', 'm', 'p', 'o', 'r', 't', 'a', 'n', 't'] with
      | true => exact htrue t t' u u' ht hu
      | false => exact hfalse.forget
  exact Side.atDelim (f := fun b => (if b = true then Grammar.nth 1 >>= fun u =>
      pure (u.isIdent ['i', 'm', 'p', 'o', 'r', 't', 'a', 'n', 't']) else pure false) >>= f)
    (g := fun b => (if b = true then Grammar.nth 1 >>= fun u =>
      pure (u.isIdent ['i', 'm', 'p', 'o', 'r', 't', 'a', 'n', 't']) else pure false) >>= g)
    (fun t t' ht _ => hword t t' ht) hfalse

theorem atImportant_side : Side Never (Twins P m m' [t] [t']) Grammar.atImportant
    Grammar.atImportant fun b b' s s' => Twins P m m' [t] [t'] s s' ∧ b = b' := by
  refine Side.atDelim_known (Side.of_known fun _ _ _ _ => ?_)
  split
  next =>
    refine Side.nth [t] [t'] (fun u u' hu _ => ?_) fun u u' hu _ => ?_
    · exact Side.ret fun s s' hs => ⟨hs, Token.isIdent_of_bare hu _⟩
    · exact Side.ret fun s s' hs => ⟨hs.weaken (List.prefix_append [t] [u])
        (List.prefix_append [t'] [u']) rfl, Token.isIdent_of_bare hu _⟩
  next => exact Side.ret fun s s' hs => ⟨hs, rfl⟩

/-- A value takes the token that comes next, on both sides. -/
def TakesNext (P : Pairing) (m m' : Nat) (component component' : Parser Node) : Prop :=
  ∀ k k', k ≤ m → k' ≤ m' → ∀ t t', Side Never (Twins P k k' [t] [t']) component component'
    (Paired P (k - 1) (k' - 1))

variable {component component' : Parser Node}

theorem valueItem_tandem {stop : List TokenKind} {important : Bool}
    (h : TakesNext P m m' component component') :
    Tandem Never (Twins P m m' [] []) (valueItem component stop important)
      (valueItem component' stop important) (Paired P (m - 1) (m' - 1)) (Twins P m m' [] []) := by
  refine Tandem.peekKind (Tandem.fail fun s s' hs => hs) fun t t' _ _ => ?_
  split
  next => exact Tandem.fail fun s s' hs => hs.nil
  next =>
    have hlast : Tandem Never (Twins P m m' [t] [t']) (liftM component) (liftM component')
        (Paired P (m - 1) (m' - 1)) (Twins P m m' [] []) :=
      Tandem.run (h m m' (Nat.le_refl m) (Nat.le_refl m') t t')
    split
    next =>
      refine Tandem.call atImportant_side fun b b' hb => ?_
      subst hb
      split
      next => exact Tandem.fail fun s s' hs => hs.nil
      next => exact hlast
    next => exact hlast

theorem stops_valueItem (component : Parser Node) (stop : List TokenKind) (important : Bool) :
    Stops (valueItem component stop important) := stops_of_peekKind rfl (by simp)

theorem valuesOf_side {stop : List TokenKind} {important : Bool}
    (h : TakesNext P m m' component component') :
    Side Never (Twins P m m' [] []) (valuesOf component stop important)
      (valuesOf component' stop important) (Paired P m m') := by
  refine Side.seq (J := Twins P m m' [] [])
    (φ := fun ns ns' => ns.map Node.bare = ns'.map Node.bare) ?_
    fun ns ns' hns => node_side (by simp [hns])
  have hmany : Side (fun ns => ∃ n ∈ ns, Never n) (Twins P m m' [] [])
      (many (valueItem component stop important)) (many (valueItem component' stop important))
      fun ns ns' s s' => Twins P m m' [] [] s s' ∧ ns.map Node.bare = ns'.map Node.bare :=
    many_twins Node.bare (stops_valueItem component stop important)
      (stops_valueItem component' stop important) fun k k' hk hk' =>
        valueItem_tandem fun j j' hj hj' => h j j' (Nat.le_trans hj hk) (Nat.le_trans hj' hk')
  exact fun s s' hs => Or.inr ((hmany s s' hs).resolve_left (not_exists_never _))

theorem preservedToken_side : Side Never (Twins P m m' [t] [t'])
    (do node .preservedToken [.token (← Grammar.bump)])
    (do node .preservedToken [.token (← Grammar.bump)]) (Paired P (m - 1) (m' - 1)) :=
  Side.of_known fun hbare _ _ _ => Side.bump_shorter (node_side (by simp [hbare]))

theorem componentWithin_side (depth depth' : Nat) (hm : m ≤ depth) (hm' : m' ≤ depth')
    (t t' : Token) : Side Never (Twins P m m' [t] [t']) (componentWithin depth)
      (componentWithin depth') (Paired P (m - 1) (m' - 1)) := by
  -- Each level takes the token that opens it, so the tokens to come last as long as the depths.
  induction depth generalizing depth' m m' t t' with
  | zero => exact Side.of_known fun _ _ hpos _ => absurd hpos (by omega)
  | succ depth ih =>
    cases depth' with
    | zero => exact Side.of_known fun _ _ _ hpos => absurd hpos (by omega)
    | succ depth' =>
      refine Side.peekKind_known (Side.of_known fun hbare _ _ _ => ?_)
      split
      next => exact preservedToken_side
      next close hclose =>
        refine Side.enter fun b => ?_
        split
        next =>
          refine Side.bump_shorter (Side.seq (valuesOf_side fun k k' hk hk' u u' => ?_)
            fun values values' hvalues => ?_)
          · exact ih depth' (by omega) (by omega) u u'
          · refine Side.seq (eat_side (closing?_ne_eof hclose)) fun closing closing' hclosing => ?_
            exact Side.exit (node_side (by simp [hbare, hvalues, hclosing]))
        next => exact recoverBlock_side

theorem takesNext_component : TakesNext P m m' Grammar.component Grammar.component := by
  intro k k' _ _ t t' s s' hs
  have hrun := componentWithin_side s.upcoming.length s'.upcoming.length (Nat.le_refl _)
    (Nat.le_refl _) t t' s s' hs.exact
  have hbound := hs.left.bound
  have hbound' := hs.right.bound
  exact hrun.imp_right fun h => h.mono (by omega) (by omega)

theorem values_side (stop : List TokenKind) : Side Never (Twins P m m' [] []) (values stop)
    (values stop) (Paired P m m') := valuesOf_side takesNext_component

theorem declarationValue_side (stop : List TokenKind) : Side Never (Twins P m m' [] [])
    (declarationValue stop) (declarationValue stop) (Paired P m m') :=
  valuesOf_side takesNext_component

theorem important_side : Side Never (Twins P m m' [] []) important important
    fun o o' s s' => Twins P m m' [] [] s s' ∧ o.map Node.bare = o'.map Node.bare := by
  refine Side.atImportant (fun t t' u u' ht hu => ?_) (Side.ret fun s s' hs => ⟨hs, rfl⟩)
  refine Side.bump (Side.bump (Side.seq (node_side (by simp [ht, hu])) fun n n' hn => ?_))
  exact Side.ret fun s s' hs => ⟨hs, by simp [hn]⟩

end CssTree.Grammar
