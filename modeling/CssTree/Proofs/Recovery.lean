import CssTree.Proofs.Grammar.Advance

namespace CssTree.Grammar

/-- The loops of the grammar. Those of rules and of values are run to a depth, or without one. -/
inductive Loop where
  | styleSheet
  | rules (keyframes : Bool) (depth : Option Nat)
  | declarations
  | values (depth : Option Nat) (stop : List TokenKind) (important : Bool)

/-- A rule in a block, with rules nested in it to a depth if there is one. -/
def nestedRule (keyframes : Bool) : (depth : Option Nat) → Parser Node
  | none => ruleItem keyframes true
  | some depth => ruleWithin keyframes true depth

/-- A value, with brackets nested in it to a depth if there is one. -/
def nestedValue : (depth : Option Nat) → Parser Node
  | none => component
  | some depth => componentWithin depth

namespace Loop

/-- One turn of a loop, which fails where the loop ends. -/
def item : Loop → Attempt Node
  | styleSheet => do if (← peekKind) = .eof then failure else ruleItem false false
  | rules keyframes depth => do
    if ← atBlockEnd then failure else nestedRule keyframes depth
  | declarations => declarationItem
  | values depth stop important => valueItem (nestedValue depth) stop important

end Loop

/-- Style sheets, blocks and lists of values run these loops. -/
structure LoopsRun : Prop where
  styleSheet : styleSheet = do
    let rules ← many Loop.styleSheet.item
    node .styleSheet (rules.map .node ++ [.token (← bump)])
  rules : ∀ keyframes depth, blockOf (nestedRule keyframes depth) = do
    if ← enter then
      let opening ← bump
      let rules ← many (Loop.rules keyframes depth).item
      let closing ← eat .closeBrace
      exit
      node .ruleList (.token opening :: rules.map .node ++ Element.ofToken? closing)
    else recoverBlock
  declarations : declarationBlock = do
    if ← enter then
      let opening ← bump
      let declarations ← many Loop.declarations.item
      let closing ← eat .closeBrace
      exit
      node .declarationList
        (.token opening :: declarations.map .node ++ Element.ofToken? closing)
    else recoverBlock
  values : ∀ depth stop important, valuesOf (nestedValue depth) stop important = do
    let values ← many (Loop.values depth stop important).item
    node .valueList (values.map .node)

theorem loops_run : LoopsRun := ⟨rfl, fun _ _ => rfl, rfl, fun _ _ _ => rfl⟩

variable {mark s : State} {t : Token}

theorem nestedRule_advances (keyframes : Bool) (depth : Option Nat) (ht : t.kind ≠ .closeBrace) :
    Keeps (Facing mark t) (nestedRule keyframes depth) fun _ => Advances mark := by
  have hkind : t.kind ∉ (ruleRecovery true).before := by simpa [ruleRecovery] using ht
  cases depth with
  | none => exact fun s hs => ruleWithin_advances keyframes true s.upcoming.length hkind s hs
  | some depth => exact ruleWithin_advances keyframes true depth hkind

theorem nestedValue_advances (depth : Option Nat) :
    Keeps (Facing mark t) (nestedValue depth) fun _ => Advances mark := by
  cases depth with
  | none => exact fun s hs => componentWithin_advances s.upcoming.length s hs
  | some depth => exact componentWithin_advances depth

theorem run_call_of {α β : Type} {p : Parser α} {f : α → Attempt β} {a : α} {s s' : State}
    (h : p.run s = (a, s')) : ((liftM p : Attempt α) >>= f).run.run s = (f a).run.run s' :=
  run_bind_of h

namespace Loop

/-- A turn of a loop takes a token, or it ends the loop. -/
theorem item_advances (l : Loop) :
    Tries (Going mark) l.item (fun _ => Advances mark) (Going mark) := by
  cases l with
  | styleSheet =>
    refine Tries.look (Tries.fail fun _ hs => hs) fun t => ?_
    split
    next => exact Tries.fail fun _ hs => hs.toGoing
    next =>
      have hkind : t.kind ∉ (ruleRecovery false).before := by simp [ruleRecovery]
      exact Tries.run fun s hs => ruleWithin_advances false false s.upcoming.length hkind s hs
  | rules keyframes depth =>
    refine Tries.lookBlockEnd (Tries.fail fun _ hs => hs) fun t ht => ?_
    exact Tries.run (nestedRule_advances keyframes depth ht)
  | declarations => exact declarationItem_advances
  | values depth stop important =>
    exact valueItem_advances stop important fun t => nestedValue_advances depth

/-- Where nothing is left, a loop ends and nothing happens. -/
theorem item_nil (l : Loop) (hend : s.upcoming.last.kind = .eof) (hnil : s.upcoming.tokens = []) :
    l.item.run.run s = (none, s) := by
  have hpeek : peekKind.run s = (.eof, s) := by
    rw [← ahead_nil hend hnil]
    exact congrArg (Prod.mk s.ahead) (settle_nil hnil)
  cases l with
  | styleSheet => exact run_call_of hpeek
  | rules keyframes depth =>
    have hblock : atBlockEnd.run s = (true, s) := run_bind_of hpeek
    exact run_call_of hblock
  | declarations =>
    have hhead : s.upcoming.head.kind = .eof := by rw [Stream.head, hnil, List.headD_nil, hend]
    exact (declarationItem_run s).trans (declarationOrError_end (Or.inr hhead))
  | values depth stop important => exact run_call_of hpeek

/-- As many turns as there are tokens are enough. -/
theorem collect_bound (l : Loop) (hend : s.upcoming.last.kind = .eof) {m n : Nat}
    (hm : s.upcoming.length ≤ m) (hn : s.upcoming.length ≤ n) :
    (collect l.item m).run s = (collect l.item n).run s := by
  refine run_eq_of_advances (f := fun l n => collect (item l) n) (fun l n hend hnil => ?_)
    (fun {s} l m n hend h => ?_) hend l hm hn
  · cases n with
    | zero => rfl
    | succ n => exact collect_none (l.item_nil hend hnil)
  · have hturn := l.item_advances s (.refl hend)
    generalize hrun : l.item.run.run s = r at hturn
    -- A turn that ends the loop does so whatever the bound; any other leaves fewer tokens.
    obtain ⟨_ | n, s'⟩ := r
    · exact (collect_none hrun).trans (collect_none hrun).symm
    · have hrest : (collect l.item m).run s' = (collect l.item _).run s' := h l s' hturn
      exact (collect_some hrun).trans (hrest ▸ (collect_some hrun).symm)

/-- Turn after turn, a loop gives no more than it takes tokens. -/
theorem collect_takes (l : Loop) (hend : s.upcoming.last.kind = .eof) (n : Nat) :
    ∃ ts, Since s ts ((collect l.item n).run s).2 ∧
      ((collect l.item n).run s).1.length ≤ ts.length := by
  induction n generalizing s with
  | zero => exact ⟨[], .refl s, Nat.le_refl 0⟩
  | succ n ih =>
    have hturn := l.item_advances s (.refl hend)
    generalize hrun : l.item.run.run s = r at hturn
    obtain ⟨_ | x, s'⟩ := r
    · obtain ⟨⟨ts, hts⟩, -⟩ : Going s s' := hturn
      rw [collect_none hrun]
      exact ⟨ts, hts, Nat.zero_le _⟩
    · obtain ⟨ts, hne, hts⟩ : Advances s s' := hturn
      obtain ⟨us, hus, hcount⟩ := ih (hts.ended hend)
      have hpos := List.length_pos_of_ne_nil hne
      rw [collect_some hrun]
      refine ⟨ts ++ us, hts.trans hus, ?_⟩
      rw [List.length_cons, List.length_append]
      omega

end Loop

/-- What capture and the loops do from a state. -/
structure Progresses (s : State) : Prop where
  /-- Balanced text is a token, a bracket that is closed, or what follows one that is not. -/
  balances : s.ahead ≠ .eof → (balanced.run s).1 ≠ [] ∧
    Since s (balanced.run s).1 (balanced.run s).2 ∧ Balanced (balanced.run s).2 (balanced.run s).1
  balances_ends : ∀ n, s.upcoming.length ≤ n → (balancedFrom [] n).run s = balanced.run s
  /-- Capture takes something unless it has to stop at once, and it stops for a reason. -/
  recovers : ∀ r : Recovery, (s.ahead ≠ .eof → s.ahead ∉ r.before →
      ((recover r).run s).1.tokens ≠ []) ∧
    Since s ((recover r).run s).1.tokens ((recover r).run s).2 ∧
    Halts r ((recover r).run s).2 ((recover r).run s).1.tokens
  recovers_ends : ∀ (r : Recovery) (n : Nat), s.upcoming.length ≤ n →
    (do errorNode (← captureTokens r n)).run s = (recover r).run s
  /-- A turn of a loop that does not end it takes a token. -/
  turn : ∀ (l : Loop) (n : Node), (l.item.run.run s).1 = some n →
    Advances s (l.item.run.run s).2
  turns : ∀ l : Loop, ∃ ts, Since s ts ((many l.item).run s).2 ∧
    ((many l.item).run s).1.length ≤ ts.length
  turns_end : ∀ (l : Loop) (n : Nat), s.upcoming.length ≤ n →
    (collect l.item n).run s = (many l.item).run s

/-- From every state of reading a text that has an end, in front of the end or not, capture takes a
token wherever it does not have to stop at once, what is taken as one is balanced, and every turn of
a loop takes a token; none of them goes on for longer if it is given more than there are tokens. The
loops are those of the grammar. -/
theorem progresses_of_ended (s : State) (hend : s.upcoming.last.kind = .eof) :
    LoopsRun ∧ Progresses s where
  left := loops_run
  right :=
    { balances h :=
        let ⟨hsince, _, hbalanced⟩ := balanced_balances hend h
        ⟨hbalanced.ne_nil, hsince, hbalanced⟩
      balances_ends _ hn := balancedFrom_bound hend [] hn (Nat.le_refl _)
      recovers r :=
        let ⟨hsince, hhalts, hne⟩ := recover_halts hend r
        ⟨hne, hsince, hhalts⟩
      recovers_ends r n hn := by
        have hcapture : (captureTokens r n).run s = (captureTokens r s.upcoming.length).run s :=
          captureTokens_bound hend r hn (Nat.le_refl _)
        exact run_bind_of hcapture
      turn l n hn := by
        have hturn := l.item_advances s (.refl hend)
        rwa [hn] at hturn
      turns l := l.collect_takes hend s.upcoming.length
      turns_end l _ hn := l.collect_bound hend hn (Nat.le_refl _) }

/-- In front of a brace that is never closed, with a comment and another bracket in it. -/
theorem progresses_of_ended_brace :
    (State.start ⟨8, true, false⟩ .empty "{/* a */(}]b".toList).upcoming.last.kind = .eof ∧
      (State.start ⟨8, true, false⟩ .empty "{/* a */(}]b".toList).ahead = .openBrace ∧
      LoopsRun ∧ Progresses (State.start ⟨8, true, false⟩ .empty "{/* a */(}]b".toList) :=
  ⟨by decide +kernel, by decide +kernel, progresses_of_ended _ (by decide +kernel)⟩

end CssTree.Grammar
