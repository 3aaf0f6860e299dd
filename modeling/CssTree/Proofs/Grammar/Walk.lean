import CssTree.Proofs.Grammar.Yield
import CssTree.Proofs.Tree.Plain

namespace CssTree

/-- A node for which the parser enters a level: a block, or something with arguments. -/
def Node.nests (n : Node) : Bool :=
  match n.kind with
  | .ruleList | .declarationList | .functionValue | .blockValue => true
  | .pseudoSelector => !n.children.isEmpty
  | _ => false

/-- A comma stands behind each value but the last. -/
def Punctuated.Commas {α : Type} (l : Punctuated α Token) : Prop :=
  ∃ front a, l.pairs = front ++ [(a, none)] ∧ ∀ pair ∈ front, pair.2.map (·.kind) = some .comma

/-- What the grammar sees to when it makes a node of a payload, whatever the child nodes are. -/
def Payload.Made : Payload → Prop
  | selector parts => NodeKind.Steps true (parts.map Node.kind)
  | selectorList l => l.Commas ∧ ∀ n ∈ l.values, n.isError = false
  | keyframeSelectorList l => l.Commas
  | rule selectors _ | keyframeRule selectors _ => selectors.isError = false
  | _ => True

namespace Element

@[simp] theorem nodes_map_node (ns : List Node) : nodes (ns.map .node) = ns := by
  induction ns <;> simp_all

@[simp] theorem nodes_namespace (o : Option Namespace) : nodes (Namespace.elements? o) = [] := by
  cases o <;> simp [Namespace.elements?]

@[simp] theorem nodes_punctuatedNodes (l : Punctuated Node Token) :
    nodes (Grammar.punctuatedNodes l) = l.values := by
  rw [Grammar.punctuatedNodes, Punctuated.values]
  induction l.pairs with
  | nil => rfl
  | cons pair pairs ih => simp [ih]

@[simp] theorem nodes_punctuatedTokens (l : Punctuated Token Token) :
    nodes (Grammar.punctuatedTokens l) = [] := by
  rw [Grammar.punctuatedTokens]
  induction l.pairs with
  | nil => rfl
  | cons pair pairs ih => simp [ih]

end Element

namespace Grammar

/-- The grammar makes a node of elements for a slot: they are those of a payload, and its child
nodes are what is `said` of them. Declarations and their blocks are left out, which have more to
see to. -/
structure Makes (said : Slot → Node → Prop) (slot : Slot) (kind : NodeKind) (es : List Element) :
    Prop where
  payload : ∃ p : Payload, p.kind = kind ∧ p.elements = es ∧ p.Made
  admits : slot.admits kind = true
  declares : kind.declares = false
  children : List.Forall₂ said (kind.slots (Element.nodes es).length) (Element.nodes es)

/-- Rules for the steps from single tokens to component values and what is made of these. With `d`
levels of nesting open, `Holds d d' p φ` says of the step `p` that it leaves `d'` levels open, that
its result has `φ`, and whatever else the logic is about; `Said d slot n` is what it says of a node
that is read for a slot, and `Entered d` of a level that is entered behind `d` others. -/
structure ValueLogic where
  Holds : {α : Type} → (d d' : Nat) → Parser α → (α → Prop) → Prop
  Said : Nat → Slot → Node → Prop
  Entered : Nat → Prop
  ret : ∀ {α : Type} {d : Nat} {a : α} {φ : α → Prop}, φ a → Holds d d (pure a) φ
  bind : ∀ {α β : Type} {d d₁ d' : Nat} {p : Parser α} {f : α → Parser β} {φ : α → Prop}
    {ψ : β → Prop}, Holds d d₁ p φ → (∀ a, φ a → Holds d₁ d' (f a) ψ) → Holds d d' (p >>= f) ψ
  /-- What is known of the results of a step, whatever the state it starts in, may be added. -/
  yields : ∀ {α : Type} {d d' : Nat} {p : Parser α} {φ ψ : α → Prop}, Holds d d' p φ →
    Yields p ψ → Holds d d' p fun a => φ a ∧ ψ a
  /-- A step that is told how many tokens are to come. -/
  length : ∀ {α : Type} {d d' : Nat} {p : Nat → Parser α} {φ : α → Prop},
    (∀ n, Holds d d' (p n) φ) → Holds d d' (do p (← get).upcoming.length) φ
  peek : ∀ {d : Nat}, Holds d d Grammar.peek fun _ => True
  bump : ∀ {d : Nat}, Holds d d Grammar.bump fun _ => True
  /-- The only place among values where more than the next token is looked at. -/
  atImportant : ∀ {d : Nat}, Holds d d Grammar.atImportant fun _ => True
  enter : ∀ {α : Type} {d d' : Nat} {p q : Parser α} {φ : α → Prop},
    (Entered d → Holds (d + 1) d' p φ) → Holds d d' q φ →
    Holds d d' (Grammar.enter >>= fun entered => if entered then p else q) φ
  exit : ∀ {d : Nat}, Holds (d + 1) d Grammar.exit fun _ => True
  node : ∀ {d : Nat} {slot : Slot} {kind : NodeKind} {es : List Element},
    Makes (Said d) slot kind es → (∀ id span, (Node.mk id kind span es).nests = false) →
    Holds d d (Grammar.node kind es) (Said d slot)
  /-- A node for which a level was entered and left. -/
  nest : ∀ {d : Nat} {slot : Slot} {kind : NodeKind} {es : List Element}, Entered d →
    Makes (Said (d + 1)) slot kind es → Holds d d (Grammar.node kind es) (Said d slot)

/-- Rules for selectors as well, which look further ahead. -/
structure PreludeLogic extends ValueLogic where
  nth : ∀ {d : Nat} (n : Nat), Holds d d (Grammar.nth n) fun _ => True
  touchesTaken : ∀ {d : Nat}, Holds d d Grammar.touchesTaken fun _ => True

/-- Rules for rules and whole style sheets as well, of which `Whole` says something. -/
structure RuleLogic extends PreludeLogic where
  Whole : Nat → Node → Prop
  attempt : ∀ {α : Type} {d : Nat} {p : Attempt α} {φ : α → Prop},
    (Holds d d p.run fun r => ∀ a ∈ r, φ a) → Holds d d (Grammar.attempt p) fun r => ∀ a ∈ r, φ a
  declarationBlock : ∀ {d : Nat}, Holds d d Grammar.declarationBlock (Said d .declarationBlock)
  sheet : ∀ {d : Nat} {ns : List Node} (last : Token), (∀ n ∈ ns, Said d .rule n) →
    Holds d d (Grammar.node .styleSheet (ns.map .node ++ [.token last])) (Whole d)

variable {α β : Type} {d d₁ d' : Nat} {φ : α → Prop} {ψ : β → Prop}

namespace Makes

variable {said : Slot → Node → Prop} {slot : Slot} {ns : List Node}

theorem replicate (h : ∀ n ∈ ns, said slot n) :
    List.Forall₂ said (.replicate ns.length slot) ns := by
  induction ns with
  | nil => exact .nil
  | cons n ns ih =>
    obtain ⟨hn, hns⟩ := List.forall_mem_cons.mp h
    exact .cons hn (ih hns)

theorem of_replicate {k : Nat} (h : List.Forall₂ said (.replicate k slot) ns) :
    ∀ n ∈ ns, said slot n := by
  intro n hn
  obtain ⟨i, hi, rfl⟩ := List.getElem_of_mem hn
  simpa using (List.forall₂_iff_get.mp h).2 i (h.length_eq.symm ▸ hi) hi

theorem imp {said' : Slot → Node → Prop} {kind : NodeKind} {es : List Element}
    (h : Makes said slot kind es) (himp : ∀ slot n, said slot n → said' slot n) :
    Makes said' slot kind es := { h with children := h.children.imp himp }

theorem exists_said {kind : NodeKind} {es : List Element} {n : Node} (h : Makes said slot kind es)
    (hn : n ∈ Element.nodes es) : ∃ slot, said slot n := by
  obtain ⟨i, hi, rfl⟩ := List.getElem_of_mem hn
  exact ⟨_, (List.forall₂_iff_get.mp h.children).2 i (h.children.length_eq.symm ▸ hi) hi⟩

theorem errorNode (hadmits : slot.admits .error = true) (ts : List Token) :
    Makes said slot .error (ts.map .token) :=
  ⟨⟨.error ts, rfl, rfl, trivial⟩, hadmits, rfl, by simp [NodeKind.slots]⟩

end Makes

namespace ValueLogic

variable {L : ValueLogic}

/-- The same for a step that may fail, of what it gives if it does not. -/
def HoldsTry (L : ValueLogic) (d d' : Nat) (p : Attempt α) (φ : α → Prop) : Prop :=
  L.Holds d d' p.run fun r => ∀ a ∈ r, φ a

namespace Holds

theorem mono {p : Parser α} {φ' : α → Prop} (hp : L.Holds d d' p φ) (h : ∀ a, φ a → φ' a) :
    L.Holds d d' p φ' := by
  rw [← bind_pure p]
  exact L.bind hp fun a ha => L.ret (h a ha)

theorem ite {c : Prop} [Decidable c] {p q : Parser α} (hp : L.Holds d d' p φ)
    (hq : L.Holds d d' q φ) : L.Holds d d' (if c then p else q) φ := by
  split
  · exact hp
  · exact hq

theorem collect {item : Attempt α} (h : L.HoldsTry d d item φ) (n : Nat) :
    L.Holds d d (Grammar.collect item n) fun as => ∀ a ∈ as, φ a := by
  induction n with
  | zero => exact L.ret (by simp)
  | succ n ih =>
    refine L.bind h fun r hr => ?_
    cases r with
    | none => exact L.ret (by simp)
    | some a => exact L.bind ih fun as has => L.ret (List.forall_mem_cons.mpr ⟨hr a rfl, has⟩)

theorem many {item : Attempt α} (h : L.HoldsTry d d item φ) :
    L.Holds d d (Grammar.many item) fun as => ∀ a ∈ as, φ a :=
  L.length (collect h)

end Holds

namespace HoldsTry

theorem ret {a : α} (h : φ a) : L.HoldsTry d d (pure a) φ :=
  L.ret fun b hb => by
    obtain rfl := Option.some.inj hb
    exact h

theorem fail : L.HoldsTry d d (failure : Attempt α) φ :=
  L.ret (a := none) fun _ hb => by cases hb

/-- A failure goes on to the end, so that it has to leave the levels that were open. -/
theorem bind {p : Attempt α} {f : α → Attempt β} (hp : L.HoldsTry d d p φ)
    (hf : ∀ a, φ a → L.HoldsTry d d (f a) ψ) : L.HoldsTry d d (p >>= f) ψ := by
  rw [HoldsTry, OptionT.run_bind]
  refine L.bind hp fun r hr => ?_
  cases r with
  | none => exact L.ret fun _ hb => by cases hb
  | some a => exact hf a (hr a rfl)

/-- A step that cannot fail before one that can. -/
theorem call {p : Parser α} {f : α → Attempt β} (hp : L.Holds d d₁ p φ)
    (hf : ∀ a, φ a → L.HoldsTry d₁ d' (f a) ψ) :
    L.HoldsTry d d' ((liftM p : Attempt α) >>= f) ψ := L.bind hp hf

theorem lift {p : Parser α} (hp : L.Holds d d' p φ) : L.HoldsTry d d' (liftM p : Attempt α) φ :=
  L.bind hp fun a ha => L.ret fun b hb => by
    obtain rfl := Option.some.inj hb
    exact ha

theorem mono {p : Attempt α} {φ' : α → Prop} (hp : L.HoldsTry d d' p φ) (h : ∀ a, φ a → φ' a) :
    L.HoldsTry d d' p φ' :=
  Holds.mono hp fun _ hr a ha => h a (hr a ha)

theorem ite {c : Prop} [Decidable c] {p q : Attempt α} (hp : L.HoldsTry d d' p φ)
    (hq : L.HoldsTry d d' q φ) : L.HoldsTry d d' (if c then p else q) φ := by
  split
  · exact hp
  · exact hq

theorem enter {p q : Attempt α} (hp : L.Entered d → L.HoldsTry (d + 1) d' p φ)
    (hq : L.HoldsTry d d' q φ) :
    L.HoldsTry d d' ((liftM Grammar.enter : Attempt Bool) >>= fun entered =>
      if entered then p else q) φ :=
  L.enter (p := p.run) (q := q.run) hp hq

theorem length {p : Nat → Attempt α} (h : ∀ n, L.HoldsTry d d' (p n) φ) :
    L.HoldsTry d d' (do p (← get).upcoming.length) φ :=
  L.length (p := fun n => (p n).run) h

end HoldsTry

end ValueLogic

section Steps

variable {L : ValueLogic} {slot : Slot}

theorem peekKind_holds : L.Holds d d peekKind fun _ => True :=
  L.bind L.peek fun _ _ => L.ret trivial

theorem atDelim_holds (c : Char) : L.Holds d d (atDelim c) fun _ => True :=
  L.bind L.peek fun _ _ => L.ret trivial

theorem atBlockEnd_holds : L.Holds d d atBlockEnd fun _ => True :=
  L.bind peekKind_holds fun _ _ => L.ret trivial

theorem eat_holds (kind : TokenKind) : L.Holds d d (eat kind) fun o => ∀ t ∈ o, t.kind = kind := by
  have heat : L.Holds d d (eat kind) fun _ => True := by
    refine L.bind peekKind_holds fun _ _ => .ite ?_ (L.ret trivial)
    exact L.bind L.bump fun _ _ => L.ret trivial
  exact (L.yields heat (Yields.eat kind)).mono fun _ h => h.2

theorem require_holds (kind : TokenKind) :
    L.HoldsTry d d (require kind) fun t => t.kind = kind := eat_holds kind

theorem balancedFrom_holds (expected : List TokenKind) (n : Nat) :
    L.Holds d d (balancedFrom expected n) fun _ => True := by
  induction n generalizing expected with
  | zero => exact L.ret trivial
  | succ n ih =>
    refine L.bind peekKind_holds fun kind _ => .ite (L.ret trivial) (L.bind L.bump fun t _ => ?_)
    exact .ite (L.ret trivial) (L.bind (ih _) fun _ _ => L.ret trivial)

theorem balanced_holds : L.Holds d d balanced fun _ => True := L.length (balancedFrom_holds [])

theorem captureTokens_holds (r : Recovery) (n : Nat) :
    L.Holds d d (captureTokens r n) fun _ => True := by
  induction n with
  | zero => exact L.ret trivial
  | succ n ih =>
    refine L.bind peekKind_holds fun kind _ => .ite (L.ret trivial) (.ite ?_ ?_)
    · exact L.bind L.bump fun _ _ => L.ret trivial
    · refine L.bind balanced_holds fun ts _ => .ite (L.ret trivial) ?_
      exact L.bind ih fun _ _ => L.ret trivial

theorem errorNode_holds (hadmits : slot.admits .error = true) (ts : List Token) :
    L.Holds d d (errorNode ts) (L.Said d slot) :=
  L.node (.errorNode hadmits ts) fun _ _ => rfl

theorem recover_holds (hadmits : slot.admits .error = true) (r : Recovery) :
    L.Holds d d (recover r) (L.Said d slot) :=
  L.length (p := fun n => captureTokens r n >>= errorNode) fun n =>
    L.bind (captureTokens_holds r n) fun ts _ => errorNode_holds hadmits ts

theorem recoverBlock_holds (hadmits : slot.admits .error = true) :
    L.Holds d d recoverBlock (L.Said d slot) :=
  L.bind balanced_holds fun ts _ => errorNode_holds hadmits ts

theorem collectSeparated_holds {item : Attempt α} (h : L.HoldsTry d d item φ) (n : Nat) :
    L.HoldsTry d d (collectSeparated item n) fun pairs =>
      (∀ pair ∈ pairs, φ pair.1) ∧ Punctuated.Commas ⟨pairs⟩ := by
  induction n with
  | zero => exact .fail
  | succ n ih =>
    refine h.bind fun a ha => .call (eat_holds .comma) fun comma hcomma => ?_
    cases comma with
    | none => exact .ret ⟨by simpa using ha, [], a, rfl, by simp⟩
    | some comma =>
      refine ih.bind fun pairs hpairs => ?_
      obtain ⟨hitems, front, b, hsplit, hfront⟩ := hpairs
      obtain rfl : pairs = front ++ [(b, none)] := hsplit
      refine .ret ⟨List.forall_mem_cons.mpr ⟨ha, hitems⟩, (a, some comma) :: front, b, rfl, ?_⟩
      exact List.forall_mem_cons.mpr ⟨by simpa using hcomma, hfront⟩

theorem separated_holds {item : Attempt α} (h : L.HoldsTry d d item φ) :
    L.HoldsTry d d (separated item) fun l => (∀ a ∈ l.values, φ a) ∧ l.Commas := by
  let p (n : Nat) : Attempt (Punctuated α Token) :=
    collectSeparated item (n + 1) >>= fun pairs => pure ⟨pairs⟩
  refine .length (p := p) fun n => (collectSeparated_holds h (n + 1)).bind fun pairs hpairs => ?_
  refine .ret ⟨fun a ha => ?_, hpairs.2⟩
  obtain ⟨pair, hpair, rfl⟩ := List.mem_map.mp ha
  exact hpairs.1 pair hpair

end Steps

section Values

variable {L : ValueLogic}

theorem valueItem_holds {component : Parser Node} (h : L.Holds d d component (L.Said d .component))
    (stop : List TokenKind) (important : Bool) :
    L.HoldsTry d d (valueItem component stop important) (L.Said d .component) := by
  refine .call peekKind_holds fun kind _ => .ite .fail (.ite ?_ (.lift h))
  exact .call L.atImportant fun _ _ => .ite .fail (.lift h)

theorem valuesOf_holds {component : Parser Node} (h : L.Holds d d component (L.Said d .component))
    (stop : List TokenKind) (important : Bool) :
    L.Holds d d (valuesOf component stop important) (L.Said d .values) := by
  refine L.bind (.many (valueItem_holds h stop important)) fun ns hns => L.node ?_ fun _ _ => rfl
  refine ⟨⟨.valueList ns, rfl, rfl, trivial⟩, rfl, rfl, ?_⟩
  rw [Element.nodes_map_node]
  exact Makes.replicate hns

/-- The values in brackets are read one level down. -/
theorem componentWithin_holds (depth : Nat) :
    L.Holds d d (componentWithin depth) (L.Said d .component) := by
  have htoken {d : Nat} :
      L.Holds d d (do node .preservedToken [.token (← bump)]) (L.Said d .component) :=
    L.bind L.bump fun t _ => L.node ⟨⟨.preservedToken t, rfl, rfl, trivial⟩, rfl, rfl,
      by simp [NodeKind.slots]⟩ fun _ _ => rfl
  induction depth generalizing d with
  | zero => exact htoken
  | succ depth ih =>
    refine L.bind peekKind_holds fun kind _ => ?_
    split
    next => exact htoken
    next close _ =>
      refine L.enter (fun hentered => ?_) (recoverBlock_holds rfl)
      refine L.bind L.bump fun opening _ => L.bind (valuesOf_holds ih _ _) fun values hvalues => ?_
      refine L.bind (eat_holds close) fun closing _ => L.bind L.exit fun _ _ => ?_
      refine L.nest hentered ⟨?_, ?_, ?_, ?_⟩
      all_goals split
      · exact ⟨.functionValue opening values closing, rfl, rfl, trivial⟩
      · exact ⟨.blockValue opening values closing, rfl, rfl, trivial⟩
      · rfl
      · rfl
      · rfl
      · rfl
      · simpa [NodeKind.slots] using hvalues
      · simpa [NodeKind.slots] using hvalues

theorem component_holds : L.Holds d d component (L.Said d .component) :=
  L.length componentWithin_holds

theorem values_holds (stop : List TokenKind) : L.Holds d d (values stop) (L.Said d .values) :=
  valuesOf_holds component_holds stop false

theorem declarationValue_holds (stop : List TokenKind) :
    L.Holds d d (declarationValue stop) (L.Said d .values) :=
  valuesOf_holds component_holds stop true

theorem important_holds : L.Holds d d important fun o => ∀ n ∈ o, L.Said d .important n := by
  refine L.bind L.atImportant fun found _ => .ite ?_ (L.ret (by simp))
  refine L.bind L.bump fun mark _ => L.bind L.bump fun word _ => ?_
  have hmakes : Makes (L.Said d) .important .importantValue [.token mark, .token word] :=
    ⟨⟨.importantValue mark word, rfl, rfl, trivial⟩, rfl, rfl, by simp [NodeKind.slots]⟩
  exact L.bind (L.node hmakes fun _ _ => rfl) fun n hn => L.ret (by simpa using hn)

end Values

section Parts

variable {L : ValueLogic}

theorem declarationEnd_holds (disabled semicolon : Bool) :
    L.HoldsTry d d (declarationEnd disabled semicolon) fun es => Element.nodes es = [] := by
  unfold declarationEnd
  refine .ite ((require_holds _).bind fun _ _ => .ret rfl) (.ite (.ret rfl) ?_)
  exact .call atBlockEnd_holds fun _ _ => .ite (.ret rfl) .fail

/-- What is said of a declaration itself is left to the step that makes its node. -/
theorem declarationAfter_holds {ψ : Node → Prop} (opening : Option Token)
    (hnode : ∀ es, (∀ n ∈ Element.nodes es, ∃ slot, L.Said d slot n) →
      L.Holds d d (node .declaration es) ψ) :
    L.HoldsTry d d (declarationAfter opening) ψ := by
  refine (require_holds _).bind fun name _ => (require_holds _).bind fun colon _ => ?_
  refine .call (declarationValue_holds _) fun value hvalue => ?_
  refine .call important_holds fun mark hmark => .call (eat_holds _) fun semicolon _ => ?_
  refine (declarationEnd_holds _ _).bind fun ending hending => .lift (hnode _ fun n hn => ?_)
  have hmem : n = value ∨ n ∈ mark := by simpa [hending] using hn
  rcases hmem with rfl | hmem
  · exact ⟨_, hvalue⟩
  · exact ⟨_, hmark n hmem⟩

theorem statementEnd_holds : L.HoldsTry d d statementEnd fun es =>
    ∃ semicolon, es = Element.ofToken? semicolon := by
  refine .call peekKind_holds fun _ _ => ?_
  split
  · exact .call L.bump fun t _ => .ret ⟨some t, rfl⟩
  · exact .ret ⟨none, rfl⟩
  · exact .ret ⟨none, rfl⟩
  · exact .fail

theorem requireBlock_holds {φ : Node → Prop} {block : Parser Node} (h : L.Holds d d block φ) :
    L.HoldsTry d d (requireBlock block) φ :=
  .call peekKind_holds fun _ _ => .ite (.lift h) .fail

theorem urlOrString_holds : L.HoldsTry d d urlOrString (L.Said d .component) :=
  .call L.peek fun _ _ => .ite (.lift component_holds) .fail

theorem documentMatcher_holds : L.HoldsTry d d documentMatcher (L.Said d .component) :=
  .call L.peek fun _ _ => .ite (.lift component_holds) .fail

theorem mediaQueryList_holds (stop : List TokenKind) :
    L.Holds d d (mediaQueryList stop) (L.Said d .media) := by
  have hnode (l : Punctuated Node Token) (h : ∀ n ∈ l.values, L.Said d .values n) :
      L.Holds d d (node .mediaQueryList (punctuatedNodes l)) (L.Said d .media) := by
    refine L.node ⟨⟨.mediaQueryList l, rfl, rfl, trivial⟩, rfl, rfl, ?_⟩ fun _ _ => rfl
    rw [Element.nodes_punctuatedNodes]
    exact Makes.replicate h
  have hnone : ∀ n ∈ (Punctuated.empty : Punctuated Node Token).values, L.Said d .values n := by
    simp [Punctuated.values, Punctuated.empty]
  refine L.bind peekKind_holds fun _ _ => .ite (hnode .empty hnone) ?_
  refine L.bind (separated_holds (.lift (values_holds (.comma :: stop)))) fun queries hqueries =>
    hnode _ ?_
  cases queries with
  | none => exact hnone
  | some l => exact (hqueries l rfl).1

/-- At most one node, of which something is said. -/
def ValueLogic.Optional (L : ValueLogic) (d : Nat) (slot : Slot) (es : List Element) : Prop :=
  ∃ o : Option Node, es = Element.ofNode? o ∧ ∀ n ∈ o, L.Said d slot n

theorem optional_none {slot : Slot} : L.Optional d slot [] := ⟨none, rfl, by simp⟩

theorem optional_some {slot : Slot} {n : Node} (h : L.Said d slot n) :
    L.Optional d slot [.node n] := ⟨some n, rfl, by simpa using h⟩

theorem importMedia_holds : L.Holds d d importMedia (L.Optional d .media) := by
  refine L.bind peekKind_holds fun _ _ => .ite (L.ret optional_none) ?_
  exact L.bind (mediaQueryList_holds _) fun _ hn => L.ret (optional_some hn)

theorem pageSelector_holds : L.Holds d d pageSelector (L.Optional d .values) := by
  refine L.bind peekKind_holds fun _ _ => .ite (L.ret optional_none) ?_
  exact L.bind (values_holds _) fun _ hn => L.ret (optional_some hn)

theorem genericEnd_holds : L.HoldsTry d d genericEnd fun es =>
    ∃ block semicolon, es = Element.ofNode? block ++ Element.ofToken? semicolon ∧
      ∀ n ∈ block, L.Said d .component n := by
  refine .call peekKind_holds fun _ _ => .ite (.call component_holds fun n hn => ?_) ?_
  · exact .ret ⟨some n, none, rfl, by simpa using hn⟩
  · refine statementEnd_holds.mono fun es hes => ?_
    obtain ⟨semicolon, rfl⟩ := hes
    exact ⟨none, semicolon, rfl, by simp⟩

theorem keyframeSelectors_holds : L.HoldsTry d d keyframeSelectors fun n =>
    L.Said d .keyframeSelectors n ∧ n.isError = false := by
  have hitem : L.HoldsTry d d (do
      let kind ← peekKind
      if kind = .percentage || kind = .ident then bump else failure : Attempt Token)
      fun _ => True :=
    .call peekKind_holds fun _ _ => .ite (.lift L.bump) .fail
  refine (separated_holds hitem).bind fun l hl =>
    .lift (L.yields (L.node ?_ fun _ _ => rfl) fun _ => rfl)
  exact ⟨⟨.keyframeSelectorList l, rfl, rfl, hl.2⟩, rfl, rfl, by simp [NodeKind.slots]⟩

end Parts

section Selectors

variable {L : PreludeLogic}

theorem touchesNext_holds (n : Nat) : L.Holds d d (touchesNext n) fun _ => True := by
  refine L.bind (L.nth n) fun _ _ => .ite ?_ (L.ret trivial)
  exact L.bind (L.nth _) fun _ _ => L.ret trivial

theorem nsPrefix_holds : L.Holds d d nsPrefix fun es => ∃ ns, es = Namespace.elements? ns := by
  have hnone : L.Holds d d (pure [] : Parser (List Element)) fun es =>
      ∃ ns, es = Namespace.elements? ns := L.ret ⟨none, rfl⟩
  refine L.bind L.peek fun first _ => ?_
  unfold nsPrefixFrom
  refine .ite ?_ (.ite ?_ hnone)
  · refine L.bind (L.nth 1) fun _ _ => .ite ?_ hnone
    refine L.bind (touchesNext_holds 0) fun _ _ => .ite ?_ hnone
    refine L.bind (L.nth 2) fun _ _ => .ite ?_ hnone
    refine L.bind (touchesNext_holds 1) fun _ _ => .ite ?_ hnone
    refine L.bind L.bump fun label _ => L.bind L.bump fun bar _ => ?_
    exact L.ret ⟨some ⟨some label, bar⟩, rfl⟩
  · refine L.bind (L.nth 1) fun _ _ => .ite ?_ hnone
    refine L.bind (touchesNext_holds 0) fun _ _ => .ite ?_ hnone
    exact L.bind L.bump fun bar _ => L.ret ⟨some ⟨none, bar⟩, rfl⟩

theorem secondColon_holds :
    L.Holds d d secondColon fun es => ∃ second, es = Element.ofToken? second := by
  refine L.bind peekKind_holds fun _ _ => .ite ?_ (L.ret ⟨none, rfl⟩)
  refine L.bind L.touchesTaken fun _ _ => .ite ?_ (L.ret ⟨none, rfl⟩)
  exact L.bind L.bump fun t _ => L.ret ⟨some t, rfl⟩

/-- What is said of a part of a selector that is no combinator. -/
def ValueLogic.SaidSimple (L : ValueLogic) (d : Nat) (n : Node) : Prop :=
  L.Said d .selectorPart n ∧ n.kind ≠ .combinator

/-- A simple selector without nodes in it. -/
theorem simpleNode_holds {kind : NodeKind} {es : List Element} (p : Payload) (hkind : p.kind = kind)
    (hes : p.elements = es) (hnodes : Element.nodes es = [] := by simp)
    (hmade : p.Made := by trivial) (hslots : kind.slots 0 = [] := by rfl)
    (hpart : kind.isSelectorPart = true ∧ kind ≠ .combinator := by decide) :
    L.HoldsTry d d (liftM (node kind es) : Attempt Node) (L.SaidSimple d) := by
  have hmakes : Makes (L.Said d) .selectorPart kind es := by
    refine ⟨⟨p, hkind, hes, hmade⟩, hpart.1, ?_, ?_⟩
    · cases kind <;> first | rfl | cases hpart.1
    · rw [hnodes, List.length_nil, hslots]
      exact .nil
  have hflat (id : NodeId) (span : Span) : (Node.mk id kind span es).nests = false := by
    have hchildren : (Node.mk id kind span es).children = [] := hnodes
    unfold Node.nests
    split
    all_goals first
      | rfl
      | next hk => exact absurd hpart.1 (by rw [show kind = _ from hk]; decide)
      | rw [hchildren]; rfl
  have hsame : Yields (node kind es) fun n => n.kind = kind := fun _ => rfl
  exact .lift ((L.yields (L.node hmakes hflat) hsame).mono fun n hn => ⟨hn.1, hn.2 ▸ hpart.2⟩)

theorem pseudoSelector_holds : L.HoldsTry d d pseudoSelector (L.SaidSimple d) := by
  refine .call L.bump fun colon _ => .call secondColon_holds fun es hes => ?_
  obtain ⟨second, rfl⟩ := hes
  refine .call L.touchesTaken fun _ _ => .ite (.call peekKind_holds fun kind _ => ?_) .fail
  split
  next =>
    refine .call L.bump fun name _ => ?_
    exact simpleNode_holds (.pseudoSelector colon second name none none) rfl rfl
  next =>
    refine .enter (fun hentered => ?_) .fail
    refine .call L.bump fun name _ => .call (values_holds _) fun arguments harguments => ?_
    -- The level is left before it is known whether the parenthesis is there.
    refine .call (eat_holds _) fun closing _ => .call L.exit fun _ _ => ?_
    cases closing with
    | none => exact .fail
    | some paren =>
      have hmakes : Makes (L.Said (d + 1)) .selectorPart .pseudoSelector (.token colon ::
          Element.ofToken? second ++ [.token name, .node arguments, .token paren]) :=
        ⟨⟨.pseudoSelector colon second name (some arguments) (some paren), rfl, rfl, trivial⟩, rfl,
          rfl, by simpa [NodeKind.slots] using harguments⟩
      have hkind : NodeKind.pseudoSelector ≠ .combinator := by decide
      exact .lift ((L.yields (L.nest hentered hmakes) fun _ => hkind).mono fun _ h => h)
  next => exact .fail

theorem attributeMatcher_holds : L.HoldsTry d d attributeMatcher fun _ => True := by
  have hbump : L.HoldsTry d d (liftM bump : Attempt Token) fun _ => True := .lift L.bump
  refine .call peekKind_holds fun kind _ => ?_
  split
  · exact hbump
  · exact hbump
  · exact hbump
  · exact hbump
  · exact hbump
  · exact .call (atDelim_holds _) fun _ _ => .ite hbump .fail
  · exact .fail

theorem attributeTest_holds : L.HoldsTry d d attributeTest fun es => ∃ matcher value modifier,
    es = Element.ofToken? matcher ++ Element.ofToken? value ++ Element.ofToken? modifier := by
  refine .call peekKind_holds fun _ _ => .ite (.ret ⟨none, none, none, rfl⟩) ?_
  refine attributeMatcher_holds.bind fun matcher _ => .call peekKind_holds fun kind _ => ?_
  refine .ite (.call L.bump fun value _ => .call (eat_holds _) fun modifier _ => ?_) .fail
  exact .ret ⟨some matcher, some value, modifier, rfl⟩

theorem attributeSelector_holds : L.HoldsTry d d attributeSelector (L.SaidSimple d) := by
  refine .call L.bump fun opening _ => .call nsPrefix_holds fun es hes => ?_
  obtain ⟨ns, rfl⟩ := hes
  refine (require_holds _).bind fun name _ => attributeTest_holds.bind fun es hes => ?_
  obtain ⟨matcher, value, modifier, rfl⟩ := hes
  refine (require_holds _).bind fun closing _ => ?_
  refine simpleNode_holds (.attributeSelector opening ns name matcher value modifier closing) rfl ?_
  simp [Payload.elements]

theorem universalSelector_holds (ns : Option Namespace) :
    L.HoldsTry d d (universalSelector (Namespace.elements? ns)) (L.SaidSimple d) := by
  refine .call (atDelim_holds _) fun _ _ => .ite (.call L.bump fun star _ => ?_) .fail
  exact simpleNode_holds (.universalSelector ns star) rfl rfl

theorem typeSelector_holds (ns : Option Namespace) :
    L.HoldsTry d d (do node .typeSelector (Namespace.elements? ns ++ [.token (← bump)]))
      (L.SaidSimple d) :=
  .call L.bump fun name _ => simpleNode_holds (.typeSelector ns name) rfl rfl

theorem starSelector_holds : L.HoldsTry d d starSelector (L.SaidSimple d) := by
  refine .call nsPrefix_holds fun es hes => ?_
  obtain ⟨ns, rfl⟩ := hes
  refine .ite (universalSelector_holds ns) (.call peekKind_holds fun _ _ => ?_)
  exact .ite (typeSelector_holds ns) (universalSelector_holds ns)

theorem simpleSelector_holds : L.HoldsTry d d simpleSelector (L.SaidSimple d) := by
  refine .call L.peek fun t _ => ?_
  split
  next =>
    refine .call nsPrefix_holds fun es hes => ?_
    obtain ⟨ns, rfl⟩ := hes
    exact typeSelector_holds ns
  next =>
    refine .ite starSelector_holds (.ite (.call (L.nth 1) fun _ _ => .ite ?_ .fail) .fail)
    refine .call (touchesNext_holds 0) fun _ _ => .ite (.call L.bump fun dot _ => ?_) .fail
    exact .call L.bump fun name _ => simpleNode_holds (.classSelector dot name) rfl rfl
  next => exact .call L.bump fun hash _ => simpleNode_holds (.idSelector hash) rfl rfl
  next => exact pseudoSelector_holds
  next => exact attributeSelector_holds
  next => exact .fail

theorem combinator_holds (t : Token) : L.Holds d d (node .combinator [.token t])
    fun n => L.Said d .selectorPart n ∧ n.kind = .combinator := by
  refine L.yields (L.node ?_ fun _ _ => rfl) fun _ => rfl
  exact ⟨⟨.combinator t, rfl, rfl, trivial⟩, rfl, rfl, by simp [NodeKind.slots]⟩

theorem selectorParts_holds (expectsSimple : Bool) (n : Nat) :
    L.HoldsTry d d (selectorParts expectsSimple n) fun ns =>
      (∀ n ∈ ns, L.Said d .selectorPart n) ∧
        NodeKind.Steps expectsSimple (ns.map Node.kind) := by
  have hend (b : Bool) : L.HoldsTry d d (if b then failure else return []) fun ns =>
      (∀ n ∈ ns, L.Said d .selectorPart n) ∧ NodeKind.Steps b (ns.map Node.kind) := by
    cases b with
    | true => exact .fail
    | false => exact .ret ⟨by simp, .stop⟩
  induction n generalizing expectsSimple with
  | zero => exact hend expectsSimple
  | succ n ih =>
    have hcombinator : L.Holds d d atCombinator fun _ => True :=
      L.bind L.peek fun _ _ => L.ret trivial
    refine .call peekKind_holds fun _ _ => .ite (hend expectsSimple) ?_
    refine .call hcombinator fun _ _ => .ite ?_ ?_
    · cases expectsSimple with
      | true => exact .fail
      | false =>
        refine .call L.bump fun t _ => .call (combinator_holds t) fun c hc => ?_
        refine (ih true).bind fun ns hns => .ret ⟨List.forall_mem_cons.mpr ⟨hc.1, hns.1⟩, ?_⟩
        rw [List.map_cons, hc.2]
        exact .combinator hns.2
    · refine simpleSelector_holds.bind fun simple hsimple => (ih false).bind fun ns hns => ?_
      exact .ret ⟨List.forall_mem_cons.mpr ⟨hsimple.1, hns.1⟩, .simple hsimple.2 hns.2⟩

theorem selector_holds : L.HoldsTry d d selector fun n =>
    L.Said d .selector n ∧ n.isError = false := by
  let p (n : Nat) : Attempt Node :=
    selectorParts true n >>= fun parts => liftM (node .selector (parts.map .node))
  refine .length (p := p) fun n => (selectorParts_holds true n).bind fun parts hparts => ?_
  refine .lift (L.yields (L.node ⟨⟨.selector parts, rfl, rfl, hparts.2⟩, rfl, rfl, ?_⟩
    fun _ _ => rfl) fun _ => rfl)
  rw [Element.nodes_map_node]
  exact Makes.replicate hparts.1

theorem selectorList_holds : L.HoldsTry d d selectorList fun n =>
    L.Said d .selectors n ∧ n.isError = false := by
  refine (separated_holds selector_holds).bind fun l hl => ?_
  have hmade : (Payload.selectorList l).Made := ⟨hl.2, fun n hn => (hl.1 n hn).2⟩
  refine .lift (L.yields (L.node ⟨⟨.selectorList l, rfl, rfl, hmade⟩, rfl, rfl, ?_⟩
    fun _ _ => rfl) fun _ => rfl)
  rw [Element.nodes_punctuatedNodes]
  exact Makes.replicate fun n hn => (hl.1 n hn).1

end Selectors

section Rules

variable {L : RuleLogic}

/-- From its keyword on an at-rule is read as what fits where rules stand, if its block does. -/
theorem atRule_after {rules : Bool → Parser Node}
    (h : ∀ keyframes, L.Holds d d (rules keyframes) (L.Said d .ruleBlock)) :
    ∃ after : Token → Token → Attempt Node, atRule rules = (do after (← peek) (← bump)) ∧
      ∀ t keyword, L.HoldsTry d d (after t keyword) (L.Said d .rule) := by
  have hblock (keyframes : Bool) := requireBlock_holds (h keyframes)
  have hdeclarations := requireBlock_holds (L.declarationBlock (d := d))
  have hnode {kind : NodeKind} {es : List Element} (p : Payload) (hkind : p.kind = kind)
      (hes : p.elements = es) (hchildren : List.Forall₂ (L.Said d)
        (kind.slots (Element.nodes es).length) (Element.nodes es))
      (hrule : kind.isAtRule = true := by rfl) (hmade : p.Made := by trivial) :
      L.HoldsTry d d (liftM (node kind es) : Attempt Node) (L.Said d .rule) := by
    refine .lift (L.node ⟨⟨p, hkind, hes, hmade⟩, ?_, ?_, hchildren⟩ fun id span => ?_)
    · cases kind <;> first | rfl | cases hrule
    · cases kind <;> first | rfl | cases hrule
    · cases kind <;> first | rfl | cases hrule
  refine ⟨_, rfl, fun t keyword => ?_⟩
  dsimp only
  split
  next =>
    refine (require_holds _).bind fun charset _ => statementEnd_holds.bind fun es hes => ?_
    obtain ⟨semicolon, rfl⟩ := hes
    exact hnode (.charsetRule keyword charset semicolon) rfl rfl (by simp [NodeKind.slots])
  next =>
    refine (require_holds _).bind fun name _ => .call (mediaQueryList_holds _) fun media hmedia => ?_
    refine statementEnd_holds.bind fun es hes => ?_
    obtain ⟨semicolon, rfl⟩ := hes
    exact hnode (.customMediaRule keyword name media semicolon) rfl rfl
      (by simpa [NodeKind.slots] using hmedia)
  next =>
    refine (separated_holds documentMatcher_holds).bind fun matchers hmatchers => ?_
    refine (hblock false).bind fun block hb =>
      hnode (.documentRule keyword matchers block) rfl rfl ?_
    have hslots : NodeKind.documentRule.slots (matchers.values ++ [block]).length =
        .replicate matchers.values.length .component ++ [.ruleBlock] := by simp [NodeKind.slots]
    have hnodes : Element.nodes (.token keyword :: punctuatedNodes matchers ++ [.node block]) =
        matchers.values ++ [block] := by simp
    rw [hnodes, hslots]
    exact List.rel_append (Makes.replicate hmatchers.1) (.cons hb .nil)
  next =>
    refine hdeclarations.bind fun block hb => hnode (.fontFaceRule keyword block) rfl rfl ?_
    simpa [NodeKind.slots] using hb
  next =>
    refine (hblock false).bind fun block hb => hnode (.hostRule keyword block) rfl rfl ?_
    simpa [NodeKind.slots] using hb
  next =>
    refine urlOrString_holds.bind fun url hurl => .call importMedia_holds fun es hes => ?_
    obtain ⟨media, rfl, hmedia⟩ := hes
    refine statementEnd_holds.bind fun es hes => ?_
    obtain ⟨semicolon, rfl⟩ := hes
    refine hnode (.importRule keyword url media semicolon) rfl rfl ?_
    cases media with
    | none => simpa [NodeKind.slots] using hurl
    | some n => simpa [NodeKind.slots] using ⟨hurl, hmedia n rfl⟩
  next =>
    refine .call peekKind_holds fun _ _ => .ite (.call L.bump fun name _ => ?_) .fail
    refine (hblock true).bind fun block hb => hnode (.keyframesRule keyword name block) rfl rfl ?_
    simpa [NodeKind.slots] using hb
  next =>
    refine .call (mediaQueryList_holds _) fun media hmedia => (hblock false).bind fun block hb => ?_
    exact hnode (.mediaRule keyword media block) rfl rfl (by simpa [NodeKind.slots] using ⟨hmedia, hb⟩)
  next =>
    refine .call (eat_holds _) fun label _ => urlOrString_holds.bind fun url hurl => ?_
    refine statementEnd_holds.bind fun es hes => ?_
    obtain ⟨semicolon, rfl⟩ := hes
    exact hnode (.namespaceRule keyword label url semicolon) rfl rfl
      (by simpa [NodeKind.slots] using hurl)
  next =>
    refine .call pageSelector_holds fun es hes => hdeclarations.bind fun block hb => ?_
    obtain ⟨page, rfl, hpage⟩ := hes
    refine hnode (.pageRule keyword page block) rfl rfl ?_
    cases page with
    | none => simpa [NodeKind.slots] using hb
    | some n => simpa [NodeKind.slots] using ⟨hpage n rfl, hb⟩
  next =>
    refine .call (values_holds _) fun condition hc => (hblock false).bind fun block hb => ?_
    exact hnode (.supportsRule keyword condition block) rfl rfl
      (by simpa [NodeKind.slots] using ⟨hc, hb⟩)
  next =>
    refine .call (values_holds _) fun prelude hp => genericEnd_holds.bind fun es hes => ?_
    obtain ⟨block, semicolon, rfl, hb⟩ := hes
    refine hnode (.genericAtRule keyword prelude block semicolon) rfl rfl ?_
    cases block with
    | none => simpa [NodeKind.slots] using hp
    | some n => simpa [NodeKind.slots] using ⟨hp, hb n rfl⟩

theorem atRule_holds {rules : Bool → Parser Node}
    (h : ∀ keyframes, L.Holds d d (rules keyframes) (L.Said d .ruleBlock)) :
    L.HoldsTry d d (atRule rules) (L.Said d .rule) := by
  obtain ⟨after, heq, hafter⟩ := atRule_after h
  rw [heq]
  exact .call L.peek fun t _ => .call L.bump fun keyword _ => hafter t keyword

theorem qualifiedRule_holds : L.HoldsTry d d qualifiedRule (L.Said d .rule) := by
  refine selectorList_holds.bind fun selectors hs => ?_
  refine (requireBlock_holds L.declarationBlock).bind fun block hb => .lift (L.node ?_ fun _ _ => rfl)
  exact ⟨⟨.rule selectors block, rfl, rfl, hs.2⟩, rfl, rfl, .cons hs.1 (.cons hb .nil)⟩

theorem keyframeRule_holds : L.HoldsTry d d keyframeRule (L.Said d .rule) := by
  refine keyframeSelectors_holds.bind fun selectors hs => ?_
  refine (requireBlock_holds L.declarationBlock).bind fun block hb => .lift (L.node ?_ fun _ _ => rfl)
  exact ⟨⟨.keyframeRule selectors block, rfl, rfl, hs.2⟩, rfl, rfl, .cons hs.1 (.cons hb .nil)⟩

/-- Rules in a block are read one level down. -/
theorem blockOf_holds {item : Parser Node}
    (h : L.Holds (d + 1) (d + 1) item (L.Said (d + 1) .rule)) :
    L.Holds d d (blockOf item) (L.Said d .ruleBlock) := by
  have hitem : L.HoldsTry (d + 1) (d + 1) (do if ← atBlockEnd then failure else item)
      (L.Said (d + 1) .rule) := .call atBlockEnd_holds fun _ _ => .ite .fail (.lift h)
  refine L.enter (fun hentered => ?_) (recoverBlock_holds rfl)
  refine L.bind L.bump fun opening _ => L.bind (.many hitem) fun ns hns => ?_
  refine L.bind (eat_holds _) fun closing _ => L.bind L.exit fun _ _ => L.nest hentered ?_
  refine ⟨⟨.ruleList opening ns closing, rfl, rfl, trivial⟩, rfl, rfl, ?_⟩
  have hnodes : Element.nodes (.token opening :: ns.map .node ++ Element.ofToken? closing) = ns := by
    simp
  rw [hnodes]
  exact Makes.replicate hns

/-- A rule of any sort, with rules nested in it that are read by `item`. -/
def anyRule (keyframes : Bool) (item : Bool → Parser Node) : Attempt Node := do
  if (← peekKind) = .atKeyword then atRule fun keyframes => blockOf (item keyframes)
  else if keyframes then keyframeRule
  else qualifiedRule

theorem anyRule_holds {item : Bool → Parser Node} (keyframes : Bool)
    (h : ∀ keyframes, L.Holds (d + 1) (d + 1) (item keyframes) (L.Said (d + 1) .rule)) :
    L.HoldsTry d d (anyRule keyframes item) (L.Said d .rule) := by
  refine .call peekKind_holds fun _ _ => .ite ?_ (.ite keyframeRule_holds qualifiedRule_holds)
  exact atRule_holds fun keyframes => blockOf_holds (h keyframes)

theorem ruleWithin_succ (keyframes nested : Bool) (depth : Nat) :
    ruleWithin keyframes nested (depth + 1) = (do
      match ← attempt (anyRule keyframes fun keyframes => ruleWithin keyframes true depth) with
      | some n => return n
      | none => recover (ruleRecovery nested)) := rfl

theorem ruleWithin_holds (keyframes nested : Bool) (depth : Nat) :
    L.Holds d d (ruleWithin keyframes nested depth) (L.Said d .rule) := by
  induction depth generalizing d keyframes nested with
  | zero => exact recover_holds rfl _
  | succ depth ih =>
    rw [ruleWithin_succ]
    refine L.bind (L.attempt (anyRule_holds keyframes fun _ => ih _ _)) fun parsed hparsed => ?_
    cases parsed with
    | none => exact recover_holds rfl _
    | some n => exact L.ret (hparsed n rfl)

theorem ruleItem_holds (keyframes nested : Bool) :
    L.Holds d d (ruleItem keyframes nested) (L.Said d .rule) :=
  L.length (ruleWithin_holds keyframes nested)

theorem ruleBlock_holds (keyframes : Bool) :
    L.Holds d d (ruleBlock keyframes) (L.Said d .ruleBlock) :=
  blockOf_holds (ruleItem_holds keyframes true)

theorem styleSheet_holds : L.Holds d d styleSheet (L.Whole d) := by
  have hitem : L.HoldsTry d d (do
      if (← peekKind) = .eof then failure else ruleItem false false) (L.Said d .rule) :=
    .call peekKind_holds fun _ _ => .ite .fail (.lift (ruleItem_holds false false))
  exact L.bind (.many hitem) fun ns hns => L.bind L.bump fun last _ => L.sheet last hns

end Rules

end Grammar

end CssTree
