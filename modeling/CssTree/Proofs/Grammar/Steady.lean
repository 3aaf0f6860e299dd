import CssTree.Proofs.Grammar.Walk

namespace CssTree.Grammar

/-- A step keeps what is known of a state. -/
def Maintains {α : Type} (I : State → Prop) (p : Parser α) : Prop := Keeps I p fun _ => I

namespace Maintains

variable {α β : Type} {I : State → Prop}

theorem ret {a : α} : Maintains I (pure a) := Keeps.ret fun _ hs => hs

theorem bind {p : Parser α} {f : α → Parser β} (hp : Maintains I p) (hf : ∀ a, Maintains I (f a)) :
    Maintains I (p >>= f) := Keeps.bind hp hf

theorem ite {c : Prop} [Decidable c] {p q : Parser α} (hp : Maintains I p) (hq : Maintains I q) :
    Maintains I (if c then p else q) := by
  split
  · exact hp
  · exact hq

theorem fail : Maintains I (failure : Attempt α).run := fun _ hs => hs

/-- A step that may fail before others. -/
theorem try_bind {p : Attempt α} {f : α → Attempt β} (hp : Maintains I p.run)
    (hf : ∀ a, Maintains I (f a).run) : Maintains I (p >>= f).run := by
  rw [OptionT.run_bind]
  apply hp.bind
  intro r
  cases r with
  | none => exact ret
  | some a => exact hf a

theorem lift {p : Parser α} (hp : Maintains I p) : Maintains I (liftM p : Attempt α).run :=
  fun s hs => hp s hs

/-- A step that cannot fail before one that can. -/
theorem call {p : Parser α} {f : α → Attempt β} (hp : Maintains I p)
    (hf : ∀ a, Maintains I (f a).run) : Maintains I ((liftM p : Attempt α) >>= f).run :=
  fun s hs => hf _ _ (hp s hs)

theorem try_ite {c : Prop} [Decidable c] {p q : Attempt α} (hp : Maintains I p.run)
    (hq : Maintains I q.run) : Maintains I (if c then p else q).run := by
  split
  · exact hp
  · exact hq

theorem many {item : Attempt α} (h : Maintains I item.run) : Maintains I (many item) := by
  have hcollect (n : Nat) : Maintains I (collect item n) := by
    induction n with
    | zero => exact ret
    | succ n ih =>
      refine h.bind fun r => ?_
      cases r with
      | none => exact ret
      | some a => exact ih.bind fun _ => ret
  exact fun s hs => hcollect s.upcoming.length s hs

end Maintains

/-- What the steps from single tokens to component values keep. -/
structure Kept (I : State → Prop) : Prop where
  peek : Maintains I Grammar.peek
  bump : Maintains I Grammar.bump
  atImportant : Maintains I Grammar.atImportant
  node : ∀ kind es, Maintains I (Grammar.node kind es)
  enter : Maintains I Grammar.enter
  exit : Maintains I Grammar.exit

/-- What is kept by every step that takes no comment apart. -/
structure Steady (I : State → Prop) : Prop where
  settle : ∀ {s} n, I s → I (s.settle n)
  take : ∀ {s}, s.upcoming.Settled 0 → I s → I s.take.2
  node : ∀ {s} kind es, I s → I ((Grammar.node kind es).run s).2
  enter : ∀ {s}, I s → I (Grammar.enter.run s).2
  exit : ∀ {s}, I s → I (Grammar.exit.run s).2

namespace Steady

variable {I : State → Prop} (hI : Steady I)

include hI

theorem nth (n : Nat) : Maintains I (Grammar.nth n) := fun _ hs => hI.settle n hs

theorem touchesTaken : Maintains I Grammar.touchesTaken := by
  intro s hs
  have hrun : Grammar.touchesTaken.run s = (if s.taken.head?.any (!·.trailing.isEmpty) then
      return false else return (← Grammar.peek).leading.isEmpty : Parser Bool).run s := rfl
  rw [hrun]
  split
  · exact hs
  · exact hI.settle 0 hs

theorem kept : Kept I where
  peek := hI.nth 0
  bump s hs := hI.take (Stream.settled_settle 0 s.upcoming) (hI.settle 0 hs)
  atImportant := by
    have hdelim : Maintains I (atDelim '!') := hI.nth 0
    exact hdelim.bind fun _ => .ite ((hI.nth 1).bind fun _ => .ret) .ret
  node kind es _ hs := hI.node kind es hs
  enter _ hs := hI.enter hs
  exit _ hs := hI.exit hs

end Steady

/-- From a state with `From`, steps lead to one that is `Reached` from it, and nodes have what is
`said` of them if those in them have. -/
structure Trail where
  From : State → Prop
  Reached : State → State → Prop
  said : Slot → Node → Prop
  refl : ∀ {s}, From s → Reached s s
  trans : ∀ {s s' r}, Reached s s' → Reached s' r → Reached s r
  keeps : ∀ {s s'}, From s → Reached s s' → From s'
  fits : ∀ {slot kind es} id span, Makes said slot kind es → said slot ⟨id, kind, span, es⟩

variable {α : Type}

namespace Trail

variable (trail : Trail)

/-- From a state of the trail a step leads along it, and its result has `φ`. -/
def Leads (p : Parser α) (φ : α → Prop) : Prop :=
  ∀ s, trail.From s → trail.Reached s (p.run s).2 ∧ φ (p.run s).1

variable {trail}

theorem leads_of_maintains {p : Parser α} (h : ∀ mark, Maintains (trail.Reached mark) p) :
    trail.Leads p fun _ => True := fun s hs => ⟨h s s (trail.refl hs), trivial⟩

theorem leads_node {slot : Slot} {kind : NodeKind} {es : List Element}
    (h : ∀ mark, Kept (trail.Reached mark)) (hmakes : Makes trail.said slot kind es) :
    trail.Leads (Grammar.node kind es) (trail.said slot) :=
  fun s hs => ⟨(h s).node kind es s (trail.refl hs), trail.fits _ _ hmakes⟩

theorem Leads.bind {β : Type} {p : Parser α} {f : α → Parser β} {φ : α → Prop} {ψ : β → Prop}
    (hp : trail.Leads p φ) (hf : ∀ a, φ a → trail.Leads (f a) ψ) : trail.Leads (p >>= f) ψ := by
  intro s hs
  obtain ⟨hreached, ha⟩ := hp s hs
  obtain ⟨hreached', hb⟩ := hf _ ha _ (trail.keeps hs hreached)
  exact ⟨trail.trans hreached hreached', hb⟩

/-- An attempt leads along the trail if what a failed one leaves is on it. -/
theorem Leads.attempt {p : Attempt α} {φ : α → Prop}
    (hrewind : ∀ {s s'}, trail.Reached s s' → trail.Reached s (s.rewind s'))
    (hp : trail.Leads p.run fun r => ∀ a ∈ r, φ a) :
    trail.Leads (Grammar.attempt p) fun r => ∀ a ∈ r, φ a := by
  intro s hs
  obtain ⟨hreached, hφ⟩ := hp s hs
  rw [run_attempt]
  split
  · exact ⟨hrewind hreached, hφ⟩
  · exact ⟨hreached, hφ⟩

end Trail

/-- The steps of values lead along a trail of states that they keep in reach. -/
def ValueLogic.along (trail : Trail) (h : ∀ mark, Kept (trail.Reached mark)) : ValueLogic where
  Holds _ _ := trail.Leads
  Said _ := trail.said
  Entered _ := True
  ret ha _ hs := ⟨trail.refl hs, ha⟩
  bind := Trail.Leads.bind
  yields hp hyields s hs := ⟨(hp s hs).1, (hp s hs).2, hyields s⟩
  length hp s hs := hp _ s hs
  peek := Trail.leads_of_maintains fun mark => (h mark).peek
  bump := Trail.leads_of_maintains fun mark => (h mark).bump
  atImportant := Trail.leads_of_maintains fun mark => (h mark).atImportant
  enter hp hq := by
    refine (Trail.leads_of_maintains fun mark => (h mark).enter).bind fun entered _ => ?_
    cases entered with
    | true => exact hp trivial
    | false => exact hq
  exit := Trail.leads_of_maintains fun mark => (h mark).exit
  node hmakes _ := Trail.leads_node h hmakes
  nest _ hmakes := Trail.leads_node h hmakes

/-- The same for the steps of preludes. -/
def PreludeLogic.along (trail : Trail) (h : ∀ mark, Steady (trail.Reached mark)) : PreludeLogic where
  toValueLogic := .along trail fun mark => (h mark).kept
  nth n := Trail.leads_of_maintains fun mark => (h mark).nth n
  touchesTaken := Trail.leads_of_maintains fun mark => (h mark).touchesTaken

/-- The same for the steps of rules, where the trail goes on from what a failed attempt leaves. -/
def RuleLogic.along (trail : Trail) (h : ∀ mark, Steady (trail.Reached mark))
    (hrewind : ∀ {s s'}, trail.Reached s s' → trail.Reached s (s.rewind s'))
    (hblock : trail.Leads Grammar.declarationBlock (trail.said .declarationBlock))
    (Whole : Node → Prop) (hwhole : ∀ {ns : List Node} last id span, (∀ n ∈ ns, trail.said .rule n) →
      Whole ⟨id, .styleSheet, span, ns.map .node ++ [.token last]⟩) : RuleLogic where
  toPreludeLogic := .along trail h
  Whole _ := Whole
  attempt := Trail.Leads.attempt hrewind
  declarationBlock := hblock
  sheet last hns s hs :=
    ⟨(h s).node _ _ (trail.refl hs), hwhole last _ _ hns⟩

/-- States with `I` lead to states with `I`. -/
def Trail.within (I : State → Prop) : Trail where
  From := I
  Reached _ := I
  said _ _ := True
  refl hs := hs
  trans _ h := h
  keeps _ h := h
  fits _ _ _ := trivial

/-- Nothing is known of the states. -/
def Trail.anywhere (said : Slot → Node → Prop) (fits : ∀ {slot kind es} id span,
    Makes said slot kind es → said slot ⟨id, kind, span, es⟩) : Trail where
  From _ := True
  Reached _ _ := True
  said := said
  refl _ := trivial
  trans _ _ := trivial
  keeps _ _ := trivial
  fits := fits

theorem steady_true : Steady fun _ => True where
  settle _ _ := trivial
  take _ _ := trivial
  node _ _ _ := trivial
  enter _ := trivial
  exit _ := trivial

section Logic

variable {I : State → Prop} {p : Parser α} {φ : α → Prop}

def Kept.logic (hI : Kept I) : ValueLogic := .along (.within I) fun _ => hI

theorem Kept.maintains (hI : Kept I) (h : hI.logic.Holds 0 0 p φ) : Maintains I p :=
  fun s hs => (h s hs).1

theorem Kept.recover (hI : Kept I) (r : Recovery) : Maintains I (Grammar.recover r) :=
  have herror : Slot.component.admits .error = true := rfl
  hI.maintains (recover_holds herror r)

theorem Kept.declarationAfter (hI : Kept I) (opening : Option Token) :
    Maintains I (Grammar.declarationAfter opening).run := by
  have hnode (es : List Element) : hI.logic.Holds 0 0 (Grammar.node .declaration es) fun _ => True :=
    fun s hs => ⟨hI.node .declaration es s hs, trivial⟩
  exact hI.maintains (declarationAfter_holds opening fun es _ => hnode es)

def Steady.logic (hI : Steady I) : PreludeLogic := .along (.within I) fun _ => hI

theorem Steady.maintains (hI : Steady I) (h : hI.logic.Holds 0 0 p φ) : Maintains I p :=
  fun s hs => (h s hs).1

end Logic

end CssTree.Grammar
