import CssTree.Proofs.Grammar.Walk
import CssTree.Tree.Basic

namespace CssTree

/-- A way from a node down to one of its descendants, through children. -/
inductive Node.Path : Node → List Node → Prop
  | here (n : Node) : Path n [n]
  | down {n m : Node} {path : List Node} (hm : m ∈ n.children) (h : Path m path) :
      Path n (n :: path)

/-- No way down from a node passes more than `k` nodes that nest. -/
def Node.NestsWithin (k : Nat) (n : Node) : Prop := ∀ path, n.Path path → path.countP Node.nests ≤ k

/-- The same for the nodes among some elements. -/
def Element.AllNestWithin (k : Nat) (es : List Element) : Prop :=
  ∀ n, .node n ∈ es → n.NestsWithin k

theorem Node.NestsWithin.mono {j k : Nat} {n : Node} (h : n.NestsWithin j) (hjk : j ≤ k) :
    n.NestsWithin k := fun path hpath => Nat.le_trans (h path hpath) hjk

namespace Element.AllNestWithin

variable {k : Nat} {es fs : List Element}

theorem nil : AllNestWithin k [] := fun _ h => by cases h

theorem token {t : Token} (h : AllNestWithin k es) : AllNestWithin k (.token t :: es) := by
  intro n hn
  rcases List.mem_cons.mp hn with heq | hmem
  · cases heq
  · exact h n hmem

theorem node {n : Node} (hn : n.NestsWithin k) (h : AllNestWithin k es) :
    AllNestWithin k (.node n :: es) := by
  intro m hm
  rcases List.mem_cons.mp hm with heq | hmem
  · cases heq
    exact hn
  · exact h m hmem

theorem of_nodes (h : ∀ n ∈ Element.nodes es, n.NestsWithin k) : AllNestWithin k es :=
  fun n hn => h n (List.mem_filterMap.mpr ⟨.node n, hn, rfl⟩)

theorem nodes {ns : List Node} (h : ∀ n ∈ ns, n.NestsWithin k) :
    AllNestWithin k (ns.map .node) := by
  intro n hn
  obtain ⟨m, hm, heq⟩ := List.mem_map.mp hn
  cases heq
  exact h n hm

end Element.AllNestWithin

namespace Node

variable {k : Nat} {n : Node}

/-- The node itself may count for one. -/
theorem nestsWithin_succ (h : Element.AllNestWithin k n.elements) : n.NestsWithin (k + 1) := by
  intro path hpath
  cases hpath with
  | here => exact Nat.le_trans List.countP_le_length (by simp)
  | @down _ m path hm hpath =>
    have hrest := h m (mem_children.mp hm) path hpath
    rw [List.countP_cons]
    split
    · omega
    · omega

theorem nestsWithin_of_not_nests (h : Element.AllNestWithin k n.elements) (hn : n.nests = false) :
    n.NestsWithin k := by
  intro path hpath
  cases hpath with
  | here => simp [hn]
  | @down _ m path hm hpath =>
    have hrest := h m (mem_children.mp hm) path hpath
    rw [List.countP_cons_of_neg (by simp [hn])]
    exact hrest

end Node

namespace Grammar

/-- The same state under another limit. -/
def State.withLimit (s : State) (limit : Nat) : State := { s with limit }

/-- What a step does to the levels: it leaves `d` of them open, its result is one with `φ`, and
without a level refused it would do the same under a higher limit. -/
structure Leveled {α : Type} (d : Nat) (p : Parser α) (φ : α → Prop) (s : State) : Prop where
  result : φ (p.run s).1
  depth : (p.run s).2.guard.depth = d
  limit : (p.run s).2.limit = s.limit
  refused : s.refused <:+ (p.run s).2.refused
  raised : ∀ limit, s.limit ≤ limit → (p.run s).2.refused = s.refused →
    p.run (s.withLimit limit) = ((p.run s).1, (p.run s).2.withLimit limit)

/-- With `d` levels open out of `limit`, a step leaves `d'` levels open. -/
def Levels {α : Type} (limit d d' : Nat) (p : Parser α) (φ : α → Prop) : Prop :=
  ∀ s : State, s.limit = limit → s.guard.depth = d → Leveled d' p φ s

variable {α β : Type} {limit d d₁ d' : Nat} {φ : α → Prop} {ψ : β → Prop}

namespace Levels

/-- A step that neither reads nor changes the levels. -/
theorem of_plain {p : Parser α} (hguard : ∀ s, (p.run s).2.guard = s.guard)
    (hlimit : ∀ s, (p.run s).2.limit = s.limit) (hrefused : ∀ s, (p.run s).2.refused = s.refused)
    (hraised : ∀ s limit, p.run (s.withLimit limit) = ((p.run s).1, (p.run s).2.withLimit limit)) :
    Levels limit d d p fun _ => True := by
  intro s _ hdepth
  refine ⟨trivial, ?_, hlimit s, (hrefused s).symm ▸ List.suffix_rfl, fun limit _ _ => hraised s limit⟩
  rw [hguard s, hdepth]

theorem ret {a : α} (h : φ a) : Levels limit d d (pure a) φ :=
  fun _ _ hdepth => ⟨h, hdepth, rfl, List.suffix_rfl, fun _ _ _ => rfl⟩

theorem bind {p : Parser α} {f : α → Parser β} (hp : Levels limit d d₁ p φ)
    (hf : ∀ a, φ a → Levels limit d₁ d' (f a) ψ) : Levels limit d d' (p >>= f) ψ := by
  intro s hlimit hdepth
  have hfirst := hp s hlimit hdepth
  have hsecond := hf _ hfirst.result (p.run s).2 (hfirst.limit.trans hlimit) hfirst.depth
  have hrun : (p >>= f).run s = (f (p.run s).1).run (p.run s).2 := rfl
  refine ⟨hsecond.result, hsecond.depth, hsecond.limit.trans hfirst.limit,
    hfirst.refused.trans hsecond.refused, fun higher hhigher hnone => ?_⟩
  -- Refusals are only ever added, so that the first step was refused none either.
  rw [hrun] at hnone
  have hmiddle : (p.run s).2.refused = s.refused :=
    List.IsSuffix.eq_of_length_le (hnone ▸ hsecond.refused) hfirst.refused.length_le
  have hstart := hfirst.raised higher hhigher hmiddle
  have hrest := hsecond.raised higher (by rw [hfirst.limit]; exact hhigher) (hnone.trans hmiddle.symm)
  rw [hrun, ← hrest]
  exact run_bind_of hstart

theorem yields {p : Parser α} {ψ : α → Prop} (hp : Levels limit d d' p φ) (h : Yields p ψ) :
    Levels limit d d' p fun a => φ a ∧ ψ a := by
  intro s hlimit hdepth
  have hrun := hp s hlimit hdepth
  exact ⟨⟨hrun.result, h s⟩, hrun.depth, hrun.limit, hrun.refused, hrun.raised⟩

/-- A step that is told how many tokens are to come. -/
theorem of_length {p : Nat → Parser α} (h : ∀ n, Levels limit d d' (p n) φ) :
    Levels limit d d' (do p (← get).upcoming.length) φ := by
  intro s hlimit hdepth
  have hrun := h s.upcoming.length s hlimit hdepth
  exact ⟨hrun.result, hrun.depth, hrun.limit, hrun.refused, hrun.raised⟩

/-- One more level is opened, if the limit admits it. -/
theorem enter {p q : Parser α} (hp : d + 1 ≤ limit → Levels limit (d + 1) d' p φ)
    (hq : Levels limit d d' q φ) :
    Levels limit d d' (Grammar.enter >>= fun entered => if entered then p else q) φ := by
  intro s hlimit hdepth
  rcases enter_run s with ⟨guard, hguard, hrun⟩ | ⟨e, hguard, hrun⟩
  · obtain ⟨hadmits, rfl⟩ := Guard.enter_eq_ok_iff.mp hguard
    rw [hdepth, hlimit] at hadmits
    have hstep := hp hadmits { s with guard := ⟨s.guard.depth + 1⟩ } hlimit (by rw [hdepth])
    have hboth : (Grammar.enter >>= fun entered => if entered then p else q).run s =
        p.run { s with guard := ⟨s.guard.depth + 1⟩ } := by
      rw [run_bind_of hrun, if_pos rfl]
    refine ⟨?_, ?_, ?_, ?_, fun higher hhigher hnone => ?_⟩
    · rw [hboth]
      exact hstep.result
    · rw [hboth]
      exact hstep.depth
    · rw [hboth]
      exact hstep.limit
    · rw [hboth]
      exact hstep.refused
    · rw [hboth] at hnone ⊢
      rw [← hstep.raised higher hhigher hnone]
      have hagain : Grammar.enter.run (s.withLimit higher) =
          (true, { s.withLimit higher with guard := ⟨s.guard.depth + 1⟩ }) := by
        rcases enter_run (s.withLimit higher) with ⟨guard', hguard', hrun'⟩ | ⟨e, hguard', -⟩
        · obtain ⟨-, rfl⟩ := Guard.enter_eq_ok_iff.mp hguard'
          exact hrun'
        · have hok : s.guard.enter higher = .ok ⟨s.guard.depth + 1⟩ :=
            Guard.enter_eq_ok_iff.mpr ⟨by omega, rfl⟩
          have hsame : s.guard.enter higher = .error e := hguard'
          rw [hok] at hsame
          cases hsame
      rw [run_bind_of hagain, if_pos rfl]
      rfl
  · have hstep := hq { s with refused := e :: s.refused } hlimit hdepth
    have hboth : (Grammar.enter >>= fun entered => if entered then p else q).run s =
        q.run { s with refused := e :: s.refused } := by
      rw [run_bind_of hrun, if_neg Bool.false_ne_true]
    have hmore : (e :: s.refused) <:+ (q.run { s with refused := e :: s.refused }).2.refused :=
      hstep.refused
    refine ⟨?_, ?_, ?_, ?_, fun higher _ hnone => ?_⟩
    · rw [hboth]
      exact hstep.result
    · rw [hboth]
      exact hstep.depth
    · rw [hboth]
      exact hstep.limit
    · rw [hboth]
      exact (List.suffix_cons e s.refused).trans hmore
    · -- The refusal stays noted, so that nothing is claimed of a higher limit.
      rw [hboth] at hnone
      have hlength := hmore.length_le
      rw [hnone, List.length_cons] at hlength
      omega

theorem exit : Levels limit (d + 1) d Grammar.exit fun _ => True := by
  intro s _ hdepth
  refine ⟨trivial, ?_, rfl, List.suffix_rfl, fun _ _ _ => rfl⟩
  show s.guard.depth - 1 = d
  omega

theorem node {k : Nat} {kind : NodeKind} {es : List Element}
    (h : ∀ id span, (Node.mk id kind span es).NestsWithin k) :
    Levels limit d d (Grammar.node kind es) (Node.NestsWithin k) :=
  fun _ _ hdepth => ⟨h _ _, hdepth, rfl, List.suffix_rfl, fun _ _ _ => rfl⟩

/-- A failed attempt goes back to the levels that were open, and keeps what was refused. -/
theorem attempt {p : Attempt α} (hp : Levels limit d d p.run fun r => ∀ a ∈ r, φ a) :
    Levels limit d d (Grammar.attempt p) fun r => ∀ a ∈ r, φ a := by
  intro s hlimit hdepth
  have hrun := hp s hlimit hdepth
  by_cases hfail : (p.run.run s).1.isNone = true
  · have hback : (Grammar.attempt p).run s = ((p.run.run s).1, s.rewind (p.run.run s).2) := by
      rw [run_attempt, if_pos hfail]
    refine ⟨?_, ?_, ?_, ?_, fun higher hhigher hnone => ?_⟩
    · rw [hback]
      exact hrun.result
    · rw [hback]
      exact hdepth
    · rw [hback]
      rfl
    · rw [hback]
      exact hrun.refused
    · rw [hback] at hnone ⊢
      have hagain := hrun.raised higher hhigher hnone
      rw [run_attempt, hagain, if_pos hfail]
      rfl
  · have hgo : (Grammar.attempt p).run s = p.run.run s := by
      rw [run_attempt, if_neg hfail]
    refine ⟨?_, ?_, ?_, ?_, fun higher hhigher hnone => ?_⟩
    · rw [hgo]
      exact hrun.result
    · rw [hgo]
      exact hrun.depth
    · rw [hgo]
      exact hrun.limit
    · rw [hgo]
      exact hrun.refused
    · rw [hgo] at hnone ⊢
      have hagain := hrun.raised higher hhigher hnone
      rw [run_attempt, hagain, if_neg hfail]

end Levels
theorem nth_levels (n : Nat) : Levels limit d d (nth n) fun _ => True :=
  .of_plain (fun _ => rfl) (fun _ => rfl) (fun _ => rfl) fun _ _ => rfl

theorem rawKind_levels : Levels limit d d rawKind fun _ => True :=
  .of_plain (fun _ => rfl) (fun _ => rfl) (fun _ => rfl) fun _ _ => rfl

theorem bumpRaw_levels : Levels limit d d bumpRaw fun _ => True := by
  have htake : ∀ s : State, s.take.2.guard = s.guard ∧ s.take.2.limit = s.limit ∧
      s.take.2.refused = s.refused ∧
      ∀ limit, (s.withLimit limit).take = (s.take.1, s.take.2.withLimit limit) := by
    rintro ⟨taken, ⟨tokens, last⟩, place, guard, limit, arena, created, refused⟩
    cases tokens with
    | nil => exact ⟨rfl, rfl, rfl, fun _ => rfl⟩
    | cons t ts => exact ⟨rfl, rfl, rfl, fun _ => rfl⟩
  exact .of_plain (fun s => (htake s).1) (fun s => (htake s).2.1) (fun s => (htake s).2.2.1)
    fun s => (htake s).2.2.2

theorem bump_levels : Levels limit d d bump fun _ => True := by
  have hsettle : Levels limit d d (modify (·.settle 0) : Parser Unit) fun _ => True :=
    .of_plain (fun _ => rfl) (fun _ => rfl) (fun _ => rfl) fun _ _ => rfl
  exact hsettle.bind fun _ _ => bumpRaw_levels

theorem touchesTaken_levels : Levels limit d d touchesTaken fun _ => True := by
  have hlook : Levels limit d d (do return (← get).taken.head?.any (!·.trailing.isEmpty))
      fun _ => True := .of_plain (fun _ => rfl) (fun _ => rfl) (fun _ => rfl) fun _ _ => rfl
  have hboth : touchesTaken = (do return (← get).taken.head?.any (!·.trailing.isEmpty)) >>=
      fun trailed => if trailed then return false else return (← peek).leading.isEmpty := by
    unfold touchesTaken
    simp only [bind_assoc, pure_bind]
  rw [hboth]
  refine hlook.bind fun trailed _ => ?_
  cases trailed with
  | true => exact .ret trivial
  | false => exact (nth_levels 0).bind fun _ _ => .ret trivial

theorem atImportant_levels : Levels limit d d atImportant fun _ => True := by
  have hdelim : Levels limit d d (atDelim '!') fun _ => True :=
    (nth_levels 0).bind fun _ _ => .ret trivial
  refine hdelim.bind fun mark _ => ?_
  cases mark with
  | true => exact (nth_levels 1).bind fun _ _ => .ret trivial
  | false => exact .ret trivial

theorem Makes.allNestWithin {k : Nat} {slot : Slot} {kind : NodeKind} {es : List Element}
    (h : Makes (fun _ => Node.NestsWithin k) slot kind es) : Element.AllNestWithin k es :=
  .of_nodes fun _ hn => (h.exists_said hn).elim fun _ hnests => hnests

/-- A level for which a node was entered is one of those that it nests. -/
theorem nestsWithin_of_entered {n : Node} (hd : d + 1 ≤ limit)
    (h : Element.AllNestWithin (limit - (d + 1)) n.elements) : n.NestsWithin (limit - d) := by
  have hroom : limit - (d + 1) + 1 = limit - d := by omega
  rw [← hroom]
  exact Node.nestsWithin_succ h

/-- With `d` levels open, what is read nests within those that are left. -/
def levels (limit : Nat) : PreludeLogic where
  Holds := Levels limit
  Said d _ := Node.NestsWithin (limit - d)
  Entered d := d + 1 ≤ limit
  ret := Levels.ret
  bind := Levels.bind
  yields := Levels.yields
  length := Levels.of_length
  peek := nth_levels 0
  bump := bump_levels
  atImportant := atImportant_levels
  enter := Levels.enter
  exit := Levels.exit
  node h hflat := Levels.node fun id span =>
    Node.nestsWithin_of_not_nests h.allNestWithin (hflat id span)
  nest hd h := Levels.node fun _ _ => nestsWithin_of_entered hd h.allNestWithin
  nth := nth_levels
  touchesTaken := touchesTaken_levels

theorem declarationAfter_levels (opening : Option Token) :
    (levels limit).HoldsTry d d (declarationAfter opening) (Node.NestsWithin (limit - d)) := by
  refine declarationAfter_holds opening fun es hes => Levels.node fun id span => ?_
  refine Node.nestsWithin_of_not_nests (.of_nodes fun n hn => ?_) rfl
  obtain ⟨_, hnests⟩ := hes n hn
  exact hnests

theorem declaration_levels :
    (levels limit).HoldsTry d d declaration (Node.NestsWithin (limit - d)) := by
  refine .call rawKind_levels fun _ _ => .ite ?_ (declarationAfter_levels none)
  have hdisabled : (levels limit).HoldsTry d d (do declarationAfter (some (← bumpRaw)))
      (Node.NestsWithin (limit - d)) := .call bumpRaw_levels fun _ _ => declarationAfter_levels _
  refine .call (Levels.attempt hdisabled) fun disabled hdisabled => ?_
  cases disabled with
  | some n => exact .ret (hdisabled n rfl)
  | none => exact declarationAfter_levels none

theorem declarationItem_levels :
    (levels limit).HoldsTry d d declarationItem (Node.NestsWithin (limit - d)) := by
  have hend : (levels limit).Holds d d atItemsEnd fun _ => True :=
    (levels limit).bind rawKind_levels fun _ _ => .ite (Levels.ret trivial) atBlockEnd_holds
  refine .call hend fun _ _ => .ite .fail ?_
  refine .call (Levels.attempt declaration_levels) fun parsed hparsed => ?_
  cases parsed with
  | some n => exact .ret (hparsed n rfl)
  | none =>
    have herror : Slot.declaration.admits .error = true := rfl
    exact .call atBlockEnd_holds fun _ _ => .ite .fail (.lift (recover_holds herror _))

theorem declarationBlock_levels :
    (levels limit).Holds d d declarationBlock (Node.NestsWithin (limit - d)) := by
  have herror : Slot.declarationBlock.admits .error = true := rfl
  refine (levels limit).enter (fun hd => ?_) (recoverBlock_holds herror)
  refine (levels limit).bind bump_levels fun opening _ => ?_
  refine (levels limit).bind (ValueLogic.Holds.many declarationItem_levels) fun ns hns => ?_
  refine (levels limit).bind (eat_holds _) fun closing _ => Levels.exit.bind fun _ _ => ?_
  exact Levels.node fun _ _ => nestsWithin_of_entered hd (.of_nodes fun n hn => hns n (by simpa using hn))

/-- The same for rules and whole style sheets. -/
def levelsRules (limit : Nat) : RuleLogic where
  toPreludeLogic := levels limit
  Whole d := Node.NestsWithin (limit - d)
  attempt := Levels.attempt
  declarationBlock := declarationBlock_levels
  sheet last hns := Levels.node fun _ _ =>
    Node.nestsWithin_of_not_nests (.of_nodes fun n hn => hns n (by simpa using hn)) rfl

theorem styleSheet_levels : Levels limit d d styleSheet (Node.NestsWithin (limit - d)) :=
  styleSheet_holds (L := levelsRules limit)

end Grammar

/-- The levels that were refused while a text was read. -/
def Production.refusals (p : Production) (config : Config) (t : Text) : List DepthError :=
  (p.parser.run (.start config .empty t)).2.refused

namespace Tree

/-- The limit bounds nesting and nothing else: no way down from the root passes more nodes that
nest than levels may be entered, and where no level was refused, a higher limit changes nothing. -/
theorem limit_bounds_nesting (config : Config) (t : Text) :
    (∀ path, (Tree.parse .styleSheet config t).root.Path path →
      path.countP Node.nests ≤ config.maxDepth) ∧
    (Production.refusals .styleSheet config t = [] → ∀ maxDepth, config.maxDepth ≤ maxDepth →
      (Tree.parse .styleSheet { config with maxDepth } t).root =
        (Tree.parse .styleSheet config t).root ∧
      (Tree.parse .styleSheet { config with maxDepth } t).arena =
        (Tree.parse .styleSheet config t).arena) := by
  have hrun : Grammar.Leveled 0 Grammar.styleSheet (Node.NestsWithin config.maxDepth)
      (.start config .empty t) := Grammar.styleSheet_levels _ rfl rfl
  refine ⟨hrun.result, fun hnone maxDepth hmore => ?_⟩
  have hraised : Grammar.styleSheet.run (.start { config with maxDepth } .empty t) =
      ((Grammar.styleSheet.run (.start config .empty t)).1,
        (Grammar.styleSheet.run (.start config .empty t)).2.withLimit maxDepth) :=
    hrun.raised maxDepth hmore hnone
  have hroot : (Tree.parse .styleSheet { config with maxDepth } t).root =
      (Grammar.styleSheet.run (.start { config with maxDepth } .empty t)).1 := rfl
  have harena : (Tree.parse .styleSheet { config with maxDepth } t).arena =
      (Grammar.styleSheet.run (.start { config with maxDepth } .empty t)).2.arena := rfl
  rw [hroot, harena, hraised]
  exact ⟨rfl, rfl⟩

/-- Two levels are enough for a function in a declaration, and one is not. -/
theorem limit_bounds_nesting_function :
    let config : Config := { maxDepth := 2 }
    let t := "a{b:c(d)}".toList
    Production.refusals .styleSheet config t = [] ∧
      Production.refusals .styleSheet { config with maxDepth := 1 } t = [⟨2, 1⟩] ∧
      (Tree.parse .styleSheet { config with maxDepth := 128 } t).root =
        (Tree.parse .styleSheet config t).root :=
  have hnone : Production.refusals .styleSheet { maxDepth := 2 } "a{b:c(d)}".toList = [] := by
    decide +kernel
  ⟨hnone, by decide +kernel, ((limit_bounds_nesting _ _).2 hnone 128 (by decide)).1⟩

end Tree

end CssTree
