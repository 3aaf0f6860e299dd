import CssTree.Proofs.Grammar.Proper
import CssTree.Proofs.Grammar.Since
import CssTree.Proofs.Tree.Plain

namespace CssTree

namespace Grammar

variable {base s : State} {n : Node} {es : List Element} {χ : Node → Prop}

/-- Only of declarations and of their lists something is said. -/
def Lenient (χ : Node → Prop) : Prop := ∀ n : Node, n.kind.declares = false → χ n

/-- From wherever they start behind `base`, steps close every comment that they open, and of the
declarations in what they give `χ` is known. -/
def Trail.clear (base : State) (hχ : Lenient χ) : Trail where
  From := Clear base
  Reached := Clear
  said slot n := slot.Takes n ∧ n.Every χ
  refl {s} _ := .refl s
  trans := Clear.trans
  keeps := Clear.trans
  fits id span h := by
    refine ⟨makes_takes (h.imp fun _ _ h => h.1), Node.every_iff.mpr ⟨hχ _ h.declares, ?_⟩⟩
    intro c hc
    obtain ⟨slot, -, hevery⟩ := h.exists_said hc
    exact hevery

/-- What a failed attempt took is put back, so that no comment is open there either. -/
theorem Clear.rewind {s' : State} (h : Clear s s') : Clear s (s.rewind s') := by
  obtain ⟨ts, hsince, -⟩ := h
  exact ⟨[], hsince.rewind, rfl⟩

/-- What is gathered before the blocks of declarations are known. -/
def gathers (base : State) (hχ : Lenient χ) : PreludeLogic :=
  .along (.clear base hχ) fun _ => steady_clear

/-- Rules and style sheets hold what the blocks of declarations do. -/
def gathersRules (base : State) (hχ : Lenient χ)
    (h : (gathers base hχ).Holds 0 0 declarationBlock (Node.Every χ)) : RuleLogic :=
  .along (.clear base hχ) (fun _ => steady_clear) Clear.rewind
    (fun s hs => ⟨(h s hs).1, declarationBlock_takes s, (h s hs).2⟩) (Node.Every χ)
    fun last id span hns => Node.every_iff.mpr ⟨hχ _ rfl, fun c hc => by
      change c ∈ Element.nodes (_ ++ [.token last]) at hc
      exact (hns c (by simpa using hc)).2⟩

/-- A declaration that is not disabled was read where no comment is open. -/
def Written (base : State) (n : Node) : Prop :=
  ∀ d, n.declaration? = some d → d.opening = none →
    ∃ s, Clear base s ∧ ((declarationAfter none).run.run s).1 = some n

theorem written_of_kind (h : n.kind ≠ .declaration) : Written base n := by
  intro d hd
  rw [Node.declaration?, if_neg h] at hd
  cases hd

theorem lenient_written (base : State) : Lenient (Written base) := fun n h =>
  written_of_kind fun hkind => by
    rw [hkind] at h
    cases h

/-- A token that is there is the one taken last. -/
theorem eat_takes_last {mark : State} (hmark : mark.upcoming.Sound mark.taken.reverse)
    {kind : TokenKind} (hkind : kind ≠ .eof) :
    Keeps (Moved mark) (eat kind) fun o s =>
      Moved mark s ∧ ∀ t ∈ o, t.kind = kind ∧ s.taken.head? = some t := by
  intro s hs
  refine ⟨steady_moved.maintains (eat_holds kind) s hs, ?_⟩
  obtain ⟨ts, hsince⟩ := steady_moved.settle 0 hs
  have hlast : (s.settle 0).upcoming.last.kind = .eof := (hsince.sound hmark).last_kind
  rw [eat_run]
  split
  next h =>
    have hbump : (do return some (← bump) : Parser (Option Token)).run (s.settle 0) =
        (some ((s.settle 0).settle 0).take.1, ((s.settle 0).settle 0).take.2) := rfl
    have hsettle : (s.settle 0).settle 0 = s.settle 0 := by
      rw [State.settle, State.settle, Stream.settle_settle (Nat.le_refl 0)]
    rw [hbump, hsettle]
    generalize s.settle 0 = r at h hlast
    obtain ⟨taken, ⟨tokens, last⟩, place, guard, limit, arena, created, refused⟩ := r
    cases tokens with
    | nil => exact absurd (h.symm.trans hlast) hkind
    | cons t tokens => simpa [State.take, Stream.nth] using h
  next => simp

/-- Tokens were taken since `mark`, the last of them the end of a comment. -/
def Closed (mark s : State) : Prop :=
  Moved mark s ∧ ∃ t, s.taken.head? = some t ∧ t.kind = .closeComment

/-- In a comment a declaration ends with the end of the comment. -/
theorem declarationAfter_closed {mark : State} (hmark : mark.upcoming.Sound mark.taken.reverse)
    (opening : Token) :
    Tries (Moved mark) (declarationAfter (some opening)) (fun _ => Closed mark) (Moved mark) := by
  have hend : ∀ semicolon, Tries (Moved mark) (declarationEnd true semicolon)
      (fun _ => Closed mark) (Moved mark) := by
    intro semicolon
    refine Tries.bind (R := fun _ => Closed mark) ?_ fun t => Tries.ret fun s hs => hs
    intro s hs
    have hkind : TokenKind.closeComment ≠ .eof := by decide
    obtain ⟨hmoved, hlast⟩ := eat_takes_last hmark hkind s hs
    change ((eat .closeComment).run s).1.elim _ _
    cases ho : ((eat .closeComment).run s).1 with
    | none => exact hmoved
    | some t => exact ⟨hmoved, t, (hlast t ho).2, (hlast t ho).1⟩
  have hnode : ∀ es, Tries (Closed mark) (liftM (node .declaration es) : Attempt Node)
      (fun _ => Closed mark) (Moved mark) :=
    fun es => Tries.run fun s hs => ⟨steady_moved.node _ es hs.1, hs.2⟩
  have hrequire (kind : TokenKind) : Maintains (Moved mark) (require kind).run :=
    steady_moved.maintains (require_holds kind)
  refine Tries.bind (hrequire _).tries fun name => Tries.bind (hrequire _).tries fun colon => ?_
  refine Tries.call (steady_moved.maintains (declarationValue_holds _)) fun value => ?_
  refine Tries.call (steady_moved.maintains important_holds) fun mark => ?_
  refine Tries.call (steady_moved.maintains (eat_holds _)) fun semicolon => ?_
  exact Tries.bind (hend _) fun ending => hnode _

theorem declarationAfter_begins (opening : Option Token) :
    Finds (declarationAfter opening) fun n =>
      ∃ es, n.elements = Element.ofToken? opening ++ es := by
  refine Finds.bind (φ := fun _ => True) (fun _ _ _ => trivial) fun name _ => ?_
  refine Finds.bind (φ := fun _ => True) (fun _ _ _ => trivial) fun colon _ => ?_
  refine Finds.skip fun value => Finds.skip fun mark => Finds.skip fun semicolon => ?_
  refine Finds.bind (φ := fun _ => True) (fun _ _ _ => trivial) fun ending _ => ?_
  refine Finds.of_yields fun s => ⟨.token name :: .token colon :: .node value ::
    Element.ofNode? mark ++ Element.ofToken? semicolon ++ ending, ?_⟩
  rw [← List.append_assoc, ← List.append_assoc]
  rfl

/-- Below a declaration there is no other, so that it is enough to know where it comes from. -/
theorem every_written (h : Slot.declaration.Takes n) (hn : Written base n) :
    n.Every (Written base) :=
  Node.every_iff.mpr ⟨hn, fun c hc => (h.plain_children c hc).mono (lenient_written base)⟩

theorem declarationAfter_gathers : (gathers base (lenient_written base)).HoldsTry 0 0
    (declarationAfter none) (Node.Every (Written base)) := by
  intro s hs
  refine ⟨steady_clear.kept.declarationAfter none s (.refl s), fun n hn => ?_⟩
  have hread := @declarationAfter_read none (by simp) s trivial
  rw [Option.mem_def.mp hn] at hread
  exact every_written hread.1 fun _ _ _ => ⟨s, hs, hn⟩

/-- Behind the end of a comment no comment is open. -/
theorem Closed.clear {mark : State} (h : Closed mark s) : Clear mark s := by
  obtain ⟨⟨ts, hts⟩, t, hlast, hkind⟩ := h
  refine ⟨ts, hts, ?_⟩
  rcases List.eq_nil_or_concat ts with rfl | ⟨front, last, rfl⟩
  · rfl
  · rw [hts.taken, List.concat_eq_append, List.reverse_append] at hlast
    obtain rfl : last = t := by simpa using hlast
    rw [List.concat_eq_append, insideAfter_append]
    simp [insideAfter, hkind]

theorem written_of_opening {t : Token} (hn : n.elements = .token t :: es)
    (ht : t.kind = .openComment) : Written base n := by
  intro d hd hnone
  rw [Node.declaration?] at hd
  split at hd
  next =>
    have hsplit : Element.splitToken .openComment n.elements = (some t, es) := by
      simp [hn, Element.splitToken, ht]
    rw [Declaration.ofElements?, hsplit] at hd
    dsimp only at hd
    split at hd
    next =>
      obtain rfl := Option.some.inj hd
      cases hnone
    next => cases hd
  next => cases hd

theorem disabledDeclaration_gathers (hbase : base.upcoming.Sound base.taken.reverse)
    (hs : Clear base s) (hopen : s.upcoming.head.kind = .openComment) :
    Clear s ((attempt disabledDeclaration).run s).2 ∧
      ∀ n ∈ ((attempt disabledDeclaration).run s).1, n.Every (Written base) := by
  have hsound : s.upcoming.Sound s.taken.reverse :=
    let ⟨_, hts, _⟩ := hs
    hts.sound hbase
  have hhead : s.take.1.kind = .openComment := by
    obtain ⟨taken, ⟨tokens, last⟩, place, guard, limit, arena, created, refused⟩ := s
    cases tokens <;> simpa [State.take, Stream.head] using hopen
  have hclosed := declarationAfter_closed hsound s.take.1 s.take.2 ⟨_, .take s⟩
  have hread := @declarationAfter_read (some s.take.1) (by simpa using hhead) s.take.2 trivial
  have hbegins := declarationAfter_begins (some s.take.1) s.take.2
  rw [run_attempt, disabledDeclaration_run]
  cases hrun : ((declarationAfter (some s.take.1)).run.run s.take.2).1 with
  | none =>
    rw [hrun] at hclosed
    obtain ⟨ts, hts⟩ := hclosed
    exact ⟨⟨[], hts.rewind, rfl⟩, by simp⟩
  | some n =>
    rw [hrun] at hclosed hread
    obtain ⟨es, hes⟩ := hbegins n hrun
    refine ⟨Closed.clear hclosed, fun m hm => ?_⟩
    obtain rfl : n = m := by simpa [hrun] using hm
    exact every_written hread.1 (written_of_opening hes hhead)

theorem declaration_gathers (hbase : base.upcoming.Sound base.taken.reverse) :
    (gathers base (lenient_written base)).HoldsTry 0 0 declaration (Node.Every (Written base)) := by
  intro s hs
  rw [declaration_run]
  split
  next hopen =>
    obtain ⟨hclear, hφ⟩ := disabledDeclaration_gathers hbase hs hopen
    rw [commentOrDeclaration_run]
    split
    next n hn =>
      refine ⟨hclear, fun m hm => hφ m ?_⟩
      rwa [hn]
    next =>
      obtain ⟨hclear', hφ'⟩ := declarationAfter_gathers _ (hs.trans hclear)
      exact ⟨hclear.trans hclear', hφ'⟩
  next => exact declarationAfter_gathers s hs

theorem declarationItem_gathers (hbase : base.upcoming.Sound base.taken.reverse) :
    (gathers base (lenient_written base)).HoldsTry 0 0 declarationItem (Node.Every (Written base)) := by
  have hitem : (gathers base (lenient_written base)).HoldsTry 0 0 declarationOrError
      (Node.Every (Written base)) := by
    have hattempt : (gathers base (lenient_written base)).Holds 0 0 (attempt declaration) fun r =>
        ∀ n ∈ r, n.Every (Written base) :=
      Trail.Leads.attempt Clear.rewind (declaration_gathers hbase)
    refine .call hattempt fun r hr => ?_
    cases r with
    | some n => exact .ret (hr n rfl)
    | none =>
      refine .call atBlockEnd_holds fun _ _ => .ite .fail (.lift ?_)
      have herror : Slot.declaration.admits .error = true := rfl
      exact (recover_holds herror _).mono fun _ h => h.2
  intro s hs
  rw [declarationItem_run]
  exact hitem s hs

/-- The block of declarations, for anything that is known of its items and follows for it. -/
theorem declarationBlock_gathers {hχ : Lenient χ} {φ : Node → Prop}
    (hitem : (gathers base hχ).HoldsTry 0 0 declarationItem φ)
    (hblock : ∀ id span es, (∀ c ∈ Element.nodes es, φ c) →
      (Node.mk id .declarationList span es).Every χ) :
    (gathers base hχ).Holds 0 0 declarationBlock (Node.Every χ) := by
  have herror : Slot.declarationBlock.admits .error = true := rfl
  refine (gathers base hχ).enter (fun _ => ?_) ((recoverBlock_holds herror).mono fun _ h => h.2)
  refine (gathers base hχ).bind (gathers base hχ).bump fun opening _ => ?_
  refine (gathers base hχ).bind (ValueLogic.Holds.many hitem) fun ns hns => ?_
  refine (gathers base hχ).bind (eat_holds _) fun closing _ => ?_
  refine (gathers base hχ).bind ((gathers base hχ).exit (d := 0)) fun _ _ s hs => ?_
  refine ⟨(steady_clear.kept.node _ _ s (.refl s)), hblock _ _ _ fun c hc => hns c ?_⟩
  simpa using hc

/-- Every declaration of a style sheet is disabled, or it was read where no comment is open. -/
theorem styleSheet_written (hbase : base.upcoming.Sound base.taken.reverse) :
    (Trail.clear base (lenient_written base)).Leads styleSheet (Node.Every (Written base)) := by
  have hblock : (gathers base (lenient_written base)).Holds 0 0 declarationBlock
      (Node.Every (Written base)) := by
    refine declarationBlock_gathers (declarationItem_gathers hbase) fun id span es hes => ?_
    exact Node.every_iff.mpr
      ⟨written_of_kind (show NodeKind.declarationList ≠ .declaration by decide), hes⟩
  exact styleSheet_holds (L := gathersRules base (lenient_written base) hblock) (d := 0)

end Grammar

end CssTree
