import CssTree.Grammar.Declaration
import CssTree.Proofs.Grammar.Value
import CssTree.Proofs.Token.Settle

namespace CssTree.Grammar

variable {mark : State} {es : List Element} {β : Type} {F : State → Prop}

theorem Keeps.atBlockEnd {f : Bool → Parser β} {Q : β → State → Prop}
    (htrue : Keeps (Reads mark es []) (f true) Q)
    (hfalse : ∀ t, t.kind ≠ .closeBrace → Keeps (Reads mark es [t]) (f false) Q) :
    Keeps (Reads mark es []) (Grammar.atBlockEnd >>= f) Q := by
  refine Keeps.peekKind (f := fun kind => f (kind = .closeBrace || kind = .eof))
    (htrue.pre fun s hs => hs.1) fun t ht => ?_
  by_cases hclose : t.kind = .closeBrace
  · rw [hclose]
    exact htrue.pre fun s hs => hs.nil
  · have hother : (decide (t.kind = .closeBrace) || decide (t.kind = .eof)) = false := by
      simp [hclose, ht]
    rw [hother]
    exact hfalse t hclose

theorem Tries.atBlockEnd {f : Bool → Attempt β} {Q : β → State → Prop}
    (htrue : Tries (Reads mark es []) (f true) Q F)
    (hfalse : ∀ t, t.kind ≠ .closeBrace → Tries (Reads mark es [t]) (f false) Q F) :
    Tries (Reads mark es []) (liftM Grammar.atBlockEnd >>= f) Q F := Keeps.atBlockEnd htrue hfalse

theorem declarationEnd_tries (disabled semicolon : Bool) :
    Tries (Reads mark es []) (declarationEnd disabled semicolon) (fun l s =>
      ∃ o : Option Token, Reads mark (es ++ l) [] s ∧ l = Element.ofToken? o ∧
        ∀ t ∈ o, t.kind = .closeComment) (Lost mark) := by
  unfold declarationEnd
  split
  next =>
    refine Tries.require (by decide) (fun s hs => hs.lost) fun t ht => Tries.ret fun s hs => ?_
    exact ⟨some t, hs, rfl, by simpa using ht⟩
  next =>
    have hnone : Tries (Reads mark es []) (pure [] : Attempt (List Element)) (fun l s =>
        ∃ o : Option Token, Reads mark (es ++ l) [] s ∧ l = Element.ofToken? o ∧
          ∀ t ∈ o, t.kind = .closeComment) (Lost mark) :=
      Tries.ret fun s hs => ⟨none, by simpa using hs, rfl, by simp⟩
    split
    next => exact hnone
    next => exact Tries.atBlockEnd hnone fun t _ => Tries.fail fun s hs => hs.lost

/-- A declaration keeps its tokens, and they stand in the roles of a declaration. -/
theorem declarationAfter_tries {opening : Option Token}
    (hopening : ∀ t ∈ opening, t.kind = .openComment) :
    Tries (Reads mark (es ++ Element.ofToken? opening) []) (declarationAfter opening)
      (fun n s => Reads mark (es ++ [.node n]) [] s ∧ n.tokens ≠ []) (Lost mark) := by
  refine Tries.require (by decide) (fun s hs => hs.lost) fun name hname => ?_
  refine Tries.require (by decide) (fun s hs => hs.lost) fun colon _ => ?_
  refine Tries.call (declarationValue_keeps _) fun value => ?_
  refine Tries.call important_keeps fun important => ?_
  refine Tries.eat (by decide) fun semicolon hsemicolon => ?_
  refine Tries.bind (declarationEnd_tries _ _) fun ending => Tries.of_exists fun closing => ?_
  rintro s ⟨hs, rfl, hclosing⟩
  let d : Declaration := ⟨opening, name, colon, value, important, semicolon, closing⟩
  have hd : d.Formed := ⟨hopening, by simp [d, hname], hsemicolon, hclosing⟩
  have hnode : Tries (Reads mark (es ++ d.elements) []) (liftM (node .declaration d.elements))
      (fun n s => Reads mark (es ++ [.node n]) [] s ∧ n.tokens ≠ []) (Lost mark) :=
    Tries.run ((node_keeps _ rfl fun _ _ => Node.formed_of_declaration rfl hd rfl).post
      fun _ _ h => ⟨h.1, tokens_ne_nil_of_mem (t := name) h.2 (by simp [d])⟩)
  have helements : d.elements = Element.ofToken? opening ++ .token name :: .token colon ::
      .node value :: Element.ofNode? important ++ Element.ofToken? semicolon ++
      Element.ofToken? closing := by simp [Declaration.elements, d]
  rw [helements] at hnode
  exact hnode s (by simpa using hs)

/-- A declaration in a comment. -/
def disabledDeclaration : Attempt Node := do declarationAfter (some (← bumpRaw))

theorem disabledDeclaration_tries :
    Tries (fun s => Reads mark es [] s ∧ s.upcoming.head.kind = .openComment) disabledDeclaration
      (fun n s => Reads mark (es ++ [.node n]) [] s ∧ n.tokens ≠ []) (Lost mark) := by
  refine Tries.call_seq (bumpRaw_keeps (by decide)) fun opening hopening => ?_
  have hcomment : ∀ t ∈ some opening, t.kind = .openComment := by simpa using hopening
  exact declarationAfter_tries hcomment

theorem declaration_tries :
    Tries (Reads mark es []) declaration
      (fun n s => Reads mark (es ++ [.node n]) [] s ∧ n.tokens ≠ []) (Lost mark) := by
  have hplain : Tries (Reads mark es []) (declarationAfter none)
      (fun n s => Reads mark (es ++ [.node n]) [] s ∧ n.tokens ≠ []) (Lost mark) :=
    (declarationAfter_tries (by simp)).pre fun s hs => by simpa using hs
  refine Tries.rawKind fun kind => ?_
  split
  next hkind =>
    rw [hkind]
    exact Tries.attempt_from (fun upcoming => upcoming.head.kind = .openComment) (fun n => [.node n])
      (fun n => n.tokens ≠ []) (fun mark => disabledDeclaration_tries)
      (fun n hn => Tries.ret fun s hs => ⟨hs, hn⟩) hplain
  next => exact hplain.pre fun s hs => hs.1

/-- A declaration, or what stands in its place, unless the block ends here. -/
def declarationOrError : Attempt Node := do
  match ← OptionT.lift (attempt declaration) with
  | some n => return n
  | none => if ← Grammar.atBlockEnd then failure else recover ⟨[.closeBrace], [.semicolon], false⟩

/-- Only in front of the end of a block there is no declaration. -/
theorem declarationItem_tries :
    Tries (Reads mark es []) declarationItem (fun n => Reads mark (es ++ [.node n]) [])
      (Reads mark es []) := by
  have hitem : Tries (Reads mark es []) declarationOrError
      (fun n => Reads mark (es ++ [.node n]) []) (Reads mark es []) := by
    refine Tries.attempt (fun n => [.node n]) (fun _ => True) (fun mark =>
      declaration_tries.post fun n s hs => ⟨hs.1, trivial⟩) (fun n _ => Tries.ret fun s hs => hs) ?_
    refine Tries.atBlockEnd (Tries.fail fun s hs => hs) fun t _ => ?_
    exact Tries.run ((recover_keeps _).pre fun s hs => hs.nil)
  refine Tries.call (R := fun b s => Reads mark es [] s) ?_ fun ended => ?_
  · refine Keeps.rawKind fun kind => ?_
    split
    next => exact Keeps.ret fun s hs => hs.1
    next =>
      refine Keeps.pre (fun s hs => hs.1) ?_
      exact Keeps.atBlockEnd (f := fun b => pure b) (Keeps.ret fun s hs => hs)
        fun t _ => Keeps.ret fun s hs => hs.nil
  · split
    next => exact Tries.fail fun s hs => hs
    next => exact hitem

section Items

variable {s : State}

/-- A declaration where a comment starts. -/
def commentOrDeclaration : Attempt Node := do
  match ← OptionT.lift (attempt disabledDeclaration) with
  | some n => return n
  | none => declarationAfter none

theorem declaration_run (s : State) : declaration.run.run s =
    (if s.upcoming.head.kind = .openComment then commentOrDeclaration
      else declarationAfter none).run.run s := rfl

theorem commentOrDeclaration_run (s : State) : commentOrDeclaration.run.run s =
    (match ((attempt disabledDeclaration).run s).1 with
      | some n => pure n
      | none => declarationAfter none : Attempt Node).run.run
        ((attempt disabledDeclaration).run s).2 := rfl

theorem disabledDeclaration_run (s : State) : disabledDeclaration.run.run s =
    (declarationAfter (some s.take.1)).run.run s.take.2 := rfl

theorem rewind_self (s : State) : s.rewind s = s := by
  simp [State.rewind, Stream.prepend]

theorem settle_of_head (h : s.upcoming.head.kind ≠ .openComment) : s.settle 0 = s := by
  rw [State.settle, (Stream.settled_of_head h).settle_eq]

/-- At the end of a block there is no declaration. -/
theorem declaration_end (hopen : s.upcoming.head.kind ≠ .openComment)
    (hident : s.upcoming.head.kind ≠ .ident) : declaration.run.run s = (none, s) := by
  have hrequire : (require .ident).run.run s = (none, s) := by
    change (eat .ident).run s = _
    rw [eat_run, settle_of_head hopen, ← Stream.head_eq_nth, if_neg hident]
    rfl
  change (if s.upcoming.head.kind = .openComment then _ else declarationAfter none :
    Attempt Node).run.run s = _
  rw [if_neg hopen]
  exact run_bind_none hrequire

theorem atBlockEnd_run (hopen : s.upcoming.head.kind ≠ .openComment) : Grammar.atBlockEnd.run s =
    (s.upcoming.head.kind = .closeBrace || s.upcoming.head.kind = .eof, s) := by
  have hlook : Grammar.atBlockEnd.run s = (((s.settle 0).upcoming.nth 0).kind = .closeBrace ||
    ((s.settle 0).upcoming.nth 0).kind = .eof, s.settle 0) := rfl
  rw [hlook, settle_of_head hopen, ← Stream.head_eq_nth]

/-- What stands in place of a declaration, unless the block ends here. -/
def errorInBlock : Attempt Node := do
  if ← Grammar.atBlockEnd then failure else recover ⟨[.closeBrace], [.semicolon], false⟩

theorem errorInBlock_run (s : State) : errorInBlock.run.run s =
    (if ((s.settle 0).upcoming.nth 0).kind = .closeBrace ||
        ((s.settle 0).upcoming.nth 0).kind = .eof then failure
      else recover ⟨[.closeBrace], [.semicolon], false⟩ : Attempt Node).run.run (s.settle 0) := rfl

theorem lift_attempt_run {o : Option Node} {s' : State} (h : (attempt declaration).run s = (o, s')) :
    (OptionT.lift (attempt declaration)).run.run s = (some o, s') := by
  simp only [OptionT.run_lift, StateT.run_bind, h]
  rfl

theorem declarationOrError_read {n : Node} (h : ((attempt declaration).run s).1 = some n) :
    declarationOrError.run.run s = (some n, ((attempt declaration).run s).2) := by
  generalize hr : (attempt declaration).run s = r at h ⊢
  obtain ⟨o, s'⟩ := r
  subst h
  exact run_bind_some (lift_attempt_run hr)

theorem declarationOrError_lost (h : ((attempt declaration).run s).1 = none) :
    declarationOrError.run.run s = errorInBlock.run.run ((attempt declaration).run s).2 := by
  generalize hr : (attempt declaration).run s = r at h ⊢
  obtain ⟨o, s'⟩ := r
  subst h
  exact run_bind_some (lift_attempt_run hr)

theorem declarationOrError_end
    (hend : s.upcoming.head.kind = .closeBrace ∨ s.upcoming.head.kind = .eof) :
    declarationOrError.run.run s = (none, s) := by
  have hopen : s.upcoming.head.kind ≠ .openComment := by
    rcases hend with hkind | hkind <;> simp [hkind]
  have hident : s.upcoming.head.kind ≠ .ident := by
    rcases hend with hkind | hkind <;> simp [hkind]
  have hattempt : (attempt declaration).run s = (none, s) := by
    rw [run_attempt, declaration_end hopen hident]
    simp [rewind_self]
  rw [declarationOrError_lost (by rw [hattempt]), hattempt, errorInBlock_run,
    settle_of_head hopen, ← Stream.head_eq_nth, if_pos (by simpa using hend)]
  rfl

/-- The look at the end of the block that comes first only saves an attempt. -/
theorem declarationItem_run (s : State) :
    declarationItem.run.run s = declarationOrError.run.run s := by
  have hitem : declarationItem.run.run s = (if (atItemsEnd.run s).1 then failure
      else declarationOrError : Attempt Node).run.run (atItemsEnd.run s).2 := rfl
  have hend : atItemsEnd.run s = (if s.upcoming.head.kind = .openComment then return false
      else Grammar.atBlockEnd : Parser Bool).run s := rfl
  rw [hitem, hend]
  by_cases hopen : s.upcoming.head.kind = .openComment
  · rw [if_pos hopen]
    rfl
  · rw [if_neg hopen, atBlockEnd_run hopen]
    dsimp only
    split
    next hclose =>
      rw [declarationOrError_end (by simpa using hclose)]
      rfl
    next => rfl

end Items

/-- Nodes in braces. -/
theorem formed_block {kind : NodeKind} {listKind : ListKind} (opening : Token) (ns : List Node)
    (closing : Option Token) (hkind : kind.listShape? = some (listKind, 1))
    (hlist : listKind ≠ .selectors) (id : NodeId) (span : Span) :
    (Node.mk id kind span
      (.token opening :: ns.map .node ++ Element.ofToken? closing)).Formed := by
  have hl : (⟨listKind, [opening], .ofList ns, closing.toList⟩ : Listing).Formed listKind 1 := by
    refine ⟨rfl, rfl, fun _ pair hp => ?_, fun h => absurd h hlist⟩
    obtain ⟨n, -, rfl⟩ := List.mem_map.mp hp
    rfl
  refine Node.formed_of_listing hkind hl (Listing.endsSeparated_ofList ns) ?_
  rw [Listing.elements_ofList]
  rfl

theorem declarationBlock_known {t : Token} :
    Keeps (Reads mark es [t]) declarationBlock fun n s =>
      Reads mark (es ++ [.node n]) [] s ∧ n.tokens ≠ [] := by
  refine Keeps.bind enter_keeps fun entered => ?_
  split
  next =>
    refine Keeps.bump (Keeps.bind (many_keeps (fun n => [.node n]) (fun _ =>
      declarationItem_tries) _) fun ns => ?_)
    refine Keeps.seq (eat_keeps (by decide)) fun closing _ => Keeps.bind exit_keeps fun _ => ?_
    refine (node_keeps _ ?_ (formed_block t ns closing rfl (by decide))).post fun _ _ h =>
      ⟨h.1, tokens_ne_nil_of_token h.2⟩
    simp [← List.map_eq_flatMap]
  next => exact recoverBlock_known

end CssTree.Grammar
