import CssTree.Proofs.Grammar.Balance

namespace CssTree.Grammar

variable {mark s s' : State} {t : Token} {α β : Type}

/-- What is kept wherever tokens are taken, those that start comments among them. -/
def Carried (I : State → Prop) : Prop := ∀ ⦃s s'⦄, Moved s s' → I s → I s'

theorem Carried.steady {I : State → Prop} (hI : Carried I) : Steady I :=
  .of_since fun h _ hs => hI ⟨_, h⟩ hs

theorem carried_moved : Carried (Moved mark) := fun _ _ h hs => hs.trans h

theorem carried_advances : Carried (Advances mark) := fun _ _ h hs => hs.trans h

/-- Since the state `mark` tokens were taken of a text that has an end. -/
structure Going (mark s : State) : Prop where
  moved : Moved mark s
  ended : s.upcoming.last.kind = .eof

theorem carried_going : Carried (Going mark) := by
  intro s s' h hs
  refine ⟨hs.moved.trans h, ?_⟩
  obtain ⟨ts, hts⟩ := h
  rw [hts.last_kind, hs.ended]

theorem Going.refl (h : s.upcoming.last.kind = .eof) : Going s s := ⟨⟨[], .refl s⟩, h⟩

/-- The same where the next token is known. -/
structure Facing (mark : State) (t : Token) (s : State) : Prop extends Going mark s where
  starts : s.upcoming.Starts [t]
  kind : t.kind ≠ .eof

/-- Where no token is taken, the next one stays the next one. -/
theorem Facing.idle (h : Facing mark t s) (h' : Since s [] s') : Facing mark t s' :=
  ⟨carried_going ⟨_, h'⟩ h.toGoing, h'.starts h.starts, h.kind⟩

theorem Facing.settle_eq (h : Facing mark t s) : s.settle 0 = s := by
  rw [State.settle, h.starts.settle_eq Nat.one_pos]

theorem Facing.ahead (h : Facing mark t s) : s.ahead = t.kind := by
  show ((s.settle 0).upcoming.nth 0).kind = t.kind
  rw [h.settle_eq, h.starts.nth Nat.one_pos]
  rfl

/-- The token that is looked at is the next one, if it is not the end of the text. -/
theorem Going.facing (h : Going mark s) (hkind : s.ahead ≠ .eof) :
    Facing mark ((s.settle 0).upcoming.nth 0) (s.settle 0) := by
  have hgoing := carried_going ⟨_, .settle s 0⟩ h
  exact ⟨hgoing, (Stream.starts_nil s.upcoming).settle_nth hgoing.ended hkind, hkind⟩

/-- What is known of a state in front of a token or a block is `P`, and behind it `I`. -/
structure Leads (P I : State → Prop) : Prop where
  carried : Carried I
  nth : ∀ n, Maintains P (Grammar.nth n)
  enter : Maintains P Grammar.enter
  bump : Keeps P Grammar.bump fun _ => I
  balanced : Keeps P Grammar.balanced fun _ => I

theorem Carried.leads {I : State → Prop} (hI : Carried I) : Leads I I where
  carried := hI
  nth := hI.steady.nth
  enter := hI.steady.kept.enter
  bump := hI.steady.kept.bump
  balanced := hI.steady.maintains balanced_holds

/-- Whatever starts with the next token takes it. -/
theorem facing_leads : Leads (Facing mark t) (Advances mark) where
  carried := carried_advances
  nth n s h := h.idle (.settle s n)
  enter s h := h.idle (.enter s)
  bump s h := h.moved.advances (advances_of_bump h.ended (h.ahead ▸ h.kind))
  balanced s h := by
    obtain ⟨hsince, -, hbalanced⟩ := balanced_balances h.ended (h.ahead ▸ h.kind)
    exact h.moved.advances ⟨_, hbalanced.ne_nil, hsince⟩

section Carried

variable {P I : State → Prop}

/-- An attempt that fails puts back all that it took. -/
theorem attempt_carried (hI : Carried I) {p : Attempt α}
    (hp : ∀ {mark}, Maintains (Moved mark) p.run) : Maintains I (attempt p) := by
  intro s hs
  obtain ⟨ts, hts⟩ := hp s ⟨[], .refl s⟩
  rw [run_attempt]
  split
  next => exact hI ⟨[], hts.rewind⟩ hs
  next => exact hI ⟨ts, hts⟩ hs

theorem bumpRaw_carried (hI : Carried I) : Maintains I bumpRaw := fun s hs => hI ⟨_, .take s⟩ hs

theorem disabledDeclaration_carried (hI : Carried I) : Maintains I disabledDeclaration.run :=
  .call (bumpRaw_carried hI) fun t => hI.steady.kept.declarationAfter (some t)

theorem declaration_carried (hI : Carried I) : Maintains I declaration.run := by
  have hraw : Maintains I rawKind := fun _ hs => hs
  have hplain := hI.steady.kept.declarationAfter none
  refine .call hraw fun kind => .try_ite ?_ hplain
  refine .call (attempt_carried hI (disabledDeclaration_carried carried_moved)) fun disabled => ?_
  cases disabled with
  | none => exact hplain
  | some n => exact .ret

theorem declarationItem_carried (hI : Carried I) : Maintains I declarationItem.run := by
  have hraw : Maintains I rawKind := fun _ hs => hs
  have hblockEnd : Maintains I atBlockEnd := hI.steady.maintains atBlockEnd_holds
  have hend : Maintains I atItemsEnd := hraw.bind fun kind => .ite .ret hblockEnd
  refine .call hend fun ended => .try_ite .fail ?_
  refine .call (attempt_carried hI (declaration_carried carried_moved)) fun parsed => ?_
  cases parsed with
  | some n => exact .ret
  | none => exact .call hblockEnd fun ended => .try_ite .fail (hI.steady.kept.recover _).lift

theorem declarationBlock_leads (h : Leads P I) : Keeps P declarationBlock fun _ => I := by
  have hs := h.carried.steady
  refine Keeps.bind h.enter fun entered => ?_
  split
  next =>
    refine Keeps.bind h.bump fun opening => ?_
    refine (declarationItem_carried h.carried).many.bind fun declarations => ?_
    refine Maintains.bind (hs.maintains (eat_holds _)) fun closing => ?_
    exact hs.kept.exit.bind fun _ => hs.kept.node _ _
  next => exact Keeps.bind h.balanced fun ts => hs.kept.node _ _

/-- Steps take tokens, wherever they start. -/
def Trail.moved : Trail where
  From _ := True
  Reached := Moved
  said _ _ := True
  refl {s} _ := ⟨[], .refl s⟩
  trans := Moved.trans
  keeps _ _ := trivial
  fits _ _ _ := trivial

/-- All that the grammar does is to take tokens and to put them back. -/
def moves : RuleLogic :=
  .along .moved (fun _ => steady_moved) (fun ⟨_, hts⟩ => ⟨[], hts.rewind⟩)
    (fun s _ => ⟨declarationBlock_leads carried_moved.leads s ⟨[], .refl s⟩, trivial⟩)
    (fun _ => True) fun _ _ _ _ => trivial

theorem Carried.maintains (hI : Carried I) {p : Parser α} {φ : α → Prop}
    (h : moves.Holds 0 0 p φ) : Maintains I p := fun s hs => hI (h s trivial).1 hs

/-- A step that cannot fail before one that can, with what it leads to on either way. -/
theorem Keeps.call {R : α → State → Prop} {Q : Option β → State → Prop} {p : Parser α}
    {f : α → Attempt β} (hp : Keeps P p R) (hf : ∀ a, Keeps (R a) (f a).run Q) :
    Keeps P ((liftM p : Attempt α) >>= f).run Q := Keeps.bind hp hf

/-- An at-rule takes its keyword, and goes on whatever follows. -/
theorem atRule_leads (h : Leads P I) {rules : Bool → Parser Node}
    (hrules : ∀ keyframes, moves.Holds 0 0 (rules keyframes) fun _ => True) :
    Keeps P (atRule rules).run fun _ => I := by
  obtain ⟨after, heq, hafter⟩ := atRule_after hrules
  rw [heq]
  exact Keeps.call (h.nth 0) fun name => Keeps.call h.bump fun keyword =>
    h.carried.maintains (hafter name keyword)

end Carried

section Advances

variable {P F : State → Prop}

namespace Keeps

theorem look {f : TokenKind → Parser β} {Q : β → State → Prop}
    (hlast : Keeps (Going mark) (f .eof) Q)
    (hnext : ∀ t, Keeps (Facing mark t) (f t.kind) Q) :
    Keeps (Going mark) (Grammar.peekKind >>= f) Q := by
  intro s hs
  have hpeek : Grammar.peekKind.run s = (s.ahead, s.settle 0) := rfl
  rw [run_bind_of hpeek]
  by_cases hkind : s.ahead = .eof
  · rw [hkind]
    exact hlast _ (carried_going ⟨_, .settle s 0⟩ hs)
  · exact hnext _ _ (hs.facing hkind)

theorem look_known {f : TokenKind → Parser β} {Q : β → State → Prop}
    (hf : Keeps (Facing mark t) (f t.kind) Q) :
    Keeps (Facing mark t) (Grammar.peekKind >>= f) Q := by
  intro s hs
  have hpeek : Grammar.peekKind.run s = (s.ahead, s.settle 0) := rfl
  rw [run_bind_of hpeek, hs.ahead, hs.settle_eq]
  exact hf s hs

end Keeps

namespace Tries

theorem look {f : TokenKind → Attempt β} {Q : β → State → Prop}
    (hlast : Tries (Going mark) (f .eof) Q F)
    (hnext : ∀ t, Tries (Facing mark t) (f t.kind) Q F) :
    Tries (Going mark) (liftM Grammar.peekKind >>= f) Q F := Keeps.look hlast hnext

theorem look_known {f : TokenKind → Attempt β} {Q : β → State → Prop}
    (hf : Tries (Facing mark t) (f t.kind) Q F) :
    Tries (Facing mark t) (liftM Grammar.peekKind >>= f) Q F := Keeps.look_known hf

theorem lookBlockEnd {f : Bool → Attempt β} {Q : β → State → Prop}
    (htrue : Tries (Going mark) (f true) Q F)
    (hfalse : ∀ t, t.kind ≠ .closeBrace → Tries (Facing mark t) (f false) Q F) :
    Tries (Going mark) (liftM Grammar.atBlockEnd >>= f) Q F := by
  refine Keeps.look (f := fun kind => (f (kind = .closeBrace || kind = .eof)).run) htrue fun t => ?_
  -- In front of a brace that closes, that the token is known is forgotten.
  by_cases hclose : t.kind = .closeBrace
  · rw [hclose]
    exact htrue.pre fun _ hs => hs.toGoing
  · intro s hs
    have hkind : (t.kind = .closeBrace || t.kind = .eof) = false := by simp [hclose, hs.kind]
    rw [hkind]
    exact hfalse t hclose s hs

/-- A step that may fail after one that takes a token. -/
theorem of_maintains {I : State → Prop} {p : Attempt α} (h : Maintains I p.run) :
    Tries I p (fun _ => I) fun _ => True := by
  intro s hs
  cases hr : (p.run.run s).1 with
  | none => trivial
  | some a => exact h s hs

end Tries

/-- A failed attempt leaves what was in front of it, and one that does not fail takes a token. -/
theorem attempt_advances {G : State → Prop} {p : Attempt α}
    (hidle : ∀ {s s'}, P s → Since s [] s' → G s')
    (hmoves : ∀ {mark}, Maintains (Moved mark) p.run)
    (hp : Tries P p (fun _ => Advances mark) fun _ => True) :
    Keeps P (attempt p) fun r s => r.elim (G s) fun _ => Advances mark s := by
  intro s hs
  have hrun := hp s hs
  obtain ⟨ts, hts⟩ := hmoves s ⟨[], .refl s⟩
  rw [run_attempt]
  cases hr : (p.run.run s).1 with
  | none => exact hidle hs hts.rewind
  | some a =>
    rw [hr] at hrun
    rw [if_neg (by simp), hr]
    exact hrun

theorem recover_advances {r : Recovery} (ht : t.kind ∉ r.before) :
    Keeps (Facing mark t) (recover r) fun _ => Advances mark := by
  intro s hs
  obtain ⟨hsince, -, hne⟩ := recover_halts hs.ended r
  exact hs.moved.advances ⟨_, hne (hs.ahead ▸ hs.kind) (hs.ahead ▸ ht), hsince⟩

theorem recoverBlock_advances : Keeps (Facing mark t) recoverBlock fun _ => Advances mark :=
  Keeps.bind facing_leads.balanced fun _ => carried_advances.steady.kept.node _ _

theorem componentWithin_advances (depth : Nat) :
    Keeps (Facing mark t) (componentWithin depth) fun _ => Advances mark := by
  have hs : Steady (Advances mark) := carried_advances.steady
  have htoken : Keeps (Facing mark t) (do node .preservedToken [.token (← bump)])
      fun _ => Advances mark := Keeps.bind facing_leads.bump fun _ => hs.kept.node _ _
  cases depth with
  | zero => exact htoken
  | succ depth =>
    refine Keeps.look_known ?_
    split
    next => exact htoken
    next close _ =>
      refine Keeps.bind facing_leads.enter fun entered => ?_
      split
      next =>
        refine Keeps.bind facing_leads.bump fun opening => ?_
        have hvalues := hs.maintains (valuesOf_holds (componentWithin_holds depth) [close] false)
        refine hvalues.bind fun values => Maintains.bind (hs.maintains (eat_holds close)) fun _ => ?_
        exact hs.kept.exit.bind fun _ => hs.kept.node _ _
      next => exact recoverBlock_advances

theorem atImportant_facing : Maintains (Facing mark t) atImportant :=
  Maintains.bind (facing_leads.nth 0) fun _ =>
    .ite (Maintains.bind (facing_leads.nth 1) fun _ => .ret) .ret

/-- A turn of a list of values takes a token, or the list ends. -/
theorem valueItem_advances {component : Parser Node} (stop : List TokenKind) (important : Bool)
    (hcomponent : ∀ t, Keeps (Facing mark t) component fun _ => Advances mark) :
    Tries (Going mark) (valueItem component stop important) (fun _ => Advances mark)
      (Going mark) := by
  refine Tries.look (Tries.fail fun _ hs => hs) fun t => ?_
  split
  next => exact Tries.fail fun _ hs => hs.toGoing
  next =>
    split
    next =>
      refine Tries.call atImportant_facing fun ended => ?_
      split
      next => exact Tries.fail fun _ hs => hs.toGoing
      next => exact Tries.run (hcomponent t)
    next => exact Tries.run (hcomponent t)

theorem require_advances {kind : TokenKind} (hkind : kind ≠ .eof) :
    Tries (Going mark) (require kind) (fun _ => Advances mark) fun _ => True := by
  refine Keeps.look (f := fun k => if k = kind then do return some (← bump) else return none)
    ?_ fun t => ?_
  · rw [if_neg hkind.symm]
    exact Keeps.ret fun _ _ => trivial
  · split
    next => exact Keeps.bind facing_leads.bump fun _ => Keeps.ret fun _ h => h
    next => exact Keeps.ret fun _ _ => trivial

theorem declarationAfter_advances (opening : Option Token) :
    Tries (Going mark) (declarationAfter opening) (fun _ => Advances mark) fun _ => True := by
  have hs : Steady (Advances mark) := carried_advances.steady
  refine Tries.bind (require_advances (by decide)) fun name => Tries.of_maintains ?_
  have hcolon : Maintains (Advances mark) (require .colon).run := hs.maintains (require_holds _)
  have hend (disabled semicolon : Bool) : Maintains (Advances mark)
      (declarationEnd disabled semicolon).run := hs.maintains (declarationEnd_holds _ _)
  refine hcolon.try_bind fun colon => .call (hs.maintains (declarationValue_holds _)) fun value => ?_
  refine .call (hs.maintains important_holds) fun mark => ?_
  refine .call (hs.maintains (eat_holds _)) fun semicolon => ?_
  exact (hend _ _).try_bind fun ending => (hs.kept.node _ _).lift

/-- Where a comment starts, at least the start of the comment is taken. -/
theorem disabledDeclaration_advances :
    Tries (fun s => Going mark s ∧ s.upcoming.head.kind = .openComment) disabledDeclaration
      (fun _ => Advances mark) fun _ => True := by
  refine Tries.call (R := fun _ => Advances mark) ?_ fun t =>
    Tries.of_maintains (carried_advances.steady.kept.declarationAfter (some t))
  rintro s ⟨hgoing, hopen⟩
  -- The end of the text starts no comment, so that there is a token to take.
  refine hgoing.moved.advances ⟨_, fun hnil => ?_, .take s⟩
  have htokens : s.upcoming.tokens = [] := by simpa using hnil
  rw [Stream.head, htokens, List.headD_nil, hgoing.ended] at hopen
  cases hopen

theorem declaration_advances :
    Tries (Going mark) declaration (fun _ => Advances mark) fun _ => True := by
  refine Tries.call (R := fun kind s => Going mark s ∧ s.upcoming.head.kind = kind)
    (fun s hs => ⟨hs, rfl⟩) fun kind => ?_
  split
  next hkind =>
    rw [hkind]
    refine Keeps.call (attempt_advances (G := Going mark)
      (fun h h' => carried_going ⟨_, h'⟩ h.1) (disabledDeclaration_carried carried_moved)
      disabledDeclaration_advances) fun disabled => ?_
    cases disabled with
    | none => exact declarationAfter_advances none
    | some n => exact Tries.ret fun _ h => h
  next => exact (declarationAfter_advances none).pre fun _ h => h.1

/-- A turn of a block of declarations takes a token, or the block ends. -/
theorem declarationItem_advances :
    Tries (Going mark) declarationItem (fun _ => Advances mark) (Going mark) := by
  have hend : Maintains (Going mark) atItemsEnd :=
    Maintains.bind (fun _ hs => hs) fun kind =>
      .ite .ret (carried_going.steady.maintains atBlockEnd_holds)
  refine Tries.call hend fun ended => ?_
  split
  next => exact Tries.fail fun _ hs => hs
  next =>
    refine Keeps.call (attempt_advances (G := Going mark) (fun h h' => carried_going ⟨_, h'⟩ h)
      (declaration_carried carried_moved) declaration_advances) fun parsed => ?_
    cases parsed with
    | some n => exact Tries.ret fun _ h => h
    | none =>
      refine Tries.lookBlockEnd (Tries.fail fun _ hs => hs) fun t ht => ?_
      exact Tries.run (recover_advances (by simpa using ht))

theorem requireBlock_advances {block : Parser Node}
    (h : ∀ t, Keeps (Facing mark t) block fun _ => Advances mark) :
    Tries (Going mark) (requireBlock block) (fun _ => Advances mark) fun _ => True := by
  refine Tries.look (Tries.fail fun _ _ => trivial) fun t => ?_
  split
  next => exact Tries.run (h t)
  next => exact Tries.fail fun _ _ => trivial

/-- However its selectors are read, a rule takes the start of its block. -/
theorem ruleWith_advances {kind : NodeKind} {selectors : Attempt Node}
    (h : Maintains (Going mark) selectors.run) :
    Tries (Going mark) (ruleWith kind selectors) (fun _ => Advances mark) fun _ => True := by
  refine Tries.bind (Tries.of_maintains h) fun selectors => ?_
  refine Tries.bind (requireBlock_advances fun t => declarationBlock_leads facing_leads)
    fun block => ?_
  exact Tries.run (carried_advances.steady.kept.node _ _)

theorem anyRule_advances {item : Bool → Parser Node} (keyframes : Bool)
    (h : ∀ keyframes, moves.Holds 0 0 (item keyframes) fun _ => True) :
    Tries (Facing mark t) (anyRule keyframes item) (fun _ => Advances mark) fun _ => True := by
  have hgoing : Steady (Going mark) := carried_going.steady
  refine Tries.look_known ?_
  split
  next =>
    have hblock (keyframes : Bool) := blockOf_holds (L := moves) (d := 0) (h keyframes)
    refine Keeps.post (atRule_leads facing_leads hblock) fun r s hs => ?_
    cases r with
    | none => trivial
    | some n => exact hs
  next =>
    refine Tries.pre (fun _ hs => hs.toGoing) ?_
    split
    next => exact ruleWith_advances (hgoing.maintains keyframeSelectors_holds)
    next => exact ruleWith_advances (hgoing.maintains selectorList_holds)

/-- A rule, and what stands in the place of one, takes the token in front of which capture would
not stop. -/
theorem ruleWithin_advances (keyframes nested : Bool) (depth : Nat)
    (ht : t.kind ∉ (ruleRecovery nested).before) :
    Keeps (Facing mark t) (ruleWithin keyframes nested depth) fun _ => Advances mark := by
  cases depth with
  | zero => exact recover_advances ht
  | succ depth =>
    rw [ruleWithin_succ]
    refine Keeps.bind (attempt_advances (G := Facing mark t) (fun h h' => h.idle h')
      (carried_moved.maintains (anyRule_holds keyframes fun _ => ruleWithin_holds _ _ _))
      (anyRule_advances keyframes fun _ => ruleWithin_holds _ _ _)) fun parsed => ?_
    cases parsed with
    | some n => exact Keeps.ret fun _ h => h
    | none => exact recover_advances ht

end Advances

end CssTree.Grammar
