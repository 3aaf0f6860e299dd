import CssTree.Proofs.Grammar.Origin

namespace CssTree

/-- A disabled declaration has the end of its comment, and the items of a block have tokens. -/
structure Node.Neat (n : Node) : Prop where
  closed : ∀ d, n.declaration? = some d → d.opening ≠ none → d.closing ≠ none
  filled : n.kind = .declarationList → ∀ c ∈ n.children, c.tokens ≠ []

namespace Grammar

variable {base s : State} {n : Node}

theorem lenient_neat : Lenient Node.Neat := by
  refine fun n h => ⟨fun d hd => ?_, fun hkind => ?_⟩
  · rw [Node.declaration?, if_neg (by rintro hkind; simp [hkind, NodeKind.declares] at h)] at hd
    cases hd
  · simp [hkind, NodeKind.declares] at h

/-- There is a token to come, of none of these kinds. -/
structure Shuns (kinds : List TokenKind) (s : State) : Prop where
  pending : 0 < (s.settle 0).upcoming.length
  kind : ((s.settle 0).upcoming.nth 0).kind ∉ kinds

variable {kinds : List TokenKind}

theorem Shuns.settle (h : Shuns kinds s) : Shuns kinds (s.settle 0) :=
  ⟨(settle_settle_zero s).symm ▸ h.pending, (settle_settle_zero s).symm ▸ h.kind⟩

theorem shuns_of_sound (hs : s.upcoming.Sound s.taken.reverse)
    (h : ((s.settle 0).upcoming.nth 0).kind ∉ kinds) (heof : .eof ∈ kinds) : Shuns kinds s := by
  refine ⟨List.length_pos_of_ne_nil fun hnil => h ?_, h⟩
  rw [Stream.nth, hnil]
  exact (hs.settle 0).last_kind.symm ▸ heof

theorem peekKind_shuns :
    Keeps (Shuns kinds) peekKind fun kind s => Shuns kinds s ∧ kind ∉ kinds :=
  fun _ hs => ⟨hs.settle, hs.kind⟩

theorem Keeps.any {α : Type} {P : State → Prop} {p : Parser α} : Keeps P p fun _ _ => True :=
  fun _ _ => trivial

theorem balancedFrom_filled (expected : List TokenKind) (k : Nat) :
    Keeps (Shuns [.eof]) (balancedFrom expected (k + 1)) fun ts _ => ts ≠ [] := by
  refine Keeps.seq peekKind_shuns fun kind hkind => ?_
  rw [if_neg (by simpa using hkind)]
  refine Keeps.any.bind fun t => ?_
  dsimp only
  split
  next => exact Keeps.ret fun _ _ => by simp
  next => exact Keeps.any.bind fun ts => Keeps.ret fun _ _ => by simp

theorem Shuns.length_pos (h : Shuns kinds s) : 0 < s.upcoming.length :=
  Nat.lt_of_lt_of_le h.pending (Stream.length_settle 0 s.upcoming)

theorem balanced_filled : Keeps (Shuns [.eof]) balanced fun ts _ => ts ≠ [] := by
  intro s hs
  obtain ⟨k, hk⟩ := Nat.exists_eq_succ_of_ne_zero (Nat.ne_of_gt hs.length_pos)
  have hrun : balanced.run s = (balancedFrom [] s.upcoming.length).run s := rfl
  rw [hrun, hk]
  exact balancedFrom_filled [] k s hs

theorem captureTokens_filled (r : Recovery) (k : Nat) :
    Keeps (Shuns (.eof :: r.before)) (captureTokens r (k + 1)) fun ts _ => ts ≠ [] := by
  refine Keeps.seq peekKind_shuns fun kind hkind => ?_
  rw [if_neg (by simpa using hkind)]
  split
  next => exact Keeps.any.bind fun t => Keeps.ret fun _ _ => by simp
  next =>
    have hbalanced : Keeps (Shuns (.eof :: r.before)) balanced fun ts _ => True ∧ ts ≠ [] :=
      fun s hs => ⟨trivial, balanced_filled s ⟨hs.pending, fun h => hs.kind (by simp_all)⟩⟩
    refine Keeps.seq hbalanced fun ts hts => ?_
    split
    next => exact Keeps.ret fun _ _ => hts
    next => exact Keeps.any.bind fun us => Keeps.ret fun _ _ => by simp [hts]

theorem recover_filled (r : Recovery) :
    Keeps (Shuns (.eof :: r.before)) (recover r) fun n _ => n.tokens ≠ [] := by
  intro s hs
  obtain ⟨k, hk⟩ := Nat.exists_eq_succ_of_ne_zero (Nat.ne_of_gt hs.length_pos)
  have hrun : ((recover r).run s).1.tokens =
      Element.tokensOf (((captureTokens r s.upcoming.length).run s).1.map .token) := rfl
  rw [hrun, hk]
  simpa using captureTokens_filled r k s hs

theorem declarationEnd_finds (disabled semicolon : Bool) :
    Finds (declarationEnd disabled semicolon) fun es => ∃ closing : Option Token,
      es = Element.ofToken? closing ∧ (∀ t ∈ closing, t.kind = .closeComment) ∧
        (disabled = true → closing ≠ none) := by
  unfold declarationEnd
  split
  next =>
    exact (Finds.require .closeComment).bind fun t ht =>
      Finds.ret ⟨some t, rfl, by simpa using ht, by simp⟩
  next hdisabled =>
    split
    next => exact Finds.ret ⟨none, rfl, by simp, fun h => absurd h hdisabled⟩
    next =>
      exact Finds.skip fun b => Finds.ite
        (fun _ => Finds.ret ⟨none, rfl, by simp, fun h => absurd h hdisabled⟩) fun _ => Finds.fail

/-- A declaration has tokens, and the end of its comment if it has the start of one. -/
theorem declarationAfter_filled {opening : Option Token}
    (hopening : ∀ t ∈ opening, t.kind = .openComment) :
    Finds (declarationAfter opening) fun n => n.tokens ≠ [] ∧ n.Neat := by
  refine (Finds.require .ident).bind fun name hname => (Finds.require .colon).bind fun colon _ => ?_
  refine Finds.skip fun value => Finds.skip fun mark => ?_
  refine Finds.call (Yields.eat .semicolon) fun semicolon hsemicolon => ?_
  refine (declarationEnd_finds _ _).bind fun ending => ?_
  rintro ⟨closing, rfl, hclosing, hclosed⟩
  let d : Declaration := ⟨opening, name, colon, value, mark, semicolon, closing⟩
  have hd : d.Formed := ⟨hopening, by simp [d, hname], hsemicolon, hclosing⟩
  have helements : Element.ofToken? opening ++ .token name :: .token colon :: .node value ::
      Element.ofNode? mark ++ Element.ofToken? semicolon ++ Element.ofToken? closing =
        d.elements := by simp [Declaration.elements, d]
  rw [helements]
  refine Finds.of_yields fun s => ⟨?_, fun d' hd' hne => ?_, fun hkind => by cases hkind⟩
  · show Element.tokensOf d.elements ≠ []
    simp [Declaration.elements, d]
  · obtain rfl : d = d' := Option.some.inj (hd.ofElements?.symm.trans hd')
    exact hclosed (Option.isSome_iff_ne_none.mpr hne)

theorem declaration_filled : Finds declaration fun n => n.tokens ≠ [] ∧ n.Neat := by
  have hplain : Finds (declarationAfter none) fun n => n.tokens ≠ [] ∧ n.Neat :=
    declarationAfter_filled (by simp)
  intro s
  rw [declaration_run]
  split
  next hopen =>
    have hhead : s.take.1.kind = .openComment := by
      obtain ⟨taken, ⟨tokens, last⟩, place, guard, limit, arena, created, refused⟩ := s
      cases tokens <;> simpa [State.take, Stream.head] using hopen
    have hopening : ∀ t ∈ some s.take.1, t.kind = .openComment := by simpa using hhead
    have hdisabled := declarationAfter_filled hopening s.take.2
    rw [commentOrDeclaration_run, run_attempt, disabledDeclaration_run]
    change ∀ n ∈ ((declarationAfter (some s.take.1)).run.run s.take.2).1, _ at hdisabled
    generalize (declarationAfter (some s.take.1)).run.run s.take.2 = result at hdisabled ⊢
    obtain ⟨o, r⟩ := result
    cases o with
    | none => exact hplain _
    | some n => exact hdisabled
  next => exact hplain s

theorem declarationItem_neat (hbase : base.upcoming.Sound base.taken.reverse) :
    (gathers base lenient_neat).HoldsTry 0 0 declarationItem
      fun n => n.tokens ≠ [] ∧ n.Every Node.Neat := by
  refine fun s hs => ⟨(declarationItem_gathers hbase s hs).1, ?_⟩
  have hdeclaration : Yields (attempt declaration) fun r => ∀ n ∈ r,
      n.tokens ≠ [] ∧ n.Every Node.Neat := by
    refine Yields.attempt fun s n hn => ⟨(declaration_filled s n hn).1, ?_⟩
    exact Node.every_iff.mpr ⟨(declaration_filled s n hn).2, fun c hc =>
      ((declaration_takes s n hn).plain_children c hc).mono lenient_neat⟩
  have hrecover : Yields (recover ⟨[.closeBrace], [.semicolon], false⟩) Slot.values.Takes :=
    yields_of_takes (recover_holds rfl _)
  obtain ⟨hclear, -⟩ := Trail.Leads.attempt Clear.rewind (declaration_gathers hbase) s hs
  intro m hm
  rw [declarationItem_run] at hm
  cases hr : ((attempt declaration).run s).1 with
  | some n =>
    rw [declarationOrError_read hr] at hm
    obtain rfl := Option.some.inj hm
    exact hdeclaration s n hr
  | none =>
    rw [declarationOrError_lost hr] at hm
    generalize ((attempt declaration).run s).2 = s' at hclear hm
    obtain ⟨ts, hts, -⟩ := hs.trans hclear
    rw [errorInBlock_run] at hm
    split at hm
    next => cases hm
    next hkind =>
      obtain rfl := Option.some.inj hm
      have hshuns : Shuns [.eof, .closeBrace] s' :=
        shuns_of_sound (hts.sound hbase) (by simp_all) (by simp)
      exact ⟨recover_filled _ _ hshuns.settle, ((hrecover _).plain rfl).mono lenient_neat⟩

theorem styleSheet_neat (hbase : base.upcoming.Sound base.taken.reverse) :
    (Trail.clear base lenient_neat).Leads styleSheet (Node.Every Node.Neat) := by
  have hblock : (gathers base lenient_neat).Holds 0 0 declarationBlock (Node.Every Node.Neat) := by
    refine declarationBlock_gathers (declarationItem_neat hbase) fun id span es hes => ?_
    refine Node.every_iff.mpr ⟨⟨fun d hd => ?_, fun _ c hc => (hes c hc).1⟩, fun c hc => (hes c hc).2⟩
    cases hd
  exact styleSheet_holds (L := gathersRules base lenient_neat hblock) (d := 0)

end Grammar

end CssTree
