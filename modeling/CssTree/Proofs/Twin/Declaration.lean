import CssTree.Proofs.Grammar.Declaration
import CssTree.Proofs.Twin.Value

namespace CssTree.Grammar

variable {β : Type} {P : Pairing} {m m' : Nat} {t t' : Token} {s s' : State} {L : β → Prop}
  {Q : β → β → State → State → Prop} {F : State → State → Prop}

/-- Behind the end of a block the runs are ready, as they have looked at it. -/
theorem Side.atBlockEnd {f g : Bool → Parser β}
    (htrue : Side L (Between P Ready m m') (f true) (g true) Q)
    (hfalse : ∀ t t' : Token, t.kind ≠ .closeBrace →
      Side L (Twins P m m' [t] [t']) (f false) (g false) Q) :
    Side L (Twins P m m' [] []) (Grammar.atBlockEnd >>= f) (Grammar.atBlockEnd >>= g) Q := by
  refine Side.peekKind_ready (f := fun kind => f (kind = .closeBrace || kind = .eof))
    (g := fun kind => g (kind = .closeBrace || kind = .eof)) htrue fun t t' _ hkind => ?_
  by_cases hclose : t.kind = .closeBrace
  · rw [hclose]
    exact htrue.pre fun s s' hs => ⟨hs.nil, hs.ready⟩
  · have hother : (decide (t.kind = .closeBrace) || decide (t.kind = .eof)) = false := by
      simp [hclose, hkind]
    rw [hother]
    exact hfalse t t' hclose

theorem Tandem.atBlockEnd {f g : Bool → Attempt β}
    (htrue : Tandem L (Between P Ready m m') (f true) (g true) Q F)
    (hfalse : ∀ t t' : Token, t.kind ≠ .closeBrace →
      Tandem L (Twins P m m' [t] [t']) (f false) (g false) Q F) :
    Tandem L (Twins P m m' [] []) (liftM Grammar.atBlockEnd >>= f)
      (liftM Grammar.atBlockEnd >>= g) Q F := Side.atBlockEnd htrue hfalse

/-- Two nodes behind which the runs are ready. -/
def PairedReady (P : Pairing) (m m' : Nat) (n n' : Node) (s s' : State) : Prop :=
  Between P Ready m m' s s' ∧ n.bare = n'.bare

theorem node_ready {kind : NodeKind} {es es' : List Element}
    (h : Element.bareAll es = Element.bareAll es') :
    Side Never (Between P Ready m m') (node kind es) (node kind es') (PairedReady P m m') :=
  fun s s' hs => (node_side h s s' hs.1).imp_right fun hn => ⟨⟨hn.1, hs.2⟩, hn.2⟩

theorem eat_semicolon : Side Never (Twins P m m' [] []) (eat .semicolon) (eat .semicolon)
    fun o o' s s' => (Twins P m m' [] [] s s' ∧ (o.isSome = true → Ready s s')) ∧
      o.map Token.bare = o'.map Token.bare := by
  have h : Side Never (Twins P m m' [] []) (eat .semicolon >>= pure) (eat .semicolon >>= pure)
      fun o o' s s' => (Twins P m m' [] [] s s' ∧ (o.isSome = true → Ready s s')) ∧
        o.map Token.bare = o'.map Token.bare := by
    refine Side.eat_taken (by decide) (Side.ret fun s s' hs => ⟨⟨hs, by simp⟩, rfl⟩)
      fun t t' ht hkind _ _ => Side.ret fun s s' ⟨hs, ⟨us, hus⟩, _⟩ => ?_
    exact ⟨⟨hs.mono (Nat.sub_le m 1) (Nat.sub_le m' 1), fun _ =>
      ready_of_taken hus (by simp [hkind])⟩, by simp [ht]⟩
  simpa using h

theorem declarationEnd_tandem (disabled semicolon : Bool) :
    Tandem Never (fun s s' => Twins P m m' [] [] s s' ∧ (semicolon = true → Ready s s'))
      (declarationEnd disabled semicolon) (declarationEnd disabled semicolon)
      (fun l l' s s' => Between P Ready m m' s s' ∧ Element.bareAll l = Element.bareAll l')
      (Abreast P) := by
  unfold declarationEnd
  split
  next =>
    refine Tandem.pre (fun s s' hs => hs.1) ?_
    refine Tandem.require_taken (by decide) (fun s s' hs => hs.abreast) fun t t' ht hkind _ _ => ?_
    refine Tandem.ret fun s s' ⟨hs, ⟨us, hus⟩, _⟩ => ⟨⟨?_, ?_⟩, by simp [ht]⟩
    · exact hs.mono (Nat.sub_le m 1) (Nat.sub_le m' 1)
    · exact ready_of_taken hus (by simp [hkind])
  next =>
    split
    next hsemicolon => exact Tandem.ret fun s s' hs => ⟨⟨hs.1, hs.2 hsemicolon⟩, rfl⟩
    next =>
      refine Tandem.pre (fun s s' hs => hs.1) (Tandem.atBlockEnd ?_ fun t t' _ => ?_)
      · exact Tandem.ret fun s s' hs => ⟨hs, rfl⟩
      · exact Tandem.fail fun s s' hs => hs.abreast

theorem declarationAfter_tandem {opening opening' : Option Token}
    (hopening : opening.map Token.bare = opening'.map Token.bare) :
    Tandem Never (Twins P m m' [] []) (declarationAfter opening) (declarationAfter opening')
      (PairedReady P (m - 1) (m' - 1)) (Abreast P) := by
  have hdisabled : opening'.isSome = opening.isSome := by
    rw [← Option.isSome_map (f := Token.bare), ← hopening, Option.isSome_map]
  refine Tandem.require (by decide) (fun s s' hs => hs.abreast) fun name name' hname _ _ _ => ?_
  refine Tandem.require (by decide) (fun s s' hs => hs.abreast) fun colon colon' hcolon _ _ _ => ?_
  refine Tandem.pre (fun s s' hs => hs.mono (Nat.sub_le _ 1) (Nat.sub_le _ 1)) ?_
  refine Tandem.call (declarationValue_side _) fun value value' hvalue => ?_
  refine Tandem.call important_side fun mark mark' hmark => ?_
  refine Tandem.call_bind eat_semicolon fun semicolon semicolon' => ?_
  rintro s s' ⟨hs, hsemicolon⟩
  have hsome : semicolon'.isSome = semicolon.isSome := by
    rw [← Option.isSome_map (f := Token.bare), ← hsemicolon, Option.isSome_map]
  rw [hdisabled, hsome]
  refine Tandem.seq (declarationEnd_tandem _ _) (fun ending ending' hending => ?_) s s' hs
  exact Tandem.run (node_ready
    (by simp [hopening, hname, hcolon, hvalue, hmark, hsemicolon, hending]))

/-- The runs read the same declarations, where the first is not lost. -/
def Pairing.ReadsDeclarations (P : Pairing) : Prop :=
  ∀ m m', Tandem P.Lost (Between P Ready m m') declaration declaration
    (PairedReady P (m - 1) (m' - 1)) (Abreast P)

theorem undoes_disabledDeclaration (hs : s.Sound) (hopen : s.upcoming.head.kind = .openComment)
    (hfail : (disabledDeclaration.run.run s).1 = none) :
    Lost s (disabledDeclaration.run.run s).2 := by
  have hrun := disabledDeclaration_tries s ⟨(Took.refl hs).reads, hopen⟩
  rwa [hfail] at hrun

theorem undoes_declaration {ts : List Token} : Undoes ts declaration :=
  Undoes.of_tries fun _ => declaration_tries.pre fun _ hs => hs.nil

theorem declarationOrError_tandem (h : P.ReadsDeclarations) :
    Tandem P.Lost (Between P Ready m m') declarationOrError declarationOrError
      (PairedReady P (m - 1) (m' - 1)) (Between P Ready m m') := by
  refine Tandem.attempt_from (fun s s' hs => ⟨hs.1, ?_, ?_⟩) (h m m')
    (fun a ha s => ⟨a, rfl, ha⟩) (fun a a' => Tandem.ret fun s s' hs => hs) ?_
  · exact undoes_declaration s hs.1.left.sound hs.1.left.starts
  · exact undoes_declaration s' hs.1.right.sound hs.1.right.starts
  · refine Tandem.atBlockEnd (Tandem.fail fun s s' hs => hs) fun t t' hkind => ?_
    refine Tandem.weaken (Tandem.run ((recover_next (by simpa using hkind)).post ?_))
    exact fun n n' s s' hs => ⟨⟨hs.1.1, hs.2 rfl (by decide)⟩, hs.1.2⟩

theorem declarationItem_tandem (h : P.ReadsDeclarations) :
    Tandem P.Lost (Between P Ready m m') declarationItem declarationItem
      (PairedReady P (m - 1) (m' - 1)) (Between P Ready m m') := by
  intro s s' hs
  rw [declarationItem_run, declarationItem_run]
  exact declarationOrError_tandem h s s' hs

theorem stops_declarationItem : Stops declarationItem := by
  intro s hs hnil
  have hkind : s.upcoming.head.kind = .eof := by
    rw [Stream.head, hnil]
    exact hs.upcoming.last_kind
  rw [declarationItem_run, declarationOrError_end (Or.inr hkind)]

theorem declarationBlock_side (h : P.ReadsDeclarations) (hbrace : t.kind = .openBrace) :
    Side P.Lost (Twins P m m' [t] [t']) declarationBlock declarationBlock
      (Paired P (m - 1) (m' - 1)) := by
  refine Side.of_known fun ht _ _ _ => Side.enter fun entered => ?_
  split
  next =>
    -- Behind the brace, and behind each item, a comment is at the same place on both sides.
    refine Side.bump_taken (Side.pre (J := Between P Ready (m - 1) (m' - 1)) ?_ ?_)
    · exact fun s s' ⟨hs, ⟨us, hus⟩, _⟩ => ⟨hs, ready_of_taken hus (by simp [hbrace])⟩
    refine Side.seq_lost (many_side Node.bare stops_declarationItem stops_declarationItem
      fun k k' _ _ => declarationItem_tandem h) ?_ fun ns ns' hns => ?_
    · rintro ns ⟨n, hn, hlost⟩ s
      exact node_lost (.token t :: ns.map .node ++ Element.ofToken? _) (by simp [hn]) hlost _
    · refine Side.pre (fun s s' hs => hs.1) ?_
      refine Side.seq (eat_side (by decide)) fun closing closing' hclosing => Side.exit ?_
      exact Side.weaken (node_side (by simp [ht, hns, hclosing]))
  next => exact Side.weaken recoverBlock_side

section Comments

variable (hfolds : ∀ b, P.folds b = true ↔ b = some .colon)

include hfolds

/-- The runs are at the same kind of token even if a comment starts there. -/
theorem kind_head_ready (h : Between P Ready m m' s s') :
    s.upcoming.head.kind = s'.upcoming.head.kind := by
  have hfold : ∀ {s : State}, s.behind ≠ some .colon →
      (s.upcoming.foldBehind P.folds s.behind).nth 0 = s.upcoming.nth 0 := by
    intro s hbehind
    obtain ⟨taken, ⟨tokens, last⟩, place, guard, limit, arena, created⟩ := s
    cases tokens with
    | nil => rw [Stream.foldBehind_end]
    | cons t ts =>
      rw [Stream.foldBehind_keep fun ht => hbehind ((hfolds _).mp ht.2)]
      rfl
  obtain ⟨htwins, hready⟩ := h
  rw [Stream.head_eq_nth, Stream.head_eq_nth]
  refine Token.kind_of_bare ?_
  rcases hready with hbehind | ⟨hsettled, hsettled'⟩
  · have hbare := P.bare htwins.split
    rw [List.map_append, List.map_append, htwins.bare_taken] at hbare
    have hnth := Stream.bare_nth (List.append_cancel_left hbare) 0
    rwa [hfold hbehind, hfold (htwins.behind_eq ▸ hbehind)] at hnth
  · exact htwins.bare_nth hsettled hsettled'

/-- Both runs open the comment that is ahead. -/
theorem Between.takeOpen (h : Between P Ready m m' s s')
    (hopen : s.upcoming.head.kind = .openComment) :
    Twins P (m - 1) (m' - 1) [] [] s.take.2 s'.take.2 ∧ s.take.1.bare = s'.take.1.bare := by
  have hopen' : s'.upcoming.head.kind = .openComment := kind_head_ready hfolds h ▸ hopen
  obtain ⟨htwins, hready⟩ := h
  have hbehind : s.behind ≠ some .colon :=
    hready.resolve_right fun hsettled => htwins.left.unsettled hopen hsettled.1
  have hbehind' : s'.behind ≠ some .colon := htwins.behind_eq ▸ hbehind
  obtain ⟨hleft, -, htaken, hwhole⟩ :=
    htwins.left.takeOpen hopen (Bool.eq_false_iff.mpr (mt (hfolds _).mp hbehind))
  obtain ⟨hright, -, htaken', hwhole'⟩ :=
    htwins.right.takeOpen hopen' (Bool.eq_false_iff.mpr (mt (hfolds _).mp hbehind'))
  have hafter : Twins P (m - 1) (m' - 1) [] [] s.take.2 s'.take.2 := by
    refine ⟨hleft, hright, ?_, rfl, ?_, ?_, ?_⟩
    · rw [htaken, htaken', List.length_cons, List.length_cons, htwins.count]
    · rw [s.take_guard.1, s'.take_guard.1, htwins.guard]
    · rw [s.take_guard.2, s'.take_guard.2, htwins.limit]
    · rw [hwhole, hwhole']
      exact htwins.paired
  refine ⟨hafter, ?_⟩
  have hbare := hafter.bare_taken
  rw [htaken, htaken', List.reverse_cons, List.reverse_cons, List.map_append,
    List.map_append] at hbare
  simpa using (List.append_inj' hbare rfl).2

/-- Where a comment starts on both sides, the same declaration is read. -/
theorem commentOrDeclaration_tandem :
    Tandem Never (fun s s' => Between P Ready m m' s s' ∧ s.upcoming.head.kind = .openComment)
      commentOrDeclaration commentOrDeclaration (PairedReady P (m - 1) (m' - 1)) (Abreast P) := by
  refine Tandem.attempt_from (K := Never) (R := PairedReady P (m - 1) (m' - 1)) ?_ ?_
    (fun _ h => h.elim) (fun n n' => Tandem.ret fun s s' hs => hs) (declarationAfter_tandem rfl)
  · rintro s s' ⟨hs, hopen⟩
    exact ⟨hs.1, undoes_disabledDeclaration hs.1.left.sound hopen,
      undoes_disabledDeclaration hs.1.right.sound (kind_head_ready hfolds hs ▸ hopen)⟩
  · rintro s s' ⟨hs, hopen⟩
    obtain ⟨hafter, hbare⟩ := hs.takeOpen hfolds hopen
    rw [disabledDeclaration_run, disabledDeclaration_run]
    have hopening : (some s.take.1).map Token.bare = (some s'.take.1).map Token.bare :=
      congrArg some hbare
    refine (declarationAfter_tandem hopening).post ?_ (fun _ _ h => h) _ _ hafter
    exact fun n n' r r' hn => ⟨hn.1.mono (Nat.sub_le _ 1) (Nat.sub_le _ 1), hn.2⟩

theorem readsDeclarations_of_folds : P.ReadsDeclarations := by
  intro m m'
  refine Tandem.weaken fun s s' hs => ?_
  rw [declaration_run, declaration_run, ← kind_head_ready hfolds hs]
  split
  next hopen => exact commentOrDeclaration_tandem hfolds s s' ⟨hs, hopen⟩
  next => exact declarationAfter_tandem rfl s s' hs.1

end Comments

end CssTree.Grammar
