import CssTree.Proofs.Grammar.Fragment
import CssTree.Proofs.Token.Structural
import CssTree.Proofs.Twin.Rule

namespace CssTree.Grammar

variable {P : Pairing} {m m' : Nat} {s s' : State} {arena arena' : Arena}

theorem poised_start {q : Option TokenKind → Bool} {comments : Bool} {config : Config}
    (harena : arena.Fresh) (hplain : comments = false → config.comments = false) (t : Text) :
    Poised q comments (Stream.ofText config t).length [] (.start config arena t) where
  sound := sound_start config harena t
  flat := Stream.flat_ofText config t
  plain hcomments := by
    obtain ⟨depth, structural, trailing⟩ := config
    obtain rfl : structural = false := hplain hcomments
    exact Stream.open_not_mem_ofText
  stable := trivial
  starts := Stream.starts_nil _
  bound := Nat.le_refl _

/-- At the start of two texts that belong together the runs stand at the same place. -/
theorem twins_start (config config' : Config) (harena : arena.Fresh) (harena' : arena'.Fresh)
    (hlimit : config.maxDepth = config'.maxDepth)
    (hplain : P.comments = false → config'.comments = false) {t : Text}
    (hmatch : P.Match ((Stream.ofText config t).foldBehind P.folds none).toList
      ((Stream.ofText config' t).foldBehind P.folds none).toList) :
    Abreast P (.start config arena t) (.start config' arena' t) :=
  ⟨_, _, poised_start harena (by simp) t, poised_start harena' hplain t, rfl, rfl, rfl, hlimit,
    hmatch⟩

/-- At the ends of their texts all tokens belong together. -/
theorem Twins.ended {ts ts' : List Token} (h : Twins P m m' ts ts' s s')
    (hend : s.upcoming.tokens = []) (hend' : s'.upcoming.tokens = []) :
    P.Match (s.taken.reverse ++ [s.upcoming.last]) (s'.taken.reverse ++ [s'.upcoming.last]) := by
  have hsplit := h.split
  rwa [Stream.eq_of_tokens hend, Stream.eq_of_tokens hend', Stream.foldBehind_end,
    Stream.foldBehind_end] at hsplit

theorem bare_node (kind : NodeKind) (es : List Element) (s : State) :
    ((node kind es).run s).1.bare = ⟨0, kind, default, Element.bareAll es⟩ := rfl

theorem tokens_node (kind : NodeKind) (es : List Element) (s : State) :
    ((node kind es).run s).1.tokens = Element.tokensOf es := rfl

/-- Two runs read the same style sheet. -/
theorem styleSheet_twins (hread : P.ReadsDeclarations) (h : Abreast P s s')
    (hs : s.taken = []) (hs' : s'.taken = []) :
    P.Lost (styleSheet.run s).1 ∨
      (styleSheet.run s).1.bare = (styleSheet.run s').1.bare ∧
        P.Match (styleSheet.run s).1.tokens (styleSheet.run s').1.tokens := by
  obtain ⟨m, m', htwins⟩ := h
  have hsheet := styleSheet_run htwins.left.sound
  have hsheet' := styleSheet_run htwins.right.sound
  have hrules : (∃ n ∈ (rules.run s).1, P.Lost n) ∨
      Twins P m m' [] [] (rules.run s).2 (rules.run s').2 ∧
        (rules.run s).1.map Node.bare = (rules.run s').1.map Node.bare :=
    rules_side hread s s' htwins
  generalize rules.run s = read at hsheet hrules
  generalize rules.run s' = read' at hsheet' hrules
  obtain ⟨ns, r⟩ := read
  obtain ⟨ns', r'⟩ := read'
  obtain ⟨htook, hend, hrun⟩ := hsheet
  obtain ⟨htook', hend', hrun'⟩ := hsheet'
  rw [hrun, hrun']
  rcases hrules with ⟨n, hn, hlost⟩ | ⟨hafter, hns⟩
  · refine Or.inl (P.lost_child ?_ hlost)
    exact List.mem_append_left _ (List.mem_map_of_mem hn)
  · have hmatch := hafter.ended hend hend'
    have htaken : r.taken.reverse = Element.tokensOf (ns.map .node) := by
      simpa [hs] using congrArg List.reverse htook.taken
    have htaken' : r'.taken.reverse = Element.tokensOf (ns'.map .node) := by
      simpa [hs'] using congrArg List.reverse htook'.taken
    have hlast : r.upcoming.last.bare = r'.upcoming.last.bare := by
      have hbare := P.bare hmatch
      rw [List.map_append, List.map_append] at hbare
      simpa using (List.append_inj' hbare rfl).2
    refine Or.inr ⟨?_, ?_⟩
    · rw [bare_node, bare_node]
      simp [hns, hlast]
    · rw [tokens_node, tokens_node]
      rw [htaken, htaken'] at hmatch
      simpa using hmatch

/-- Two runs that have tokens to come, if only those of comments. -/
def Unended (P : Pairing) (m m' : Nat) (s s' : State) : Prop :=
  Between P Ready m m' s s' ∧ s.upcoming.tokens ≠ [] ∧ s'.upcoming.tokens ≠ []

theorem ruleItem_unended (hread : P.ReadsDeclarations) (keyframes nested : Bool) :
    Side P.Lost (Unended P m m') (ruleItem keyframes nested) (ruleItem keyframes nested)
      (Paired P m m') := by
  have hwithin : ∀ k k', Side P.Lost (Twins P (k + 1) (k' + 1) [] [])
      (ruleWithin keyframes nested (k + 1)) (ruleWithin keyframes nested (k' + 1))
      (Paired P (k + 1) (k' + 1)) := by
    intro k k'
    refine Side.attempt (R := Paired P (k + 1) (k' + 1)) (undoes_rule k keyframes)
      (undoes_rule k' keyframes) ?_ (fun n hn s => hn) (fun n n' => Side.ret fun s s' hs => hs)
      (Side.weaken (recover_side _))
    refine (rule_tandem hread (fun keyframes => ?_) keyframes).post
      (fun n n' s s' hn => hn.mono (Nat.le_succ k) (Nat.le_succ k')) (fun _ _ h => h)
    refine blockOf_reads fun j j' hj hj' t t' ht => ?_
    exact ruleWithin_side hread k k' (by omega) (by omega) keyframes true t t'
      (by simpa [ruleRecovery] using ht)
  have hrun : ∀ s : State, (ruleItem keyframes nested).run s =
      (ruleWithin keyframes nested s.upcoming.length).run s := fun _ => rfl
  rintro s s' ⟨⟨hs, -⟩, hne, hne'⟩
  obtain ⟨k, hk⟩ := Nat.exists_eq_succ_of_ne_zero (mt List.length_eq_zero_iff.mp hne)
  obtain ⟨k', hk'⟩ := Nat.exists_eq_succ_of_ne_zero (mt List.length_eq_zero_iff.mp hne')
  have hexact := hs.exact
  have hlength : s.upcoming.length = k + 1 := hk
  have hlength' : s'.upcoming.length = k' + 1 := hk'
  have hbound := hs.left.bound
  have hbound' := hs.right.bound
  rw [hrun, hrun, hlength, hlength']
  rw [hlength, hlength'] at hexact
  exact (hwithin k k' s s' hexact).imp_right fun h => h.mono (by omega) (by omega)

end CssTree.Grammar

namespace CssTree.Production

open Grammar

variable {P : Pairing} {m m' : Nat} {p : Production}

theorem read_tandem (hread : P.ReadsDeclarations) (hp : p ≠ styleSheet) :
    Tandem P.Lost (Unended P m m') p.read p.read (Paired P m m') (Abreast P) := by
  have hshorter : ∀ (n n' : Node) (s s' : State), Paired P (m - 1) (m' - 1) n n' s s' →
      Paired P m m' n n' s s' := fun n n' s s' h => h.mono (Nat.sub_le m 1) (Nat.sub_le m' 1)
  have hplain : ∀ s s', Unended P m m' s s' → Twins P m m' [] [] s s' := fun s s' h => h.1.1
  cases p with
  | styleSheet => exact absurd rfl hp
  | rule => exact Tandem.lift (ruleItem_unended hread false false)
  | keyframeRule => exact Tandem.lift (ruleItem_unended hread true false)
  | ruleBlock =>
    exact ((requireBlock_tandem (ruleBlock_reads hread false)).pre hplain).post hshorter
      fun _ _ h => h
  | selectorList => exact Tandem.weaken (selectorList_tandem.pre hplain)
  | selector => exact Tandem.weaken (selector_tandem.pre hplain)
  | declarationBlock =>
    exact ((requireBlock_tandem (declarationBlock_reads hread)).pre hplain).post hshorter
      fun _ _ h => h
  | declaration =>
    refine ((hread m m').pre fun s s' h => h.1).post (fun n n' s s' h => ?_) fun _ _ h => h
    exact ⟨h.1.1.mono (Nat.sub_le m 1) (Nat.sub_le m' 1), h.2⟩
  | values => exact Tandem.weaken (Tandem.lift ((values_side []).pre hplain))
  | mediaQueryList => exact Tandem.weaken (Tandem.lift ((mediaQueryList_side []).pre hplain))
  | keyframeSelectors => exact Tandem.weaken (keyframeSelectors_tandem.pre hplain)

/-- Two runs that agree on the next token even if it starts a comment. -/
def Agreed (P : Pairing) (m m' : Nat) (s s' : State) : Prop :=
  Between P Ready m m' s s' ∧ s.upcoming.head.kind = s'.upcoming.head.kind

theorem readAll_tandem (hread : P.ReadsDeclarations) (hnever : ∀ n, ¬P.Lost n)
    (hp : p ≠ styleSheet) :
    Tandem Never (Agreed P m m') p.readAll p.readAll (Paired P m m') (Abreast P) := by
  have hrest : Tandem Never (Unended P m m')
      (do
        let n ← p.read
        if (← peekKind) = .eof then return n else failure)
      (do
        let n ← p.read
        if (← peekKind) = .eof then return n else failure) (Paired P m m') (Abreast P) := by
    have hnode : Tandem Never (Unended P m m') p.read p.read (Paired P m m') (Abreast P) :=
      fun s s' hs => Or.inr ((read_tandem hread hp s s' hs).resolve_left
        fun ⟨n, _, hlost⟩ => hnever n hlost)
    refine Tandem.seq (J := Twins P m m' [] []) (φ := fun n n' => n.bare = n'.bare) hnode
      fun n n' hn => Tandem.peekKind (Tandem.ret fun s s' hs => ⟨hs, hn⟩) fun t t' _ hkind => ?_
    rw [if_neg hkind, if_neg hkind]
    exact Tandem.fail fun s s' hs => hs.abreast
  have hrun : ∀ s : State, p.readAll.run.run s =
      (if s.upcoming.head.kind = .eof then failure else do
        let n ← p.read
        if (← peekKind) = .eof then return n else failure : Attempt Node).run.run s := fun _ => rfl
  rintro s s' ⟨hs, hkind⟩
  rw [hrun, hrun, ← hkind]
  split
  next => exact Or.inr hs.1.abreast
  next hother =>
    have htokens : ∀ {c : Bool} {k : Nat} {r : State}, Poised P.folds c k [] r →
        r.upcoming.head.kind ≠ .eof → r.upcoming.tokens ≠ [] := by
      intro c k r hr hne hnil
      rw [Stream.head, hnil] at hne
      exact hne hr.sound.upcoming.last_kind
    exact hrest s s' ⟨hs, htokens hs.1.left hother, htokens hs.1.right (hkind ▸ hother)⟩

theorem attempt_readAll_side (hread : P.ReadsDeclarations) (hnever : ∀ n, ¬P.Lost n)
    (hp : p ≠ styleSheet) :
    Side Never (Agreed P m m') (attempt p.readAll) (attempt p.readAll)
      fun o o' r r' => Twins P m m' [] [] r r' ∧ o.map Node.bare = o'.map Node.bare := by
  have hundo : Undoes [] p.readAll := Undoes.of_tries fun _ => readAll_tries hp
  have hall : Tandem Never (Agreed P m m') p.readAll p.readAll (Paired P m m') (Abreast P) :=
    readAll_tandem hread hnever hp
  have hattempt : Side Never (Agreed P m m') (attempt p.readAll >>= pure)
      (attempt p.readAll >>= pure) fun o o' r r' => Twins P m m' [] [] r r' ∧
        o.map Node.bare = o'.map Node.bare :=
    Side.attempt_from (fun s s' hs => ⟨hs.1.1, hundo s hs.1.1.left.sound hs.1.1.left.starts,
        hundo s' hs.1.1.right.sound hs.1.1.right.starts⟩)
      hall (fun _ hlost => hlost.elim)
      (fun n n' => Side.ret fun r r' hn => ⟨hn.1, congrArg some hn.2⟩)
      (Side.ret fun r r' hr => ⟨hr, rfl⟩)
  simpa using hattempt

theorem remainder_side : Side Never (Twins P m m' [] []) remainder remainder (Alike P m m') := by
  have hstop : Stops (do
      if (← peekKind) = .eof then failure else bump : Attempt Token) :=
    stops_of_peekKind rfl (by simp)
  have hmany : Side (fun ts => ∃ t ∈ ts, Never t) (Twins P m m' [] []) remainder remainder
      (Alike P m m') :=
    many_twins Token.bare hstop hstop fun k k' _ _ =>
      Tandem.peekKind (Tandem.fail fun s s' hs => hs) fun t t' ht hkind => by
        rw [if_neg hkind]
        exact Tandem.run (Side.bump_shorter (f := pure) (g := pure)
          (Side.ret fun s s' hs => ⟨hs, ht⟩))
  exact fun s s' hs => Or.inr ((hmany s s' hs).resolve_left (not_exists_never _))

/-- Tokens of whole texts that belong together, where the trivia in front of the ends may have gone
behind the last tokens. -/
def Ended (P : Pairing) (ts ts' : List Token) : Prop :=
  P.Match ts ts' ∨ ∃ us u us' u', P.Match (us ++ [u]) (us' ++ [u']) ∧
    ts = mapLast (fun t => { t with trailing := t.trailing ++ u.leading }) us ∧
      ts' = mapLast (fun t => { t with trailing := t.trailing ++ u'.leading }) us'

theorem remaining_twins (h : Twins P m m' [] [] s s') (hs : s.taken = []) (hs' : s'.taken = []) :
    let n := ((do errorNode (← remaining) : Parser Node).run s).1
    let n' := ((do errorNode (← remaining) : Parser Node).run s').1
    n.bare = n'.bare ∧ P.Match n.tokens n'.tokens := by
  have hrest := remaining_run h.left.sound
  have hrest' := remaining_run h.right.sound
  have hboth := (remainder_side s s' h).resolve_left id
  generalize remainder.run s = read at hrest hboth
  generalize remainder.run s' = read' at hrest' hboth
  obtain ⟨ts, r⟩ := read
  obtain ⟨ts', r'⟩ := read'
  obtain ⟨htook, hend, hrun⟩ := hrest
  obtain ⟨htook', hend', hrun'⟩ := hrest'
  obtain ⟨hafter, hts⟩ := hboth
  have hmatch := hafter.ended hend hend'
  have htaken : r.taken.reverse = ts := by simpa [hs] using congrArg List.reverse htook.taken
  have htaken' : r'.taken.reverse = ts' := by simpa [hs'] using congrArg List.reverse htook'.taken
  rw [htaken, htaken'] at hmatch
  have hbare := P.bare hmatch
  dsimp only
  rw [hrun, hrun', errorNode, errorNode, bare_node, bare_node, tokens_node, tokens_node]
  rw [Element.tokensOf_map_token, Element.tokensOf_map_token, Element.bareAll_tokens,
    Element.bareAll_tokens, hbare]
  exact ⟨rfl, hmatch⟩

theorem skeleton_trailed (trivia : List Lexeme) (n : Node) :
    (if trivia.isEmpty then n else (n.appendTrailing trivia).respan).skeleton = n.skeleton := by
  split
  next => rfl
  next => rw [Node.skeleton_respan, Node.skeleton_appendTrailing]

theorem tokens_trailed (trivia : List Lexeme) (n : Node) :
    (if trivia.isEmpty then n else (n.appendTrailing trivia).respan).tokens =
      mapLast (fun t => { t with trailing := t.trailing ++ trivia }) n.tokens := by
  split
  next hnone =>
    rw [List.isEmpty_iff.mp hnone]
    have hsame := map_mapLast (f := fun t : Token => { t with trailing := t.trailing ++ [] })
      (g := id) (fun t => by simp) n.tokens
    simpa using hsame.symm
  next => rw [Node.tokens_respan, Node.tokens_appendTrailing]

/-- Two runs read the same fragment. -/
theorem fragment_twins (hread : P.ReadsDeclarations) (hnever : ∀ n, ¬P.Lost n) (hp : p ≠ styleSheet)
    (h : Abreast P s s') (hs : s.taken = []) (hs' : s'.taken = [])
    (hkind : s.upcoming.head.kind = s'.upcoming.head.kind) :
    (p.fragment.run s).1.skeleton.bare = (p.fragment.run s').1.skeleton.bare ∧
      Ended P (p.fragment.run s).1.tokens (p.fragment.run s').1.tokens := by
  obtain ⟨m, m', htwins⟩ := h
  have hready : Ready s s' := Or.inl (by simp [State.behind, hs])
  have hkeep := attempt_keeps htwins.left.sound (readAll_tries hp)
  have hkeep' := attempt_keeps htwins.right.sound (readAll_tries hp)
  obtain ⟨hafter, hsame⟩ := (attempt_readAll_side hread hnever hp s s'
    ⟨⟨htwins, hready⟩, hkind⟩).resolve_left id
  cases hrun : (attempt p.readAll).run s with | mk o r => ?_
  cases hrun' : (attempt p.readAll).run s' with | mk o' r' => ?_
  rw [hrun] at hkeep hafter hsame
  rw [hrun'] at hkeep' hafter hsame
  cases o with
  | none =>
    cases o' with
    | some n' => simp at hsame
    | none =>
      -- Nothing fits the whole text, which is then captured as it stands.
      have htaken : r.taken = [] := by simpa [hs] using hkeep.taken
      have htaken' : r'.taken = [] := by simpa [hs'] using hkeep'.taken
      obtain ⟨hbare, hmatch⟩ := remaining_twins hafter htaken htaken'
      rw [fragment_kept hrun, fragment_kept hrun', ← Node.skeleton_bare, hbare, Node.skeleton_bare]
      exact ⟨rfl, Or.inl hmatch⟩
  | some n =>
    cases o' with
    | none => simp at hsame
    | some n' =>
      obtain ⟨⟨htook, hend⟩, -⟩ := hkeep
      obtain ⟨⟨htook', hend'⟩, -⟩ := hkeep'
      have hmatch := hafter.ended hend hend'
      have htaken : r.taken.reverse = n.tokens := by
        simpa [hs] using congrArg List.reverse htook.taken
      have htaken' : r'.taken.reverse = n'.tokens := by
        simpa [hs'] using congrArg List.reverse htook'.taken
      rw [htaken, htaken'] at hmatch
      have hbare : n.bare = n'.bare := by simpa using hsame
      rw [fragment_read hrun hend, fragment_read hrun' hend', skeleton_trailed, skeleton_trailed,
        tokens_trailed, tokens_trailed, ← Node.skeleton_bare, hbare, Node.skeleton_bare]
      exact ⟨rfl, Or.inr ⟨_, _, _, _, hmatch, rfl, rfl⟩⟩

end CssTree.Production
