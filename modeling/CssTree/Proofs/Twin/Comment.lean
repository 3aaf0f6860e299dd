import CssTree.Proofs.Token.FoldAll
import CssTree.Proofs.Twin.Production
import CssTree.Tree.View

namespace CssTree

open Token

/-- A declaration in a comment is among the nodes of a node. -/
def Node.HoldsDisabled (n : Node) : Prop :=
  ∃ m ∈ n.descendants, m.declaration?.any (·.isDisabled) = true

theorem Node.HoldsDisabled.parent {id : NodeId} {kind : NodeKind} {span : Span} {es : List Element}
    {n : Node} (hn : .node n ∈ es) (h : n.HoldsDisabled) :
    (Node.mk id kind span es).HoldsDisabled := by
  obtain ⟨m, hm, hdisabled⟩ := h
  refine ⟨m, ?_, hdisabled⟩
  obtain ⟨fs, gs, rfl⟩ := List.append_of_mem hn
  simp [hm]

theorem Node.holdsDisabled_mk {opening name colon : Token} {value : Node} {es : List Element}
    (h : opening.kind = .openComment) (id : NodeId) (span : Span) :
    (Node.mk id .declaration span
      (.token opening :: .token name :: .token colon :: .node value :: es)).HoldsDisabled := by
  refine ⟨_, by rw [Node.descendants_mk]; exact List.mem_cons_self, ?_⟩
  simp [Node.declaration?, Declaration.ofElements?, Element.splitToken, Declaration.isDisabled, h]

/-- What two lists say of the tokens behind as many of them. -/
theorem Token.melted_append {ts us ts' us' : List Token} (hlength : ts.length = us.length) :
    (ts ++ ts').map melted = (us ++ us').map melted ↔
      ts.map melted = us.map melted ∧ ts'.map melted = us'.map melted := by
  rw [List.map_append, List.map_append]
  exact ⟨fun h => List.append_inj h (by simp [hlength]), fun h => by rw [h.1, h.2]⟩

theorem Token.touches_of_melted {t u t' u' : Token} (ht : t.melted = t'.melted)
    (hu : u.melted = u'.melted) : t.touches u = t'.touches u' := by
  have htrailing : (melt t.trailing).isEmpty = (melt t'.trailing).isEmpty :=
    congrArg (fun x => x.trailing.isEmpty) ht
  have hleading : (melt u.leading).isEmpty = (melt u'.leading).isEmpty :=
    congrArg (fun x => x.leading.isEmpty) hu
  rw [isEmpty_melt, isEmpty_melt] at htrailing hleading
  rw [touches, touches, htrailing, hleading]

theorem Stream.settle_of_kinds {s : Stream} (h : ∀ t ∈ s.toList, t.kind ≠ .openComment) (n : Nat) :
    s.settle n = s := by
  refine Settled.settle_eq fun t ht => h t ?_
  exact List.mem_append_left _ (List.mem_of_mem_take ht)

namespace Grammar

/-- The first text has its comments cut into tokens, the second one has them whole. -/
def Pairing.structural : Pairing where
  folds _ := true
  comments := false
  Match ts us := ts.map melted = us.map melted ∧ (∀ t ∈ ts, t.kind ≠ .openComment) ∧
    ∀ u ∈ us, u.kind ≠ .openComment
  Lost := Node.HoldsDisabled
  folds_colon := rfl
  folds_close _ _ := rfl
  bare h := by
    have hbare := congrArg (List.map Token.bare) h.1
    rw [List.map_map, List.map_map] at hbare
    exact hbare
  touch h hlength := by
    obtain ⟨-, htwo⟩ := (melted_append hlength).mp h.1
    obtain ⟨ht, hrest⟩ := List.cons.inj htwo
    exact touches_of_melted ht (List.cons.inj hrest).1
  settle n h hlength := by
    obtain ⟨hmelted, hkinds, hkinds'⟩ := h
    rw [Stream.settle_of_kinds fun t ht => hkinds t (List.mem_append_right _ ht),
      Stream.settle_of_kinds fun t ht => hkinds' t (List.mem_append_right _ ht)]
    exact ⟨hmelted, hkinds, hkinds'⟩
  lost_child hn h := h.parent hn

/-- The same text on both sides; with all its comments folded it is that of `whole`. -/
def Pairing.refolded (whole : Stream) : Pairing where
  folds b := b = some .colon
  comments := true
  Match ts us := ts = us ∧ ∃ s : Stream, s.toList = ts ∧ FlatFrom false s.tokens ∧
    s.foldAll = whole.foldAll
  Lost := Never
  folds_colon := colon_folds
  folds_close := close_folds
  bare h := by rw [h.1]
  touch h hlength := by
    obtain ⟨-, htwo⟩ := List.append_inj h.1 hlength
    obtain ⟨rfl, hrest⟩ := List.cons.inj htwo
    rw [(List.cons.inj hrest).1]
  settle {ts us s s'} n h hlength := by
    obtain ⟨hsame, r, hr, hflat, hfold⟩ := h
    obtain ⟨rfl, hrest⟩ := List.append_inj hsame hlength
    obtain rfl := Stream.eq_of_toList hrest
    rw [← Stream.toList_prepend] at hr
    obtain rfl := Stream.eq_of_toList hr
    refine ⟨rfl, (s.settle n).prepend ts, Stream.toList_prepend _ _, ?_, ?_⟩
    · obtain ⟨hfirst, hbehind⟩ := flatFrom_append.mp hflat
      exact flatFrom_append.mpr ⟨hfirst, Stream.flatFrom_settle hbehind n⟩
    · rw [Stream.foldAll_prepend_settle n hflat, hfold]
  lost_child := @never_child

variable {m m' : Nat} {s s' r : State}

/-- What is read as a declaration in a comment is one. -/
theorem declarationAfter_disabled {opening : Token} (hopening : opening.kind = .openComment) :
    Tries (fun _ => True) (declarationAfter (some opening)) (fun n _ => n.HoldsDisabled)
      fun _ => True := by
  have hany : ∀ {α : Type} {p : Attempt α} {f : α → Attempt Node},
      (∀ a, Tries (fun _ => True) (f a) (fun n _ => n.HoldsDisabled) fun _ => True) →
        Tries (fun _ => True) (p >>= f) (fun n _ => n.HoldsDisabled) fun _ => True := by
    intro α p f hf
    refine Tries.bind (R := fun _ _ => True) (fun s _ => ?_) hf
    cases (p.run.run s).1 <;> trivial
  refine hany fun name => hany fun colon => hany fun value => hany fun mark => hany fun semicolon =>
    hany fun ending => Tries.run fun s _ => ?_
  exact Node.holdsDisabled_mk hopening _ _

/-- An attempt to read a declaration in a comment that fails leaves everything as it was, up to
comments that are folded now. -/
theorem disabledDeclaration_fails (h : Poised (fun _ => true) true m [] s)
    (hopen : s.upcoming.head.kind = .openComment) (hbehind : s.behind ≠ some .colon)
    (hrun : disabledDeclaration.run.run s = (none, r)) :
    Poised (fun _ => true) true m [] (s.rewind r) ∧
      (s.rewind r).whole.foldAll = s.whole.foldAll := by
  let P := Pairing.refolded s.whole
  have hmark : Poised P.folds true m [] s := ⟨h.sound, h.flat, h.plain, h.stable.mono (by simp),
    h.starts, h.bound⟩
  obtain ⟨htake, -, -, hwhole⟩ :=
    hmark.takeOpen hopen (by simpa [P, Pairing.refolded] using hbehind)
  have htwins : Twins P (m - 1) (m - 1) [] [] s.take.2 s.take.2 := by
    refine ⟨htake, htake, rfl, rfl, rfl, rfl, rfl, _, rfl, Stream.flat_foldBehind htake.flat, ?_⟩
    rw [Stream.foldAll_foldBehind htake.flat, hwhole]
  -- The comment is read twice, so that what two runs have in common tells about one of them.
  have hsame : (some s.take.1).map Token.bare = (some s.take.1).map Token.bare := rfl
  have hboth := declarationAfter_tandem hsame _ _ htwins
  obtain ⟨es, htook⟩ := undoes_disabledDeclaration h.sound hopen (congrArg Prod.fst hrun)
  rw [hrun] at htook
  rw [disabledDeclaration_run] at hrun
  rw [hrun] at hboth
  obtain ⟨k, k', hr⟩ : Abreast P r r := hboth.resolve_left fun ⟨_, hnone, _⟩ => by cases hnone
  obtain ⟨hback, hrewind⟩ := hr.left.rewind hmark htook
  obtain ⟨-, whole, hlist, -, hfold⟩ := hr.paired
  rw [Stream.eq_of_toList hlist, Stream.foldAll_foldBehind hr.left.flat] at hfold
  exact ⟨⟨hback.sound, hback.flat, hback.plain, h.stable, hback.starts, hback.bound⟩,
    (congrArg Stream.foldAll hrewind).trans hfold⟩

/-- Where a comment starts, the first run reads the declaration in it or, if there is none, the
one behind it, as the second run does. -/
theorem commentOrDeclaration_structural (h : Between .structural Ready m m' s s')
    (hopen : s.upcoming.head.kind = .openComment) :
    (∃ n ∈ (commentOrDeclaration.run.run s).1, n.HoldsDisabled) ∨
      Both (PairedReady .structural (m - 1) (m' - 1)) (Abreast .structural)
        (commentOrDeclaration.run.run s).1 ((declarationAfter none).run.run s').1
        (commentOrDeclaration.run.run s).2 ((declarationAfter none).run.run s').2 := by
  obtain ⟨htwins, hready⟩ := h
  have hbehind : s.behind ≠ some .colon :=
    hready.resolve_right fun hsettled => htwins.left.unsettled hopen hsettled.1
  rw [commentOrDeclaration_run, run_attempt]
  cases hfirst : disabledDeclaration.run.run s with | mk o r => ?_
  cases o with
  | some n =>
    have htake : s.take.1 = s.upcoming.head := by
      rw [State.take, Stream.head]
      cases s.upcoming.tokens <;> rfl
    have hdisabled := declarationAfter_disabled (htake ▸ hopen : s.take.1.kind = .openComment)
      s.take.2 trivial
    rw [disabledDeclaration_run] at hfirst
    rw [hfirst] at hdisabled
    exact Or.inl ⟨n, rfl, hdisabled⟩
  | none =>
    obtain ⟨hpoised, hfold⟩ := disabledDeclaration_fails htwins.left hopen hbehind hfirst
    have hafter : Twins .structural m m' [] [] (s.rewind r) s' := by
      refine ⟨hpoised, htwins.right, htwins.count, rfl, htwins.guard, htwins.limit, ?_⟩
      have hpaired := htwins.paired
      change Pairing.structural.Match (s.whole.foldAll).toList _ at hpaired
      rwa [← hfold] at hpaired
    exact Or.inr ((declarationAfter_tandem rfl _ _ hafter).resolve_left (not_exists_never _))

/-- The second text has no comments to look into. -/
theorem readsDeclarations_structural : Pairing.structural.ReadsDeclarations := by
  intro m m' s s' hs
  have hplain : s'.upcoming.head.kind ≠ .openComment := by
    refine fun hopen => hs.1.right.unsettled hopen fun t ht => ?_
    exact hs.1.right.plain rfl t (List.mem_append_right _ (List.mem_of_mem_take ht))
  rw [declaration_run, declaration_run, if_neg hplain]
  by_cases hopen : s.upcoming.head.kind = .openComment
  · rw [if_pos hopen]
    exact commentOrDeclaration_structural hs hopen
  · rw [if_neg hopen]
    exact Tandem.weaken (declarationAfter_tandem rfl) s s' hs.1

/-- At the start of a text the runs stand at the same place. -/
theorem abreast_structural (depth : Nat) (t : Text) :
    Abreast .structural (.start ⟨depth, true, false⟩ .empty t)
      (.start ⟨depth, false, false⟩ .empty t) := by
  have hkinds : ∀ u ∈ (Stream.ofText ⟨depth, false, false⟩ t).toList, u.kind ≠ .openComment := by
    intro u hu
    rcases List.mem_append.mp hu with hu | hu
    · exact Stream.open_not_mem_ofText u hu
    · rw [List.mem_singleton.mp hu, (Stream.sound_ofText _ t).last_kind]
      decide
  have hwhole : (Stream.ofText ⟨depth, false, false⟩ t).foldAll =
      Stream.ofText ⟨depth, false, false⟩ t := Stream.foldAll_of_kinds Stream.open_not_mem_ofText
  have hmelted : (Stream.ofText ⟨depth, true, false⟩ t).foldAll.toList.map melted =
      (Stream.ofText ⟨depth, false, false⟩ t).toList.map melted := Stream.melted_ofText
  refine twins_start ⟨depth, true, false⟩ ⟨depth, false, false⟩ Arena.fresh_empty Arena.fresh_empty
    rfl (fun _ => rfl) ?_
  change Pairing.structural.Match (Stream.foldAll _).toList (Stream.foldAll _).toList
  rw [hwhole]
  refine ⟨hmelted, fun u hu => ?_, hkinds⟩
  have hmem := List.mem_map_of_mem (f := melted) hu
  rw [hmelted] at hmem
  obtain ⟨v, hv, hsame⟩ := List.mem_map.mp hmem
  have hkind : v.kind = u.kind := congrArg (fun x => x.kind) hsame
  exact hkind ▸ hkinds v hv

end Grammar

namespace Tree

open Grammar

/-- Style sheets in which no comment holds a declaration are read alike whether or not comments are
cut into tokens: the nodes, their kinds and spans, and the tokens with their places, values and the
texts of their trivia are the same; only the ids of the nodes and where trivia is divided may not
be. -/
theorem structural_conservative (depth : Nat) (t : Text)
    (h : ∀ n ∈ (Tree.parse .styleSheet ⟨depth, true, false⟩ t).root.descendants,
      n.declaration?.any (·.isDisabled) = false) :
    (Tree.parse .styleSheet ⟨depth, true, false⟩ t).root.anonymous Token.gathered =
      (Tree.parse .styleSheet ⟨depth, false, false⟩ t).root.anonymous Token.gathered := by
  have hroot : ∀ config, (Tree.parse .styleSheet config t).root =
      (styleSheet.run (.start config .empty t)).1 := fun _ => rfl
  have hlaid := (laid_parse .styleSheet ⟨depth, true, false⟩ t).1
  have hlaid' := (laid_parse .styleSheet ⟨depth, false, false⟩ t).1
  rw [hroot] at h hlaid hlaid' ⊢
  rw [hroot]
  obtain ⟨hbare, hmelted, -⟩ := (styleSheet_twins readsDeclarations_structural
    (abreast_structural depth t) rfl rfl).resolve_left fun ⟨n, hn, hdisabled⟩ => by
      rw [h n hn] at hdisabled
      cases hdisabled
  refine Node.anonymous_eq (fun _ _ => render_of_gathered) _ _ hlaid hlaid' ?_ ?_
  · rw [← Node.skeleton_bare, hbare, Node.skeleton_bare]
  · exact map_gathered hlaid.laidAll_tokens hlaid'.laidAll_tokens hmelted

theorem structural_conservative_plain :
    (∀ n ∈ (Tree.parse .styleSheet ⟨128, true, false⟩ "a{/* b */c:d}".toList).root.descendants,
      n.declaration?.any (·.isDisabled) = false) ∧
    (Tree.parse .styleSheet ⟨128, true, false⟩ "a{/* b */c:d}".toList).root.anonymous gathered =
      (Tree.parse .styleSheet ⟨128, false, false⟩ "a{/* b */c:d}".toList).root.anonymous gathered := by
  have hnone : ∀ n ∈ (Tree.parse .styleSheet ⟨128, true, false⟩
      "a{/* b */c:d}".toList).root.descendants, n.declaration?.any (·.isDisabled) = false := by
    decide +kernel
  exact ⟨hnone, structural_conservative 128 "a{/* b */c:d}".toList hnone⟩

end Tree

end CssTree
