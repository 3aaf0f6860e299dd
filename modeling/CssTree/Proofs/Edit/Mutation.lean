import CssTree.Proofs.Edit.Outcome
import CssTree.Proofs.Tree.Query

namespace CssTree

namespace Edit

/-- The edit `m` of `tree` makes one change and reports it, or it fails and leaves no trace. -/
def Makes (tree : Tree) (m : Mutation) (x : Edit Unit) : Prop :=
  Leads ⟨tree, []⟩ x (fun _ => Draft.Done tree m) (Draft.Undone tree)

variable {tree : Tree} {m : Mutation}

theorem undone_start (tree : Tree) : Draft.Undone tree ⟨tree, []⟩ :=
  ⟨rfl, rfl, .refl _, rfl⟩

theorem Makes.fail (e : EditError) : Makes tree m (throw e) := Leads.fail (undone_start tree)

/-- A query that an edit starts with. -/
theorem Makes.query {α : Type} {r : Except EditError α} {f : α → Edit Unit}
    (h : ∀ a, r = .ok a → Makes tree m (f a)) : Makes tree m ((liftM r : Edit α) >>= f) :=
  Leads.query (undone_start tree) h

/-- A fragment that is given up leaves nothing behind. -/
theorem undone_reject {tree' : Tree} {p : Production} {t : Text} {fragment : Node}
    (h : tree.Sound []) (hreads : tree.reads p t = (fragment, tree')) :
    Draft.Undone tree ⟨tree'.free fragment, []⟩ := by
  obtain ⟨-, hcomplete, hroot, hconfig⟩ := h.reads hreads
  have hgrown : tree.arena.Grown (fragment.entries none ++ []) tree'.arena := by
    rw [List.append_nil]
    exact hcomplete.grown
  exact ⟨hroot, hconfig, hgrown.free h.fresh, rfl⟩

theorem fragment_run {tree' : Tree} {p : Production} {t : Text} {n : Node}
    (hreads : tree.reads p t = (n, tree')) :
    (fragment p t).run.run ⟨tree, []⟩ = (.ok n, ⟨tree', []⟩) := by
  obtain ⟨rfl, rfl⟩ := Prod.mk.inj hreads
  rfl

theorem validFragment_run {tree' : Tree} {p : Production} {t : Text} {n : Node} {expected : String}
    (hreads : tree.reads p t = (n, tree')) (herror : n.isError = false) :
    (validFragment p t expected).run.run ⟨tree, []⟩ = (.ok n, ⟨tree', []⟩) := by
  rw [validFragment, run_of (fragment_run hreads), if_neg (by simp [herror])]
  rfl

/-- An edit that needs a fragment fails with it. -/
theorem validFragment_ok {p : Production} {t : Text} {expected : String} {f : Node → Edit Unit}
    (h : ((validFragment p t expected >>= f).run.run ⟨tree, []⟩).1 = .ok ()) :
    ∃ n tree', tree.reads p t = (n, tree') ∧ n.isError = false ∧
      (validFragment p t expected >>= f).run.run ⟨tree, []⟩ = (f n).run.run ⟨tree', []⟩ := by
  obtain ⟨n, tree', hreads⟩ : ∃ n tree', tree.reads p t = (n, tree') := ⟨_, _, rfl⟩
  cases herror : n.isError with
  | false => exact ⟨n, tree', hreads, herror, run_of (validFragment_run hreads herror) f⟩
  | true =>
    have hfail : (validFragment p t expected >>= f).run.run ⟨tree, []⟩ =
        (.error (.invalidFragment expected t), ⟨tree'.free n, []⟩) := by
      rw [validFragment, bind_assoc, run_of (fragment_run hreads), if_pos herror]
      rfl
    rw [hfail] at h
    cases h

theorem Makes.fragment {p : Production} {t : Text} {f : Node → Edit Unit}
    (h : ∀ n tree', tree.reads p t = (n, tree') →
      Leads ⟨tree', []⟩ (f n) (fun _ => Draft.Done tree m) (Draft.Undone tree)) :
    Makes tree m (fragment p t >>= f) :=
  Leads.known (fragment_run rfl) (h _ _ rfl)

theorem Makes.validFragment {p : Production} {t : Text} {expected : String} {f : Node → Edit Unit}
    (hsound : tree.Sound [])
    (h : ∀ n tree', tree.reads p t = (n, tree') → n.isError = false →
      Leads ⟨tree', []⟩ (f n) (fun _ => Draft.Done tree m) (Draft.Undone tree)) :
    Makes tree m (validFragment p t expected >>= f) := by
  obtain ⟨n, tree', hreads⟩ : ∃ n tree', tree.reads p t = (n, tree') := ⟨_, _, rfl⟩
  refine Leads.bind (Leads.known (fragment_run hreads) ?_)
  cases herror : n.isError with
  | true => exact undone_reject hsound hreads
  | false => exact h n tree' hreads herror

/-- An edit ends with the spans of one node computed anew, and with a report. -/
theorem leads_finish {tree' : Tree} {c : Change} {id : NodeId}
    (h : tree.Edited m (tree'.respan id) c) :
    Leads ⟨tree', []⟩ (do alter (·.respan id); report c) (fun _ => Draft.Done tree m)
      (Draft.Undone tree) :=
  Leads.alter (Leads.report ⟨c, rfl, h⟩)

theorem insertItem_makes {list : Node} {p : Production} (hsound : tree.Sound [])
    (hlist : list ∈ tree.root.descendants)
    (hp : ∀ l, list.listing? = some l → p.slot? = some l.kind.slot) {index : Nat} {t : Text}
    (hinserts : m.Inserts tree list index p t) (expected : String) :
    Makes tree m (insertItem list index t p expected) := by
  unfold insertItem
  cases hlisting : list.listing? with
  | none => exact Makes.fail _
  | some listing =>
    dsimp only
    split
    next => exact Makes.fail _
    next hindex =>
      refine Makes.validFragment hsound fun fragment tree' hreads herror => ?_
      obtain ⟨hread, hcomplete, hroot, -⟩ := hsound.reads hreads
      have hfragment : fragment.Formed := hcomplete.formed _ fragment.mem_descendants_self
      cases htarget : listing.items.get? index with
      | some target =>
        dsimp only
        refine Leads.known (insertBefore_run hfragment) (leads_finish ?_)
        exact .insertedBefore hlist hlisting htarget (hp _ hlisting) hreads herror hinserts
      | none =>
        dsimp only
        refine Leads.known (insertAfter_run hread.formed hfragment fun n hn hneeds => ?_)
          (leads_finish ?_)
        · have hchild := (hsound.formed list hlist).mem_children_last? hlisting hn
          have hmem := Node.mem_descendants_trans hlist (Node.mem_descendants_child hchild)
          rw [← hroot] at hmem
          exact hread.isDeclaration hmem (declaration?_of_needsSemicolon hneeds)
        · obtain rfl : index = listing.items.size := by
            rw [Punctuated.get?, Option.map_eq_none_iff, List.getElem?_eq_none_iff] at htarget
            exact Nat.le_antisymm (Nat.not_lt.mp hindex) htarget
          exact .insertedAfter hlist hlisting (hp _ hlisting) hreads herror hinserts

theorem removeItem_makes {list : Node} (hlist : list ∈ tree.root.descendants) (index : Nat) :
    Makes tree m (removeItem list index) := by
  unfold removeItem
  cases hlisting : list.listing? with
  | none => exact Makes.fail _
  | some listing =>
    dsimp only
    cases hget : listing.items.get? index with
    | none => exact Makes.fail _
    | some removed =>
      dsimp only
      cases hnext : listing.items.get? (index + 1) with
      | some next =>
        refine Leads.alter ?_
        exact leads_finish (.removedBefore hlist hlisting hget hnext)
      | none =>
        refine Leads.alter ?_
        exact leads_finish (.removedLast hlist hlisting hget hnext)

theorem liftM_run {α : Type} {d : Draft} (a : α) :
    (liftM (Except.ok a : Except EditError α) : Edit α).run.run d = (.ok a, d) := rfl

/-- A node of the tree is read anew. -/
theorem replaceWith_run {tree' : Tree} {n fragment : Node} {p : Production} {t : Text}
    (hsound : tree.Sound []) (hn : n ∈ tree.root.descendants)
    (hreads : tree.reads p t = (fragment, tree')) :
    (replaceWith n.id fragment).run.run ⟨tree', []⟩ =
      (.ok (), ⟨tree'.replacedWith n.id (fragment.place n.span.start), [.replaced n.id]⟩) := by
  obtain ⟨hread, -, hroot, -⟩ := hsound.reads hreads
  have hget : tree'.get n.id = .ok n := by
    rw [← hroot] at hn
    rw [Tree.get, hread.find?_of_mem hn]
  have hcontains : tree'.contains (fragment.place n.span.start).id = true := by
    have hid : (fragment.place n.span.start).id = fragment.id := by
      rw [← Node.skeleton_id, Node.skeleton_place, Node.skeleton_id]
    have hfound := hread.grown.found (fragment.id, none) (by
      rw [fragment.entries_children]
      exact List.mem_append_right _ List.mem_cons_self)
    rw [hid]
    exact (tree'.arena.contains_iff fragment.id).mpr ⟨none, hfound⟩
  rw [replaceWith, run_tree, hget, run_of (liftM_run n), run_tree, if_pos hcontains, run_alter,
    run_alter, run_tree, Tree.replacedWith]
  dsimp only
  generalize (Tree.resize n.id _ (tree'.putContent n.id _)).parent? n.id = parent
  cases parent <;> rfl

theorem replaceWith_leads {tree' : Tree} {n fragment : Node} {p : Production} {t : Text}
    (hsound : tree.Sound []) (hn : n ∈ tree.root.descendants) (hrereads : m.Rereads tree n p t)
    (hreads : tree.reads p t = (fragment, tree')) :
    Leads ⟨tree', []⟩ (replaceWith n.id fragment) (fun _ => Draft.Done tree m)
      (Draft.Undone tree) := by
  rw [Leads, replaceWith_run hsound hn hreads]
  exact ⟨_, rfl, .replaced hn hrereads hreads⟩

theorem replaceCore_makes {n : Node} {p : Production} (hsound : tree.Sound [])
    (hn : n ∈ tree.root.descendants) (h : ∀ u, m.Rereads tree n p u) (t : Text)
    (expected : String) : Makes tree m (replaceCore n t p expected) :=
  Makes.validFragment hsound fun _ _ hreads _ => replaceWith_leads hsound hn (h _) hreads

/-- An edit of a part of the node called `id`. -/
theorem Makes.part {id : NodeId} {part : Node → Except EditError Node} {f : Node → Edit Unit}
    (hpart : ∀ {n m}, part n = .ok m → m ∈ n.descendants)
    (h : ∀ {n k}, tree.get id = .ok n → part n = .ok k → k ∈ tree.root.descendants →
      Makes tree m (f k)) :
    Makes tree m (do f (← part (← tree.get id))) := by
  refine Makes.query fun n hget => ?_
  refine Makes.query fun k hk => ?_
  exact h hget hk (Node.mem_descendants_trans (Tree.mem_of_get hget).1 (hpart hk))

theorem insertRule_makes (hsound : tree.Sound []) {container : NodeId} {index : Nat} {t : Text}
    (h : ∀ {n list}, tree.get container = .ok n → n.ruleList = .ok list →
      m.Inserts tree list index (if tree.inKeyframes list then .keyframeRule else .rule) t) :
    Makes tree m (insertRule container index t) := by
  refine Leads.tree (Makes.part Node.mem_of_ruleList fun hget hpart hlist => ?_)
  refine insertItem_makes hsound hlist (fun l hl => ?_) (h hget hpart) "rule"
  rw [Node.slot_of_ruleList hpart hl]
  split <;> rfl

theorem insertSelector_makes (hsound : tree.Sound []) {container : NodeId} {index : Nat} {t : Text}
    (h : ∀ {n list}, tree.get container = .ok n → n.selectorList = .ok list →
      m.Inserts tree list index .selector t) :
    Makes tree m (insertSelector container index t) := by
  refine Leads.tree (Makes.part Node.mem_of_selectorList fun hget hpart hlist => ?_)
  refine insertItem_makes hsound hlist (fun l hl => ?_) (h hget hpart) "selector"
  rw [Node.slot_of_selectorList hpart hl]
  rfl

theorem insertDeclaration_makes (hsound : tree.Sound []) {container : NodeId} {index : Nat}
    {t : Text} (h : ∀ {n list}, tree.get container = .ok n → n.declarationList = .ok list →
      m.Inserts tree list index .declaration t) :
    Makes tree m (insertDeclaration container index t) := by
  refine Leads.tree (Makes.part Node.mem_of_declarationList fun hget hpart hlist => ?_)
  refine insertItem_makes hsound hlist (fun l hl => ?_) (h hget hpart) "declaration"
  rw [Node.slot_of_declarationList hpart hl]
  rfl

theorem setSelectors_makes (hsound : tree.Sound []) (id : NodeId) (t : Text) :
    Makes tree (.setSelectors id t) (setSelectors id t) :=
  Leads.tree (Makes.part Node.mem_of_selectorList fun hget hpart hn =>
    replaceCore_makes hsound hn (fun _ => .selectors hget hpart) _ _)

theorem setDeclarations_makes (hsound : tree.Sound []) (id : NodeId) (t : Text) :
    Makes tree (.setDeclarations id t) (setDeclarations id t) := by
  refine Leads.tree (Makes.part Node.mem_of_declarationList fun {_ list} hget hpart hlist => ?_)
  cases list.listing? with
  | none => exact Makes.fail _
  | some listing =>
    refine Makes.validFragment hsound fun _ _ hreads _ => ?_
    exact replaceWith_leads hsound hlist (.declarations hget hpart) hreads

theorem setKeyframeSelectors_makes (hsound : tree.Sound []) (id : NodeId) (t : Text) :
    Makes tree (.setKeyframeSelectors id t) (setKeyframeSelectors id t) := by
  refine Leads.tree (Makes.query fun n hget => ?_)
  cases htarget : n.keyframeSelectors? with
  | none => exact Makes.fail _
  | some target =>
    refine replaceCore_makes hsound ?_ (fun _ => .keyframes hget htarget) t "keyframe selectors"
    exact Node.mem_descendants_trans (Tree.mem_of_get hget).1
      (Node.mem_of_head? (Node.head?_of_keyframeSelectors? htarget).2)

theorem setPrelude_makes (hsound : tree.Sound []) (id : NodeId) (t : Text) :
    Makes tree (.setPrelude id t) (setPrelude id t) := by
  refine Leads.tree (Makes.query fun n hget => ?_)
  cases htarget : n.prelude? with
  | none => exact Makes.fail _
  | some target =>
    dsimp only
    split
    next => exact Makes.fail _
    next =>
      refine replaceCore_makes hsound ?_ (fun _ => .prelude hget htarget) _ _
      exact Node.mem_descendants_trans (Tree.mem_of_get hget).1
        (Node.mem_of_head? (Node.head?_of_prelude? htarget))

theorem replaceText_makes (hsound : tree.Sound []) (id : NodeId) (t : Text) :
    Makes tree (.replaceText id t) (replaceText id t) := by
  refine Leads.tree (Makes.query fun n hget => ?_)
  obtain ⟨hn, rfl⟩ := Tree.mem_of_get hget
  cases hp : tree.production? n with
  | none => exact Makes.fail _
  | some p =>
    exact Makes.fragment fun _ _ hreads => replaceWith_leads hsound hn (.text hget hp) hreads

theorem setProperty_makes (hsound : tree.Sound []) (id : NodeId) (name : Text) :
    Makes tree (.setProperty id name) (setProperty id name) := by
  refine Leads.tree (Makes.query fun d hget => ?_)
  obtain ⟨n, hn, rfl, hd⟩ := Tree.mem_of_declaration hget
  refine Makes.validFragment hsound fun fragment tree' hreads _ => ?_
  split
  next hname =>
    have hfragment : (tree.reads .declaration (d.renamed name)).1 = fragment :=
      congrArg Prod.fst hreads
    exact replaceWith_leads hsound hn (.property hn hd (hfragment ▸ hname)) hreads
  next => exact undone_reject hsound hreads

theorem setValue_makes (hsound : tree.Sound []) (id : NodeId) (t : Text) :
    Makes tree (.setValue id t) (setValue id t) := by
  refine Leads.tree (Makes.query fun d hget => ?_)
  obtain ⟨n, hn, rfl, hd⟩ := Tree.mem_of_declaration hget
  have hvalue : d.value ∈ n.children := by
    rw [(hsound.formed n hn).children_declaration hd]
    exact List.mem_cons_self
  dsimp only
  split
  next => exact Makes.fail _
  next =>
    refine replaceCore_makes hsound ?_ (fun _ => .value hn hd) _ _
    exact Node.mem_descendants_trans hn (Node.mem_descendants_child hvalue)

theorem addMark_run {id : NodeId} (hsound : tree.Sound []) (h : tree.IsDeclaration id)
    (value : Node) :
    (addMark id value).run.run ⟨tree, []⟩ = (.ok (), ⟨tree.marked id value, []⟩) := by
  have halike := Tree.Alike.makeRoom id
    (some (.ofText value.span.stop " !important".toList)) tree
  have hdeclaration := h.alike halike
  rw [addMark, run_alter, run_tree, run_alter]
  exact changeDeclaration_run (hsound.alike halike).formed hdeclaration _

theorem dropMark_run {id : NodeId} (hsound : tree.Sound []) (h : tree.IsDeclaration id)
    (mark : Node) :
    (dropMark id mark).run.run ⟨tree, []⟩ = (.ok (), ⟨tree.unmarked id mark, []⟩) := by
  rw [dropMark, run_of (changeDeclaration_run hsound.formed h _)]
  rfl

/-- A declaration is made important or not. -/
theorem setImportant_run {id : NodeId} {d : Declaration} {value : Bool} (hsound : tree.Sound [])
    (hget : tree.declaration id = .ok d) (h : d.isImportant ≠ value) :
    (setImportant id value).run.run ⟨tree, []⟩ = (.ok (), ⟨(match d.important with
      | none => tree.marked id d.value
      | some mark => tree.unmarked id mark).respan id, [.modified id]⟩) := by
  obtain ⟨n, hn, rfl, hd⟩ := Tree.mem_of_declaration hget
  have hdeclaration := hsound.isDeclaration hn (by rw [hd]; rfl)
  rw [setImportant, run_tree, hget, run_of (liftM_run d), if_pos h]
  cases d.important with
  | none => exact (run_of (addMark_run hsound hdeclaration d.value) _).trans rfl
  | some mark => exact (run_of (dropMark_run hsound hdeclaration mark) _).trans rfl

theorem setImportant_makes (hsound : tree.Sound []) {id : NodeId} {value : Bool}
    (hm : value = true → m = .setImportant id true)
    (h : ∀ d, tree.declaration id = .ok d → d.isImportant ≠ value) :
    Makes tree m (setImportant id value) := by
  cases hget : tree.declaration id with
  | error e =>
    have hfail : (setImportant id value).run.run ⟨tree, []⟩ = (.error e, ⟨tree, []⟩) := by
      rw [setImportant, run_tree, hget]
      rfl
    rw [Makes, Leads, hfail]
    exact undone_start tree
  | ok d =>
    obtain ⟨n, hn, rfl, hd⟩ := Tree.mem_of_declaration hget
    rw [Makes, Leads, setImportant_run hsound hget (h d hget)]
    cases hmark : d.important with
    | none =>
      have hvalue : value = true := by simpa [Declaration.isImportant, hmark] using h d hget
      exact ⟨_, rfl, .marked hn hd hmark (hm hvalue)⟩
    | some mark => exact ⟨_, rfl, .unmarked hn hd hmark⟩

theorem wrapComment_run {id : NodeId} {d : Declaration} (hsound : tree.Sound [])
    (hget : tree.declaration id = .ok d) :
    (wrapComment id).run.run ⟨tree, []⟩ = (.ok (), ⟨tree.wrapped id d, []⟩) := by
  obtain ⟨n, hn, rfl, hd⟩ := Tree.mem_of_declaration hget
  have hdeclaration := hsound.isDeclaration hn (by rw [hd]; rfl)
  have halike := Tree.Alike.makeRoom n.id
    (some (.ofText d.name.span.start ['/', '*', ' '])) tree
  have hmoved := hsound.alike halike
  have hopened := hmoved.refit n.id (Node.refits_openComment d.name.span.start)
  have hdeclaration' := (hdeclaration.alike halike).update
    (f := (·.mapDeclaration (·.openComment d.name.span.start))) (Node.id_mapDeclaration _)
    (Node.kind_mapDeclaration _)
  rw [wrapComment, run_tree, hget, run_of (liftM_run d), run_alter,
    run_of (changeDeclaration_run hmoved.formed (hdeclaration.alike halike) _), run_tree, run_alter,
    run_tree]
  dsimp only
  obtain ⟨-, d', -, -, hget'⟩ := (hdeclaration'.alike (.makeRoom n.id _ _)).declaration
    (hopened.alike (.makeRoom n.id _ _)).formed
  rw [hget', run_of (liftM_run d')]
  rfl

theorem dropClosing_run {id : NodeId} {d : Declaration} (hsound : tree.Sound [])
    (hget : tree.declaration id = .ok d) :
    (dropClosing id).run.run ⟨tree, []⟩ = (.ok (), ⟨tree.closingDropped id d, []⟩) ∧
      (tree.closingDropped id d).IsDeclaration id := by
  obtain ⟨n, hn, rfl, hd⟩ := Tree.mem_of_declaration hget
  have hdeclaration := hsound.isDeclaration hn (by rw [hd]; rfl)
  rw [dropClosing, run_tree, hget, run_of (liftM_run d), Tree.closingDropped]
  cases d.closing with
  | none => exact ⟨rfl, hdeclaration⟩
  | some closing =>
    have halike := Tree.Alike.closeGap ⟨closing.fullSpan.start, closing.span.stop⟩ none tree
    have hmoved := hdeclaration.alike halike
    obtain ⟨-, d', -, -, hget'⟩ := hmoved.declaration (hsound.alike halike).formed
    dsimp only
    rw [run_alter, run_tree, hget', run_of (liftM_run d')]
    exact ⟨rfl, hmoved.update Node.id_dropClosing Node.kind_dropClosing⟩

theorem dropOpening_run {id : NodeId} {d : Declaration} (hsound : tree.Sound [])
    (hget : tree.declaration id = .ok d) :
    (dropOpening id).run.run ⟨tree, []⟩ = (.ok (), ⟨tree.openingDropped id d, []⟩) := by
  obtain ⟨n, hn, rfl, hd⟩ := Tree.mem_of_declaration hget
  have hdeclaration := hsound.isDeclaration hn (by rw [hd]; rfl)
  rw [dropOpening, run_tree, hget, run_of (liftM_run d), Tree.openingDropped]
  cases d.opening with
  | none => rfl
  | some opening =>
    have halike := Tree.Alike.closeGap ⟨opening.span.start, d.name.span.start⟩ none tree
    dsimp only
    rw [run_alter]
    exact changeDeclaration_run (hsound.alike halike).formed (hdeclaration.alike halike) _

/-- An enabled declaration is disabled. -/
theorem setDisabled_run_true {id : NodeId} {d : Declaration} (hsound : tree.Sound [])
    (hget : tree.declaration id = .ok d) (h : d.opening = none) :
    (setDisabled id true).run.run ⟨tree, []⟩ =
      (.ok (), ⟨(tree.wrapped id d).respan id, [.modified id]⟩) := by
  rw [setDisabled, run_tree, hget, run_of (liftM_run d),
    if_pos (by simp [Declaration.isDisabled, h]), if_pos rfl]
  exact (run_of (wrapComment_run hsound hget) _).trans rfl

/-- A disabled declaration is enabled. -/
theorem setDisabled_run_false {id : NodeId} {d : Declaration} (hsound : tree.Sound [])
    (hget : tree.declaration id = .ok d) (h : d.opening ≠ none) :
    ∃ d', (tree.closingDropped id d).declaration id = .ok d' ∧
      (setDisabled id false).run.run ⟨tree, []⟩ =
        (.ok (), ⟨((tree.closingDropped id d).openingDropped id d').respan id, [.modified id]⟩) := by
  obtain ⟨hrun, hdeclaration⟩ := dropClosing_run hsound hget
  have hdropped := hsound.closingDropped id d
  obtain ⟨-, d', -, -, hget'⟩ := hdeclaration.declaration hdropped.formed
  refine ⟨d', hget', ?_⟩
  have hunwrap : (unwrapComment id).run.run ⟨tree, []⟩ =
      (.ok (), ⟨(tree.closingDropped id d).openingDropped id d', []⟩) := by
    rw [unwrapComment, run_of hrun]
    exact dropOpening_run hdropped hget'
  rw [setDisabled, run_tree, hget, run_of (liftM_run d),
    if_pos (by simpa [Declaration.isDisabled] using h), if_neg (by simp)]
  exact (run_of hunwrap _).trans rfl

theorem setDisabled_makes (hsound : tree.Sound []) {id : NodeId} {value : Bool}
    (h : ∀ d, tree.declaration id = .ok d → d.isDisabled ≠ value) :
    Makes tree (.setDisabled id value) (setDisabled id value) := by
  cases hget : tree.declaration id with
  | error e =>
    have hfail : (setDisabled id value).run.run ⟨tree, []⟩ = (.error e, ⟨tree, []⟩) := by
      rw [setDisabled, run_tree, hget]
      rfl
    rw [Makes, Leads, hfail]
    exact undone_start tree
  | ok d =>
    obtain ⟨n, hn, rfl, hd⟩ := Tree.mem_of_declaration hget
    have hvalue := h d hget
    cases value with
    | true =>
      have hopening : d.opening = none := by simpa [Declaration.isDisabled] using hvalue
      rw [Makes, Leads, setDisabled_run_true hsound hget hopening]
      exact ⟨_, rfl, .wrapped hn hd hopening rfl⟩
    | false =>
      have hopening : d.opening ≠ none := by simpa [Declaration.isDisabled] using hvalue
      obtain ⟨d', hget', hrun⟩ := setDisabled_run_false hsound hget hopening
      rw [Makes, Leads, hrun]
      exact ⟨_, rfl, .unwrapped hn hd hopening hget' rfl⟩

theorem remove_makes (hsound : tree.Sound []) (id : NodeId) : Makes tree m (remove id) := by
  refine Leads.tree (Makes.query fun n hget => ?_)
  cases hparent : tree.parent? id with
  | none => exact Makes.fail _
  | some parent =>
    dsimp only
    have hmem : parent ∈ tree.root.descendants := by
      obtain ⟨i, -, hfind⟩ := Option.bind_eq_some_iff.mp hparent
      exact List.mem_of_find?_eq_some hfind
    cases parent.listing? with
    | some listing => exact removeItem_makes hmem _
    | none =>
      dsimp only
      split
      next hmarks =>
        refine setImportant_makes hsound (fun hvalue => by cases hvalue) fun d hget => ?_
        obtain ⟨m, hm, hid, hd⟩ := Tree.mem_of_declaration hget
        obtain rfl := List.inj_on_of_nodup_map hsound.nodup hm hmem hid
        cases hmark : d.important with
        | none => simp [hd, hmark] at hmarks
        | some mark => simp [Declaration.isImportant, hmark]
      next => exact Makes.fail _

theorem moveTrivia_makes {f : List Token → List Token} (hf : Token.Regroups f)
    (hm : m.MovesTrivia) : Makes tree m (moveTrivia f) :=
  ⟨.trivia, rfl, .regrouped hf hm⟩

end Edit

namespace Mutation

/-- A declaration is already as it is to be made. -/
def InForce (tree : Tree) : Mutation → Prop
  | .setImportant id value => ∃ d, tree.declaration id = .ok d ∧ d.isImportant = value
  | .setDisabled id value => ∃ d, tree.declaration id = .ok d ∧ d.isDisabled = value
  | _ => False

variable {tree : Tree} {m : Mutation}

/-- A mutation of a sound tree makes one change and reports it, or fails without a trace. -/
theorem steps_makes (hsound : tree.Sound []) (hforce : ¬m.InForce tree) :
    Edit.Makes tree m m.steps := by
  cases m with
  | insertRule container index text => exact Edit.insertRule_makes hsound .rule
  | insertSelector container index text => exact Edit.insertSelector_makes hsound .selector
  | insertDeclaration container index text => exact Edit.insertDeclaration_makes hsound .declaration
  | appendRule container text =>
    refine Edit.Leads.tree (Edit.Makes.query fun nodes hnodes => ?_)
    refine Edit.insertRule_makes hsound fun hget hlist => ?_
    rw [Tree.rules_of hget hlist] at hnodes
    exact Except.ok.inj hnodes ▸ .lastRule hget hlist
  | appendSelector container text =>
    refine Edit.Leads.tree (Edit.Makes.query fun nodes hnodes => ?_)
    refine Edit.insertSelector_makes hsound fun hget hlist => ?_
    rw [Tree.selectors_of hget hlist] at hnodes
    exact Except.ok.inj hnodes ▸ .lastSelector hget hlist
  | appendDeclaration container text =>
    refine Edit.Leads.tree (Edit.Makes.query fun nodes hnodes => ?_)
    refine Edit.insertDeclaration_makes hsound fun hget hlist => ?_
    rw [Tree.declarations_of hget hlist] at hnodes
    exact Except.ok.inj hnodes ▸ .lastDeclaration hget hlist
  | removeRule container index =>
    exact Edit.Leads.tree (Edit.Makes.part Node.mem_of_ruleList fun _ _ hlist =>
      Edit.removeItem_makes hlist index)
  | removeSelector container index =>
    exact Edit.Leads.tree (Edit.Makes.part Node.mem_of_selectorList fun _ _ hlist =>
      Edit.removeItem_makes hlist index)
  | removeDeclaration container index =>
    exact Edit.Leads.tree (Edit.Makes.part Node.mem_of_declarationList fun _ _ hlist =>
      Edit.removeItem_makes hlist index)
  | remove node => exact Edit.remove_makes hsound node
  | setSelectors node text => exact Edit.setSelectors_makes hsound node text
  | setDeclarations node text => exact Edit.setDeclarations_makes hsound node text
  | setProperty node name => exact Edit.setProperty_makes hsound node name
  | setValue node text => exact Edit.setValue_makes hsound node text
  | setPrelude node text => exact Edit.setPrelude_makes hsound node text
  | setKeyframeSelectors node text => exact Edit.setKeyframeSelectors_makes hsound node text
  | replaceText node text => exact Edit.replaceText_makes hsound node text
  | setImportant node value =>
    exact Edit.setImportant_makes hsound (fun hvalue => hvalue ▸ rfl) fun d hd heq =>
      hforce ⟨d, hd, heq⟩
  | setDisabled node value =>
    exact Edit.setDisabled_makes hsound fun d hd heq => hforce ⟨d, hd, heq⟩
  | trailingToLeading => exact Edit.moveTrivia_makes Token.regroups_trailingToLeading (Or.inl rfl)
  | leadingToTrailing => exact Edit.moveTrivia_makes Token.regroups_leadingToTrailing (Or.inr rfl)

/-- A mutation to what is in force does nothing. -/
theorem steps_inForce (hforce : m.InForce tree) :
    m.steps.run.run ⟨tree, []⟩ = (.ok (), ⟨tree, []⟩) := by
  cases m with
  | setImportant id value =>
    obtain ⟨d, hd, rfl⟩ := hforce
    show (Edit.setImportant id d.isImportant).run.run ⟨tree, []⟩ = _
    rw [Edit.setImportant, Edit.run_tree, hd, Edit.run_of (Edit.liftM_run d), if_neg (by simp)]
    rfl
  | setDisabled id value =>
    obtain ⟨d, hd, rfl⟩ := hforce
    show (Edit.setDisabled id d.isDisabled).run.run ⟨tree, []⟩ = _
    rw [Edit.setDisabled, Edit.run_tree, hd, Edit.run_of (Edit.liftM_run d), if_neg (by simp)]
    rfl
  | _ => exact hforce.elim

end Mutation

end CssTree
