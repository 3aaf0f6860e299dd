import CssTree.Proofs.Edit.Splice
import CssTree.Proofs.Fragment
import CssTree.Proofs.Shape

namespace CssTree

/-- The text in front of the place where an item is put into a list, and the text that is put in
there for it. -/
inductive Node.Splices (root list : Node) (listing : Listing) (index : Nat) (item : Node)
    (t : Text) : Text → Text → Prop
  /-- Right before the first token of another item, behind what leads it. -/
  | before {target : Node} {front : List Token} {gap : Text} :
      list.children[index]? = some target → root.ahead? target.id = some front →
      target.HasGap gap →
      Splices root list listing index item t
        (Token.renderAll front ++ Lexeme.render target.leading)
        (t ++ listing.kind.separatorAfter item ++ gap)
  /-- Behind the last item. -/
  | behind {last : Node} {front : List Token} {gap : Text} :
      index = list.children.length → list.children.getLast? = some last →
      root.ahead? last.id = some front → last.HasGap gap →
      Splices root list listing index item t (Token.renderAll front ++ last.render)
        (listing.kind.separatorAfter last ++ gap ++ t ++
          if listing.kind.lacksSemicolon item then [';'] else [])
  /-- Behind what opens a list without items. -/
  | first {front : List Token} {gap : Text} :
      index = 0 → list.children = [] → root.ahead? list.id = some front →
      (∀ c ∈ gap, isBlank c) →
      Splices root list listing index item t
        (Token.renderAll front ++ Token.renderAll listing.opening)
        (gap ++ t ++ if listing.kind.lacksSemicolon item then [';'] else [])

namespace Tree

variable {tree : Tree} {list fragment : Node} {listing : Listing} {loose : List Entry}
  {index : Nat} {t : Text}

/-- A tree with an item put into a list. -/
def inserted (list : Node) (listing : Listing) (index : Nat) (item : Node) (tree : Tree) : Tree :=
  (match listing.items.get? index with
    | some target => tree.insertedBefore list listing.kind index target item
    | none => tree.insertedAfter list listing item).respan list.id

/-- What an insertion makes of the text and of the list. -/
theorem Sound.inserted (h : tree.Sound loose) (hproper : ∀ x ∈ tree.root.descendants, x.Proper)
    (hlist : list ∈ tree.root.descendants) (hlisting : list.listing? = some listing)
    (hitems : ∀ n ∈ list.children, n.tokens ≠ []) (hindex : index ≤ list.children.length)
    (hfragment : fragment.Proper) (htokens : fragment.tokens ≠ []) (ht : fragment.render = t) :
    let tree' := tree.inserted list listing index fragment
    ∃ pre x post, tree.root.Splices list listing index fragment t pre x ∧
      tree.render = pre ++ post ∧ tree'.render = pre ++ x ++ post ∧
      ∃ list', tree'.find? list.id = some list' ∧
        list'.children.map Node.id = (list.children.map Node.id).insertIdx index fragment.id := by
  intro tree'
  subst ht
  have hchildren := (h.formed list hlist).children_listing hlisting
  have hget := (h.formed list hlist).getElem?_children hlisting index
  have hrespan : ∀ {n : Node}, n.respan.children.map Node.id = n.children.map Node.id :=
    Node.ids_children_of_skeleton (Node.skeleton_respan _)
  cases htarget : listing.items.get? index with
  | some target =>
    have hmem : target ∈ list.children := List.mem_of_getElem? (hget.trans htarget)
    obtain ⟨front, gap, back, hahead, hgap, hrender, hrender', list', hfind, hids⟩ :=
      h.splicedBefore hlist hlisting htarget (hitems target hmem) hfragment htokens
    have htree' : tree' = (tree.insertedBefore list listing.kind index target fragment).respan
        list.id := by
      show Tree.inserted list listing index fragment tree = _
      rw [Tree.inserted, htarget]
    refine ⟨_, _, back, .before (hget.trans htarget) hahead hgap, hrender, ?_, list'.respan, ?_, ?_⟩
    · rw [htree', render_respan, hrender']
    · rw [htree', find?_respan hfind]
    · rw [hrespan, hids]
  | none =>
    have hsize : index = listing.items.size := by
      rw [← hget, List.getElem?_eq_none_iff] at htarget
      rw [← listing.length_nodes, ← hchildren]
      omega
    obtain ⟨front, back, hplace, hrender, hrender', list', hfind, hids⟩ :=
      h.splicedAfter hproper hlist hlisting hfragment htokens
    generalize Lexeme.render (gapAfter _ _ _ _ _) = gap at hplace hrender'
    have htree' : tree' = (tree.insertedAfter list listing fragment).respan list.id := by
      show Tree.inserted list listing index fragment tree = _
      rw [Tree.inserted, htarget]
    have hresult : tree'.render = front ++ ((listing.items.last?.map
        listing.kind.separatorAfter).getD [] ++ gap ++ fragment.render ++
          if listing.kind.lacksSemicolon fragment then [';'] else []) ++ back := by
      rw [htree', render_respan, hrender']
    refine ⟨front, _, back, ?_, hrender, hresult, list'.respan, ?_, ?_⟩
    · have hlength : index = list.children.length := by
        rw [hsize, ← listing.length_nodes, ← hchildren]
      have hlast : listing.items.last? = list.children.getLast? := by
        rw [listing.last?_nodes, hchildren]
      rw [hlast] at hplace ⊢
      cases hchild : list.children.getLast? with
      | some last =>
        rw [hchild] at hplace
        obtain ⟨before, hahead, rfl, hgap⟩ := hplace
        exact .behind hlength hchild hahead hgap
      | none =>
        rw [hchild] at hplace
        obtain ⟨before, hahead, rfl, hgap⟩ := hplace
        have hempty : list.children = [] := List.getLast?_eq_none_iff.mp hchild
        exact .first (by rw [hlength, hempty, List.length_nil]) hempty hahead hgap
    · rw [htree', find?_respan hfind]
    · rw [hrespan, hids, hsize]

/-- A text that can be read as an item is the text of that item, and is not empty. -/
theorem Sound.text_of_reads {tree' : Tree} {p : Production} (h : tree.Sound loose) (hp : p.IsItem)
    (hreads : tree.reads p t = (fragment, tree')) (herror : fragment.isError = false) :
    fragment.tokens ≠ [] ∧ fragment.render = t := by
  have hsheet : p ≠ .styleSheet := by
    rintro rfl
    simp [Production.IsItem] at hp
  obtain ⟨rfl, -⟩ := Prod.mk.inj hreads
  let config := if p = .declaration then { tree.config with comments := true } else tree.config
  change (p.parse config tree.arena t).1.isError = false at herror
  have htokens : (p.parse config tree.arena t).1.tokens ≠ [] :=
    (p.complete_parse config h.fresh t).2 hp (by simpa [Node.isError] using herror)
  have hparse : (p.parse config tree.arena t).1 =
      (p.fragment.run (.start config tree.arena t)).1 := by
    show (p.parser.run (.start config tree.arena t)).1 = _
    rw [Production.parser, if_neg hsheet]
  refine ⟨htokens, ?_⟩
  show (p.parse config tree.arena t).1.render = t
  rw [hparse] at htokens ⊢
  exact p.render_fragment_of_tokens hsheet config h.fresh t htokens

end Tree

namespace Edit

variable {tree tree' : Tree} {list fragment : Node} {listing : Listing} {index : Nat} {t : Text}
  {p : Production}

/-- A text that can be read is inserted wherever there is a place in the list. -/
theorem insertItem_run (hsound : tree.Sound []) (hlist : list ∈ tree.root.descendants)
    (hlisting : list.listing? = some listing) (hindex : index ≤ listing.items.size)
    (hreads : tree.reads p t = (fragment, tree')) (herror : fragment.isError = false)
    (expected : String) :
    (insertItem list index t p expected).run.run ⟨tree, []⟩ =
      (.ok (), ⟨tree'.inserted list listing index fragment, [.inserted list.id fragment.id]⟩) := by
  obtain ⟨hread, hcomplete, hroot, -⟩ := hsound.reads hreads
  have hfragment : fragment.Formed := hcomplete.formed _ fragment.mem_descendants_self
  rw [insertItem, hlisting]
  dsimp only
  rw [if_neg (Nat.not_lt.mpr hindex), Tree.inserted]
  show (validFragment p t expected >>= _).run.run _ = _
  rw [run_of (validFragment_run hreads herror)]
  cases listing.items.get? index with
  | some target =>
    dsimp only
    rw [run_of (insertBefore_run hfragment)]
    rfl
  | none =>
    dsimp only
    rw [run_of (insertAfter_run hread.formed hfragment fun n hn hneeds => ?_)]
    · rfl
    · have hchild := (hsound.formed list hlist).mem_children_last? hlisting hn
      have hmem := Node.mem_descendants_trans hlist (Node.mem_descendants_child hchild)
      rw [← hroot] at hmem
      exact hread.isDeclaration hmem (declaration?_of_needsSemicolon hneeds)

end Edit

namespace Mutation

variable {tree : Tree} {m : Mutation} {list : Node} {index : Nat} {p : Production} {t : Text}

/-- The list of an insertion is one, and the edit consists in inserting into it. -/
theorem Inserts.steps (h : m.Inserts tree list index p t) :
    list ∈ tree.root.descendants ∧ p.IsItem ∧ (∃ listing, list.listing? = some listing) ∧
      ∃ expected, m.steps.run.run ⟨tree, []⟩ =
        (Edit.insertItem list index t p expected).run.run ⟨tree, []⟩ := by
  have hrules : ∀ {container : NodeId} {n list : Node}, tree.get container = .ok n →
      n.ruleList = .ok list → list ∈ tree.root.descendants ∧
        (if tree.inKeyframes list then Production.keyframeRule else .rule).IsItem ∧
          ∃ listing, list.listing? = some listing := by
    intro container n list hget hlist
    refine ⟨Node.mem_descendants_trans (Tree.mem_of_get hget).1 (Node.mem_of_ruleList hlist), ?_, ?_⟩
    · split <;> simp [Production.IsItem]
    · rw [Node.listing?]
      rcases Node.kind_of_ruleList hlist with hkind | hkind <;> exact ⟨_, by rw [hkind]⟩
  have hselectors : ∀ {container : NodeId} {n list : Node}, tree.get container = .ok n →
      n.selectorList = .ok list → list ∈ tree.root.descendants ∧
        ∃ listing, list.listing? = some listing := by
    intro container n list hget hlist
    refine ⟨Node.mem_descendants_trans (Tree.mem_of_get hget).1 (Node.mem_of_selectorList hlist), ?_⟩
    rw [Node.listing?]
    exact ⟨_, by rw [Node.kind_of_selectorList hlist]⟩
  have hdeclarations : ∀ {container : NodeId} {n list : Node}, tree.get container = .ok n →
      n.declarationList = .ok list → list ∈ tree.root.descendants ∧
        ∃ listing, list.listing? = some listing := by
    intro container n list hget hlist
    refine ⟨Node.mem_descendants_trans (Tree.mem_of_get hget).1
      (Node.mem_of_declarationList hlist), ?_⟩
    rw [Node.listing?]
    exact ⟨_, by rw [Node.kind_of_declarationList hlist]⟩
  cases h with
  | @rule container n list index t hget hlist =>
    obtain ⟨hmem, hitem, hlisting⟩ := hrules hget hlist
    refine ⟨hmem, hitem, hlisting, "rule", ?_⟩
    rw [Mutation.steps, Edit.insertRule, Edit.run_tree, hget, Edit.run_of (Edit.liftM_run n), hlist,
      Edit.run_of (Edit.liftM_run list)]
  | @selector container n list index t hget hlist =>
    obtain ⟨hmem, hlisting⟩ := hselectors hget hlist
    refine ⟨hmem, by simp [Production.IsItem], hlisting, "selector", ?_⟩
    rw [Mutation.steps, Edit.insertSelector, Edit.run_tree, hget, Edit.run_of (Edit.liftM_run n),
      hlist, Edit.run_of (Edit.liftM_run list)]
  | @declaration container n list index t hget hlist =>
    obtain ⟨hmem, hlisting⟩ := hdeclarations hget hlist
    refine ⟨hmem, by simp [Production.IsItem], hlisting, "declaration", ?_⟩
    rw [Mutation.steps, Edit.insertDeclaration, Edit.run_tree, hget, Edit.run_of (Edit.liftM_run n),
      hlist, Edit.run_of (Edit.liftM_run list)]
  | @lastRule container n list t hget hlist =>
    obtain ⟨hmem, hitem, hlisting⟩ := hrules hget hlist
    have hchildren := Tree.rules_of hget hlist
    refine ⟨hmem, hitem, hlisting, "rule", ?_⟩
    rw [Mutation.steps, Edit.appendRule, Edit.run_tree, hchildren, Edit.run_of (Edit.liftM_run _),
      Edit.insertRule, Edit.run_tree, hget, Edit.run_of (Edit.liftM_run n), hlist,
      Edit.run_of (Edit.liftM_run list)]
  | @lastSelector container n list t hget hlist =>
    obtain ⟨hmem, hlisting⟩ := hselectors hget hlist
    have hchildren := Tree.selectors_of hget hlist
    refine ⟨hmem, by simp [Production.IsItem], hlisting, "selector", ?_⟩
    rw [Mutation.steps, Edit.appendSelector, Edit.run_tree, hchildren,
      Edit.run_of (Edit.liftM_run _), Edit.insertSelector, Edit.run_tree, hget,
      Edit.run_of (Edit.liftM_run n), hlist, Edit.run_of (Edit.liftM_run list)]
  | @lastDeclaration container n list t hget hlist =>
    obtain ⟨hmem, hlisting⟩ := hdeclarations hget hlist
    have hchildren := Tree.declarations_of hget hlist
    refine ⟨hmem, by simp [Production.IsItem], hlisting, "declaration", ?_⟩
    rw [Mutation.steps, Edit.appendDeclaration, Edit.run_tree, hchildren,
      Edit.run_of (Edit.liftM_run _), Edit.insertDeclaration, Edit.run_tree, hget,
      Edit.run_of (Edit.liftM_run n), hlist, Edit.run_of (Edit.liftM_run list)]

end Mutation

namespace Session

/-- In every session, a text that can be read as an item is inserted wherever a list has a place
for it. The text of the tree changes at that place only, where the item comes in with the
separators that are missing and a gap; the list holds the items that it held and the new one. -/
theorem insertion_splices (p : Production) (config : Config) (t : Text) (calls : List Call)
    {m : Mutation} {list : Node} {index : Nat} {q : Production} {text : Text}
    (hinserts : m.Inserts (Session.run ⟨Tree.parse p config t, false⟩ calls).tree list index q text)
    (hitems : ∀ n ∈ list.children, n.tokens ≠ []) (hindex : index ≤ list.children.length)
    (haccepted : ((Session.run ⟨Tree.parse p config t, false⟩ calls).tree.reads q
      text).1.isError = false) :
    let s := Session.run ⟨Tree.parse p config t, false⟩ calls
    let item := (s.tree.reads q text).1
    let s' := (s.apply m).2.1
    (s.apply m).1 = .ok (some (.inserted list.id item.id)) ∧
      ∃ listing, list.listing? = some listing ∧
        (∃ pre x post, s.tree.root.Splices list listing index item text pre x ∧
          s.tree.render = pre ++ post ∧ s'.tree.render = pre ++ x ++ post) ∧
        ∃ list', s'.tree.find? list.id = some list' ∧
          list'.children.map Node.id = (list.children.map Node.id).insertIdx index item.id := by
  intro s item s'
  have hsound : s.tree.Sound [] := sound_run (Tree.sound_parse p config t) calls
  have hproper : ∀ x ∈ s.tree.root.descendants, x.Proper := proper_run
    (s := ⟨Tree.parse p config t, false⟩) (Tree.sound_parse p config t)
    (fun x hx => (orderly_parse p config t x hx).1) calls
  obtain ⟨hlist, hitem, ⟨listing, hlisting⟩, expected, hsteps⟩ := hinserts.steps
  obtain ⟨tree', hreads⟩ : ∃ tree', s.tree.reads q text = (item, tree') := ⟨_, rfl⟩
  obtain ⟨hread, -, hroot, -⟩ := hsound.reads hreads
  have hsize : index ≤ listing.items.size := by
    rwa [(hsound.formed list hlist).children_listing hlisting, Listing.length_nodes] at hindex
  have hrun := hsteps.trans
    (Edit.insertItem_run hsound hlist hlisting hsize hreads haccepted expected)
  obtain ⟨htokens, htext⟩ := hsound.text_of_reads hitem hreads haccepted
  have hfragment : item.Proper :=
    (Tree.orderly_of_reads hreads item item.mem_descendants_self).1
  have htree' : tree'.root = s.tree.root := hroot
  obtain ⟨pre, x, post, hsplices, hrender, hrender', hlist'⟩ := hread.inserted
    (htree' ▸ hproper) (htree' ▸ hlist) hlisting hitems hindex hfragment htokens htext
  have hafter : s'.tree = tree'.inserted list listing index item := by
    show (m.steps.run.run ⟨s.tree, []⟩).2.tree = _
    rw [hrun]
  refine ⟨?_, listing, hlisting, ⟨pre, x, post, htree' ▸ hsplices, ?_, ?_⟩, ?_⟩
  · rw [apply, hrun]
    rfl
  · rw [Tree.render, ← htree']
    exact hrender
  · rw [hafter]
    exact hrender'
  · rw [hafter]
    exact hlist'

/-- A declaration behind one that has no semicolon. -/
theorem insertion_splices_declaration :
    let s : Session := ⟨Tree.parse .styleSheet {} "a{b:c}".toList, false⟩
    let m := Mutation.appendDeclaration 7 "d: e".toList
    ∃ list index, m.Inserts s.tree list index .declaration "d: e".toList ∧
      (∀ n ∈ list.children, n.tokens ≠ []) ∧ index ≤ list.children.length ∧
      (s.tree.reads .declaration "d: e".toList).1.isError = false ∧
      (∃ pre x post, s.tree.render = pre ++ post ∧
        (s.apply m).2.1.tree.render = pre ++ x ++ post) ∧
      (s.apply m).2.1.tree.render = "a{b:c; d: e;}".toList := by
  intro s m
  have hlists : (s.tree.get 7).toOption.any (fun n => n.declarationList.toOption.any fun list =>
      list.children.all fun n => !n.tokens.isEmpty) = true := by decide +kernel
  have haccepted : (s.tree.reads .declaration "d: e".toList).1.isError = false := by decide +kernel
  cases hget : s.tree.get 7 with
  | error e => simp [hget, Except.toOption] at hlists
  | ok n =>
    cases hlist : n.declarationList with
    | error e => simp [hget, hlist, Except.toOption] at hlists
    | ok list =>
      have hitems : ∀ n ∈ list.children, n.tokens ≠ [] := by
        simpa [hget, hlist, Except.toOption] using hlists
      have hinserts : m.Inserts s.tree list list.children.length .declaration "d: e".toList :=
        .lastDeclaration hget hlist
      obtain ⟨-, -, -, ⟨pre, x, post, -, hrender, hrender'⟩, -⟩ := insertion_splices .styleSheet {}
        "a{b:c}".toList [] hinserts hitems (Nat.le_refl _) haccepted
      exact ⟨list, _, hinserts, hitems, Nat.le_refl _, haccepted,
        ⟨pre, x, post, hrender, hrender'⟩, by decide +kernel⟩

/-- An at-rule that ends without a semicolon gets none from the rule behind it, and takes that rule
in. -/
theorem insertion_runs_together :
    let s : Session := ⟨Tree.parse .styleSheet {} "@charset \"x\"".toList, false⟩
    let s' := (s.apply (.appendRule 1 "a{}".toList)).2.1
    let kinds (tree : Tree) := tree.root.children.map Node.kind
    s.tree.root.containsError = false ∧
      (s.apply (.appendRule 1 "a{}".toList)).1.toOption = some (some (.inserted 1 6)) ∧
      kinds s'.tree = [.charsetRule, .rule] ∧
      kinds (Tree.parse .styleSheet {} s'.tree.render) = [.error] := by
  decide +kernel

end Session

end CssTree
