import CssTree.Proofs.Edit.Cut
import CssTree.Proofs.Shape

namespace CssTree

/-- A removal: the list and the place in it. -/
inductive Mutation.Removes (tree : Tree) : Mutation → Node → Nat → Prop
  | rule {container : NodeId} {n list : Node} {index : Nat} :
      tree.get container = .ok n → n.ruleList = .ok list →
      Removes tree (.removeRule container index) list index
  | selector {container : NodeId} {n list : Node} {index : Nat} :
      tree.get container = .ok n → n.selectorList = .ok list →
      Removes tree (.removeSelector container index) list index
  | declaration {container : NodeId} {n list : Node} {index : Nat} :
      tree.get container = .ok n → n.declarationList = .ok list →
      Removes tree (.removeDeclaration container index) list index
  | item {list n : Node} {listing : Listing} {index : Nat} :
      list ∈ tree.root.descendants → list.listing? = some listing →
      list.children[index]? = some n → Removes tree (.remove n.id) list index

/-- What goes with an item of a list: `gone` out of the tokens, behind those of `front`, and `x` out
of the text, behind `pre`. -/
inductive Node.Cuts (root list : Node) (index : Nat) : List Token → List Token → Text → Text → Prop
  /-- All from the first token of the item up to that of the next item; what leads the item
  stays. -/
  | upTo {removed next : Node} {front separator : List Token} :
      list.children[index]? = some removed → list.children[index + 1]? = some next →
      root.ahead? removed.id = some front →
      root.ahead? next.id = some (front ++ removed.tokens ++ separator) →
      Cuts root list index front (removed.tokens ++ separator)
        (Token.renderAll front ++ Lexeme.render removed.leading)
        (removed.body ++ Token.renderAll separator ++ Lexeme.render next.leading)
  /-- The last item. -/
  | last {removed : Node} {front : List Token} :
      list.children[index]? = some removed → index + 1 = list.children.length →
      (list.kind = .selectorList → index = 0) → root.ahead? removed.id = some front →
      Cuts root list index front removed.tokens (Token.renderAll front) removed.render
  /-- The last of several selectors, with the comma in front of it. -/
  | lastSelector {removed : Node} {front : List Token} {comma : Token} :
      list.children[index]? = some removed → index + 1 = list.children.length →
      list.kind = .selectorList → 0 < index → comma.kind = .comma →
      root.ahead? removed.id = some (front ++ [comma]) →
      Cuts root list index front (comma :: removed.tokens) (Token.renderAll front)
        (comma.render ++ removed.render)

theorem Node.map_content_setLeading (trivia : List Lexeme) (n : Node) :
    (n.setLeading trivia).tokens.map Token.content = n.tokens.map Token.content := by
  rw [tokens_setLeading]
  cases n.tokens <;> rfl

/-- In the tree `root'` a node lacks one of the children that it has in `root`; otherwise only spans
and texts differ. -/
def Node.Loses (root list : Node) (index : Nat) (root' : Node) : Prop :=
  ∃ f : Node → Node, (∀ m, (f m).id = m.id) ∧ (f list).children = list.children.eraseIdx index ∧
    root'.skeleton = (root.update list.id f).skeleton

namespace Node.Loses

variable {root root' list removed : Node} {index : Nat}

/-- The ids of the nodes that are lost, and of those that stay. -/
theorem ids (hnodup : (root.descendants.map Node.id).Nodup) (hlist : list ∈ root.descendants)
    (hget : list.children[index]? = some removed) (h : root.Loses list index root') :
    (root.descendants.map Node.id).Perm
      (removed.descendants.map Node.id ++ root'.descendants.map Node.id) := by
  obtain ⟨f, hf, hchildren, hskeleton⟩ := h
  rw [ids_of_skeleton hskeleton]
  exact ids_update_child hnodup hlist (hf list) hget hchildren

theorem children (hfind : root.find? list.id = some list) (h : root.Loses list index root') :
    ∃ list', root'.find? list.id = some list' ∧
      list'.children.map Node.id = (list.children.map Node.id).eraseIdx index := by
  obtain ⟨f, hf, hchildren, hskeleton⟩ := h
  have hfind' := congrArg (Node.find? list.id) hskeleton
  rw [find?_skeleton, find?_skeleton, find?_update list.id hf, hfind] at hfind'
  obtain ⟨list', hlist', heq⟩ := Option.map_eq_some_iff.mp hfind'
  refine ⟨list', hlist', ?_⟩
  rw [ids_children_of_skeleton heq, hchildren, List.eraseIdx_map]

end Node.Loses

namespace Tree

variable {tree : Tree} {list removed next : Node} {listing : Listing} {index : Nat}

/-- A list that is exchanged for one with an item less. -/
theorem Sound.loses {tree' : Tree} {g : Listing → Listing} (h : tree.Sound [])
    (hlist : list ∈ tree.root.descendants) (hlisting : list.listing? = some listing)
    (hnodes : (g listing).nodes = listing.nodes.eraseIdx index)
    (halike : (tree.update list.id (·.mapListing g)).root.skeleton = tree'.root.skeleton) :
    tree.root.Loses list index tree'.root := by
  refine ⟨(·.mapListing g), Node.id_mapListing g, ?_, halike.symm⟩
  rw [(h.formed list hlist).children_listing hlisting, ← hnodes]
  show (list.mapListing g).children = _
  rw [Node.mapListing_of hlisting]
  exact Listing.nodes_elements _

theorem Sound.loses_removeBefore (h : tree.Sound []) (hlist : list ∈ tree.root.descendants)
    (hlisting : list.listing? = some listing) (hget : listing.items.get? index = some removed) :
    tree.root.Loses list index (tree.removeBefore list index removed next).root := by
  refine h.loses hlist hlisting (g := (·.remove index)) ?_ ?_
  · obtain ⟨front, separator, back, hpairs, hindex⟩ := Listing.exists_item hget
    rw [Listing.nodes, Listing.nodes, Punctuated.values, Punctuated.values,
      Listing.pairs_remove hpairs hindex, hpairs, ← hindex]
    simp [List.eraseIdx_append_of_length_le]
  · have halike := ((Alike.update next.id (Node.skeleton_setLeading [])
      ((tree.update list.id (·.mapListing (·.remove index))).free removed)).trans
        (.closeGap ⟨removed.coreStart, next.coreStart⟩ none _)).trans
          (.update next.id (Node.skeleton_prependLeading removed.leading) _)
    exact halike.root.symm

theorem Sound.loses_removeLast (h : tree.Sound []) (hlist : list ∈ tree.root.descendants)
    (hlisting : list.listing? = some listing) (hget : listing.items.get? index = some removed)
    (hnext : listing.items.get? (index + 1) = none) :
    tree.root.Loses list index (tree.removeLast list listing index removed).root := by
  refine h.loses hlist hlisting (g := (·.removeLast index)) ?_ ?_
  · obtain ⟨front, separator, hpairs, hindex⟩ := Listing.exists_last hget hnext
    have hlength : (front.map Prod.fst).length = index := by rw [List.length_map, hindex]
    have herase : listing.nodes.eraseIdx index = front.map Prod.fst := by
      rw [Listing.nodes, Punctuated.values, hpairs, ← hlength]
      simp [List.eraseIdx_append_of_length_le]
    rw [herase, Listing.nodes, Punctuated.values]
    rcases Listing.pairs_removeLast hpairs hindex with
      ⟨-, hpairs'⟩ | ⟨pairs, last, comma, rfl, -, hpairs'⟩
    · rw [hpairs']
    · rw [hpairs']
      simp
  · exact (Alike.closeGap (listing.lastRegion index removed) none
      ((tree.update list.id (·.mapListing (·.removeLast index))).free removed)).root.symm

/-- A tree without an item of a list. -/
def without (list : Node) (listing : Listing) (index : Nat) (removed : Node) (tree : Tree) : Tree :=
  (match listing.items.get? (index + 1) with
    | some next => tree.removeBefore list index removed next
    | none => tree.removeLast list listing index removed).respan list.id

theorem Sound.loses_without (h : tree.Sound []) (hlist : list ∈ tree.root.descendants)
    (hlisting : list.listing? = some listing) (hget : listing.items.get? index = some removed) :
    tree.root.Loses list index (tree.without list listing index removed).root := by
  have hrespan : ∀ tree' : Tree, tree.root.Loses list index tree'.root →
      tree.root.Loses list index (tree'.respan list.id).root := by
    rintro tree' ⟨f, hf, hchildren, hskeleton⟩
    exact ⟨f, hf, hchildren, (Alike.respan list.id tree').root.trans hskeleton⟩
  rw [without]
  cases hnext : listing.items.get? (index + 1) with
  | some next => exact hrespan _ (h.loses_removeBefore hlist hlisting hget)
  | none => exact hrespan _ (h.loses_removeLast hlist hlisting hget hnext)

/-- What a removal makes of the tokens and of the text: tokens of one stretch are gone, and one
stretch of the text. -/
def CutsTo (tree : Tree) (list : Node) (index : Nat) (tree' : Tree) : Prop :=
  ∃ front gone back pre x post, tree.root.Cuts list index front gone pre x ∧
    tree.root.tokens = front ++ gone ++ back ∧
    tree'.root.tokens.map Token.content = (front ++ back).map Token.content ∧
    tree.render = pre ++ x ++ post ∧ tree'.render = pre ++ post

/-- An item goes with all up to the one behind it, which gets what led the item. -/
theorem Sound.cuts_removeBefore (h : tree.Sound []) (hlist : list ∈ tree.root.descendants)
    (hlisting : list.listing? = some listing) (hitems : ∀ n ∈ list.children, n.tokens ≠ [])
    (hget : listing.items.get? index = some removed)
    (hnext : listing.items.get? (index + 1) = some next) :
    tree.CutsTo list index (tree.removeBefore list index removed next) := by
  have hchild := (h.formed list hlist).getElem?_children hlisting
  obtain ⟨front, comma, separator, back, hpairs, hindex⟩ := Listing.exists_next hget hnext
  obtain ⟨before, after, hremoved, hahead, htokens, hcut⟩ :=
    h.tokens_removeBefore hlist hlisting hpairs hindex
  have hfilled : next.tokens ≠ [] :=
    hitems next (List.mem_of_getElem? ((hchild (index + 1)).trans hnext))
  refine ⟨before, _, next.tokens ++ after, _, _, next.body ++ Token.renderAll after,
    .upTo ((hchild index).trans hget) ((hchild (index + 1)).trans hnext) hremoved hahead, htokens,
    ?_, ?_, ?_⟩
  · rw [hcut]
    simp only [List.map_append, Token.map_content_mapSpans, Node.map_content_setLeading,
      Node.tokens_moved, List.append_assoc]
  · have hitem : ∀ n : Node, Token.renderAll n.tokens = Lexeme.render n.leading ++ n.body :=
      Node.render_eq_body
    show Token.renderAll tree.root.tokens = _
    rw [htokens]
    simp only [Token.renderAll_append, hitem, List.append_assoc]
  · have hmoved : (next.moved (fun _ => Span.delete ⟨removed.coreStart, next.coreStart⟩)
        (Span.delete ⟨removed.coreStart, next.coreStart⟩)).tokens ≠ [] := by
      rw [Node.tokens_moved]
      simpa using hfilled
    have hitem := Node.render_setLeading hmoved removed.leading
    rw [Node.body_moved, Node.render] at hitem
    show Token.renderAll (tree.removeBefore list index removed next).root.tokens = _
    rw [hcut]
    simp only [Token.renderAll_append, Token.renderAll_mapSpans, hitem, List.append_assoc]

/-- The last item goes with the comma in front of it. -/
theorem Sound.cuts_removeLast (h : tree.Sound []) (hproper : list.Proper)
    (hlist : list ∈ tree.root.descendants) (hlisting : list.listing? = some listing)
    (hget : listing.items.get? index = some removed)
    (hnext : listing.items.get? (index + 1) = none) :
    tree.CutsTo list index (tree.removeLast list listing index removed) := by
  have hchild := (h.formed list hlist).getElem?_children hlisting
  have hchildren : list.children = listing.nodes := (h.formed list hlist).children_listing hlisting
  obtain ⟨front, hpairs, hindex⟩ : ∃ front,
      listing.items.pairs = front ++ [(removed, none)] ∧ front.length = index := by
    obtain ⟨front, separator, hpairs, hindex⟩ := Listing.exists_last hget hnext
    obtain ⟨others, hothers⟩ := h.exists_last hlist hlisting (c := removed) (by
      rw [Punctuated.last?, hpairs]
      simp)
    rw [hpairs] at hothers
    obtain ⟨-, hlast⟩ := List.append_inj' hothers rfl
    obtain rfl : separator = none := congrArg Prod.snd (List.singleton_inj.mp hlast)
    exact ⟨front, hpairs, hindex⟩
  obtain ⟨before, after, hremoved, htokens, hcut⟩ :=
    h.tokens_removeLast hlist hlisting hpairs hindex
  have hlength : index + 1 = list.children.length := by
    rw [hchildren, listing.length_nodes, Punctuated.size, hpairs, ← hindex]
    simp
  have hcontent : (tree.removeLast list listing index removed).root.tokens.map Token.content =
      (before ++ after).map Token.content := by
    rw [hcut]
    simp only [List.map_append, Token.map_content_mapSpans]
  have hrender : (tree.removeLast list listing index removed).render =
      Token.renderAll before ++ Token.renderAll after := by
    show Token.renderAll (tree.removeLast list listing index removed).root.tokens = _
    rw [hcut]
    simp only [Token.renderAll_append, Token.renderAll_mapSpans]
  have hkind : list.kind = .selectorList ↔ listing.kind = .selectors :=
    Node.kind_selectorList hlisting
  have hsize : index + 1 = listing.items.size := by
    rw [hlength, hchildren, listing.length_nodes]
  rcases Listing.commaBefore_spec (hproper.commas listing hlisting) hsize with
    ⟨hcomma, hfirst⟩ | ⟨comma, hcomma, hcommakind, hselectors, hpos⟩
  · rw [hcomma] at hremoved htokens
    refine ⟨before, removed.tokens, after, _, _, _, .last ((hchild index).trans hget) hlength
      (fun hk => hfirst (hkind.mp hk)) (by simpa using hremoved), by simpa using htokens, hcontent,
      ?_, hrender⟩
    show Token.renderAll tree.root.tokens = _
    rw [htokens]
    simp [Node.render]
  · rw [hcomma] at hremoved htokens
    refine ⟨before, comma :: removed.tokens, after, _, _, _, .lastSelector
      ((hchild index).trans hget) hlength (hkind.mpr hselectors) hpos hcommakind hremoved,
      by simpa using htokens, hcontent, ?_, hrender⟩
    show Token.renderAll tree.root.tokens = _
    rw [htokens]
    simp [Node.render]

theorem Sound.cuts_without (h : tree.Sound []) (hproper : ∀ x ∈ tree.root.descendants, x.Proper)
    (hlist : list ∈ tree.root.descendants) (hlisting : list.listing? = some listing)
    (hitems : ∀ n ∈ list.children, n.tokens ≠ [])
    (hget : listing.items.get? index = some removed) :
    tree.CutsTo list index (tree.without list listing index removed) := by
  have hrespan : ∀ tree' : Tree, tree.CutsTo list index tree' →
      tree.CutsTo list index (tree'.respan list.id) := by
    rintro tree' ⟨front, gone, back, pre, x, post, hcuts, htokens, hcontent, hrender, hcut⟩
    refine ⟨front, gone, back, pre, x, post, hcuts, htokens, ?_, hrender, ?_⟩
    · rw [tokens_respan, hcontent]
    · rw [render_respan, hcut]
  rw [without]
  cases hnext : listing.items.get? (index + 1) with
  | some next => exact hrespan _ (h.cuts_removeBefore hlist hlisting hitems hget hnext)
  | none => exact hrespan _ (h.cuts_removeLast (hproper list hlist) hlist hlisting hget hnext)

end Tree

namespace Edit

variable {tree : Tree} {list removed : Node} {listing : Listing} {index : Nat}

theorem removeItem_run (hlisting : list.listing? = some listing)
    (hget : listing.items.get? index = some removed) :
    (removeItem list index).run.run ⟨tree, []⟩ =
      (.ok (), ⟨tree.without list listing index removed, [.removed list.id index]⟩) := by
  rw [removeItem, hlisting]
  dsimp only
  rw [hget, Tree.without]
  cases listing.items.get? (index + 1) <;> rfl

end Edit

namespace Mutation

variable {tree : Tree} {m : Mutation} {list : Node} {index : Nat}

/-- The list of a removal is one, and the edit consists in removing from it. -/
theorem Removes.steps (hsound : tree.Sound []) (h : m.Removes tree list index) :
    list ∈ tree.root.descendants ∧ (∃ listing, list.listing? = some listing) ∧
      m.steps.run.run ⟨tree, []⟩ = (Edit.removeItem list index).run.run ⟨tree, []⟩ := by
  cases h with
  | @rule container n list index hget hlist =>
    refine ⟨Node.mem_descendants_trans (Tree.mem_of_get hget).1 (Node.mem_of_ruleList hlist), ?_, ?_⟩
    · rw [Node.listing?]
      rcases Node.kind_of_ruleList hlist with hkind | hkind <;> exact ⟨_, by rw [hkind]⟩
    · rw [Mutation.steps, Edit.removeRule, Edit.run_tree, hget, Edit.run_of (Edit.liftM_run n),
        hlist, Edit.run_of (Edit.liftM_run list)]
  | @selector container n list index hget hlist =>
    refine ⟨Node.mem_descendants_trans (Tree.mem_of_get hget).1 (Node.mem_of_selectorList hlist),
      ?_, ?_⟩
    · rw [Node.listing?]
      exact ⟨_, by rw [Node.kind_of_selectorList hlist]⟩
    · rw [Mutation.steps, Edit.removeSelector, Edit.run_tree, hget, Edit.run_of (Edit.liftM_run n),
        hlist, Edit.run_of (Edit.liftM_run list)]
  | @declaration container n list index hget hlist =>
    refine ⟨Node.mem_descendants_trans (Tree.mem_of_get hget).1
      (Node.mem_of_declarationList hlist), ?_, ?_⟩
    · rw [Node.listing?]
      exact ⟨_, by rw [Node.kind_of_declarationList hlist]⟩
    · rw [Mutation.steps, Edit.removeDeclaration, Edit.run_tree, hget,
        Edit.run_of (Edit.liftM_run n), hlist, Edit.run_of (Edit.liftM_run list)]
  | @item list n listing index hlist hlisting hchild =>
    refine ⟨hlist, ⟨listing, hlisting⟩, ?_⟩
    have hmem : n ∈ list.children := List.mem_of_getElem? hchild
    have hget : tree.get n.id = .ok n := by
      rw [Tree.get, hsound.find?_of_mem
        (Node.mem_descendants_trans hlist (Node.mem_descendants_child hmem))]
    have hparent : tree.parent? n.id = some list := by
      rw [Tree.parent?, hsound.parent?_child hlist hmem]
      exact hsound.find?_of_mem hlist
    have hindex : (listing.nodes.map (·.id)).idxOf n.id = index := by
      obtain ⟨hlt, rfl⟩ := List.getElem?_eq_some_iff.mp hchild
      have hnodup := Node.nodup_children (Node.nodup_below hsound.nodup hlist)
      rw [← (hsound.formed list hlist).children_listing hlisting]
      have hidx := hnodup.idxOf_getElem index (by rwa [List.length_map])
      rwa [List.getElem_map] at hidx
    rw [Mutation.steps, Edit.remove, Edit.run_tree, hget, Edit.run_of (Edit.liftM_run n), hparent]
    dsimp only
    rw [hlisting]
    dsimp only
    rw [hindex]

end Mutation

namespace Session

/-- In every session, an item is removed wherever a list has one. The text of the tree changes by
the text that goes, and the tokens that stay say what they said. The list keeps its other items, and
all nodes stay in use but those of the item. -/
theorem removal_cuts (p : Production) (config : Config) (t : Text) (calls : List Call)
    {m : Mutation} {list : Node} {index : Nat}
    (hremoves : m.Removes (Session.run ⟨Tree.parse p config t, false⟩ calls).tree list index)
    (hitems : ∀ n ∈ list.children, n.tokens ≠ []) (hindex : index < list.children.length) :
    let s := Session.run ⟨Tree.parse p config t, false⟩ calls
    let s' := (s.apply m).2.1
    (s.apply m).1 = .ok (some (.removed list.id index)) ∧
      (∃ front gone back pre x post, s.tree.root.Cuts list index front gone pre x ∧
        s.tree.root.tokens = front ++ gone ++ back ∧
        s'.tree.root.tokens.map Token.content = (front ++ back).map Token.content ∧
        s.tree.render = pre ++ x ++ post ∧ s'.tree.render = pre ++ post) ∧
      (∃ list', s'.tree.find? list.id = some list' ∧
        list'.children.map Node.id = (list.children.map Node.id).eraseIdx index) ∧
      ∀ id, s'.tree.contains id = true ↔ s.tree.contains id = true ∧
        id ∉ list.children[index].descendants.map Node.id := by
  intro s s'
  have hsound : s.tree.Sound [] := sound_run (Tree.sound_parse p config t) calls
  have hproper : ∀ x ∈ s.tree.root.descendants, x.Proper := proper_run
    (s := ⟨Tree.parse p config t, false⟩) (Tree.sound_parse p config t)
    (fun x hx => (orderly_parse p config t x hx).1) calls
  obtain ⟨hlist, ⟨listing, hlisting⟩, hsteps⟩ := hremoves.steps hsound
  have hget : list.children[index]? = some list.children[index] := List.getElem?_eq_getElem hindex
  have hitem : listing.items.get? index = some list.children[index] := by
    rw [← hget, (hsound.formed list hlist).children_listing hlisting, Listing.nodes,
      Punctuated.values, List.getElem?_map, Punctuated.get?]
  have hrun := hsteps.trans (Edit.removeItem_run hlisting hitem)
  have hafter : s'.tree = s.tree.without list listing index list.children[index] := by
    show (m.steps.run.run ⟨s.tree, []⟩).2.tree = _
    rw [hrun]
  have hloses := hsound.loses_without hlist hlisting hitem
  rw [← hafter] at hloses
  have hids := hloses.ids hsound.nodup hlist hget
  refine ⟨?_, ?_, hloses.children (hsound.find?_of_mem hlist), fun id => ?_⟩
  · rw [apply, hrun]
    rfl
  · rw [hafter]
    exact hsound.cuts_without hproper hlist hlisting hitems hitem
  · have hdisjoint := (List.nodup_append.mp (hids.nodup_iff.mp hsound.nodup)).2.2
    rw [(sound_apply hsound m).linked.mem_iff, hsound.linked.mem_iff, hids.mem_iff, List.mem_append]
    refine ⟨fun hid => ⟨Or.inr hid, fun hgone => hdisjoint _ hgone _ hid rfl⟩, fun hid => ?_⟩
    exact hid.1.resolve_left hid.2

/-- The last of three selectors goes with the comma in front of it. -/
theorem removal_cuts_selector :
    let s := Session.run ⟨Tree.parse .styleSheet {} "a, b{}".toList, false⟩
      [.edit (.appendSelector 4 "c".toList)]
    let m := Mutation.removeSelector 4 2
    ∃ list, m.Removes s.tree list 2 ∧ (∀ n ∈ list.children, n.tokens ≠ []) ∧
      2 < list.children.length ∧ s.tree.render = "a, b, c{}".toList ∧
      (∃ pre x post, s.tree.render = pre ++ x ++ post ∧
        (s.apply m).2.1.tree.render = pre ++ post) ∧
      (s.apply m).2.1.tree.render = "a, b{}".toList := by
  intro s m
  have hlists : (s.tree.get 4).toOption.any (fun n => n.selectorList.toOption.any fun list =>
      2 < list.children.length && list.children.all fun n => !n.tokens.isEmpty) = true := by
    decide +kernel
  cases hget : s.tree.get 4 with
  | error e => simp [hget, Except.toOption] at hlists
  | ok n =>
    cases hlist : n.selectorList with
    | error e => simp [hget, hlist, Except.toOption] at hlists
    | ok list =>
      obtain ⟨hindex, hitems⟩ : 2 < list.children.length ∧ ∀ n ∈ list.children, n.tokens ≠ [] := by
        simpa [hget, hlist, Except.toOption] using hlists
      have hremoves : m.Removes s.tree list 2 := .selector hget hlist
      obtain ⟨-, ⟨-, -, -, pre, x, post, -, -, -, hrender, hrender'⟩, -⟩ := removal_cuts .styleSheet {}
        "a, b{}".toList [.edit (.appendSelector 4 "c".toList)] hremoves hitems hindex
      exact ⟨list, hremoves, hitems, hindex, by decide +kernel, ⟨pre, x, post, hrender, hrender'⟩,
        by decide +kernel⟩

end Session

end CssTree
