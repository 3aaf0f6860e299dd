import CssTree.Proofs.Edit.Splice

namespace CssTree

/-- A list that holds other items. -/
def Listing.holding (pairs : List (Node × Option Token)) (l : Listing) : Listing :=
  { l with items := ⟨pairs⟩ }

/-- An item with the separator behind it, each of them changed. -/
def Listing.mapItem (f : Node → Node) (g : Token → Token) (pair : Node × Option Token) :
    Node × Option Token := (f pair.1, pair.2.map g)

theorem Element.updateAll_append (id : NodeId) (f : Node → Node) (es fs : List Element) :
    updateAll id f (es ++ fs) = updateAll id f es ++ updateAll id f fs := by
  induction es with
  | nil => rfl
  | cons e es ih => cases e <;> simp [updateAll, ih]

namespace Listing

variable {l : Listing} {c : Node} {front back : List (Node × Option Token)}
  {separator : Option Token}

@[simp] theorem map_holding (f : Node → Node) (g : Token → Token)
    (pairs : List (Node × Option Token)) (l : Listing) :
    (l.holding pairs).map f g = (l.map f g).holding (pairs.map (mapItem f g)) := rfl

theorem tokensOf_holding (pairs : List (Node × Option Token)) (l : Listing) :
    Element.tokensOf (l.holding pairs).elements = l.opening ++ tokensOf pairs ++ l.closing :=
  tokensOf_elements _

theorem nodes_holding (pairs : List (Node × Option Token)) (l : Listing) :
    Element.nodes (l.holding pairs).elements = pairs.map Prod.fst := nodes_elements _

/-- The tokens of items whose spans were moved. -/
theorem tokensOf_mapItem (onNode : NodeId → Span → Span) (onToken : Span → Span)
    (pairs : List (Node × Option Token)) :
    tokensOf (pairs.map (mapItem (·.moved onNode onToken) (·.mapSpans onToken))) =
      (tokensOf pairs).map (·.mapSpans onToken) := by
  induction pairs with
  | nil => rfl
  | cons pair pairs ih =>
    obtain ⟨n, separator⟩ := pair
    rw [List.map_cons, tokensOf_cons, tokensOf_cons, List.map_append, List.map_append, ih]
    cases separator <;> simp [mapItem, Node.tokens_moved]

/-- The comma in front of the last item of a list is there for a selector behind another one. -/
theorem commaBefore_spec {index : Nat} (h : l.kind = .selectors → l.Separated)
    (hindex : index + 1 = l.items.size) :
    l.commaBefore index = none ∧ (l.kind = .selectors → index = 0) ∨
      ∃ comma, l.commaBefore index = some comma ∧ comma.kind = .comma ∧ l.kind = .selectors ∧
        0 < index := by
  rw [commaBefore]
  split
  next hselectors =>
    rw [Bool.and_eq_true, decide_eq_true_eq, decide_eq_true_eq] at hselectors
    obtain ⟨hkind, hpos⟩ := hselectors
    have hseparator := (h hkind).separator? (index - 1)
    rw [if_pos (by omega)] at hseparator
    obtain ⟨comma, hcomma, hcommakind⟩ := Option.map_eq_some_iff.mp hseparator
    exact Or.inr ⟨comma, hcomma, hcommakind, hkind, hpos⟩
  next hnot =>
    refine Or.inl ⟨rfl, fun hkind => ?_⟩
    simpa [hkind] using hnot

/-- The text that goes with the last item of a list, as the spans have it. -/
def lastRegion (index : Nat) (removed : Node) (l : Listing) : Span :=
  match l.commaBefore index with
  | some t => t.fullSpan.join removed.span
  | none => removed.span

theorem removeLast_eq (index : Nat) (l : Listing) :
    l.removeLast index = l.holding (l.removeLast index).items.pairs := by
  rw [removeLast]
  split <;> rfl

/-- The tokens of the items that stay when the last one goes, with the comma in front of it. -/
theorem tokensOf_removeLast {removed : Node} {index : Nat}
    (hpairs : l.items.pairs = front ++ [(removed, none)]) (hindex : front.length = index) :
    ∃ others : List Token, tokensOf front = others ++ (l.commaBefore index).toList ∧
      tokensOf (l.removeLast index).items.pairs = others := by
  rcases pairs_removeLast hpairs hindex with
    ⟨hcomma, hpairs'⟩ | ⟨pairs, last, comma, rfl, hcomma, hpairs'⟩
  · exact ⟨tokensOf front, by simp [hcomma], by rw [hpairs']⟩
  · exact ⟨tokensOf pairs ++ last.tokens, by simp [hcomma], by simp [hpairs']⟩

/-- An item with the one behind it, and those around them. -/
theorem exists_next {n next : Node} {index : Nat} (hget : l.items.get? index = some n)
    (hnext : l.items.get? (index + 1) = some next) :
    ∃ front comma separator back,
      l.items.pairs = front ++ (n, comma) :: (next, separator) :: back ∧ front.length = index := by
  obtain ⟨front, comma, rest, hpairs, hindex⟩ := exists_item hget
  have hhead : rest.head?.map Prod.fst = some next := by
    rwa [Punctuated.get?, hpairs, ← hindex, List.getElem?_append_right (Nat.le_add_right _ 1),
      Nat.add_sub_cancel_left, List.getElem?_cons_succ, ← List.head?_eq_getElem?] at hnext
  obtain ⟨⟨next', separator⟩, hrest, rfl⟩ := Option.map_eq_some_iff.mp hhead
  obtain ⟨back, rfl⟩ := List.head?_eq_some_iff.mp hrest
  exact ⟨front, comma, separator, back, hpairs, hindex⟩

/-- The elements of a list in front of an item, and those behind it. -/
theorem elements_split (front back : List (Node × Option Token)) (c : Node)
    (separator : Option Token) (l : Listing) :
    (l.holding (front ++ (c, separator) :: back)).elements =
      (⟨l.kind, l.opening, ⟨front⟩, []⟩ : Listing).elements ++
        .node c :: (⟨l.kind, separator.toList, ⟨back⟩, l.closing⟩ : Listing).elements := by
  cases separator <;> simp [holding, elements, Element.ofToken?]

/-- The elements of a list around those of one item. -/
theorem elements_around (l : Listing) (separator : Option Token)
    (hfront : ∀ n ∈ front.map Prod.fst, c.id ∉ n.descendants.map Node.id)
    (hback : ∀ n ∈ back.map Prod.fst, c.id ∉ n.descendants.map Node.id) :
    ∃ es fs, c.id ∉ (Element.descendantsOf es).map Node.id ∧
      c.id ∉ (Element.descendantsOf fs).map Node.id ∧
        ∀ m, (l.holding (front ++ (m, separator) :: back)).elements = es ++ .node m :: fs := by
  have hnot : ∀ pairs : List (Node × Option Token),
      (∀ n ∈ pairs.map Prod.fst, c.id ∉ n.descendants.map Node.id) →
        c.id ∉ ((pairs.map Prod.fst).flatMap (·.descendants)).map Node.id := by
    intro pairs hpairs hmem
    obtain ⟨x, hx, hid⟩ := List.mem_map.mp hmem
    obtain ⟨n, hn, hx⟩ := List.mem_flatMap.mp hx
    exact hpairs n hn (List.mem_map.mpr ⟨x, hx, hid⟩)
  refine ⟨_, _, ?_, ?_, fun m => l.elements_split front back m separator⟩
  · rw [Element.descendantsOf_eq, nodes_elements]
    exact hnot front hfront
  · rw [Element.descendantsOf_eq, nodes_elements]
    exact hnot back hback

/-- A change of an item of a list. -/
theorem updateAll_elements (f : Node → Node) (l : Listing)
    (hfront : ∀ n ∈ front.map Prod.fst, c.id ∉ n.descendants.map Node.id)
    (hback : ∀ n ∈ back.map Prod.fst, c.id ∉ n.descendants.map Node.id) :
    Element.updateAll c.id f (l.holding (front ++ (c, separator) :: back)).elements =
      (l.holding (front ++ (f c, separator) :: back)).elements := by
  obtain ⟨es, fs, hes, hfs, helements⟩ := l.elements_around separator hfront hback
  rw [helements, helements, Element.updateAll_append, Element.updateAll,
    Element.updateAll_of_not_mem f hes, Element.updateAll_of_not_mem f hfs, Node.update_self rfl]

end Listing

namespace Node

variable {n c : Node} {l : Listing} {front back : List (Node × Option Token)}
  {separator : Option Token}

theorem update_item (f : Node → Node) (n : Node) (l : Listing) (hne : n.id ≠ c.id)
    (hfront : ∀ n ∈ front.map Prod.fst, c.id ∉ n.descendants.map Node.id)
    (hback : ∀ n ∈ back.map Prod.fst, c.id ∉ n.descendants.map Node.id) :
    ({ n with elements := (l.holding (front ++ (c, separator) :: back)).elements } : Node).update
        c.id f =
      { n with elements := (l.holding (front ++ (f c, separator) :: back)).elements } := by
  rw [update, if_neg hne, Listing.updateAll_elements f l hfront hback]

theorem moved_listed (onNode : NodeId → Span → Span) (onToken : Span → Span) (n : Node)
    (l : Listing) : ({ n with elements := l.elements } : Node).moved onNode onToken =
      { n.moved onNode onToken with
        elements := (l.map (·.moved onNode onToken) (·.mapSpans onToken)).elements } := by
  cases n
  rw [moved_mk, moved_mk, Element.moveSpansOf_eq_map, Listing.elements_map]

theorem kind_selectorList {n : Node} {l : Listing} (hl : n.listing? = some l) :
    n.kind = .selectorList ↔ l.kind = .selectors := by
  rw [listing?] at hl
  split at hl <;> cases hl <;> simp_all [Listing.ofElements]

theorem ids_of_skeleton {m : Node} (h : m.skeleton = n.skeleton) :
    m.descendants.map Node.id = n.descendants.map Node.id := by
  have hids := congrArg (fun k : Node => k.descendants.map Node.id) h
  simpa [descendants_skeleton, Function.comp_def] using hids

theorem ids_children (n : Node) : n.descendants.map Node.id =
    n.id :: n.children.flatMap fun c => c.descendants.map Node.id := by
  rw [descendants_children, List.map_cons, List.map_flatMap]

/-- The children of a node have different ids. -/
theorem nodup_children (h : (n.descendants.map Node.id).Nodup) : (n.children.map Node.id).Nodup := by
  have hsublist : ∀ ns : List Node,
      (ns.map Node.id).Sublist (ns.flatMap fun c => c.descendants.map Node.id) := by
    intro ns
    induction ns with
    | nil => exact List.Sublist.refl _
    | cons c ns ih =>
      rw [List.map_cons, List.flatMap_cons, ids_children c, List.cons_append]
      exact (ih.trans (List.sublist_append_right _ _)).cons_cons _
  rw [ids_children, List.nodup_cons] at h
  exact h.2.sublist (hsublist n.children)

/-- The ids in a tree one node of which loses a child. -/
theorem ids_update_child {root m removed : Node} {f : Node → Node} {index : Nat}
    (hnodup : (root.descendants.map Node.id).Nodup) (hm : m ∈ root.descendants)
    (hid : (f m).id = m.id) (hget : m.children[index]? = some removed)
    (hchildren : (f m).children = m.children.eraseIdx index) :
    (root.descendants.map Node.id).Perm
      (removed.descendants.map Node.id ++ (root.update m.id f).descendants.map Node.id) := by
  obtain ⟨before, after, q, hentries, hupdate⟩ := entries_update (p := none) hnodup hm
  have hbelow : (m.children.flatMap fun c => c.descendants.map Node.id).Perm
      (removed.descendants.map Node.id ++ (f m).children.flatMap fun c => c.descendants.map Node.id) := by
    obtain ⟨hlt, rfl⟩ := List.getElem?_eq_some_iff.mp hget
    rw [hchildren]
    exact (List.getElem_cons_eraseIdx_perm hlt).symm.flatMap_right _
  have hrename : (m.descendants.map Node.id).Perm
      (removed.descendants.map Node.id ++ (f m).descendants.map Node.id) := by
    rw [ids_children m, ids_children (f m), hid]
    exact (hbelow.cons m.id).trans List.perm_middle.symm
  rw [← root.ids_entries none, ← (root.update m.id f).ids_entries none, hentries, hupdate]
  simp only [List.map_append, ids_entries]
  have hmiddle : ((before.map Prod.fst ++ m.descendants.map Node.id) ++ after.map Prod.fst).Perm _ :=
    (hrename.append_left _).append_right _
  refine hmiddle.trans ?_
  simp only [List.append_assoc]
  exact List.perm_append_comm_assoc _ _ _

/-- A list takes the place of a node, and an item of it is changed there. -/
theorem update_listed {root m : Node} {i j : NodeId} (hnodup : (root.descendants.map Node.id).Nodup)
    (hm : m ∈ root.descendants) (hi : m.id = i) (hn : n.id = i) (hj : c.id = j)
    (hnodup' : ((root.update i fun _ => { n with
      elements := (l.holding (front ++ (c, separator) :: back)).elements }).descendants.map
        Node.id).Nodup) (f : Node → Node) :
    (root.update i fun _ => { n with
        elements := (l.holding (front ++ (c, separator) :: back)).elements }).update j f =
      root.update i fun _ => { n with
        elements := (l.holding (front ++ (f c, separator) :: back)).elements } := by
  subst hi hj
  let x : Node := { n with elements := (l.holding (front ++ (c, separator) :: back)).elements }
  have hx : x ∈ (root.update m.id fun _ => x).descendants := mem_update_self (fun _ => x) hnodup hm
  have hchildren : x.children = front.map Prod.fst ++ c :: back.map Prod.fst := by
    refine (Listing.nodes_holding _ _).trans ?_
    rw [List.map_append, List.map_cons]
  have hc : c ∈ x.descendants := mem_descendants_child (by simp [hchildren])
  obtain ⟨hne, hfront, hback⟩ := not_mem_sibling (nodup_below hnodup' hx) hchildren
  have hitem : x.update c.id f = { n with
      elements := (l.holding (front ++ (f c, separator) :: back)).elements } :=
    update_item f n l hne hfront hback
  calc (root.update m.id fun _ => x).update c.id f
      = (root.update m.id fun _ => x).update x.id (·.update c.id f) :=
        update_within c.id f hnodup' hx (List.mem_map_of_mem hc)
    _ = (root.update m.id fun _ => x).update m.id (·.update c.id f) :=
        congrArg ((root.update m.id fun _ => x).update · (·.update c.id f)) hn
    _ = root.update m.id fun _ => x.update c.id f :=
        update_const (x := x) hnodup hm hn (·.update c.id f)
    _ = _ := by rw [hitem]

theorem prependLeading_moved (onNode : NodeId → Span → Span) (onToken : Span → Span)
    (trivia : List Lexeme) (n : Node) :
    ((n.setLeading []).moved onNode onToken).prependLeading trivia =
      (n.moved onNode onToken).setLeading trivia := by
  rw [moved_setLeading, List.map_nil, prependLeading, leading_setLeading_nil, List.append_nil,
    setLeading_setLeading]

end Node

namespace Tree.Sound

variable {tree : Tree} {list removed next : Node} {listing : Listing} {index : Nat}
  {front back : List (Node × Option Token)} {comma separator : Option Token}

/-- The item of a list that has another one behind it goes. -/
theorem root_removeBefore (h : tree.Sound []) (hlist : list ∈ tree.root.descendants)
    (hlisting : list.listing? = some listing)
    (hpairs : listing.items.pairs = front ++ (removed, comma) :: (next, separator) :: back)
    (hindex : front.length = index) :
    let r : Span := ⟨removed.coreStart, next.coreStart⟩
    let σ : Node → Node := (·.moved (fun _ => r.delete) r.delete)
    let τ : Token → Token := (·.mapSpans r.delete)
    (tree.removeBefore list index removed next).root = (σ tree.root).update list.id fun _ =>
      { σ list with elements := ((listing.map σ τ).holding (front.map (Listing.mapItem σ τ) ++
        ((σ next).setLeading removed.leading, separator.map τ) ::
          back.map (Listing.mapItem σ τ))).elements } := by
  intro r σ τ
  unfold Tree.removeBefore
  extract_lets listless closed
  have hget : listing.items.get? index = some removed := by
    rw [Punctuated.get?, hpairs, ← hindex]
    simp
  have hnext : listing.items.get? (index + 1) = some next := by
    rw [Punctuated.get?, hpairs, ← hindex]
    simp
  have hends := (h.formed list hlist).endsSeparated_listing hlisting
  have hlistless : listless.Sound [] := h.removed hlist hlisting (fun hf => hf.remove hget)
    (Listing.endsSeparated_remove hget hnext hends) (Listing.perm_remove hget)
  have hclosed : closed.Sound [] :=
    (hlistless.alike (.update next.id (Node.skeleton_setLeading []) _)).alike (.closeGap r none _)
  have hremoved : listing.remove index = listing.holding (front ++ (next, separator) :: back) :=
    congrArg (fun pairs => listing.holding pairs) (Listing.pairs_remove hpairs hindex)
  have hroot : listless.root = tree.root.update list.id fun _ => { list with
      elements := (listing.holding (front ++ (next, separator) :: back)).elements } := by
    refine Node.update_congr h.nodup hlist ?_
    rw [Node.mapListing_of hlisting, hremoved]
  have hroot' : closed.root = (σ tree.root).update list.id fun _ => { σ list with
      elements := ((listing.map σ τ).holding (front.map (Listing.mapItem σ τ) ++
        (σ (next.setLeading []), separator.map τ) ::
          back.map (Listing.mapItem σ τ))).elements } := by
    rw [Tree.root_closeGap]
    show (listless.root.update next.id _).moved _ _ = _
    rw [hroot, Node.update_listed h.nodup hlist rfl rfl rfl (by rw [← hroot]; exact hlistless.nodup),
      Node.moved_update_const, Node.moved_listed, Listing.map_holding, List.map_append,
      List.map_cons]
    rfl
  have hnodup : ((σ tree.root).descendants.map Node.id).Nodup := by
    rw [Node.ids_moved]
    exact h.nodup
  have hmem : σ list ∈ (σ tree.root).descendants := Node.mem_moved _ _ hlist
  have hid : (σ (next.setLeading [])).id = next.id :=
    (Node.id_moved _ _ _).trans (Node.id_of_skeleton (next.skeleton_setLeading []))
  have hlistid : (σ list).id = list.id := Node.id_moved _ _ list
  have hupdate := Node.update_listed (c := σ (next.setLeading [])) hnodup hmem hlistid hlistid hid
    (by rw [← hroot']; exact hclosed.nodup) (·.prependLeading removed.leading)
  rwa [← hroot', Node.prependLeading_moved] at hupdate

/-- The last item of a list goes, with the comma in front of it. -/
theorem root_removeLast (h : tree.Sound []) (hlist : list ∈ tree.root.descendants)
    (hlisting : list.listing? = some listing) :
    let r : Span := listing.lastRegion index removed
    let σ : Node → Node := (·.moved (fun _ => r.delete) r.delete)
    let τ : Token → Token := (·.mapSpans r.delete)
    (tree.removeLast list listing index removed).root = (σ tree.root).update list.id fun _ =>
      { σ list with elements := ((listing.map σ τ).holding
        ((listing.removeLast index).items.pairs.map (Listing.mapItem σ τ))).elements } := by
  intro r σ τ
  have hroot : (tree.update list.id (·.mapListing (·.removeLast index))).root =
      tree.root.update list.id fun _ => { list with
        elements := (listing.holding (listing.removeLast index).items.pairs).elements } := by
    refine Node.update_congr h.nodup hlist ?_
    rw [Node.mapListing_of hlisting, ← listing.removeLast_eq]
  show (Tree.closeGap r none _).root = _
  rw [Tree.root_closeGap]
  show (Tree.root (tree.update list.id (·.mapListing (·.removeLast index)))).moved _ _ = _
  rw [hroot, Node.moved_update_const, Node.moved_listed, Listing.map_holding]

/-- The tokens after the removal of an item that has another one behind it. -/
theorem tokens_removeBefore (h : tree.Sound []) (hlist : list ∈ tree.root.descendants)
    (hlisting : list.listing? = some listing)
    (hpairs : listing.items.pairs = front ++ (removed, comma) :: (next, separator) :: back)
    (hindex : front.length = index) :
    let r : Span := ⟨removed.coreStart, next.coreStart⟩
    let σ : Node → Node := (·.moved (fun _ => r.delete) r.delete)
    let τ : Token → Token := (·.mapSpans r.delete)
    ∃ before after, tree.root.ahead? removed.id = some before ∧
      tree.root.ahead? next.id = some (before ++ removed.tokens ++ comma.toList) ∧
      tree.root.tokens =
        before ++ (removed.tokens ++ comma.toList) ++ (next.tokens ++ after) ∧
      (tree.removeBefore list index removed next).root.tokens =
        before.map τ ++ ((σ next).setLeading removed.leading).tokens ++ after.map τ := by
  intro r σ τ
  have helements := (h.formed list hlist).elements_listing hlisting
  have hnodup := Node.nodup_below h.nodup hlist
  obtain ⟨before, after, hahead, htokens, hupdate⟩ :=
    Node.ahead?_split_moved h.nodup hlist (fun _ => r.delete) r.delete
  have hpairs' : listing.items.pairs = (front ++ [(removed, comma)]) ++ (next, separator) :: back := by
    rw [hpairs, List.append_assoc]
    rfl
  have hremoved := Node.ahead?_trans h.nodup hlist hahead
    (Listing.ahead?_item hnodup helements hpairs)
  have hnext := Node.ahead?_trans h.nodup hlist hahead
    (Listing.ahead?_item hnodup helements hpairs')
  refine ⟨_, separator.toList ++ Listing.tokensOf back ++ listing.closing ++ after, hremoved, ?_, ?_,
    ?_⟩
  · rw [hnext]
    simp
  · rw [htokens, ← list.tokens_eq, helements, Listing.tokensOf_elements, hpairs]
    simp
  · rw [h.root_removeBefore hlist hlisting hpairs hindex, hupdate]
    show _ ++ Element.tokensOf (Listing.holding _ _).elements ++ _ = _
    rw [Listing.tokensOf_holding]
    simp only [Listing.map, Listing.tokensOf_mapItem, Listing.tokensOf_append,
      Listing.tokensOf_cons, List.map_append, List.append_assoc]
    cases separator <;> rfl

/-- The tokens after the removal of the last item. -/
theorem tokens_removeLast (h : tree.Sound []) (hlist : list ∈ tree.root.descendants)
    (hlisting : list.listing? = some listing)
    (hpairs : listing.items.pairs = front ++ [(removed, none)]) (hindex : front.length = index) :
    let τ : Token → Token := (·.mapSpans (listing.lastRegion index removed).delete)
    ∃ before after,
      tree.root.ahead? removed.id = some (before ++ (listing.commaBefore index).toList) ∧
      tree.root.tokens =
        before ++ ((listing.commaBefore index).toList ++ removed.tokens) ++ after ∧
      (tree.removeLast list listing index removed).root.tokens =
        before.map τ ++ after.map τ := by
  intro τ
  have helements := (h.formed list hlist).elements_listing hlisting
  have hnodup := Node.nodup_below h.nodup hlist
  obtain ⟨before, after, hahead, htokens, hupdate⟩ := Node.ahead?_split_moved h.nodup hlist
    (fun _ => (listing.lastRegion index removed).delete) (listing.lastRegion index removed).delete
  have hremoved := Node.ahead?_trans h.nodup hlist hahead
    (Listing.ahead?_item hnodup helements hpairs)
  obtain ⟨others, hfront, hstay⟩ := Listing.tokensOf_removeLast hpairs hindex
  refine ⟨before ++ (listing.opening ++ others), listing.closing ++ after, ?_, ?_, ?_⟩
  · rw [hremoved, hfront]
    simp
  · rw [htokens, ← list.tokens_eq, helements, Listing.tokensOf_elements, hpairs,
      Listing.tokensOf_append, hfront]
    simp
  · rw [h.root_removeLast hlist hlisting, hupdate]
    show _ ++ Element.tokensOf (Listing.holding _ _).elements ++ _ = _
    rw [Listing.tokensOf_holding]
    simp only [Listing.map, Listing.tokensOf_mapItem, hstay, List.map_append, List.append_assoc]
    rfl

end Tree.Sound

end CssTree
