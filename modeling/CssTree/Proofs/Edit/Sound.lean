import CssTree.Proofs.Edit.Effect

namespace CssTree

namespace Declaration.Formed

variable {d : Declaration}

theorem addSemicolon (h : d.Formed) (p : Position) : (d.addSemicolon p).Formed := by
  refine ⟨h.opening, h.name, ?_, h.closing⟩
  rintro t ht
  obtain rfl : _ = t := Option.some.inj ht
  rfl

theorem setImportant (h : d.Formed) (mark : Option Node) :
    ({ d with important := mark } : Declaration).Formed :=
  ⟨h.opening, h.name, h.semicolon, h.closing⟩

theorem openComment (h : d.Formed) (p : Position) : (d.openComment p).Formed := by
  refine ⟨?_, h.name, h.semicolon, h.closing⟩
  rintro t ht
  obtain rfl : _ = t := Option.some.inj ht
  rfl

theorem dropOpening (h : d.Formed) : d.dropOpening.Formed :=
  ⟨by simp [Declaration.dropOpening], h.name, h.semicolon, h.closing⟩

theorem setClosing (h : d.Formed) {closing : Option Token}
    (hclosing : ∀ t ∈ closing, t.kind = .closeComment) :
    ({ d with closing := closing } : Declaration).Formed :=
  ⟨h.opening, h.name, h.semicolon, hclosing⟩

end Declaration.Formed

theorem Node.refits_addSemicolon (p : Position) (n : Node) :
    n.Refits (n.mapDeclaration (·.addSemicolon p)) :=
  Refits.mapDeclaration (fun _ hd => hd.addSemicolon p) (fun _ => rfl) n

/-- An item that is moved into place and closed has the nodes of the fragment. -/
theorem Node.refits_closed {n item : Node} (needed : Bool) (p : Position)
    (hitem : item.skeleton = n.skeleton) : n.Refits (item.closed needed p) := by
  refine (Refits.of_skeleton hitem).trans ?_
  cases needed with
  | false => exact .of_skeleton rfl
  | true => exact item.refits_addSemicolon p

theorem Node.refits_openComment (p : Position) (n : Node) :
    n.Refits (n.mapDeclaration (·.openComment p)) :=
  Refits.mapDeclaration (fun _ hd => hd.openComment p) (fun _ => rfl) n

theorem Node.refits_dropOpening (n : Node) : n.Refits (n.mapDeclaration (·.dropOpening)) :=
  Refits.mapDeclaration (fun _ hd => hd.dropOpening) (fun _ => rfl) n

theorem Node.refits_setClosing (closing : Option Token)
    (h : ∀ t ∈ closing, t.kind = .closeComment) (n : Node) :
    n.Refits (n.mapDeclaration ({ · with closing := closing })) :=
  Refits.mapDeclaration (f := ({ · with closing := closing })) (fun _ hd => hd.setClosing h)
    (fun _ => rfl) n

theorem Node.refits_closeComment (p : Position) (n : Node) : n.Refits (n.closeComment p) := by
  refine Refits.trans (.of_skeleton (skeleton_mapTokens ?_)) (refits_setClosing _ ?_ _)
  · exact map_mapLast (f := fun t : Token => { t with trailing := [] }) (g := fun t => t.kind)
      (fun _ => rfl) _
  · rintro t ht
    obtain rfl : _ = t := Option.some.inj ht
    rfl

theorem Node.id_dropClosing (n : Node) : n.dropClosing.id = n.id := by
  rw [dropClosing, ← skeleton_id, skeleton_appendTrailing, skeleton_id, id_mapDeclaration]

theorem Node.kind_dropClosing (n : Node) : n.dropClosing.kind = n.kind := by
  rw [dropClosing, ← skeleton_kind, skeleton_appendTrailing, skeleton_kind, kind_mapDeclaration]

theorem Node.refits_dropClosing (n : Node) : n.Refits n.dropClosing :=
  (refits_setClosing none (by simp) n).trans (.of_skeleton (skeleton_appendTrailing _ _))

namespace Tree.Sound

variable {tree : Tree} {list item : Node} {listing : Listing} {loose : List Entry} {index : Nat}

/-- A fragment is put into a list that may have got a separator just before. -/
theorem insertInto (separator : Option Token) {f : Node → Node} {l : Listing}
    (h : tree.Sound (item.entries none ++ loose)) (hlist : list ∈ tree.root.descendants)
    (hlisting : list.listing? = some listing)
    (hf : (f list).mapListing (·.insert index item separator) =
      { list with elements := (l.insert index item separator).elements })
    (hl : ∀ {kind opening}, listing.Formed kind opening → l.Formed kind opening)
    (hnodes : l.nodes = listing.nodes) (hid : ∀ m, (f m).id = m.id)
    (hindex : index ≤ l.items.size) (hseparator : l.kind ≠ .selectors → separator = none)
    (hends : (l.insert index item separator).items.endsSeparated = false)
    (hitem : ∀ x ∈ item.descendants, x.Formed) :
    ((tree.update list.id f).insertInto list.id index item separator).Sound loose := by
  rw [Node.entries_children, List.cons_append] at h
  have hadopted := h.setParent list.id
  rw [← List.cons_append, ← Node.entries_children] at hadopted
  have hnew : ({ tree with arena := tree.arena.setParent list.id item.id } : Tree).Sound
      ([item].flatMap (·.entries (some list.id)) ++ loose) := by simpa using hadopted
  have hrelist := hnew.relist (f := fun m => (f m).mapListing (·.insert index item separator))
    (l.insert index item separator) [item] [] hlist hlisting hf
    (fun hformed => (hl hformed).insert hindex fun hk => hseparator ((hl hformed).kind ▸ hk)) hends
    (by simpa [hnodes] using Listing.perm_insert hindex) (by simpa using hitem)
  have hroot : ((tree.update list.id f).insertInto list.id index item separator) =
      ({ tree with arena := tree.arena.setParent list.id item.id } : Tree).update list.id
        (fun m => (f m).mapListing (·.insert index item separator)) := by
    rw [Tree.insertInto]
    simp only [Tree.update, Tree.mapRoot, Node.update_update hid]
  rw [hroot]
  simpa using hrelist

theorem insertedBefore {target fragment : Node} (h : tree.Sound (fragment.entries none))
    (hlist : list ∈ tree.root.descendants) (hlisting : list.listing? = some listing)
    (htarget : listing.items.get? index = some target)
    (hfragment : ∀ x ∈ fragment.descendants, x.Formed) :
    (tree.insertedBefore list listing.kind index target fragment).Sound [] := by
  unfold Tree.insertedBefore
  extract_lets start lacksSemicolon separator separatorAt gap moved lead item comma
  have halike : tree.Alike (moved.update target.id (·.setLeading gap)) :=
    (Alike.makeRoom _ _ _).trans (.update _ (Node.skeleton_setLeading gap) _)
  obtain ⟨m, hm, hskeleton⟩ := halike.node hlist
  obtain ⟨l, hl, hkind, hsize, hends⟩ :=
    Node.listing?_of_skeleton (h.formed list hlist) hlisting hskeleton
  have hid : m.id = list.id := Node.id_of_skeleton hskeleton
  have hplaced : ((fragment.place start).prependLeading lead).skeleton = fragment.skeleton := by
    rw [Node.skeleton_prependLeading, Node.skeleton_place]
  obtain ⟨hentries, hitem⟩ := Node.refits_closed lacksSemicolon separatorAt hplaced hfragment
  have hlt : index < l.items.size := by
    obtain ⟨front, separator, back, hpairs, hindex⟩ := Listing.exists_item htarget
    rw [hsize, Punctuated.size, hpairs, List.length_append, List.length_cons]
    omega
  have hloose : (moved.update target.id (·.setLeading gap)).Sound (item.entries none ++ []) := by
    rw [List.append_nil, hentries]
    exact h.alike halike
  have hcomma : l.kind ≠ .selectors → comma = none := fun hk => if_neg (hkind ▸ hk)
  have hends' : (l.insert index item comma).items.endsSeparated = false :=
    Listing.endsSeparated_insert hlt.le (fun _ => hends) fun hle => absurd hlt (Nat.not_lt.mpr hle)
  have hresult := insertInto comma (f := fun m => m) hloose hm hl
    (Node.mapListing_of hl _) (fun hl => hl) rfl (fun _ => rfl) hlt.le hcomma hends' hitem
  rwa [hid, Tree.update_id] at hresult

/-- An item of a list gets its semicolon; the list keeps its other items. -/
theorem closedItem {m : Node} {l : Listing} {id : NodeId} {p : Position} (h : tree.Sound loose)
    (hm : m ∈ tree.root.descendants) (hl : m.listing? = some l)
    (hid : id ∈ m.children.map Node.id) :
    (tree.update id (·.mapDeclaration (·.addSemicolon p))).Sound loose ∧
      ∃ m' ∈ (tree.update id (·.mapDeclaration (·.addSemicolon p))).root.descendants,
        m'.id = m.id ∧ ∃ l', m'.listing? = some l' ∧ l'.kind = l.kind ∧
          l'.nodes = l.nodes.map (·.update id (·.mapDeclaration (·.addSemicolon p))) := by
  obtain ⟨c, hc, rfl⟩ := List.mem_map.mp hid
  have hbelow : c ∈ m.children.flatMap (·.descendants) :=
    List.mem_flatMap.mpr ⟨c, hc, c.mem_descendants_self⟩
  have hcm : c ∈ m.descendants := Node.mem_descendants_child hc
  have hsound := h.refit c.id (Node.refits_addSemicolon p)
  have hne : m.id ≠ c.id := by
    have hnodup := Node.nodup_below h.nodup hm
    rw [m.descendants_children, List.map_cons, List.nodup_cons] at hnodup
    exact fun heq => hnodup.1 (heq ▸ List.mem_map_of_mem hbelow)
  have hupdate : m.update c.id (·.mapDeclaration (·.addSemicolon p)) =
      { m with elements := Element.updateAll c.id (·.mapDeclaration (·.addSemicolon p)) m.elements } := by
    cases m
    rw [Node.update, if_neg hne]
  obtain ⟨kind, opening, hshape, hformed, -, -⟩ := (h.formed m hm).of_listing? hl
  have hmem := Node.mem_update (·.mapDeclaration (·.addSemicolon p)) h.nodup hm
    (List.mem_map_of_mem hcm)
  rw [hupdate] at hmem
  obtain ⟨l', hformed', -, -, hl'⟩ := (hsound.formed _ hmem).listing? hshape
  refine ⟨hsound, _, hmem, rfl, l', hl', hformed'.kind.trans hformed.kind.symm, ?_⟩
  rw [← (hsound.formed _ hmem).children_listing hl', ← (h.formed m hm).children_listing hl]
  exact Element.nodes_updateAll _ _ _

/-- A fragment is put behind the last item of a list. -/
theorem insertLast {l : Listing} (h : tree.Sound (item.entries none ++ loose))
    (hlist : list ∈ tree.root.descendants) (hl : list.listing? = some l)
    (hindex : l.items.size = index) (hitem : ∀ x ∈ item.descendants, x.Formed) :
    (tree.insertInto list.id index item none).Sound loose := by
  have hends : (l.insert index item none).items.endsSeparated = false :=
    Listing.endsSeparated_insert hindex.ge (fun hlt => absurd hlt (by omega)) fun _ => rfl
  have hresult := insertInto none (f := fun m => m) h hlist hl (Node.mapListing_of hl _)
    (fun hl => hl) rfl (fun _ => rfl) hindex.ge (fun _ => rfl) hends hitem
  rwa [Tree.update_id] at hresult

/-- A comma goes between the last selector of a list and a fragment that is put behind it. -/
theorem insertLast_comma {l : Listing} {k : Nat} {comma : Token}
    (h : tree.Sound (item.entries none ++ loose)) (hlist : list ∈ tree.root.descendants)
    (hl : list.listing? = some l) (hselectors : l.kind = .selectors)
    (hindex : l.items.size = index) (hitem : ∀ x ∈ item.descendants, x.Formed) :
    ((tree.update list.id (·.mapListing (·.setSeparator k (some comma)))).insertInto
      list.id index item none).Sound loose := by
  obtain ⟨kind, opening, hshape, hformed, -, -⟩ := (h.formed list hlist).of_listing? hl
  have hset : ∀ {kind opening}, l.Formed kind opening →
      (l.setSeparator k (some comma)).Formed kind opening := fun hf =>
    hf.setSeparator (fun hk => absurd (hf.kind.symm.trans hselectors) hk) _
  have hsize : (l.setSeparator k (some comma)).items.size = index := by
    rw [Listing.size_setSeparator, hindex]
  have hends : ((l.setSeparator k (some comma)).insert index item none).items.endsSeparated =
      false :=
    Listing.endsSeparated_insert hsize.ge (fun hlt => absurd hlt (by omega)) fun _ => rfl
  refine insertInto none h hlist hl ?_ hset (Listing.nodes_setSeparator _ _ l)
    (Node.id_mapListing _) hsize.ge (fun _ => rfl) hends hitem
  rw [Node.mapListing_of hl, Node.mapListing_of (Node.listing?_relist hshape (hset hformed))]

theorem insertedAfter {fragment : Node} (h : tree.Sound (fragment.entries none))
    (hlist : list ∈ tree.root.descendants) (hlisting : list.listing? = some listing)
    (hfragment : ∀ x ∈ fragment.descendants, x.Formed) :
    (tree.insertedAfter list listing fragment).Sound [] := by
  unfold Tree.insertedAfter
  extract_lets start gapAt gap fragmentAt lacksSemicolon ending moved item
  have halike : tree.Alike moved := Alike.makeRoom _ _ _
  obtain ⟨m, hm, hskeleton⟩ := halike.node hlist
  obtain ⟨l, hl, hkind, hsize, hends⟩ :=
    Node.listing?_of_skeleton (h.formed list hlist) hlisting hskeleton
  have hid : m.id = list.id := Node.id_of_skeleton hskeleton
  have hplaced : ((fragment.place fragmentAt).prependLeading gap).skeleton = fragment.skeleton := by
    rw [Node.skeleton_prependLeading, Node.skeleton_place]
  obtain ⟨hentries, hitem⟩ := Node.refits_closed lacksSemicolon
    (fragmentAt.advance fragment.render) hplaced hfragment
  have hmoved : moved.Sound (item.entries none ++ []) := by
    rw [List.append_nil, hentries]
    exact h.alike halike
  rw [Tree.separatedLast, ← hid]
  split
  next hcomma =>
    rw [Listing.lacksComma, Bool.and_eq_true, Bool.and_eq_true] at hcomma
    exact insertLast_comma hmoved hm hl (hkind.trans (of_decide_eq_true hcomma.1.1)) hsize hitem
  next =>
    cases hlast : listing.items.last? with
    | none => exact insertLast hmoved hm hl hsize hitem
    | some n =>
      dsimp only
      split
      next =>
        have hn : n.id ∈ m.children.map Node.id := by
          rw [Node.ids_children_of_skeleton hskeleton]
          exact List.mem_map_of_mem ((h.formed list hlist).mem_children_last? hlisting hlast)
        obtain ⟨hclosed, m', hm', hid', l', hl', -, hnodes⟩ := closedItem hmoved hm hl hn
        have hsize' : l'.items.size = l.items.size := by
          rw [← l'.length_nodes, hnodes, List.length_map, l.length_nodes]
        rw [← hid']
        exact insertLast hclosed hm' hl' (hsize'.trans hsize) hitem
      next => exact insertLast hmoved hm hl hsize hitem

/-- An item is taken out of a list and freed. -/
theorem removed {g : Listing → Listing} {item : Node} (h : tree.Sound [])
    (hlist : list ∈ tree.root.descendants) (hlisting : list.listing? = some listing)
    (hformed : ∀ {kind opening}, listing.Formed kind opening → (g listing).Formed kind opening)
    (hends : (g listing).items.endsSeparated = false)
    (hnodes : listing.nodes.Perm (item :: (g listing).nodes)) :
    ((tree.update list.id (·.mapListing g)).free item).Sound [] := by
  have hloose : tree.Sound ([].flatMap (fun n : Node => n.entries (some list.id)) ++ []) := h
  have hrelist := hloose.relist (g listing) [] [item] hlist hlisting
    (Node.mapListing_of hlisting g) hformed hends hnodes.symm (by simp)
  rw [List.flatMap_singleton] at hrelist
  exact hrelist.free

theorem removeBefore {removed next : Node} (h : tree.Sound []) (hlist : list ∈ tree.root.descendants)
    (hlisting : list.listing? = some listing) (hget : listing.items.get? index = some removed)
    (hnext : listing.items.get? (index + 1) = some next) :
    (tree.removeBefore list index removed next).Sound [] := by
  have hends := (h.formed list hlist).endsSeparated_listing hlisting
  have hremoved := Sound.removed h hlist hlisting (fun hf => hf.remove hget)
    (Listing.endsSeparated_remove hget hnext hends) (Listing.perm_remove hget)
  refine hremoved.alike (((Alike.update _ (Node.skeleton_setLeading _) _).trans
    (.closeGap _ _ _)).trans (.update _ (Node.skeleton_prependLeading _) _))

theorem removeLast {removed : Node} (h : tree.Sound []) (hlist : list ∈ tree.root.descendants)
    (hlisting : list.listing? = some listing) (hget : listing.items.get? index = some removed)
    (hnext : listing.items.get? (index + 1) = none) :
    (tree.removeLast list listing index removed).Sound [] := by
  obtain ⟨kind, opening, -, hformed, -, -⟩ := (h.formed list hlist).of_listing? hlisting
  obtain ⟨-, hends, hnodes⟩ := hformed.removeLast hget hnext
  have hremoved := Sound.removed h hlist hlisting (fun hf => (hf.removeLast hget hnext).1) hends
    hnodes
  exact hremoved.alike (.closeGap _ _ _)

/-- The content of a node is exchanged for that of a fragment. -/
theorem putContent {n placed : Node} (h : tree.Sound (placed.entries none))
    (hn : n ∈ tree.root.descendants) (hplaced : ∀ x ∈ placed.descendants, x.Formed) :
    (tree.putContent n.id placed).Sound [] := by
  have hself : placed ∈ placed.descendants := placed.mem_descendants_self
  have hbelow : ∀ c ∈ placed.children, ∀ x ∈ c.descendants, x.Formed := fun c hc x hx =>
    hplaced x (Node.mem_descendants_trans (Node.mem_descendants_child hc) hx)
  rw [placed.entries_children] at h
  have hadopted := h.remove.adopt n.id
  have hexchange := hadopted.exchange
    (f := ({ · with kind := placed.kind, elements := placed.elements })) placed.children n.children
    hn rfl List.perm_append_comm (Node.formed_of_content (n := placed) rfl rfl (hplaced placed hself)) hbelow
  have hresult := hexchange.freeAll
  rw [Tree.putContent, h.find?_of_mem hn]
  exact hresult

theorem replacedWith {n placed : Node} (h : tree.Sound (placed.entries none))
    (hn : n ∈ tree.root.descendants) (hplaced : ∀ x ∈ placed.descendants, x.Formed) :
    (tree.replacedWith n.id placed).Sound [] := by
  have hresized := (putContent h hn hplaced).alike (.resize n.id placed.span _)
  unfold Tree.replacedWith
  extract_lets resized
  split
  · exact hresized.alike (.respan _ _)
  · exact hresized

theorem marked {n value : Node} {d : Declaration} (h : tree.Sound [])
    (hn : n ∈ tree.root.descendants) (hd : n.declaration? = some d) (hnone : d.important = none) :
    (tree.marked n.id value).Sound [] := by
  unfold Tree.marked
  extract_lets p moved
  have halike : tree.Alike moved := Alike.makeRoom _ _ _
  obtain ⟨m, hm, hskeleton⟩ := halike.node hn
  have hid : m.id = n.id := Node.id_of_skeleton hskeleton
  obtain ⟨d', hd', -, hlength⟩ := Node.declaration?_of_skeleton (h.formed n hn) hd hskeleton
  have hnone' : d'.important = none := by
    simpa [Declaration.nodes, hnone] using hlength
  have hinserted := (h.alike halike).insert (some m.id)
  have hmarked := hinserted.redeclare
    (f := (·.mapDeclaration ({ · with important := some (importantNode moved.arena.next p) })))
    { d' with important := some (importantNode moved.arena.next p) }
    [importantNode moved.arena.next p] [] hm hd' (Node.mapDeclaration_of hd' _)
    (fun hformed => hformed.setImportant _)
    (by simpa [Declaration.nodes, hnone'] using List.Perm.swap _ _ _)
    (by
      intro k hk x hx
      obtain rfl := List.mem_singleton.mp hk
      rw [importantNode, Node.descendants_mk] at hx
      obtain rfl := List.mem_singleton.mp hx
      exact Node.formed_of_kind rfl (by simp))
  rwa [hid] at hmarked

theorem unmarked {n mark : Node} {d : Declaration} (h : tree.Sound [])
    (hn : n ∈ tree.root.descendants) (hd : n.declaration? = some d)
    (hmark : d.important = some mark) : (tree.unmarked n.id mark).Sound [] := by
  have hnone : tree.Sound ([].flatMap (fun c : Node => c.entries (some n.id)) ++ []) := h
  have hunmarked := hnone.redeclare (f := (·.mapDeclaration ({ · with important := none })))
    { d with important := none } [] [mark] hn hd
    (Node.mapDeclaration_of hd _) (fun hformed => hformed.setImportant _)
    (by simpa [Declaration.nodes, hmark] using List.Perm.swap _ _ _) (by simp)
  rw [List.flatMap_singleton] at hunmarked
  exact hunmarked.free.alike (.closeGap _ _ _)

theorem wrapped (h : tree.Sound []) (id : NodeId) (d : Declaration) :
    (tree.wrapped id d).Sound [] := by
  unfold Tree.wrapped
  extract_lets start opened last stop
  have hopened : opened.Sound [] :=
    (h.alike (.makeRoom _ _ _)).refit id (Node.refits_openComment start)
  exact (hopened.alike (.makeRoom _ _ _)).refit id (Node.refits_closeComment stop)

theorem closingDropped (h : tree.Sound []) (id : NodeId) (d : Declaration) :
    (tree.closingDropped id d).Sound [] := by
  rw [Tree.closingDropped]
  split
  · exact (h.alike (.closeGap _ _ _)).refit id Node.refits_dropClosing
  · exact h

theorem openingDropped (h : tree.Sound []) (id : NodeId) (d : Declaration) :
    (tree.openingDropped id d).Sound [] := by
  rw [Tree.openingDropped]
  split
  · exact (h.alike (.closeGap _ _ _)).refit id Node.refits_dropOpening
  · exact h

end Tree.Sound

end CssTree
