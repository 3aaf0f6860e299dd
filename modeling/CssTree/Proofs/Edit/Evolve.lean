import CssTree.Proofs.Edit.Outcome
import CssTree.Proofs.Tree.Rework

namespace CssTree

namespace Declaration

variable {d : Declaration}

theorem remade_addSemicolon (h : d.Formed) (hclosing : d.opening = none → d.closing = none)
    (p : Position) : d.Remade (d.addSemicolon p) :=
  ⟨h.addSemicolon p, rfl, fun _ hn => Or.inr hn, hclosing⟩

theorem remade_setImportant {mark : Option Node} (h : d.Formed)
    (hclosing : d.opening = none → d.closing = none) (hmark : ∀ n ∈ mark, n.IsMark) :
    d.Remade { d with important := mark } :=
  ⟨h.setImportant mark, rfl, fun n hn => Or.inl (hmark n hn), hclosing⟩

theorem remade_openComment (h : d.Formed) (p : Position) : d.Remade (d.openComment p) :=
  ⟨h.openComment p, rfl, fun _ hn => Or.inr hn, fun hnone => by cases hnone⟩

theorem remade_setClosing {closing : Option Token} (h : d.Formed)
    (hkind : ∀ t ∈ closing, t.kind = .closeComment) (hopening : d.opening = none → closing = none) :
    d.Remade { d with closing := closing } :=
  ⟨h.setClosing hkind, rfl, fun _ hn => Or.inr hn, hopening⟩

theorem remade_dropOpening (h : d.Formed) (hclosing : d.closing = none) :
    d.Remade d.dropOpening :=
  ⟨h.dropOpening, rfl, fun _ hn => Or.inr hn, fun _ => hclosing⟩

end Declaration

theorem Listing.last?_nodes (l : Listing) : l.items.last? = l.nodes.getLast? := by
  rw [Punctuated.last?, Listing.nodes, Punctuated.values, List.getLast?_map]

namespace Node

variable {m m' n : Node} {d : Declaration}

theorem update_self {f : Node → Node} {id : NodeId} (h : n.id = id) : n.update id f = f n := by
  cases n
  rw [Node.update, if_pos h]

theorem declaration?_redeclare {d' : Declaration} (hkind : m.kind = .declaration)
    (hd' : d'.Formed) : ({ m with elements := d'.elements } : Node).declaration? = some d' := by
  rw [Node.declaration?, if_pos (show m.kind = .declaration from hkind), hd'.ofElements?]

theorem Orderly.rework (h : m.Orderly) (hrework : m.Reworked m') : m'.Orderly := fun x hx =>
  ⟨hrework.proper (fun y hy => (h y hy).1) x hx,
    hrework.terminated (fun y hy => (h y hy).1) (fun y hy => (h y hy).2) x hx⟩

theorem needsSemicolon_of_declaration? (hd : m.declaration? = some d) :
    m.needsSemicolon = d.needsSemicolon := by
  rw [Node.needsSemicolon, hd, Option.any_some]

theorem needsSemicolon_addSemicolon (hm : m.Formed) (p : Position) :
    (m.mapDeclaration (·.addSemicolon p)).needsSemicolon = false := by
  cases hd : m.declaration? with
  | none =>
    rw [mapDeclaration, hd, Node.needsSemicolon, hd]
    rfl
  | some d =>
    obtain ⟨hkind, hformed, -⟩ := hm.of_declaration? hd
    rw [mapDeclaration_of hd,
      needsSemicolon_of_declaration? (declaration?_redeclare hkind (hformed.addSemicolon p))]
    rfl

theorem reworked_addSemicolon (hm : m.Proper) (hd : m.declaration? = some d) (p : Position) :
    m.Reworked (m.mapDeclaration (·.addSemicolon p)) := by
  obtain ⟨-, hformed, -⟩ := hm.formed.of_declaration? hd
  rw [mapDeclaration_of hd]
  refine .redeclare hd (Declaration.remade_addSemicolon hformed (hm.comment d hd) p)
      fun hneeds => ?_
  cases hneeds

theorem reworked_setImportant {mark : Option Node} (hm : m.Proper) (hd : m.declaration? = some d)
    (hmark : ∀ n ∈ mark, n.IsMark) :
    m.Reworked (m.mapDeclaration ({ · with important := mark })) := by
  obtain ⟨-, hformed, -⟩ := hm.formed.of_declaration? hd
  rw [mapDeclaration_of hd]
  exact .redeclare hd (Declaration.remade_setImportant hformed (hm.comment d hd) hmark) fun h => h

theorem reworked_openComment (hm : m.Proper) (hd : m.declaration? = some d) (p : Position) :
    m.Reworked (m.mapDeclaration (·.openComment p)) := by
  obtain ⟨-, hformed, -⟩ := hm.formed.of_declaration? hd
  rw [mapDeclaration_of hd]
  refine .redeclare hd (Declaration.remade_openComment hformed p) fun hneeds => ?_
  simp [Declaration.needsSemicolon, Declaration.isDisabled, Declaration.openComment] at hneeds

theorem reworked_setClosing {closing : Option Token} (hm : m.Proper) (hd : m.declaration? = some d)
    (hkind : ∀ t ∈ closing, t.kind = .closeComment) (hopening : d.opening = none → closing = none) :
    m.Reworked (m.mapDeclaration ({ · with closing := closing })) := by
  obtain ⟨-, hformed, -⟩ := hm.formed.of_declaration? hd
  rw [mapDeclaration_of hd]
  exact .redeclare hd (Declaration.remade_setClosing hformed hkind hopening) fun h => h

/-- The end of a comment is put behind a declaration that has its start. -/
theorem reworked_closeComment (hm : m.Proper) (hd : m.declaration? = some d)
    (hopening : d.opening ≠ none) (p : Position) : m.Reworked (m.closeComment p) := by
  rw [closeComment]
  have hkinds : (mapLast (fun t : Token => { t with trailing := [] }) m.tokens).map (·.kind) =
      m.tokens.map (·.kind) :=
    map_mapLast (f := fun t : Token => { t with trailing := [] }) (g := fun t => t.kind)
      (fun _ => rfl) _
  have hskeleton := skeleton_mapTokens hkinds
  obtain ⟨d', hd', hsame, -⟩ := declaration?_of_skeleton hm.formed hd hskeleton
  refine .alike hskeleton
    (reworked_setClosing (hm.of_skeleton hskeleton) hd' ?_ fun hnone => ?_) rfl
  · rintro t ht
    obtain rfl : _ = t := Option.some.inj ht
    rfl
  · refine absurd ?_ hopening
    rw [← Option.not_isSome_iff_eq_none, ← hsame.opening, hnone]
    simp

theorem reworked_dropClosing (hm : m.Proper) (hd : m.declaration? = some d) :
    m.Reworked m.dropClosing := by
  rw [dropClosing]
  exact .alike rfl (reworked_setClosing hm hd (by simp) fun _ => rfl) (skeleton_appendTrailing _ _)

end Node

/-- What may stand in a list may be put into it with the semicolon that it needs there. -/
theorem ListKind.takes_closed {kind : ListKind} {fragment n : Node}
    (h : kind.slot.Takes fragment) (heq : n.skeleton = fragment.skeleton) (p : Position) :
    kind.Takes (n.closed (kind.lacksSemicolon fragment) p) := by
  have horderly : n.Orderly := h.orderly.of_skeleton heq
  have hself : n.Proper := (horderly n n.mem_descendants_self).1
  have hfragment : fragment.Formed := (h.orderly _ fragment.mem_descendants_self).1.formed
  have hkind : kind.slot.admits n.kind := Node.kind_of_skeleton heq ▸ h.admits
  rw [Node.closed]
  split
  next hlacks =>
    have hdeclaration := Edit.declaration?_of_lacksSemicolon hfragment hlacks heq
    obtain ⟨d, hd⟩ := Option.isSome_iff_exists.mp hdeclaration
    have hrework := Node.reworked_addSemicolon hself hd p
    refine ⟨⟨hrework.kind ▸ hkind, horderly.rework hrework⟩, fun _ => ?_⟩
    exact Node.needsSemicolon_addSemicolon hself.formed p
  next hlacks =>
    refine ⟨⟨hkind, horderly⟩, fun hdeclarations => ?_⟩
    rw [ListKind.lacksSemicolon, decide_eq_true hdeclarations, Bool.true_and] at hlacks
    rw [Node.needsSemicolon_of_skeleton hfragment heq]
    exact Bool.not_eq_true _ ▸ hlacks

namespace Tree

variable {tree tree' : Tree} {loose : List Entry} {m n list : Node} {listing : Listing}
  {index : Nat} {quiet : Prop}

theorem Sound.eq_of_id (h : tree.Sound loose) (hm : m ∈ tree.root.descendants)
    (hn : n ∈ tree.root.descendants) (hid : m.id = n.id) : m = n :=
  List.inj_on_of_nodup_map h.nodup hm hn hid

/-- One node of a sound tree is reworked. -/
theorem Sound.evolves_update {r : Node} {f : Node → Node} (hsound : tree.Sound loose)
    (h : r.Evolves quiet tree.root) (hm : m ∈ tree.root.descendants) (hf : m.Reworked (f m)) :
    r.Evolves quiet (tree.update m.id f).root := by
  refine h.exchange (Node.exchanges_reworked fun x hx hid => ?_)
  rwa [hsound.eq_of_id hx hm hid]

theorem Sound.evolves_insertedBefore {target fragment : Node} (h : tree.Sound loose)
    (hlist : list ∈ tree.root.descendants) (hlisting : list.listing? = some listing)
    (htarget : listing.items.get? index = some target)
    (hfragment : listing.kind.slot.Takes fragment) :
    tree.root.Evolves quiet (tree.insertedBefore list listing.kind index target fragment).root := by
  unfold Tree.insertedBefore
  extract_lets start lacksSemicolon separator separatorAt gap moved lead item comma
  have halike : tree.Alike (moved.update target.id (·.setLeading gap)) :=
    (Alike.makeRoom _ _ _).trans (.update _ (Node.skeleton_setLeading gap) _)
  obtain ⟨m, hm, hskeleton⟩ := halike.node hlist
  obtain ⟨l, hl, hkind, hsize, -⟩ :=
    Node.listing?_of_skeleton (h.formed list hlist) hlisting hskeleton
  have hplaced : ((fragment.place start).prependLeading lead).skeleton = fragment.skeleton := by
    rw [Node.skeleton_prependLeading, Node.skeleton_place]
  have hitem : l.kind.Takes item := hkind ▸ ListKind.takes_closed hfragment hplaced separatorAt
  have hlt : index < l.items.size := by
    obtain ⟨front, separator, back, hpairs, hindex⟩ := Listing.exists_item htarget
    rw [hsize, Punctuated.size, hpairs, List.length_append, List.length_cons]
    omega
  have hrework : m.Reworked (m.mapListing (·.insert index item comma)) := by
    rw [Node.mapListing_of hl]
    exact .insert hl hlt hitem (fun hk => ⟨_, if_pos (hkind ▸ hk), rfl⟩)
      fun hk => if_neg (hkind ▸ hk)
  rw [← Node.id_of_skeleton hskeleton]
  exact (h.alike halike).evolves_update (.alike .refl halike.root) hm hrework

/-- An item goes behind the last one of a list, from which it is kept apart. -/
theorem Sound.evolves_insertLast {r item : Node} {l : Listing} (h : tree.Sound loose)
    (hr : r.Evolves quiet tree.root) (hlist : list ∈ tree.root.descendants)
    (hl : list.listing? = some l) (hindex : l.items.size = index) (hitem : l.kind.Takes item)
    (hlast : ∀ last ∈ l.items.last?, l.kind.lacksSemicolon last = false)
    (hnone : l.kind = .selectors → l.items.last? = none) :
    r.Evolves quiet (tree.insertInto list.id index item none).root := by
  have hrework : list.Reworked (list.mapListing (·.insert index item none)) := by
    rw [Node.mapListing_of hl, ← hindex]
    have hcomma : (Token.place .comma [','] default).kind = .comma := rfl
    refine .append hl hitem hcomma hlast ?_
    split
    next hk =>
      -- there is no item that would get the comma
      have hpairs : l.items.pairs = [] := by
        have hmap := hnone hk
        rw [Punctuated.last?, Option.map_eq_none_iff, List.getLast?_eq_none_iff] at hmap
        exact hmap
      rw [Listing.setSeparator, Punctuated.setSeparator, hpairs]
      rfl
    next => rfl
  exact h.evolves_update hr hlist hrework

/-- An item goes behind the last selector of a list, with a comma between them. -/
theorem Sound.evolves_insertComma {r item : Node} {l : Listing} {comma : Token} {k : Nat}
    (h : tree.Sound loose) (hr : r.Evolves quiet tree.root) (hlist : list ∈ tree.root.descendants)
    (hl : list.listing? = some l) (hselectors : l.kind = .selectors)
    (hindex : l.items.size = index) (hk : k = l.items.size - 1) (hcomma : comma.kind = .comma)
    (hitem : l.kind.Takes item) :
    r.Evolves quiet ((tree.update list.id (·.mapListing (·.setSeparator k (some comma)))).insertInto
      list.id index item none).root := by
  obtain ⟨kind, opening, hshape, hformed, -, -⟩ := (h.formed list hlist).of_listing? hl
  have hset : (l.setSeparator k (some comma)).Formed kind opening :=
    hformed.setSeparator (fun hne => absurd (hformed.kind.symm.trans hselectors) hne) _
  have hrework : list.Reworked ((list.mapListing (·.setSeparator k (some comma))).mapListing
      (·.insert index item none)) := by
    rw [Node.mapListing_of hl, Node.mapListing_of (Node.listing?_relist hshape hset), ← hindex, hk]
    refine .append hl hitem hcomma (fun last _ => ?_) (if_pos hselectors).symm
    rw [ListKind.lacksSemicolon, hselectors]
    rfl
  have hkeep : ∀ m : Node, (m.mapListing (·.setSeparator k (some comma))).id = m.id :=
    Node.id_mapListing _
  show r.Evolves quiet ((tree.root.update list.id _).update list.id _)
  rw [Node.update_update hkeep (·.mapListing (·.insert index item none)) tree.root]
  exact h.evolves_update (f := fun m => (m.mapListing (·.setSeparator k (some comma))).mapListing
    (·.insert index item none)) hr hlist hrework

/-- An item goes behind the last declaration of a list, which gets its semicolon. -/
theorem Sound.evolves_insertClosed {r item c : Node} {l : Listing} {p : Position}
    (h : tree.Sound loose) (hr : r.Evolves quiet tree.root)
    (hproper : ∀ x ∈ tree.root.descendants, x.Proper) (hlist : list ∈ tree.root.descendants)
    (hl : list.listing? = some l) (hdeclarations : l.kind = .declarations)
    (hindex : l.items.size = index) (hitem : l.kind.Takes item) (hc : l.items.last? = some c)
    (hneeds : c.needsSemicolon) :
    r.Evolves quiet ((tree.update c.id (·.mapDeclaration (·.addSemicolon p))).insertInto
      list.id index item none).root := by
  have hchild := (h.formed list hlist).mem_children_last? hl hc
  have hmem := Node.mem_descendants_trans hlist (Node.mem_descendants_child hchild)
  obtain ⟨d, hd⟩ := Option.isSome_iff_exists.mp (Edit.declaration?_of_needsSemicolon hneeds)
  have hevolves := h.evolves_update hr hmem (Node.reworked_addSemicolon (hproper c hmem) hd p)
  obtain ⟨hclosed, list', hlist', hid, l', hl', hkind, hnodes⟩ :=
    h.closedItem (p := p) hlist hl (List.mem_map_of_mem hchild)
  have hsize : l'.items.size = index := by
    rw [← l'.length_nodes, hnodes, List.length_map, l.length_nodes, hindex]
  rw [← hid]
  refine hclosed.evolves_insertLast hevolves hlist' hl' hsize (hkind ▸ hitem) (fun last hlast => ?_)
    fun hselectors => ?_
  · have heq : last = c.mapDeclaration (·.addSemicolon p) := by
      rw [l'.last?_nodes, hnodes, List.getLast?_map, ← l.last?_nodes, hc] at hlast
      exact (Option.some.inj hlast).symm.trans (Node.update_self rfl)
    rw [heq, ListKind.lacksSemicolon, Node.needsSemicolon_addSemicolon (hproper c hmem).formed,
      Bool.and_false]
  · rw [hkind, hdeclarations] at hselectors
    cases hselectors

theorem Sound.evolves_insertedAfter {fragment : Node} (h : tree.Sound loose)
    (hproper : ∀ x ∈ tree.root.descendants, x.Proper) (hlist : list ∈ tree.root.descendants)
    (hlisting : list.listing? = some listing) (hfragment : listing.kind.slot.Takes fragment) :
    tree.root.Evolves quiet (tree.insertedAfter list listing fragment).root := by
  unfold Tree.insertedAfter
  extract_lets start gapAt gap fragmentAt lacksSemicolon ending moved item
  have halike : tree.Alike moved := Alike.makeRoom _ _ _
  obtain ⟨m, hm, hskeleton⟩ := halike.node hlist
  obtain ⟨l, hl, hkind, hsize, hends⟩ :=
    Node.listing?_of_skeleton (h.formed list hlist) hlisting hskeleton
  have hid : m.id = list.id := Node.id_of_skeleton hskeleton
  have hplaced : ((fragment.place fragmentAt).prependLeading gap).skeleton = fragment.skeleton := by
    rw [Node.skeleton_prependLeading, Node.skeleton_place]
  have hitem : l.kind.Takes item := hkind ▸ ListKind.takes_closed hfragment hplaced _
  have hmoved : moved.Sound loose := h.alike halike
  have hevolves : tree.root.Evolves quiet moved.root := .alike .refl halike.root
  -- the items of the list in both trees are the same but for spans and texts
  have hnodes : l.nodes.map Node.skeleton = listing.nodes.map Node.skeleton := by
    rw [← (hmoved.formed m hm).children_listing hl,
      ← (h.formed list hlist).children_listing hlisting, ← Node.children_skeleton, hskeleton, Node.children_skeleton]
  have hlasts : l.items.last?.map Node.skeleton = listing.items.last?.map Node.skeleton := by
    rw [l.last?_nodes, listing.last?_nodes, ← List.getLast?_map, hnodes, List.getLast?_map]
  rw [Tree.separatedLast, ← hid]
  split
  next hcomma =>
    rw [Listing.lacksComma, Bool.and_eq_true, Bool.and_eq_true] at hcomma
    have hk : l.kind = .selectors := hkind.trans (of_decide_eq_true hcomma.1.1)
    exact hmoved.evolves_insertComma hevolves hm hl hk hsize (by rw [hsize]) rfl hitem
  next hcomma =>
    cases hlast : listing.items.last? with
    | none =>
      have hnone : l.items.last? = none := by simpa [hlast] using hlasts
      exact hmoved.evolves_insertLast hevolves hm hl hsize hitem (by simp [hnone]) fun _ => hnone
    | some n =>
      obtain ⟨c, hc, hcn⟩ : ∃ c, l.items.last? = some c ∧ c.skeleton = n.skeleton := by
        simpa [hlast] using hlasts
      have hmem := (h.formed list hlist).mem_children_last? hlisting hlast
      have hcid : c.id = n.id := Node.id_of_skeleton hcn
      have hformed : n.Formed := h.formed n
        (Node.mem_descendants_trans hlist (Node.mem_descendants_child hmem))
      dsimp only
      split
      next hlacks =>
        rw [Listing.lacksSemicolon, hlast, Option.any_some, ListKind.lacksSemicolon,
          Bool.and_eq_true, ← Node.needsSemicolon_of_skeleton hformed hcn] at hlacks
        have hk : l.kind = .declarations := hkind.trans (of_decide_eq_true hlacks.1)
        rw [← hcid]
        exact hmoved.evolves_insertClosed hevolves (hevolves.proper hproper) hm hl hk hsize hitem hc
          hlacks.2
      next hlacks =>
        rw [Listing.lacksSemicolon, hlast, Option.any_some, Bool.not_eq_true] at hlacks
        refine hmoved.evolves_insertLast hevolves hm hl hsize hitem (fun last hlast' => ?_)
          fun hselectors => ?_
        · obtain rfl := Option.some.inj (hc.symm.trans hlast')
          rw [hkind, ListKind.lacksSemicolon, Node.needsSemicolon_of_skeleton hformed hcn]
          exact hlacks
        · obtain ⟨-, -, -, -, hends', -⟩ := (h.formed list hlist).of_listing? hlisting
          simp [Listing.lacksComma, ← hkind, hselectors, hlast, hends'] at hcomma

theorem Sound.evolves_removeBefore {removed next : Node} (h : tree.Sound loose)
    (hlist : list ∈ tree.root.descendants) (hlisting : list.listing? = some listing)
    (hget : listing.items.get? index = some removed)
    (hnext : listing.items.get? (index + 1) = some next) :
    tree.root.Evolves quiet (tree.removeBefore list index removed next).root := by
  have hrework : list.Reworked (list.mapListing (·.remove index)) := by
    rw [Node.mapListing_of hlisting]
    exact .remove hlisting hget hnext
  have hremoved : tree.root.Evolves quiet
      (tree.update list.id (·.mapListing (·.remove index))).root :=
    h.evolves_update .refl hlist hrework
  have halike : ((tree.update list.id (·.mapListing (·.remove index))).free removed).Alike
      (tree.removeBefore list index removed next) :=
    ((Alike.update _ (Node.skeleton_setLeading _) _).trans (.closeGap _ _ _)).trans
      (.update _ (Node.skeleton_prependLeading _) _)
  exact .alike hremoved halike.root

theorem Sound.evolves_removeLast {removed : Node} (h : tree.Sound loose)
    (hlist : list ∈ tree.root.descendants) (hlisting : list.listing? = some listing)
    (hget : listing.items.get? index = some removed)
    (hnext : listing.items.get? (index + 1) = none) :
    tree.root.Evolves quiet (tree.removeLast list listing index removed).root := by
  have hrework : list.Reworked (list.mapListing (·.removeLast index)) := by
    rw [Node.mapListing_of hlisting]
    exact .removeLast hlisting hget hnext
  have hremoved :
      tree.root.Evolves quiet (tree.update list.id (·.mapListing (·.removeLast index))).root :=
    h.evolves_update .refl hlist hrework
  have halike : ((tree.update list.id (·.mapListing (·.removeLast index))).free removed).Alike
      (tree.removeLast list listing index removed) := .closeGap _ _ _
  exact .alike hremoved halike.root

/-- A declaration of a sound tree is reworked after spans were moved. -/
theorem Sound.evolves_declaration {r : Node} {d : Declaration} {f : Node → Node}
    (h : tree.Sound loose) (hr : r.Evolves quiet tree.root)
    (hproper : ∀ x ∈ tree.root.descendants, x.Proper) (hn : n ∈ tree.root.descendants)
    (hd : n.declaration? = some d) (halike : tree.Alike tree')
    (hf : ∀ {m : Node} {d' : Declaration}, m.Proper → m.declaration? = some d' →
      d.SameDelimiters d' → m.Reworked (f m)) :
    r.Evolves quiet (tree'.update n.id f).root := by
  obtain ⟨m, hm, hskeleton⟩ := halike.node hn
  obtain ⟨d', hd', hsame, -⟩ := Node.declaration?_of_skeleton (h.formed n hn) hd hskeleton
  have hmproper : m.Proper := (hproper n hn).of_skeleton hskeleton
  rw [← Node.id_of_skeleton hskeleton]
  exact (h.alike halike).evolves_update (hr.alike halike.root) hm (hf hmproper hd' hsame)

theorem Sound.evolves_marked {d : Declaration} {value : Node} (h : tree.Sound loose)
    (hproper : ∀ x ∈ tree.root.descendants, x.Proper) (hn : n ∈ tree.root.descendants)
    (hd : n.declaration? = some d) : tree.root.Evolves quiet (tree.marked n.id value).root := by
  unfold Tree.marked
  extract_lets p moved
  have hmark : ∀ k ∈ some (importantNode moved.arena.next p), k.IsMark := by
    intro k hk
    obtain rfl := Option.some.inj hk
    exact ⟨_, _, rfl⟩
  have halike : tree.Alike moved := .makeRoom _ _ _
  have hevolves : tree.root.Evolves quiet (moved.update n.id (·.mapDeclaration
      ({ · with important := some (importantNode moved.arena.next p) }))).root :=
    h.evolves_declaration .refl hproper hn hd halike fun hm hd' _ =>
      Node.reworked_setImportant hm hd' hmark
  exact hevolves

theorem Sound.evolves_unmarked {d : Declaration} {mark : Node} (h : tree.Sound loose)
    (hproper : ∀ x ∈ tree.root.descendants, x.Proper) (hn : n ∈ tree.root.descendants)
    (hd : n.declaration? = some d) : tree.root.Evolves quiet (tree.unmarked n.id mark).root := by
  have hremade : tree.root.Evolves quiet
      (tree.update n.id (·.mapDeclaration ({ · with important := none }))).root :=
    h.evolves_declaration .refl hproper hn hd (.refl tree) fun hm hd' _ =>
      Node.reworked_setImportant hm hd' (by simp)
  have halike :
      ((tree.update n.id (·.mapDeclaration ({ · with important := none }))).free mark).Alike
        (tree.unmarked n.id mark) := .closeGap _ _ _
  exact .alike hremade halike.root

/-- The declaration that a node is after it was changed. -/
theorem Sound.declaration_updated {f : Declaration → Declaration} {d : Declaration}
    (h : tree.Sound loose) (hn : n ∈ tree.root.descendants) (hd : n.declaration? = some d)
    (hf : (f d).Formed) :
    ∃ m ∈ (tree.update n.id (·.mapDeclaration f)).root.descendants,
      m.id = n.id ∧ m.declaration? = some (f d) := by
  obtain ⟨hkind, -, -⟩ := (h.formed n hn).of_declaration? hd
  have hmem := Node.mem_update (·.mapDeclaration f) h.nodup hn
    (List.mem_map_of_mem n.mem_descendants_self)
  rw [Node.update_self rfl, Node.mapDeclaration_of hd] at hmem
  exact ⟨_, hmem, rfl, Node.declaration?_redeclare hkind hf⟩

theorem Sound.evolves_wrapped {d d₀ : Declaration} (h : tree.Sound loose)
    (hproper : ∀ x ∈ tree.root.descendants, x.Proper) (hn : n ∈ tree.root.descendants)
    (hd : n.declaration? = some d) : tree.root.Evolves quiet (tree.wrapped n.id d₀).root := by
  unfold Tree.wrapped
  extract_lets start opened last stop
  have halike : tree.Alike (tree.makeRoom n.id (some (.ofText start ['/', '*', ' ']))) :=
    .makeRoom _ _ _
  have hevolves : tree.root.Evolves quiet opened.root :=
    h.evolves_declaration .refl hproper hn hd halike fun hm hd' _ =>
      Node.reworked_openComment hm hd' start
  have hopened : opened.Sound loose := (h.alike halike).refit n.id (Node.refits_openComment start)
  obtain ⟨m, hm, hskeleton⟩ := halike.node hn
  obtain ⟨d', hd', -⟩ := Node.declaration?_of_skeleton (h.formed n hn) hd hskeleton
  obtain ⟨-, hformed, -⟩ := ((h.alike halike).formed m hm).of_declaration? hd'
  obtain ⟨k, hk, hkid, hkd⟩ := (h.alike halike).declaration_updated
    (f := (·.openComment start)) hm hd' (hformed.openComment start)
  rw [Node.id_of_skeleton hskeleton] at hk hkid
  rw [← hkid]
  refine hopened.evolves_declaration hevolves (hevolves.proper hproper) hk hkd (.makeRoom _ _ _)
    fun hm hd' hsame => Node.reworked_closeComment hm hd' (fun hnone => ?_) stop
  have hopening := hsame.opening
  rw [hnone] at hopening
  cases hopening

theorem Sound.evolves_closingDropped {d : Declaration} (h : tree.Sound loose)
    (hproper : ∀ x ∈ tree.root.descendants, x.Proper) (hn : n ∈ tree.root.descendants)
    (hd : n.declaration? = some d) : tree.root.Evolves quiet (tree.closingDropped n.id d).root := by
  rw [Tree.closingDropped]
  split
  · exact h.evolves_declaration .refl hproper hn hd (.closeGap _ _ _) fun hm hd' _ =>
      Node.reworked_dropClosing hm hd'
  · exact .refl

end Tree

end CssTree
