import CssTree.Proofs.Edit.Reread

namespace CssTree

/-- Another item of its block stands behind the node called `id`. -/
def Tree.isFollowed (tree : Tree) (id : NodeId) : Bool :=
  tree.root.descendants.any fun n =>
    n.kind = .declarationList && n.children.dropLast.any (·.id = id)

/-- The edit leaves a declaration without a semicolon in front of another item: it takes the comment
around it away, or reads it anew from a text in which the semicolon belongs to the value. -/
def Mutation.exposes (tree : Tree) : Mutation → Bool
  | .setDisabled id false =>
    tree.isFollowed id && (tree.declaration id).toOption.any fun d =>
      d.isDisabled && d.semicolon.isNone
  | .setProperty id name =>
    tree.isFollowed id && (tree.declaration id).toOption.any fun d =>
      let read := (tree.reads .declaration (d.renamed name)).1
      read.declaration?.any (·.name.text = name) && read.needsSemicolon
  | .replaceText id t =>
    tree.isFollowed id && ((tree.get id).toOption.bind tree.production?).any fun p =>
      (tree.reads p t).1.needsSemicolon
  | _ => false

namespace Node

variable {n m : Node} {id : NodeId}

/-- A node is a block of declarations with another item behind the one called `id`. -/
def ListsBefore (id : NodeId) (n : Node) : Prop :=
  n.kind = .declarationList ∧ ∃ c ∈ n.children.dropLast, c.id = id

theorem ListsBefore.of_skeleton (h : n.ListsBefore id) (heq : m.skeleton = n.skeleton) :
    m.ListsBefore id := by
  obtain ⟨hkind, c, hc, hid⟩ := h
  have hids : id ∈ m.children.dropLast.map Node.id := by
    rw [List.map_dropLast, ids_children_of_skeleton heq, ← List.map_dropLast, ← hid]
    exact List.mem_map_of_mem hc
  obtain ⟨c', hc', hid'⟩ := List.mem_map.mp hids
  exact ⟨(kind_of_skeleton heq).trans hkind, c', hc', hid'⟩

theorem id_update {f : Node → Node} (hf : ∀ m, (f m).id = m.id) (i : NodeId) (n : Node) :
    (n.update i f).id = n.id := by
  cases n
  rw [Node.update]
  split
  · exact hf _
  · rfl

end Node

namespace Tree

variable {tree tree' : Tree} {loose : List Entry} {m n c parent fragment : Node}
  {p : Production} {t : Text} {slot : Slot} {id : NodeId}

theorem isFollowed_iff :
    tree.isFollowed id = true ↔ ∃ n ∈ tree.root.descendants, n.ListsBefore id := by
  simp [isFollowed, Node.ListsBefore, List.any_eq_true]

/-- What a text is read as is in order, and fits the slot of the production. -/
theorem takes_of_reads (hreads : tree.reads p t = (fragment, tree')) (hp : p.slot? = some slot) :
    slot.Takes fragment := by
  obtain ⟨rfl, -⟩ := Prod.mk.inj hreads
  exact ⟨p.parse_admits hp _ _ _, p.parse_orderly _ _ _⟩

theorem orderly_of_reads (hreads : tree.reads p t = (fragment, tree')) : fragment.Orderly := by
  obtain ⟨rfl, -⟩ := Prod.mk.inj hreads
  exact p.parse_orderly _ _ _

/-- A node that is no part of a selector gets the content of a fragment that fits its slot. -/
theorem exchanges_content {quiet : Prop} {placed : Node} (hplaced : placed.Orderly)
    (hslot : ∀ parent ∈ tree.root.descendants, ∀ slot c, parent.Holds slot c → c.id = id →
      slot.admits placed.kind ∧ slot ≠ .selectorPart)
    (hclosed : quiet → tree.isFollowed id = true → placed.needsSemicolon = false) :
    tree.root.Exchanges quiet id
      ({ · with kind := placed.kind, elements := placed.elements }) := by
  have hself := hplaced placed placed.mem_descendants_self
  refine ⟨fun m _ _ _ => ?_, fun m _ _ _ _ => ?_, ?_, ?_, ?_⟩
  · exact Node.all_of_children (m := placed) (hself.1.of_content rfl rfl) (fun c hc => Or.inr hc)
      fun x hx => (hplaced x hx).1
  · exact Node.all_of_children (m := placed) (hself.2.of_children rfl rfl) (fun c hc => Or.inr hc)
      fun x hx => (hplaced x hx).2
  · exact fun parent hparent _ slot c hc hid => (hslot parent hparent slot c hc hid).1
  · exact fun parent hparent c hc hid => absurd rfl (hslot parent hparent _ c hc hid).2
  · intro hquiet parent hparent hkind c hc hid _ _
    exact hclosed hquiet (isFollowed_iff.mpr ⟨parent, hparent, hkind, c, hc, hid⟩)

/-- A node that others follow is exposed only by an edit that is said to. -/
theorem Sound.closed_of_rereads {m : Mutation} (h : tree.Sound [])
    (hproper : ∀ x ∈ tree.root.descendants, x.Proper) (hn : n ∈ tree.root.descendants)
    (hrereads : m.Rereads tree n p t) (hreads : tree.reads p t = (fragment, tree'))
    (hquiet : m.exposes tree = false) (hfollowed : tree.isFollowed n.id = true) :
    fragment.needsSemicolon = false := by
  have hslot : p.slot? = some .declaration := by
    obtain ⟨list, hlist, hkind, c, hc, hid⟩ := isFollowed_iff.mp hfollowed
    have hchild := List.dropLast_subset _ hc
    have hcmem := Node.mem_descendants_trans hlist (Node.mem_descendants_child hchild)
    obtain rfl := h.eq_of_id hcmem hn hid
    obtain ⟨slot, hholds⟩ := (hproper list hlist).slots.exists_slot hchild
    rw [h.slot?_of_rereads hproper hn hrereads hlist hholds,
      hholds.slot_of_listShape? (by rw [hkind]; rfl)]
    rfl
  have hfragment : fragment = (tree.reads p t).1 := by rw [hreads]
  cases hrereads with
  | text hget hp =>
    obtain ⟨-, rfl⟩ := Tree.mem_of_get hget
    rw [Mutation.exposes, hfollowed, hget, Bool.true_and] at hquiet
    rw [hfragment, ← hquiet]
    show _ = Option.any _ (tree.production? n)
    rw [hp]
    rfl
  | property _ hd hname =>
    have hget : tree.declaration n.id = .ok _ := h.declaration_of_mem hn hd
    rw [Mutation.exposes, hfollowed, hget, Bool.true_and] at hquiet
    rw [hfragment, ← hquiet]
    show _ = (_ && _)
    rw [hname, Bool.true_and]
  | @prelude _ _ _ k _ hget _ =>
    have hne : ∀ kind, (preludeProduction kind).1.slot? ≠ some .declaration := by
      intro kind
      cases kind <;> simp [preludeProduction, Production.slot?]
    exact absurd hslot (hne k.kind)
  | _ => cases hslot

theorem Sound.evolves_replacedWith {m : Mutation} (h : tree.Sound [])
    (hproper : ∀ x ∈ tree.root.descendants, x.Proper) (hn : n ∈ tree.root.descendants)
    (hrereads : m.Rereads tree n p t) (hreads : tree.reads p t = (fragment, tree')) :
    tree.root.Evolves (m.exposes tree = false)
      (tree'.replacedWith n.id (fragment.place n.span.start)).root := by
  obtain ⟨-, -, hroot, -⟩ := h.reads hreads
  have hskeleton := fragment.skeleton_place n.span.start
  have hformed : fragment.Formed :=
    (orderly_of_reads hreads _ fragment.mem_descendants_self).1.formed
  have hexchange : tree.root.Exchanges (m.exposes tree = false) n.id
      ({ · with kind := (fragment.place n.span.start).kind,
                elements := (fragment.place n.span.start).elements }) := by
    refine exchanges_content ((orderly_of_reads hreads).of_skeleton hskeleton)
      (fun parent hparent slot c hc hid => ?_) fun hquiet hfollowed => ?_
    · have hcmem := Node.mem_descendants_trans hparent (Node.mem_descendants_child hc.mem)
      obtain rfl := h.eq_of_id hcmem hn hid
      have hp := h.slot?_of_rereads hproper hn hrereads hparent hc
      rw [Node.kind_of_skeleton hskeleton]
      refine ⟨(takes_of_reads hreads hp).admits, ?_⟩
      rintro rfl
      exact p.slot?_ne_selectorPart hp
    · rw [Node.needsSemicolon_of_skeleton hformed hskeleton]
      exact h.closed_of_rereads hproper hn hrereads hreads hquiet hfollowed
  have hput : tree.root.Evolves (m.exposes tree = false)
      (tree'.putContent n.id (fragment.place n.span.start)).root := by
    show tree.root.Evolves _ (tree'.root.update n.id _)
    rw [hroot]
    exact .exchange .refl hexchange
  unfold Tree.replacedWith
  extract_lets resized
  have hresized : tree.root.Evolves (m.exposes tree = false) resized.root :=
    .alike hput (Alike.resize _ _ _).root
  split
  · exact .alike hresized (Alike.respan _ _).root
  · exact hresized

theorem isFollowed_alike (halike : tree.Alike tree') (h : tree'.isFollowed id = true) :
    tree.isFollowed id = true := by
  obtain ⟨n', hn', hlists⟩ := isFollowed_iff.mp h
  have hback : tree'.Alike tree := ⟨halike.root.symm, halike.arena.symm⟩
  obtain ⟨n, hn, hskeleton⟩ := hback.node hn'
  exact isFollowed_iff.mpr ⟨n, hn, hlists.of_skeleton hskeleton⟩

/-- What stands behind an item does not depend on the comment around a declaration. -/
theorem isFollowed_dropClosing {i : NodeId} (h : tree.Sound loose)
    (hfollowed : (tree.update i (·.dropClosing)).isFollowed id = true) :
    tree.isFollowed id = true := by
  have hbelow : ∀ m ∈ tree.root.descendants, ∀ x ∈ m.dropClosing.descendants,
      x.ListsBefore id → ∃ n ∈ tree.root.descendants, n.ListsBefore id := by
    intro m hm
    have hold : ∀ x ∈ m.descendants, x.ListsBefore id →
        ∃ n ∈ tree.root.descendants, n.ListsBefore id := fun x hx hlists =>
      ⟨x, Node.mem_descendants_trans hm hx, hlists⟩
    have hnew : ∀ x ∈ (m.mapDeclaration ({ · with closing := none })).descendants,
        x.ListsBefore id → ∃ n ∈ tree.root.descendants, n.ListsBefore id := by
      cases hd : m.declaration? with
      | none =>
        rw [Node.mapDeclaration, hd]
        exact hold
      | some d =>
        obtain ⟨hkind, hformed, -⟩ := (h.formed m hm).of_declaration? hd
        rw [Node.mapDeclaration_of hd]
        refine Node.remade_children (h.formed m hm) hd
          (Declaration.remade_setClosing hformed (by simp) fun _ => rfl) (fun hlists => ?_)
          (fun n hmark hlists => ?_) hold
        · cases hkind.symm.trans hlists.1
        · cases hmark.kind.symm.trans hlists.1
    refine Node.all_of_skeleton (fun x hx y heq hlists => ?_) (Node.skeleton_appendTrailing _ _)
    exact hnew x hx (hlists.of_skeleton heq.symm)
  have hall : ∀ x ∈ (tree.root.update i (·.dropClosing)).descendants,
      x.ListsBefore id → ∃ n ∈ tree.root.descendants, n.ListsBefore id := by
    refine Node.all_update (fun x hx hlists => ⟨x, hx, hlists⟩) (fun m hm _ => hbelow m hm) ?_
    rintro p hp ⟨hkind, c, hc, hid⟩
    have hchildren : ({ p with elements := Element.updateAll i (·.dropClosing) p.elements } :
        Node).children = p.children.map (·.update i (·.dropClosing)) :=
      Element.nodes_updateAll i _ p.elements
    rw [hchildren, ← List.map_dropLast] at hc
    obtain ⟨old, hold, rfl⟩ := List.mem_map.mp hc
    rw [Node.id_update Node.id_dropClosing] at hid
    exact ⟨p, hp, hkind, old, hold, hid⟩
  obtain ⟨n, hn, hlists⟩ := isFollowed_iff.mp hfollowed
  exact isFollowed_iff.mpr (hall n hn hlists)

/-- The declaration that is left when the end of the comment around it is taken away. -/
theorem Sound.declaration_closingDropped {d : Declaration} (h : tree.Sound [])
    (hn : n ∈ tree.root.descendants) (hd : n.declaration? = some d) :
    ∃ m ∈ (tree.closingDropped n.id d).root.descendants, m.id = n.id ∧
      ∃ d', m.declaration? = some d' ∧ d'.closing = none ∧
        d'.semicolon.isSome = d.semicolon.isSome := by
  rw [Tree.closingDropped]
  cases hclosing : d.closing with
  | none => exact ⟨n, hn, rfl, d, hd, hclosing, rfl⟩
  | some closing =>
    dsimp only
    have halike := Alike.closeGap ⟨closing.fullSpan.start, closing.span.stop⟩ none tree
    obtain ⟨m, hm, hskeleton⟩ := halike.node hn
    obtain ⟨d₁, hd₁, hsame₁, -⟩ := Node.declaration?_of_skeleton (h.formed n hn) hd hskeleton
    obtain ⟨hkind, hformed, -⟩ := ((h.alike halike).formed m hm).of_declaration? hd₁
    have hopen : ({ d₁ with closing := none } : Declaration).Formed := hformed.setClosing (by simp)
    have hmap : (m.mapDeclaration ({ · with closing := none })).declaration? =
        some { d₁ with closing := none } := by
      rw [Node.mapDeclaration_of hd₁]
      exact Node.declaration?_redeclare hkind hopen
    have hmapformed : (m.mapDeclaration ({ · with closing := none })).Formed := by
      rw [Node.mapDeclaration_of hd₁]
      exact Node.formed_of_declaration hkind hopen rfl
    obtain ⟨d₂, hd₂, hsame₂, -⟩ := Node.declaration?_of_skeleton hmapformed hmap
      (Node.skeleton_appendTrailing
        (((m.declaration?.bind (·.closing)).map (·.trailing)).getD []) _)
    have hmem := Node.mem_update (·.dropClosing) (h.alike halike).nodup hm
      (List.mem_map_of_mem m.mem_descendants_self)
    rw [Node.update_self rfl] at hmem
    rw [← Node.id_of_skeleton hskeleton]
    refine ⟨_, hmem, Node.id_dropClosing m, d₂, hd₂, ?_, hsame₂.semicolon.trans hsame₁.semicolon⟩
    rw [← Option.not_isSome_iff_eq_none, hsame₂.closing]
    simp

theorem Sound.isFollowed_closingDropped {d : Declaration} {i : NodeId} (h : tree.Sound loose)
    (hfollowed : (tree.closingDropped i d).isFollowed id = true) : tree.isFollowed id = true := by
  rw [Tree.closingDropped] at hfollowed
  split at hfollowed
  · exact isFollowed_alike (.closeGap _ _ _)
      (isFollowed_dropClosing (h.alike (.closeGap _ _ _)) hfollowed)
  · exact hfollowed

/-- The start of a comment without an end is taken away from a declaration. -/
theorem Sound.exchanges_dropOpening {quiet : Prop} {d : Declaration} (h : tree.Sound loose)
    (hn : n ∈ tree.root.descendants) (hd : n.declaration? = some d) (hclosing : d.closing = none)
    (hquiet : quiet → tree.isFollowed n.id = true → d.semicolon.isSome = true) :
    tree.root.Exchanges quiet n.id (·.mapDeclaration (·.dropOpening)) := by
  obtain ⟨hkind, hformed, -⟩ := (h.formed n hn).of_declaration? hd
  have hremade : d.Remade d.dropOpening := Declaration.remade_dropOpening hformed hclosing
  refine ⟨fun x hx hid hbelow => ?_, fun x hx hid _ hbelow => ?_, fun p _ hp slot c hslot _ => ?_,
    fun p _ c _ _ => Node.kind_mapDeclaration _ c, fun hq p hp hlist c hc hid _ _ => ?_⟩
  · obtain rfl := h.eq_of_id hx hn hid
    rw [Node.mapDeclaration_of hd]
    exact Node.proper_remade hbelow hd hremade
  · obtain rfl := h.eq_of_id hx hn hid
    rw [Node.mapDeclaration_of hd]
    exact Node.terminated_remade hbelow (h.formed x hx) hd hremade
  · rw [Node.kind_mapDeclaration]
    exact hp.slots.admits hslot
  · have hsemicolon := hquiet hq (isFollowed_iff.mpr ⟨p, hp, hlist, c, hc, hid⟩)
    have hmem := Node.mem_descendants_child (List.dropLast_subset _ hc)
    obtain rfl := h.eq_of_id (Node.mem_descendants_trans hp hmem) hn hid
    rw [Node.mapDeclaration_of hd, Node.needsSemicolon_of_declaration?
      (Node.declaration?_redeclare hkind hformed.dropOpening), Declaration.needsSemicolon,
      Bool.and_eq_false_iff]
    exact Or.inl (Option.isNone_eq_false_iff.mpr hsemicolon)

theorem Sound.evolves_unwrapped {d d' : Declaration} (h : tree.Sound [])
    (hproper : ∀ x ∈ tree.root.descendants, x.Proper) (hn : n ∈ tree.root.descendants)
    (hd : n.declaration? = some d) (hopening : d.opening ≠ none)
    (hd' : (tree.closingDropped n.id d).declaration n.id = .ok d') :
    tree.root.Evolves ((Mutation.setDisabled n.id false).exposes tree = false)
      ((tree.closingDropped n.id d).openingDropped n.id d').root := by
  have hdropped : (tree.closingDropped n.id d).Sound [] := h.closingDropped n.id d
  obtain ⟨k, hk, hkid, d₁, hd₁, hclosing, hsemicolon⟩ := h.declaration_closingDropped hn hd
  have hget := hdropped.declaration_of_mem hk hd₁
  rw [hkid, hd'] at hget
  obtain rfl : d' = d₁ := Except.ok.inj hget
  rw [Tree.openingDropped]
  split
  next opening _ =>
    have halike := Alike.closeGap ⟨opening.span.start, d'.name.span.start⟩ none
      (tree.closingDropped n.id d)
    obtain ⟨y, hy, hskeleton⟩ := halike.node hk
    obtain ⟨d₂, hd₂, hsame, -⟩ := Node.declaration?_of_skeleton (hdropped.formed k hk) hd₁ hskeleton
    have hyid : y.id = n.id := (Node.id_of_skeleton hskeleton).trans hkid
    have hnone : d₂.closing = none := by
      rw [← Option.not_isSome_iff_eq_none, hsame.closing, hclosing]
      simp
    have hsemicolon₂ : (Mutation.setDisabled n.id false).exposes tree = false →
        tree.isFollowed n.id = true → d₂.semicolon.isSome = true := by
      intro hquiet hfollowed
      have hdisabled : d.isDisabled = true := Option.isSome_iff_ne_none.mpr hopening
      rw [Mutation.exposes, hfollowed, h.declaration_of_mem hn hd, Bool.true_and] at hquiet
      replace hquiet : (d.isDisabled && d.semicolon.isNone) = false := hquiet
      rw [hdisabled, Bool.true_and, Option.isNone_eq_false_iff] at hquiet
      rw [hsame.semicolon, hsemicolon, hquiet]
    have hexchange := (hdropped.alike halike).exchanges_dropOpening hy hd₂ hnone
      fun hquiet hlate => hsemicolon₂ hquiet <|
        h.isFollowed_closingDropped (isFollowed_alike halike (hyid ▸ hlate))
    rw [hyid] at hexchange
    exact .exchange (.alike (h.evolves_closingDropped hproper hn hd) halike.root) hexchange
  next => exact h.evolves_closingDropped hproper hn hd

/-- An edit exchanges nodes for others that fit. Unless it exposes a declaration, none is left in
front of another item without its semicolon. -/
theorem Edited.evolves {m : Mutation} {change : Change} (h : tree.Sound [])
    (hproper : ∀ x ∈ tree.root.descendants, x.Proper) (hedited : tree.Edited m tree' change) :
    tree.root.Evolves (m.exposes tree = false) tree'.root := by
  cases hedited with
  | insertedBefore hlist hlisting htarget hp hreads =>
    obtain ⟨hread, -, hroot, -⟩ := h.reads hreads
    rw [← hroot] at hlist ⊢
    exact .alike (hread.evolves_insertedBefore hlist hlisting htarget (takes_of_reads hreads hp))
      (Alike.respan _ _).root
  | insertedAfter hlist hlisting hp hreads =>
    obtain ⟨hread, -, hroot, -⟩ := h.reads hreads
    rw [← hroot] at hlist hproper ⊢
    exact .alike (hread.evolves_insertedAfter hproper hlist hlisting (takes_of_reads hreads hp))
      (Alike.respan _ _).root
  | removedBefore hlist hlisting hget hnext =>
    exact .alike (h.evolves_removeBefore hlist hlisting hget hnext) (Alike.respan _ _).root
  | removedLast hlist hlisting hget hnext =>
    exact .alike (h.evolves_removeLast hlist hlisting hget hnext) (Alike.respan _ _).root
  | replaced hn hrereads hreads => exact h.evolves_replacedWith hproper hn hrereads hreads
  | marked hn hd => exact .alike (h.evolves_marked hproper hn hd) (Alike.respan _ _).root
  | unmarked hn hd => exact .alike (h.evolves_unmarked hproper hn hd) (Alike.respan _ _).root
  | wrapped hn hd => exact .alike (h.evolves_wrapped hproper hn hd) (Alike.respan _ _).root
  | unwrapped hn hd hopening hd' hm =>
    subst hm
    exact .alike (h.evolves_unwrapped hproper hn hd hopening hd') (Alike.respan _ _).root
  | regrouped hf =>
    exact .alike .refl ((Node.skeleton_respan _).trans (Node.skeleton_mapTokens (hf.kinds _)))

end Tree

end CssTree
