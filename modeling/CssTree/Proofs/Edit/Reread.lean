import CssTree.Proofs.Edit.Evolve
import CssTree.Proofs.Tree.Query

namespace CssTree

namespace Node

variable {n c c' : Node} {slot : Slot}

theorem Holds.slot_of_listShape? {kind : ListKind} {opening : Nat} (h : n.Holds slot c)
    (hshape : n.kind.listShape? = some (kind, opening)) : slot = kind.slot := by
  have hslot : slot ∈ n.kind.slots n.children.length := (List.of_mem_zip h).1
  rw [NodeKind.slots_of_listShape? hshape] at hslot
  exact List.eq_of_mem_replicate hslot

/-- The first child stands in the first slot. -/
theorem Holds.head_slots (h : n.Holds slot c) (hhead : n.children.head? = some c)
    (hnodup : n.children.Nodup) : (n.kind.slots n.children.length).head? = some slot := by
  obtain ⟨cs, hcs⟩ := List.head?_eq_some_iff.mp hhead
  rw [hcs, List.nodup_cons] at hnodup
  rw [Holds, hcs] at h
  rw [hcs]
  cases hslots : n.kind.slots (c :: cs).length with
  | nil =>
    rw [hslots] at h
    cases h
  | cons first slots =>
    rw [hslots, List.zip_cons_cons, List.mem_cons] at h
    rcases h with heq | hrest
    · rw [List.head?_cons, (Prod.mk.inj heq).1]
    · exact absurd (List.of_mem_zip hrest).2 hnodup.1

/-- A prelude is read as what may stand in front of the block. -/
theorem slot?_preludeProduction (h : n.prelude? = some c)
    (hslot : (n.kind.slots n.children.length).head? = some slot) :
    (preludeProduction n.kind).1.slot? = some slot := by
  rw [prelude?] at h
  split at h
  case h_5 hkind =>
    split at h
    next hlength =>
      rw [hkind, NodeKind.slots, if_neg (by omega)] at hslot
      rw [hkind]
      exact hslot
    next => cases h
  case h_4 hkind =>
    rw [hkind] at hslot ⊢
    rw [NodeKind.slots] at hslot
    split at hslot <;> exact hslot
  case h_6 => cases h
  all_goals
    next hkind =>
      rw [hkind] at hslot ⊢
      exact hslot

end Node

theorem Slot.eq_rule_of_isAtRule {slot : Slot} {kind : NodeKind} (h : slot.admits kind)
    (hrule : kind.isAtRule) : slot = .rule := by
  cases kind <;> cases hrule <;> cases slot <;> first | rfl | cases h

namespace Tree

variable {tree tree' : Tree} {loose : List Entry} {m n c parent : Node} {p : Production} {t : Text}
  {slot : Slot}

theorem Sound.nodup_children (h : tree.Sound loose) (hn : n ∈ tree.root.descendants) :
    n.children.Nodup := by
  have hnodup := h.nodup.of_map.sublist (Node.descendants_contiguous hn).sublist
  rw [n.descendants_children, List.nodup_cons] at hnodup
  refine hnodup.2.sublist ?_
  generalize n.children = cs
  induction cs with
  | nil => exact .slnil
  | cons c cs ih =>
    rw [List.flatMap_cons, c.descendants_children, List.cons_append]
    exact .cons_cons _ (ih.trans (List.sublist_append_right _ _))

theorem Sound.declaration_of_mem {d : Declaration} (h : tree.Sound loose)
    (hn : n ∈ tree.root.descendants) (hd : n.declaration? = some d) :
    tree.declaration n.id = .ok d := declaration_of_find? (h.find?_of_mem hn) hd

/-- Two nodes do not list the same one. -/
theorem Sound.eq_of_child (h : tree.Sound []) (hm : m ∈ tree.root.descendants)
    (hn : n ∈ tree.root.descendants) (hcm : c ∈ m.children) (hcn : c ∈ n.children) : m = n := by
  have hparent := h.parent?_child hm hcm
  rw [h.parent?_child hn hcn] at hparent
  exact h.eq_of_id hm hn (Option.some.inj hparent).symm

theorem Sound.parent?_of_child (h : tree.Sound []) (hn : n ∈ tree.root.descendants)
    (hc : c ∈ n.children) : tree.parent? c.id = some n := by
  rw [Tree.parent?, h.parent?_child hn hc]
  exact h.find?_of_mem hn

/-- A node is read as what may stand in its slot. -/
theorem slot?_of_production? (h : tree.Sound []) (hparent : parent ∈ tree.root.descendants)
    (hslot : parent.Holds slot n) (hadmits : slot.admits n.kind)
    (hp : tree.production? n = some p) : p.slot? = some slot := by
  rw [production?] at hp
  split at hp
  case h_12 =>
    rw [errorProduction?, h.parent?_of_child hparent hslot.mem, Option.bind_eq_bind,
      Option.bind_some] at hp
    split at hp
    case h_3 hkind =>
      rw [hslot.slot_of_listShape? (by rw [hkind]; rfl)]
      obtain rfl := Option.some.inj hp
      split <;> rfl
    case h_5 => cases hp
    all_goals
      next hkind =>
        rw [hslot.slot_of_listShape? (by rw [hkind]; rfl)]
        cases hp
        rfl
  case h_13 =>
    split at hp
    next hrule =>
      rw [Slot.eq_rule_of_isAtRule hadmits hrule]
      cases hp
      rfl
    next => cases hp
  all_goals
    next hkind =>
      rw [hkind] at hadmits
      cases hp
      cases slot <;> first | rfl | cases hadmits

/-- Whatever an edit reads anew, it reads as what may stand in its place. -/
theorem Sound.slot?_of_rereads {m : Mutation} (h : tree.Sound [])
    (hproper : ∀ x ∈ tree.root.descendants, x.Proper) (hn : n ∈ tree.root.descendants)
    (hrereads : m.Rereads tree n p t) (hparent : parent ∈ tree.root.descendants)
    (hslot : parent.Holds slot n) : p.slot? = some slot := by
  have hadmits : slot.admits n.kind := (hproper parent hparent).slots.admits hslot
  -- a first child that is not told by its kind stands in the first slot of its parent
  have hfirst : ∀ k ∈ tree.root.descendants, k.children.head? = some n →
      parent = k ∧ (k.kind.slots k.children.length).head? = some slot := by
    intro k hk hhead
    obtain rfl := h.eq_of_child hparent hk hslot.mem (List.mem_of_head? hhead)
    exact ⟨rfl, hslot.head_slots hhead (h.nodup_children hparent)⟩
  cases hrereads with
  | text hget hp =>
    exact slot?_of_production? h hparent hslot hadmits hp
  | selectors hget hlist =>
    rw [Node.kind_of_selectorList hlist] at hadmits
    cases slot <;> first | rfl | cases hadmits
  | declarations hget hlist =>
    rw [Node.kind_of_declarationList hlist] at hadmits
    cases slot <;> first | rfl | cases hadmits
  | property _ hd _ =>
    rw [((hproper n hn).formed.of_declaration? hd).1] at hadmits
    cases slot <;> first | rfl | cases hadmits
  | @value _ _ k d hk hd =>
    obtain ⟨hkind, -, -⟩ := (hproper k hk).formed.of_declaration? hd
    have hchildren : k.children = d.nodes := (hproper k hk).formed.children_declaration hd
    obtain ⟨rfl, hhead⟩ := hfirst k hk (by rw [hchildren]; rfl)
    rw [hkind, NodeKind.slots] at hhead
    split at hhead <;> exact hhead
  | prelude hget htarget =>
    obtain ⟨rfl, hhead⟩ := hfirst _ (Tree.mem_of_get hget).1 (Node.head?_of_prelude? htarget)
    exact Node.slot?_preludeProduction htarget hhead
  | keyframes hget htarget =>
    obtain ⟨hkind, hhead⟩ := Node.head?_of_keyframeSelectors? htarget
    obtain ⟨rfl, hhead⟩ := hfirst _ (Tree.mem_of_get hget).1 hhead
    rw [hkind] at hhead
    exact hhead

end Tree

end CssTree
