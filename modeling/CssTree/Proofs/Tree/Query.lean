import CssTree.Proofs.Tree.Slots
import CssTree.Tree.Query

namespace CssTree

namespace Node

variable {n m : Node}

theorem child_of_expectBlock {block? : Option Node} {kind : NodeKind} {outer inner : String}
    (h : n.expectBlock block? kind outer inner = .ok m) (hblock : ∀ b ∈ block?, b ∈ n.children) :
    m ∈ n.children := by
  cases block? with
  | none => cases h
  | some block =>
    rw [expectBlock] at h
    split at h
    · obtain rfl := Except.ok.inj h
      exact hblock _ rfl
    · cases h

theorem mem_of_expectBlock {block? : Option Node} {kind : NodeKind} {outer inner : String}
    (h : n.expectBlock block? kind outer inner = .ok m) (hblock : ∀ b ∈ block?, b ∈ n.children) :
    m ∈ n.descendants :=
  mem_descendants_child (child_of_expectBlock h hblock)

theorem child_of_ruleBlock? : ∀ b ∈ n.ruleBlock?, b ∈ n.children := by
  intro b hb
  rw [Option.mem_def, ruleBlock?] at hb
  split at hb
  all_goals first | exact List.mem_of_getLast? hb | cases hb

theorem child_of_selectors? : ∀ b ∈ n.selectors?, b ∈ n.children := by
  intro b hb
  rw [Option.mem_def, selectors?] at hb
  split at hb
  · exact List.mem_of_head? hb
  · cases hb

theorem mem_of_ruleList (h : n.ruleList = .ok m) : m ∈ n.descendants := by
  rw [ruleList] at h
  split at h
  · obtain rfl := Except.ok.inj h
    exact n.mem_descendants_self
  · exact mem_of_expectBlock h child_of_ruleBlock?

theorem mem_of_declarationList (h : n.declarationList = .ok m) : m ∈ n.descendants := by
  rw [declarationList] at h
  split at h
  · obtain rfl := Except.ok.inj h
    exact n.mem_descendants_self
  · refine mem_of_expectBlock h fun b hb => ?_
    rw [Option.mem_def, declarationBlock?] at hb
    split at hb
    all_goals first | exact List.mem_of_getLast? hb | cases hb

theorem mem_of_selectorList (h : n.selectorList = .ok m) : m ∈ n.descendants := by
  rw [selectorList] at h
  split at h
  · obtain rfl := Except.ok.inj h
    exact n.mem_descendants_self
  · exact mem_of_expectBlock h child_of_selectors?

theorem kind_of_expectBlock {block? : Option Node} {kind : NodeKind} {outer inner : String}
    (h : n.expectBlock block? kind outer inner = .ok m) : m.kind = kind := by
  cases block? with
  | none => cases h
  | some block =>
    rw [expectBlock] at h
    split at h
    next hkind =>
      obtain rfl := Except.ok.inj h
      exact hkind
    · cases h

theorem kind_of_ruleList (h : n.ruleList = .ok m) : m.kind = .styleSheet ∨ m.kind = .ruleList := by
  rw [ruleList] at h
  split at h
  next hkind =>
    obtain rfl := Except.ok.inj h
    exact hkind
  next => exact Or.inr (kind_of_expectBlock h)

theorem slot_of_ruleList {l : Listing} (h : n.ruleList = .ok m) (hl : m.listing? = some l) :
    l.kind.slot = .rule := by
  rcases kind_of_ruleList h with hkind | hkind <;> rw [listing?, hkind] at hl <;> cases hl <;> rfl

theorem kind_of_declarationList (h : n.declarationList = .ok m) : m.kind = .declarationList := by
  rw [declarationList] at h
  split at h
  next hkind =>
    obtain rfl := Except.ok.inj h
    exact hkind
  next => exact kind_of_expectBlock h

theorem kind_of_selectorList (h : n.selectorList = .ok m) : m.kind = .selectorList := by
  rw [selectorList] at h
  split at h
  next hkind =>
    obtain rfl := Except.ok.inj h
    exact hkind
  next => exact kind_of_expectBlock h

theorem slot_of_declarationList {l : Listing} (h : n.declarationList = .ok m)
    (hl : m.listing? = some l) : l.kind.slot = .declaration := by
  rw [listing?, kind_of_declarationList h] at hl
  cases hl
  rfl

theorem slot_of_selectorList {l : Listing} (h : n.selectorList = .ok m)
    (hl : m.listing? = some l) : l.kind.slot = .selector := by
  rw [listing?, kind_of_selectorList h] at hl
  cases hl
  rfl

theorem head?_of_keyframeSelectors? (h : n.keyframeSelectors? = some m) :
    n.kind = .keyframeRule ∧ n.children.head? = some m := by
  rw [keyframeSelectors?] at h
  split at h
  next hkind => exact ⟨hkind, h⟩
  · cases h

theorem head?_of_prelude? (h : n.prelude? = some m) : n.children.head? = some m := by
  rw [prelude?] at h
  split at h
  case h_5 =>
    split at h
    · exact h
    · cases h
  case h_6 => cases h
  all_goals exact h

/-- The first child is in the tree. -/
theorem mem_of_head? (h : n.children.head? = some m) : m ∈ n.descendants :=
  mem_descendants_child (List.mem_of_head? h)

end Node

theorem Tree.mem_of_get {tree : Tree} {id : NodeId} {n : Node} (h : tree.get id = .ok n) :
    n ∈ tree.root.descendants ∧ n.id = id := by
  rw [Tree.get] at h
  split at h
  next m hm =>
    obtain rfl := Except.ok.inj h
    exact ⟨List.mem_of_find?_eq_some hm, by simpa using List.find?_some hm⟩
  next => cases h

theorem Tree.mem_of_declaration {tree : Tree} {id : NodeId} {d : Declaration}
    (h : tree.declaration id = .ok d) :
    ∃ n ∈ tree.root.descendants, n.id = id ∧ n.declaration? = some d := by
  rw [Tree.declaration] at h
  cases hget : tree.get id with
  | error e =>
    rw [hget] at h
    cases h
  | ok n =>
    rw [hget] at h
    obtain ⟨hn, hid⟩ := Tree.mem_of_get hget
    refine ⟨n, hn, hid, ?_⟩
    replace h : n.expectDeclaration = .ok d := h
    rw [Node.expectDeclaration] at h
    split at h
    next hd =>
      obtain rfl := Except.ok.inj h
      exact hd
    next => cases h

namespace Tree

variable {tree : Tree} {id : NodeId} {n list : Node}

theorem rules_of (hget : tree.get id = .ok n) (hlist : n.ruleList = .ok list) :
    tree.rules id = .ok list.children := by
  simp [rules, hget, hlist, bind, Except.bind, pure, Except.pure]

theorem selectors_of (hget : tree.get id = .ok n) (hlist : n.selectorList = .ok list) :
    tree.selectors id = .ok list.children := by
  simp [selectors, hget, hlist, bind, Except.bind, pure, Except.pure]

theorem declarations_of (hget : tree.get id = .ok n) (hlist : n.declarationList = .ok list) :
    tree.declarations id = .ok list.children := by
  simp [declarations, hget, hlist, bind, Except.bind, pure, Except.pure]

end Tree

end CssTree
