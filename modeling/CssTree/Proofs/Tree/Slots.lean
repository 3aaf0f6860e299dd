import CssTree.Proofs.Tree.Relist
import Mathlib.Data.List.Forall2

namespace CssTree

/-- A place for a child node. -/
inductive Slot where
  | rule
  | declaration
  | selector
  | selectorPart
  | selectors
  | keyframeSelectors
  | declarationBlock
  | ruleBlock
  /-- The value of a declaration, arguments, a prelude, a condition or a media query. -/
  | values
  | media
  /-- A component value, an address or what names a document. -/
  | component
  | important
deriving DecidableEq

/-- The kinds that may stand in a slot. -/
def Slot.admits : Slot → NodeKind → Bool
  | rule, kind => kind = .rule || kind = .keyframeRule || kind.isAtRule || kind = .error
  | declaration, kind => kind = .declaration || kind = .error
  | selector, kind => kind = .selector || kind = .error
  | selectorPart, kind => kind.isSelectorPart
  | selectors, kind => kind = .selectorList || kind = .error
  | keyframeSelectors, kind => kind = .keyframeSelectorList || kind = .error
  | declarationBlock, kind => kind = .declarationList || kind = .error
  | ruleBlock, kind => kind = .ruleList || kind = .error
  | values, kind => kind = .valueList || kind = .error
  | media, kind => kind = .mediaQueryList || kind = .error
  | component, kind =>
    kind = .preservedToken || kind = .functionValue || kind = .blockValue || kind = .error
  | important, kind => kind = .importantValue

theorem Slot.not_admits_styleSheet (slot : Slot) : slot.admits .styleSheet = false := by
  cases slot <;> rfl

/-- The slots of a node of a kind with `count` child nodes. -/
def NodeKind.slots (kind : NodeKind) (count : Nat) : List Slot :=
  match kind with
  | styleSheet | ruleList => .replicate count .rule
  | declarationList => .replicate count .declaration
  | selectorList => .replicate count .selector
  | selector => .replicate count .selectorPart
  | valueList => .replicate count .component
  | mediaQueryList => .replicate count .values
  | rule => [.selectors, .declarationBlock]
  | keyframeRule => [.keyframeSelectors, .declarationBlock]
  | declaration => if count = 1 then [.values] else [.values, .important]
  | functionValue | blockValue => [.values]
  | pseudoSelector => if count = 0 then [] else [.values]
  | customMediaRule => [.media]
  | documentRule => .replicate (count - 1) .component ++ [.ruleBlock]
  | fontFaceRule => [.declarationBlock]
  | hostRule | keyframesRule => [.ruleBlock]
  | importRule => if count = 1 then [.component] else [.component, .media]
  | mediaRule => [.media, .ruleBlock]
  | namespaceRule => [.component]
  | pageRule => if count = 1 then [.declarationBlock] else [.values, .declarationBlock]
  | supportsRule => [.values, .ruleBlock]
  | genericAtRule => if count = 1 then [.values] else [.values, .component]
  | typeSelector | universalSelector | attributeSelector | classSelector | idSelector | combinator
  | preservedToken | importantValue | charsetRule | keyframeSelectorList | error => []

/-- The slot of the items of a list. -/
def ListKind.slot : ListKind → Slot
  | rules => .rule
  | declarations => .declaration
  | selectors => .selector

theorem NodeKind.slots_of_listShape? {kind : NodeKind} {listKind : ListKind} {opening : Nat}
    (h : kind.listShape? = some (listKind, opening)) (count : Nat) :
    kind.slots count = .replicate count listKind.slot := by
  unfold listShape? at h
  split at h <;> cases h <;> rfl

namespace Node

/-- The child nodes are as many as the node has slots, and each fits into its own. -/
def Slotted (n : Node) : Prop :=
  List.Forall₂ (fun slot child => slot.admits child.kind) (n.kind.slots n.children.length)
    n.children

/-- A node has a child in a slot. -/
def Holds (n : Node) (slot : Slot) (child : Node) : Prop :=
  (slot, child) ∈ (n.kind.slots n.children.length).zip n.children

variable {n m : Node} {slot : Slot}

theorem Holds.mem (h : n.Holds slot m) : m ∈ n.children := (List.of_mem_zip h).2

theorem Slotted.admits (h : n.Slotted) (hm : n.Holds slot m) : slot.admits m.kind :=
  (List.forall₂_iff_zip.mp h).2 hm

theorem slotted_iff : n.Slotted ↔ List.Forall₂ (fun slot kind => slot.admits kind)
    (n.kind.slots (n.children.map Node.kind).length) (n.children.map Node.kind) := by
  rw [Slotted, List.forall₂_map_right_iff, List.length_map]

theorem Slotted.of_kinds (h : n.Slotted) (hkind : m.kind = n.kind)
    (hchildren : m.children.map Node.kind = n.children.map Node.kind) : m.Slotted := by
  rw [slotted_iff, hkind, hchildren]
  exact slotted_iff.mp h

theorem kinds_of_skeleton (heq : m.skeleton = n.skeleton) :
    m.children.map Node.kind = n.children.map Node.kind := by
  have hkinds : ∀ x : Node, x.children.map Node.kind = x.skeleton.children.map Node.kind := by
    intro x
    simp [children_skeleton, Function.comp_def]
  rw [hkinds, heq, ← hkinds]

theorem Slotted.of_skeleton (h : n.Slotted) (heq : m.skeleton = n.skeleton) : m.Slotted :=
  h.of_kinds (kind_of_skeleton heq) (kinds_of_skeleton heq)

/-- Every child of a node that fills its slots is in one of them. -/
theorem Slotted.exists_slot (h : n.Slotted) (hm : m ∈ n.children) : ∃ slot, n.Holds slot m := by
  have hlength : (n.kind.slots n.children.length).length = n.children.length :=
    (List.forall₂_iff_zip.mp h).1
  obtain ⟨i, hi, rfl⟩ := List.getElem_of_mem hm
  have hi' : i < ((n.kind.slots n.children.length).zip n.children).length := by
    rw [List.length_zip]
    omega
  have hmem := List.getElem_mem hi'
  rw [List.getElem_zip] at hmem
  exact ⟨_, hmem⟩

/-- Below the root there is no style sheet. -/
theorem Slotted.kind_child (h : n.Slotted) (hm : m ∈ n.children) : m.kind ≠ .styleSheet := by
  obtain ⟨slot, hslot⟩ := h.exists_slot hm
  have hadmits := h.admits hslot
  intro heq
  rw [heq, slot.not_admits_styleSheet] at hadmits
  cases hadmits

/-- The items of a list are all alike. -/
theorem slotted_iff_of_listShape? {kind : ListKind} {opening : Nat}
    (h : n.kind.listShape? = some (kind, opening)) :
    n.Slotted ↔ ∀ c ∈ n.children, kind.slot.admits c.kind := by
  rw [Slotted, NodeKind.slots_of_listShape? h]
  generalize n.children = cs
  induction cs with
  | nil => simp
  | cons c cs ih => simp [List.replicate_succ, ih]

/-- Around a node that is changed, slots stay filled if those of the node admit what it becomes. -/
theorem Slotted.updateAll {id : NodeId} {f : Node → Node} (h : n.Slotted)
    (hf : ∀ slot c, n.Holds slot c → c.id = id → slot.admits (f c).kind) :
    ({ n with elements := Element.updateAll id f n.elements } : Node).Slotted := by
  have hchildren : ({ n with elements := Element.updateAll id f n.elements } : Node).children =
      n.children.map (·.update id f) := Element.nodes_updateAll id f n.elements
  rw [Slotted, hchildren, List.length_map, List.forall₂_map_right_iff]
  refine List.forall₂_iff_zip.mpr ⟨(List.forall₂_iff_zip.mp h).1, fun {slot c} hslot => ?_⟩
  by_cases hid : c.id = id
  · have hc := hf slot c hslot hid
    obtain ⟨i, kind, span, es⟩ := c
    rwa [Node.update, if_pos hid]
  · have hc := h.admits hslot
    obtain ⟨i, kind, span, es⟩ := c
    rwa [Node.update, if_neg hid]

end Node

/-- The kinds of the parts of a selector from one of them on. At the start and behind a combinator
a simple selector has to come first. -/
inductive NodeKind.Steps : Bool → List NodeKind → Prop
  | stop : Steps false []
  | simple {first : Bool} {kind : NodeKind} {kinds : List NodeKind} : kind ≠ .combinator →
      Steps false kinds → Steps first (kind :: kinds)
  | combinator {kinds : List NodeKind} : Steps true kinds → Steps false (.combinator :: kinds)

namespace Node

/-- A selector goes from step to step and holds nothing else, and a part of one has a token. -/
structure Stepped (n : Node) : Prop where
  steps : n.kind = .selector → NodeKind.Steps true (n.children.map Node.kind)
  nodes : n.kind = .selector → ∀ role ∈ n.elements.map Element.role, role = none
  token : n.kind.isSelectorPart = true → ∃ role ∈ n.elements.map Element.role, role ≠ none

variable {n m : Node}

/-- The children of a selector are its parts. -/
theorem Slotted.holds_part (h : n.Slotted) (hkind : n.kind = .selector) (hm : m ∈ n.children) :
    n.Holds .selectorPart m := by
  obtain ⟨slot, hslot⟩ := h.exists_slot hm
  have hmem : slot ∈ n.kind.slots n.children.length := (List.of_mem_zip hslot).1
  rw [hkind] at hmem
  obtain rfl : slot = .selectorPart := List.eq_of_mem_replicate hmem
  exact hslot

namespace Stepped

theorem of_kind (hselector : n.kind ≠ .selector) (hpart : n.kind.isSelectorPart = false) :
    n.Stepped := by
  refine ⟨fun h => absurd h hselector, fun h => absurd h hselector, fun h => ?_⟩
  rw [hpart] at h
  cases h

theorem of_listShape? {shape : ListKind × Nat} (h : n.kind.listShape? = some shape) :
    n.Stepped := by
  apply of_kind
  · intro hkind
    rw [hkind] at h
    cases h
  · cases hkind : n.kind <;> rw [hkind] at h <;> first | rfl | cases h

theorem of_roles (h : n.Stepped) (hkind : m.kind = n.kind)
    (hroles : m.elements.map Element.role = n.elements.map Element.role)
    (hkinds : n.kind = .selector → m.children.map Node.kind = n.children.map Node.kind) :
    m.Stepped := by
  refine ⟨fun hm => ?_, fun hm => ?_, fun hm => ?_⟩
  · rw [hkinds (hkind ▸ hm)]
    exact h.steps (hkind ▸ hm)
  · rw [hroles]
    exact h.nodes (hkind ▸ hm)
  · rw [hroles]
    exact h.token (hkind ▸ hm)

/-- Around a node that is changed, steps stay steps if a part of a selector keeps its kind. -/
theorem updateAll {id : NodeId} {f : Node → Node} (h : n.Stepped) (hslots : n.Slotted)
    (hf : ∀ c, n.Holds .selectorPart c → c.id = id → (f c).kind = c.kind) :
    ({ n with elements := Element.updateAll id f n.elements } : Node).Stepped := by
  refine h.of_roles rfl (Element.roles_updateAll id f n.elements) fun hkind => ?_
  have hchildren : ({ n with elements := Element.updateAll id f n.elements } : Node).children =
      n.children.map (·.update id f) := Element.nodes_updateAll id f n.elements
  rw [hchildren, List.map_map]
  apply List.map_congr_left
  intro c hc
  have hkeeps := hf c (hslots.holds_part hkind hc)
  obtain ⟨i, kind, span, es⟩ := c
  rw [Function.comp_apply, Node.update]
  split
  next hid => exact hkeeps hid
  next => rfl

end Stepped

end Node

end CssTree
