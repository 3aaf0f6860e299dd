import CssTree.Proofs.Tree.Rework
import CssTree.Proofs.Tree.Update

namespace CssTree

/-- The kinds of declarations and of their lists. -/
def NodeKind.declares : NodeKind → Bool
  | declaration | declarationList => true
  | _ => false

/-- A place in which, and below which, no declaration stands. -/
def Slot.plain : Slot → Bool
  | selector | selectorPart | selectors | keyframeSelectors | values | media | component
  | important => true
  | _ => false

/-- Below what stands in a plain place there are plain places only. -/
theorem Slot.plain_slots {slot : Slot} {kind : NodeKind} (count : Nat) (hslot : slot.plain = true)
    (hkind : slot.admits kind = true) :
    kind.declares = false ∧ ∀ s ∈ kind.slots count, s.plain = true := by
  have hreplicate : ∀ (n : Nat) (s : Slot), s.plain = true →
      ∀ s' ∈ List.replicate n s, s'.plain = true :=
    fun n s hs s' hs' => (List.eq_of_mem_replicate hs') ▸ hs
  cases slot <;> cases hslot <;> cases kind <;> cases hkind <;> refine ⟨by decide, ?_⟩ <;>
    simp only [NodeKind.slots] <;> first
    | exact hreplicate _ _ rfl
    | (split <;> simp [plain])
    | simp [plain]

namespace Node

variable {φ : Node → Prop} {n m : Node}

/-- The node and all below it have `φ`. -/
def Every (φ : Node → Prop) (n : Node) : Prop := ∀ m ∈ n.descendants, φ m

theorem every_iff : n.Every φ ↔ φ n ∧ ∀ c ∈ n.children, c.Every φ := by
  obtain ⟨id, kind, span, es⟩ := n
  simp only [Every, descendants_mk, Element.descendantsOf_eq, List.forall_mem_cons,
    List.forall_mem_flatMap]
  rfl

theorem Every.mono {ψ : Node → Prop} (h : n.Every φ) (hφ : ∀ m, φ m → ψ m) : n.Every ψ :=
  fun m hm => hφ m (h m hm)

end Node

/-- A node stands in a plain place, and whatever is below it fits its own. -/
def Node.Plain (n : Node) : Prop := n.Orderly ∧ ∃ slot : Slot, slot.plain = true ∧ slot.admits n.kind

theorem Node.Orderly.child {n c : Node} (h : n.Orderly) (hc : c ∈ n.children) : c.Orderly :=
  fun x hx => h x (Node.mem_descendants_trans (Node.mem_descendants_child hc) hx)

theorem Node.Plain.child {n c : Node} (h : n.Plain) (hc : c ∈ n.children) : c.Plain := by
  obtain ⟨horderly, slot, hslot, hadmits⟩ := h
  obtain ⟨slot', hholds⟩ := (horderly n n.mem_descendants_self).1.slots.exists_slot hc
  have hslots := (Slot.plain_slots n.children.length hslot hadmits).2
  exact ⟨horderly.child hc, slot', hslots slot' (List.of_mem_zip hholds).1,
    (horderly n n.mem_descendants_self).1.slots.admits hholds⟩

theorem Node.Plain.kind {n : Node} (h : n.Plain) : n.kind.declares = false :=
  let ⟨_, _, hslot, hadmits⟩ := h
  (Slot.plain_slots 0 hslot hadmits).1

mutual

/-- In a plain place there is no declaration and no list of them, and none below it. -/
theorem Node.every_of_plain : ∀ n : Node, n.Plain → n.Every (·.kind.declares = false)
  | ⟨_, _, _, es⟩, h => Node.every_iff.mpr
    ⟨h.kind, Element.every_of_plain es fun _ hc => h.child hc⟩

theorem Element.every_of_plain : ∀ es : List Element, (∀ c ∈ Element.nodes es, c.Plain) →
    ∀ c ∈ Element.nodes es, c.Every (·.kind.declares = false)
  | [], _, _, hc => by cases hc
  | .token _ :: es, h, c, hc => Element.every_of_plain es h c hc
  | .node n :: es, h, c, hc => by
    rcases List.mem_cons.mp hc with heq | hc
    · exact heq ▸ Node.every_of_plain n (h n List.mem_cons_self)
    · exact Element.every_of_plain es (fun c hc => h c (List.mem_cons_of_mem _ hc)) c hc

end

namespace Slot.Takes

variable {slot : Slot} {n : Node}

theorem plain (h : slot.Takes n) (hslot : slot.plain = true) : n.Every (·.kind.declares = false) :=
  Node.every_of_plain _ ⟨h.orderly, slot, hslot, h.admits⟩

/-- Below a declaration there is no other. -/
theorem plain_children (h : Slot.declaration.Takes n) :
    ∀ c ∈ n.children, c.Every (·.kind.declares = false) := by
  intro c hc
  have hslotted := (h.orderly n n.mem_descendants_self).1.slots
  obtain ⟨slot, hholds⟩ := hslotted.exists_slot hc
  refine Node.every_of_plain _ ⟨h.orderly.child hc, slot, ?_, hslotted.admits hholds⟩
  have hslot := (List.of_mem_zip hholds).1
  have hkind := h.admits
  generalize n.children.length = count at hslot
  generalize n.kind = kind at hslot hkind
  cases kind <;> cases hkind <;> simp only [NodeKind.slots] at hslot
  · split at hslot <;> simp at hslot <;> rcases hslot with rfl | rfl <;> rfl
  · cases hslot

end Slot.Takes

end CssTree
