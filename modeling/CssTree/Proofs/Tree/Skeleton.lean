import CssTree.Proofs.Tree.Arena
import CssTree.Proofs.Tree.Formed
import CssTree.Tree.Basic

namespace CssTree

def Token.skeleton (t : Token) : Token := ⟨⟨t.kind, [], default⟩, none, [], []⟩

mutual

/-- A node with the kinds of its tokens and nothing else of them. -/
def Node.skeleton : Node → Node
  | ⟨id, kind, _, es⟩ => ⟨id, kind, default, Element.skeletonAll es⟩

def Element.skeletonAll : List Element → List Element
  | [] => []
  | .token t :: es => .token t.skeleton :: Element.skeletonAll es
  | .node n :: es => .node n.skeleton :: Element.skeletonAll es

end

@[simp] theorem Token.skeleton_kind (t : Token) : t.skeleton.kind = t.kind := rfl

theorem Token.skeleton_eq {t u : Token} (h : t.kind = u.kind) : t.skeleton = u.skeleton := by
  rw [Token.skeleton, h]
  rfl

namespace Node

@[simp] theorem skeleton_mk (id : NodeId) (kind : NodeKind) (span : Span) (es : List Element) :
    (Node.mk id kind span es).skeleton = ⟨id, kind, default, Element.skeletonAll es⟩ := rfl

@[simp] theorem skeleton_id (n : Node) : n.skeleton.id = n.id := by
  cases n
  rfl

@[simp] theorem skeleton_kind (n : Node) : n.skeleton.kind = n.kind := by
  cases n
  rfl

@[simp] theorem skeleton_elements (n : Node) :
    n.skeleton.elements = Element.skeletonAll n.elements := by
  cases n
  rfl

end Node

namespace Element

@[simp] theorem skeletonAll_nil : skeletonAll [] = [] := rfl

@[simp] theorem skeletonAll_token (t : Token) (es : List Element) :
    skeletonAll (.token t :: es) = .token t.skeleton :: skeletonAll es := rfl

@[simp] theorem skeletonAll_node (n : Node) (es : List Element) :
    skeletonAll (.node n :: es) = .node n.skeleton :: skeletonAll es := rfl

end Element

mutual

theorem Node.entries_skeleton : ∀ (p : Option NodeId) (n : Node),
    n.skeleton.entries p = n.entries p
  | p, ⟨id, _, _, es⟩ => by
    rw [Node.skeleton_mk, Node.entries, Node.entries, Element.entriesOf_skeleton]

theorem Element.entriesOf_skeleton : ∀ (p : Option NodeId) (es : List Element),
    Element.entriesOf p (Element.skeletonAll es) = Element.entriesOf p es
  | _, [] => rfl
  | p, .token _ :: es => Element.entriesOf_skeleton p es
  | p, .node n :: es => by
    rw [Element.skeletonAll_node, Element.entriesOf_node, Element.entriesOf_node,
      Node.entries_skeleton, Element.entriesOf_skeleton]

end

mutual

theorem Node.descendants_skeleton : ∀ n : Node,
    n.skeleton.descendants = n.descendants.map Node.skeleton
  | ⟨id, kind, span, es⟩ => by
    rw [Node.skeleton_mk, Node.descendants_mk, Node.descendants_mk, List.map_cons,
      Element.descendantsOf_skeleton, Node.skeleton_mk]

theorem Element.descendantsOf_skeleton : ∀ es : List Element,
    Element.descendantsOf (Element.skeletonAll es) =
      (Element.descendantsOf es).map Node.skeleton
  | [] => rfl
  | .token _ :: es => by
    rw [Element.skeletonAll_token, Element.descendantsOf_token, Element.descendantsOf_token,
      Element.descendantsOf_skeleton]
  | .node n :: es => by
    rw [Element.skeletonAll_node, Element.descendantsOf_node, Element.descendantsOf_node,
      List.map_append, Node.descendants_skeleton, Element.descendantsOf_skeleton]

end

/-- A node is found in the skeleton where it is found in the tree. -/
theorem Node.find?_skeleton (id : NodeId) (n : Node) :
    n.skeleton.find? id = (n.find? id).map Node.skeleton := by
  rw [Node.find?, Node.find?, Node.descendants_skeleton, List.find?_map]
  congr 2
  funext m
  simp

mutual

theorem Node.skeleton_moveSpans (frozen : NodeId → Bool) (onNode : NodeId → Span → Span)
    (onToken : Span → Span) : ∀ n : Node,
    (n.moveSpans frozen onNode onToken).skeleton = n.skeleton
  | ⟨id, kind, span, es⟩ => by
    rw [Node.moveSpans]
    split
    · rfl
    · rw [Node.skeleton_mk, Node.skeleton_mk, Element.skeletonAll_moveSpans]

theorem Element.skeletonAll_moveSpans (frozen : NodeId → Bool) (onNode : NodeId → Span → Span)
    (onToken : Span → Span) : ∀ es : List Element,
    Element.skeletonAll (Element.moveSpansOf frozen onNode onToken es) = Element.skeletonAll es
  | [] => rfl
  | .token t :: es => by
    rw [Element.moveSpansOf, Element.skeletonAll_token, Element.skeletonAll_token,
      Element.skeletonAll_moveSpans]
    rfl
  | .node n :: es => by
    rw [Element.moveSpansOf, Element.skeletonAll_node, Element.skeletonAll_node,
      Node.skeleton_moveSpans, Element.skeletonAll_moveSpans]

end

mutual

theorem Node.skeleton_respanFrom : ∀ (hint : Position) (n : Node),
    (n.respanFrom hint).skeleton = n.skeleton
  | hint, ⟨id, kind, span, es⟩ => by
    rw [Node.respanFrom, Node.skeleton_mk, Node.skeleton_mk, Element.skeletonAll_respanAll]

theorem Element.skeletonAll_respanAll : ∀ (cursor : Position) (es : List Element),
    Element.skeletonAll (Element.respanAll cursor es) = Element.skeletonAll es
  | _, [] => rfl
  | cursor, .token t :: es => by
    rw [Element.respanAll, Element.skeletonAll_token, Element.skeletonAll_token,
      Element.skeletonAll_respanAll]
  | cursor, .node n :: es => by
    rw [Element.respanAll]
    simp only [Element.skeletonAll_node]
    rw [Node.skeleton_respanFrom, Element.skeletonAll_respanAll]

end

mutual

theorem Node.skeleton_update (id : NodeId) {f g : Node → Node}
    (h : ∀ m, (f m).skeleton = g m.skeleton) : ∀ n : Node,
    (n.update id f).skeleton = n.skeleton.update id g
  | ⟨i, kind, span, es⟩ => by
    rw [Node.update, Node.skeleton_mk, Node.update]
    split
    · rw [h, Node.skeleton_mk]
    · rw [Node.skeleton_mk, Element.skeletonAll_updateAll id h]

theorem Element.skeletonAll_updateAll (id : NodeId) {f g : Node → Node}
    (h : ∀ m, (f m).skeleton = g m.skeleton) : ∀ es : List Element,
    Element.skeletonAll (Element.updateAll id f es) =
      Element.updateAll id g (Element.skeletonAll es)
  | [] => rfl
  | .token t :: es => by
    rw [Element.updateAll, Element.skeletonAll_token, Element.skeletonAll_token,
      Element.updateAll, Element.skeletonAll_updateAll id h]
  | .node n :: es => by
    rw [Element.updateAll, Element.skeletonAll_node, Element.skeletonAll_node,
      Element.updateAll, Node.skeleton_update id h, Element.skeletonAll_updateAll id h]

end

mutual

theorem Node.update_id (id : NodeId) : ∀ n : Node, n.update id (fun m => m) = n
  | ⟨i, kind, span, es⟩ => by
    rw [Node.update, Element.updateAll_id]
    exact ite_self _

theorem Element.updateAll_id (id : NodeId) : ∀ es : List Element,
    Element.updateAll id (fun m => m) es = es
  | [] => rfl
  | .token t :: es => by rw [Element.updateAll, Element.updateAll_id]
  | .node n :: es => by rw [Element.updateAll, Node.update_id, Element.updateAll_id]

end

/-- A change of one node that keeps its skeleton keeps that of the tree. -/
theorem Node.skeleton_update_of (id : NodeId) {f : Node → Node}
    (h : ∀ m, (f m).skeleton = m.skeleton) (n : Node) : (n.update id f).skeleton = n.skeleton := by
  have hupdate := Node.skeleton_update (g := fun m => m) id h n
  rwa [Node.update_id] at hupdate

theorem Element.roles_skeletonAll (es : List Element) :
    (skeletonAll es).map role = es.map role := by
  induction es with
  | nil => rfl
  | cons e es ih => cases e <;> simp [role, ih]

namespace Node

variable {n m : Node}

theorem kind_of_skeleton (heq : m.skeleton = n.skeleton) : m.kind = n.kind := by
  rw [← m.skeleton_kind, heq, n.skeleton_kind]

theorem id_of_skeleton (heq : m.skeleton = n.skeleton) : m.id = n.id := by
  rw [← m.skeleton_id, heq, n.skeleton_id]

theorem roles_of_skeleton (heq : m.skeleton = n.skeleton) :
    m.elements.map Element.role = n.elements.map Element.role := by
  rw [← Element.roles_skeletonAll m.elements, ← Element.roles_skeletonAll n.elements,
    ← m.skeleton_elements, ← n.skeleton_elements, heq]

/-- Whether a node is well-formed can be told by its skeleton. -/
theorem Formed.of_skeleton (h : n.Formed) (heq : m.skeleton = n.skeleton) : m.Formed :=
  h.of_roles (kind_of_skeleton heq) (roles_of_skeleton heq)

/-- Every node of a tree has the skeleton of a node of any tree with the same skeleton. -/
theorem all_of_skeleton {Q : Node → Prop}
    (hQ : ∀ x ∈ n.descendants, ∀ y : Node, y.skeleton = x.skeleton → Q y)
    (heq : m.skeleton = n.skeleton) : ∀ x ∈ m.descendants, Q x := by
  intro x hx
  have hmem : x.skeleton ∈ n.descendants.map skeleton := by
    rw [← n.descendants_skeleton, ← heq, m.descendants_skeleton]
    exact List.mem_map_of_mem hx
  obtain ⟨y, hy, hyx⟩ := List.mem_map.mp hmem
  exact hQ y hy x hyx.symm

theorem formed_of_skeleton (h : ∀ x ∈ n.descendants, x.Formed) (heq : m.skeleton = n.skeleton) :
    ∀ x ∈ m.descendants, x.Formed :=
  all_of_skeleton (fun x hx _ hy => (h x hx).of_skeleton hy) heq

end Node

end CssTree
