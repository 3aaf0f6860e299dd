import CssTree.Proofs.Tree.Refill
import CssTree.Proofs.Tree.Laid

namespace CssTree

/-- A token by itself, without its place and its trivia. -/
def Token.bare (t : Token) : Token := ⟨⟨t.kind, t.text, default⟩, t.value, [], []⟩

mutual

/-- A node by its kind and its tokens: without ids, spans and trivia. -/
def Node.bare : Node → Node
  | ⟨_, kind, _, es⟩ => ⟨0, kind, default, Element.bareAll es⟩

def Element.bareAll : List Element → List Element
  | [] => []
  | .token t :: es => .token t.bare :: Element.bareAll es
  | .node n :: es => .node n.bare :: Element.bareAll es

end

theorem Node.bare_mk (id : NodeId) (kind : NodeKind) (span : Span) (es : List Element) :
    (Node.mk id kind span es).bare = ⟨0, kind, default, Element.bareAll es⟩ := rfl

namespace Element

@[simp] theorem bareAll_nil : bareAll [] = [] := rfl

@[simp] theorem bareAll_token (t : Token) (es : List Element) :
    bareAll (.token t :: es) = .token t.bare :: bareAll es := rfl

@[simp] theorem bareAll_node (n : Node) (es : List Element) :
    bareAll (.node n :: es) = .node n.bare :: bareAll es := rfl

@[simp] theorem bareAll_append (es fs : List Element) :
    bareAll (es ++ fs) = bareAll es ++ bareAll fs := by
  induction es with
  | nil => rfl
  | cons e es ih => cases e <;> simp [ih]

@[simp] theorem bareAll_nodes (ns : List Node) :
    bareAll (ns.map .node) = (ns.map Node.bare).map .node := by
  induction ns with
  | nil => rfl
  | cons n ns ih => simp [ih]

@[simp] theorem bareAll_tokens (ts : List Token) :
    bareAll (ts.map .token) = (ts.map Token.bare).map .token := by
  induction ts with
  | nil => rfl
  | cons t ts ih => simp [ih]

@[simp] theorem bareAll_ofToken? (o : Option Token) :
    bareAll (ofToken? o) = ofToken? (o.map Token.bare) := by
  cases o <;> rfl

@[simp] theorem bareAll_ofNode? (o : Option Node) :
    bareAll (ofNode? o) = ofNode? (o.map Node.bare) := by
  cases o <;> rfl

end Element

mutual

theorem Node.skeleton_bare : ∀ n : Node, n.bare.skeleton = n.skeleton.bare
  | ⟨_, _, _, es⟩ => by
    rw [Node.bare_mk, Node.skeleton_mk, Node.skeleton_mk, Node.bare_mk, Element.skeletonAll_bareAll]

theorem Element.skeletonAll_bareAll : ∀ es : List Element,
    Element.skeletonAll (Element.bareAll es) = Element.bareAll (Element.skeletonAll es)
  | [] => rfl
  | .token t :: es => congrArg (List.cons _) (Element.skeletonAll_bareAll es)
  | .node n :: es => by
    rw [Element.bareAll_node, Element.skeletonAll_node, Element.skeletonAll_node,
      Element.bareAll_node, n.skeleton_bare, Element.skeletonAll_bareAll]

end

mutual

theorem Node.length_tokens_shape : ∀ n : Node, n.skeleton.bare.tokens.length = n.tokens.length
  | ⟨_, _, _, es⟩ => Element.length_tokensOf_shape es

theorem Element.length_tokensOf_shape : ∀ es : List Element,
    (Element.tokensOf (Element.bareAll (Element.skeletonAll es))).length =
      (Element.tokensOf es).length
  | [] => rfl
  | .token t :: es => congrArg Nat.succ (Element.length_tokensOf_shape es)
  | .node n :: es => by
    simp only [Element.skeletonAll_node, Element.bareAll_node, Element.tokensOf_node,
      List.length_append, n.length_tokens_shape, Element.length_tokensOf_shape es]

end

mutual

/-- A node as it looks from outside: without ids, and with its tokens seen through `f`. -/
def Node.anonymous (f : Token → Token) : Node → Node
  | ⟨_, kind, span, es⟩ => ⟨0, kind, span, Element.anonymousAll f es⟩

def Element.anonymousAll (f : Token → Token) : List Element → List Element
  | [] => []
  | .token t :: es => .token (f t) :: Element.anonymousAll f es
  | .node n :: es => .node (n.anonymous f) :: Element.anonymousAll f es

end

theorem Token.renderAll_of_map {f : Token → Token} (hf : ∀ t u, f t = f u → t.render = u.render)
    {ts us : List Token} (h : ts.map f = us.map f) : renderAll ts = renderAll us := by
  induction ts generalizing us with
  | nil =>
    obtain rfl : us = [] := by simpa using h.symm
    rfl
  | cons t ts ih =>
    obtain ⟨u, us, rfl⟩ : ∃ u us', us = u :: us' := by
      cases us with
      | nil => simp at h
      | cons u us => exact ⟨u, us, rfl⟩
    rw [List.map_cons, List.map_cons, List.cons.injEq] at h
    rw [renderAll_cons, renderAll_cons, hf t u h.1, ih h.2]

section Anonymous

variable {f : Token → Token} (hf : ∀ t u, f t = f u → t.render = u.render)

include hf

mutual

/-- Nodes of the same shape with the same tokens in the same place look the same. -/
theorem Node.anonymous_eq : ∀ {before : Text} (n m : Node), n.Laid before → m.Laid before →
    n.skeleton.bare = m.skeleton.bare → n.tokens.map f = m.tokens.map f →
      n.anonymous f = m.anonymous f
  | before, ⟨_, kind, span, es⟩, ⟨_, kind', span', fs⟩, ⟨hspan, hes⟩, ⟨hspan', hfs⟩, hshape,
      htokens => by
    rw [Node.skeleton_mk, Node.skeleton_mk, Node.bare_mk, Node.bare_mk, Node.mk.injEq] at hshape
    obtain ⟨-, rfl, -, hall⟩ := hshape
    have hrender : Element.renderAll es = Element.renderAll fs := Token.renderAll_of_map hf htokens
    rw [hrender] at hspan
    rw [Node.anonymous, Node.anonymous, hspan, hspan',
      Element.anonymousAll_eq es fs hes hfs hall htokens]

theorem Element.anonymousAll_eq : ∀ {before : Text} (es fs : List Element),
    Element.LaidAll before es → Element.LaidAll before fs →
      Element.bareAll (Element.skeletonAll es) = Element.bareAll (Element.skeletonAll fs) →
      (Element.tokensOf es).map f = (Element.tokensOf fs).map f →
        Element.anonymousAll f es = Element.anonymousAll f fs
  | _, [], [], _, _, _, _ => rfl
  | _, .token t :: es, .token u :: fs, ⟨_, hes⟩, ⟨_, hfs⟩, hall, htokens => by
    obtain ⟨htoken, hrest⟩ := List.cons.inj htokens
    rw [hf t u htoken] at hes
    rw [Element.anonymousAll, Element.anonymousAll, htoken,
      Element.anonymousAll_eq es fs hes hfs (List.cons.inj hall).2 hrest]
  | _, .node n :: es, .node m :: fs, ⟨hn, hes⟩, ⟨hm, hfs⟩, hall, htokens => by
    obtain ⟨hshape, hall⟩ := List.cons.inj hall
    have hshape : n.skeleton.bare = m.skeleton.bare := Element.node.inj hshape
    have hlength : n.tokens.length = m.tokens.length := by
      rw [← n.length_tokens_shape, hshape, m.length_tokens_shape]
    rw [Element.tokensOf_node, Element.tokensOf_node, List.map_append, List.map_append] at htokens
    obtain ⟨hown, hrest⟩ := List.append_inj htokens (by simp [hlength])
    rw [Node.render, Token.renderAll_of_map hf hown, ← Node.render] at hes
    rw [Element.anonymousAll, Element.anonymousAll, Node.anonymous_eq n m hn hm hshape hown,
      Element.anonymousAll_eq es fs hes hfs hall hrest]
  | _, [], .token _ :: _, _, _, hall, _ => by simp at hall
  | _, [], .node _ :: _, _, _, hall, _ => by simp at hall
  | _, .token _ :: _, [], _, _, hall, _ => by simp at hall
  | _, .node _ :: _, [], _, _, hall, _ => by simp at hall
  | _, .token _ :: _, .node _ :: _, _, _, hall, _ => by simp at hall
  | _, .node _ :: _, .token _ :: _, _, _, hall, _ => by simp at hall

end

end Anonymous

end CssTree
