import CssTree.Proofs.Tree.Moved
import CssTree.Proofs.Tree.Sound

namespace CssTree

/-- A node without the spans of nodes, and with the others moved. -/
def Node.pushed (f : Span → Span) (n : Node) : Node := n.moved (fun _ _ => default) f

/-- A node without the spans of nodes. -/
def Node.unspanned (n : Node) : Node := n.pushed fun r => r

mutual

theorem Node.unspanned_respanFrom : ∀ (hint : Position) (n : Node),
    (n.respanFrom hint).unspanned = n.unspanned
  | hint, ⟨id, kind, span, es⟩ => by
    rw [Node.respanFrom, Node.unspanned, Node.unspanned, Node.pushed, Node.pushed, Node.moved_mk,
      Node.moved_mk, Element.unspanned_respanAll hint es]

theorem Element.unspanned_respanAll : ∀ (cursor : Position) (es : List Element),
    Element.moveSpansOf (fun _ => false) (fun _ _ => default) (fun r => r)
        (Element.respanAll cursor es) =
      Element.moveSpansOf (fun _ => false) (fun _ _ => default) (fun r => r) es
  | _, [] => rfl
  | cursor, .token t :: es => by
    rw [Element.respanAll, Element.moveSpansOf, Element.moveSpansOf, Element.unspanned_respanAll]
  | cursor, .node n :: es => by
    have hn : (n.respanFrom cursor).moveSpans (fun _ => false) (fun _ _ => default) (fun r => r) =
        n.moveSpans (fun _ => false) (fun _ _ => default) fun r => r :=
      Node.unspanned_respanFrom cursor n
    rw [Element.respanAll, Element.moveSpansOf, Element.moveSpansOf]
    simp only [hn]
    rw [Element.unspanned_respanAll]

end

mutual

/-- The spans of nodes do not count when they are computed. -/
theorem Node.respanFrom_unspanned : ∀ (hint : Position) (n : Node),
    n.unspanned.respanFrom hint = n.respanFrom hint
  | hint, ⟨id, kind, span, es⟩ => by
    rw [Node.unspanned, Node.pushed, Node.moved_mk, Node.respanFrom, Node.respanFrom,
      Element.respanAll_unspanned hint es]

theorem Element.respanAll_unspanned : ∀ (cursor : Position) (es : List Element),
    Element.respanAll cursor
        (Element.moveSpansOf (fun _ => false) (fun _ _ => default) (fun r => r) es) =
      Element.respanAll cursor es
  | _, [] => rfl
  | cursor, .token t :: es => by
    rw [Element.moveSpansOf, Element.respanAll, Element.respanAll,
      Token.mapSpans_eq_self fun _ _ => rfl, Element.respanAll_unspanned]
  | cursor, .node n :: es => by
    have hn : (n.moveSpans (fun _ => false) (fun _ _ => default) fun r => r).respanFrom cursor =
        n.respanFrom cursor := Node.respanFrom_unspanned cursor n
    rw [Element.moveSpansOf, Element.respanAll, Element.respanAll]
    simp only [hn]
    rw [Element.respanAll_unspanned]

end

namespace Node

variable {m n : Node}

theorem unspanned_respan (n : Node) : n.respan.unspanned = n.unspanned :=
  n.unspanned_respanFrom _

/-- A change of spans of nodes only. -/
theorem unspanned_update {id : NodeId} {f : Node → Node} (hf : ∀ m, (f m).unspanned = m.unspanned)
    (n : Node) : (n.update id f).unspanned = n.unspanned := by
  rw [unspanned, pushed, moved_update (f := f) (g := fun m => m) hf, update_id, unspanned, pushed]

@[simp] theorem id_pushed (f : Span → Span) (n : Node) : (n.pushed f).id = n.id := n.id_moved _ _

theorem tokens_pushed (f : Span → Span) (n : Node) :
    (n.pushed f).tokens = n.tokens.map (·.mapSpans f) := n.tokens_moved _ _

/-- How the spans of nodes were moved does not matter. -/
theorem pushed_moved (onNode : NodeId → Span → Span) (f g : Span → Span) (n : Node) :
    (n.moved onNode f).pushed g = n.pushed fun r => g (f r) := n.moved_moved _ _ _ _

theorem pushed_pushed (f g : Span → Span) (n : Node) :
    (n.pushed f).pushed g = n.pushed fun r => g (f r) := n.moved_moved _ _ _ _

@[simp] theorem tokens_unspanned (n : Node) : n.unspanned.tokens = n.tokens := by
  rw [unspanned, tokens_pushed]
  exact List.map_id'' (fun t => Token.mapSpans_eq_self fun _ _ => rfl) _

theorem tokens_of_unspanned (h : m.unspanned = n.unspanned) : m.tokens = n.tokens := by
  rw [← m.tokens_unspanned, h, tokens_unspanned]

/-- The span of a node counts for where the node lies if it has no tokens. -/
theorem respan_congr (h : m.unspanned = n.unspanned)
    (hstart : n.tokens = [] → m.span.start = n.span.start) : m.respan = n.respan := by
  have hhint : (m.tokens.head?.map (·.fullSpan.start)).getD m.span.start =
      (n.tokens.head?.map (·.fullSpan.start)).getD n.span.start := by
    rw [tokens_of_unspanned h]
    cases htokens : n.tokens with
    | nil => exact hstart htokens
    | cons t ts => rfl
  rw [respan, respan, hhint, ← m.respanFrom_unspanned, h, respanFrom_unspanned]

theorem skeleton_of_unspanned (h : m.unspanned = n.unspanned) : m.skeleton = n.skeleton := by
  have hskeleton := congrArg Node.skeleton h
  rwa [unspanned, unspanned, pushed, pushed, skeleton_moved, skeleton_moved] at hskeleton

theorem find?_moved (onNode : NodeId → Span → Span) (onToken : Span → Span) (id : NodeId)
    (n : Node) : (n.moved onNode onToken).find? id = (n.find? id).map (·.moved onNode onToken) := by
  rw [find?, descendants_moved, List.find?_map]
  simp only [Function.comp_def, id_moved]
  rfl

theorem find?_pushed (f : Span → Span) (id : NodeId) (n : Node) :
    (n.pushed f).find? id = (n.find? id).map (·.pushed f) := n.find?_moved _ _ id

theorem find?_unspanned (id : NodeId) (n : Node) :
    n.unspanned.find? id = (n.find? id).map unspanned := n.find?_pushed _ id

end Node

mutual

/-- Where there is nothing to be held in place, all spans are moved. -/
theorem Node.moveSpans_eq_moved {frozen : NodeId → Bool} {onNode : NodeId → Span → Span}
    {onToken : Span → Span} : ∀ {n : Node}, (∀ x ∈ n.descendants, frozen x.id = false) →
      n.moveSpans frozen onNode onToken = n.moved onNode onToken
  | ⟨i, kind, span, es⟩, h => by
    rw [Node.descendants_mk, List.forall_mem_cons] at h
    rw [Node.moveSpans, Node.moved_mk, if_neg (by simp [h.1]), Element.moveSpansOf_eq_moved h.2]

theorem Element.moveSpansOf_eq_moved {frozen : NodeId → Bool} {onNode : NodeId → Span → Span}
    {onToken : Span → Span} : ∀ {es : List Element},
      (∀ x ∈ Element.descendantsOf es, frozen x.id = false) →
        Element.moveSpansOf frozen onNode onToken es =
          Element.moveSpansOf (fun _ => false) onNode onToken es
  | [], _ => rfl
  | .token t :: es, h => by
    rw [Element.descendantsOf_token] at h
    rw [Element.moveSpansOf, Element.moveSpansOf, Element.moveSpansOf_eq_moved h]
  | .node n :: es, h => by
    rw [Element.descendantsOf_node, List.forall_mem_append] at h
    rw [Element.moveSpansOf, Element.moveSpansOf, Node.moveSpans_eq_moved h.1,
      Element.moveSpansOf_eq_moved h.2]
    rfl

end

mutual

/-- Spans are moved but for those of one node, which is held in place. -/
theorem Node.moveSpans_frozen {frozen : NodeId → Bool} {onNode : NodeId → Span → Span}
    {onToken : Span → Span} : ∀ {n m : Node}, (n.descendants.map Node.id).Nodup →
      m ∈ n.descendants → (∀ i, frozen i = decide (i = m.id)) →
        n.moveSpans frozen onNode onToken = (n.moved onNode onToken).update m.id fun _ => m
  | ⟨i, kind, span, es⟩, m, hnodup, hm, hfrozen => by
    rw [Node.descendants_mk, List.map_cons, List.nodup_cons] at hnodup
    rw [Node.descendants_mk] at hm
    rw [Node.moveSpans, Node.moved_mk, Node.update]
    rcases List.mem_cons.mp hm with rfl | hm
    · rw [if_pos (by simp [hfrozen]), if_pos rfl]
    · have hmem : m.id ∈ (Element.descendantsOf es).map Node.id := List.mem_map_of_mem hm
      have hne : i ≠ m.id := fun heq => hnodup.1 (heq ▸ hmem)
      rw [if_neg (by simp [hfrozen, hne]), if_neg hne,
        Element.moveSpansOf_frozen hnodup.2 hm hfrozen]

theorem Element.moveSpansOf_frozen {frozen : NodeId → Bool} {onNode : NodeId → Span → Span}
    {onToken : Span → Span} : ∀ {es : List Element} {m : Node},
      ((Element.descendantsOf es).map Node.id).Nodup → m ∈ Element.descendantsOf es →
        (∀ i, frozen i = decide (i = m.id)) →
          Element.moveSpansOf frozen onNode onToken es = Element.updateAll m.id (fun _ => m)
            (Element.moveSpansOf (fun _ => false) onNode onToken es)
  | [], _, _, hm, _ => by simp at hm
  | .token t :: es, m, hnodup, hm, hfrozen => by
    rw [Element.descendantsOf_token] at hnodup hm
    rw [Element.moveSpansOf, Element.moveSpansOf, Element.updateAll,
      Element.moveSpansOf_frozen hnodup hm hfrozen]
  | .node n :: es, m, hnodup, hm, hfrozen => by
    rw [Element.descendantsOf_node, List.map_append, List.nodup_append] at hnodup
    obtain ⟨hfirst, hrest, hdisjoint⟩ := hnodup
    rw [Element.descendantsOf_node] at hm
    have hfree : ∀ ns : List Node, m.id ∉ ns.map Node.id → ∀ x ∈ ns, frozen x.id = false := by
      intro ns hnot x hx
      rw [hfrozen, decide_eq_false_iff_not]
      exact fun heq => hnot (heq ▸ List.mem_map_of_mem hx)
    rw [Element.moveSpansOf, Element.moveSpansOf, Element.updateAll]
    rcases List.mem_append.mp hm with hm | hm
    · have hnot : m.id ∉ (Element.descendantsOf es).map Node.id := fun hin =>
        hdisjoint _ (List.mem_map_of_mem hm) _ hin rfl
      rw [Node.moveSpans_frozen hfirst hm hfrozen, Element.moveSpansOf_eq_moved (hfree _ hnot),
        Element.updateAll_of_not_mem _ (by rwa [Element.ids_moved])]
      rfl
    · have hnot : m.id ∉ n.descendants.map Node.id := fun hin =>
        hdisjoint _ hin _ (List.mem_map_of_mem hm) rfl
      have hn : (n.moved onNode onToken).update m.id (fun _ => m) = n.moved onNode onToken :=
        Node.update_of_not_mem _ (by rwa [Node.ids_moved])
      rw [Element.moveSpansOf_frozen hrest hm hfrozen, Node.moveSpans_eq_moved (hfree _ hnot)]
      exact congrArg (fun k => Element.node k :: _) hn.symm

end

/-- Spans are moved but for those of a node that took the place of another one. -/
theorem Node.moveSpans_update {frozen : NodeId → Bool} {onNode : NodeId → Span → Span}
    {onToken : Span → Span} {root m x : Node} (hnodup : (root.descendants.map Node.id).Nodup)
    (hm : m ∈ root.descendants) (hx : x.id = m.id)
    (hnodup' : ((root.update m.id fun _ => x).descendants.map Node.id).Nodup)
    (hfrozen : ∀ i, frozen i = decide (i = m.id)) :
    (root.update m.id fun _ => x).moveSpans frozen onNode onToken =
      (root.moved onNode onToken).update m.id fun _ => x := by
  have hmem : x ∈ (root.update m.id fun _ => x).descendants := mem_update_self (fun _ => x) hnodup hm
  rw [moveSpans_frozen hnodup' hmem (by rw [hx]; exact hfrozen), hx, moved_update_const,
    update_const_moved hnodup hm (by rw [id_moved, hx])]

namespace Tree

/-- A tree is what another one was, but for the spans of nodes: the same nodes hold the same tokens,
with the same trivia, in the same places. -/
structure Restored (before after : Tree) : Prop where
  nodes : after.root.skeleton = before.root.skeleton
  tokens : after.root.tokens = before.root.tokens
  text : after.render = before.render
  size : after.size = before.size

theorem Sound.restored {before after : Tree} (h : before.Sound []) (h' : after.Sound [])
    (hroot : after.root.unspanned = before.root.unspanned) : before.Restored after := by
  have hskeleton := Node.skeleton_of_unspanned hroot
  have htokens := Node.tokens_of_unspanned hroot
  refine ⟨hskeleton, htokens, congrArg Token.renderAll htokens, ?_⟩
  rw [h'.linked.size_eq, h.linked.size_eq, ← List.length_map Node.skeleton,
    ← Node.descendants_skeleton, hskeleton, Node.descendants_skeleton, List.length_map]

/-- A tree is `root`, but spans of nodes do not count, the others were moved by `f`, and `x` stands
in the place of the node `n`. -/
def Shows (root : Node) (f : Span → Span) (n x : Node) (tree : Tree) : Prop :=
  tree.root.unspanned = (root.pushed f).update n.id fun _ => x

namespace Shows

variable {root n x : Node} {f : Span → Span} {tree tree' : Tree}

theorem mem_pushed (f : Span → Span) (hn : n ∈ root.descendants) :
    n.pushed f ∈ (root.pushed f).descendants := Node.mem_moved _ f hn

theorem nodup_pushed (f : Span → Span) (hnodup : (root.descendants.map Node.id).Nodup) :
    ((root.pushed f).descendants.map Node.id).Nodup := by
  rwa [Node.pushed, Node.ids_moved]

/-- A node in its own place. -/
theorem unspanned_self (hnodup : (root.descendants.map Node.id).Nodup)
    (hn : n ∈ root.descendants) :
    (root.unspanned.update n.id fun _ => n.unspanned) = root.unspanned := by
  have hself := Node.update_congr (f := fun _ => n.unspanned) (g := fun m => m)
    (nodup_pushed _ hnodup) (mem_pushed (fun r => r) hn) rfl
  rwa [Node.update_id, Node.id_pushed] at hself

theorem refl (hnodup : (tree.root.descendants.map Node.id).Nodup)
    (hn : n ∈ tree.root.descendants) : Shows tree.root (fun r => r) n n.unspanned tree :=
  (unspanned_self hnodup hn).symm

theorem moved (h : Shows root f n x tree) {onNode : NodeId → Span → Span} {g : Span → Span}
    (htree : tree'.root = tree.root.moved onNode g) :
    Shows root (fun r => g (f r)) n (x.pushed g) tree' := by
  have hunspanned : tree'.root.unspanned = tree.root.unspanned.pushed g := by
    rw [htree, Node.unspanned, Node.unspanned, Node.pushed_moved, Node.pushed_pushed]
  rw [Shows, hunspanned, show tree.root.unspanned = _ from h, Node.pushed, Node.moved_update_const]
  exact congrArg (·.update n.id fun _ => x.pushed g) (root.pushed_pushed f g)

theorem update (h : Shows root f n x tree) (hnodup : (root.descendants.map Node.id).Nodup)
    (hn : n ∈ root.descendants) (hid : x.id = n.id) {g g' : Node → Node}
    (hg : ∀ m, (g m).unspanned = g' m.unspanned) : Shows root f n (g' x) (tree.update n.id g) := by
  have hunspanned : (tree.update n.id g).root.unspanned = tree.root.unspanned.update n.id g' :=
    Node.moved_update hg tree.root
  rw [Shows, hunspanned, show tree.root.unspanned = _ from h, Node.pushed,
    Node.update_const_moved hnodup hn hid]

theorem respan (h : Shows root f n x tree) (id : NodeId) :
    Shows root f n x (tree.respan id) := by
  rw [Shows, ← h]
  exact Node.unspanned_update Node.unspanned_respan tree.root

/-- The tokens of the tree are those of `root`, moved, with those of `x` among them. -/
theorem tokens (h : Shows root f n x tree) (hnodup : (root.descendants.map Node.id).Nodup)
    (hn : n ∈ root.descendants) :
    ∃ front back, root.ahead? n.id = some front ∧ root.tokens = front ++ n.tokens ++ back ∧
      tree.root.tokens = front.map (·.mapSpans f) ++ x.tokens ++ back.map (·.mapSpans f) := by
  obtain ⟨front, back, hahead, htokens, hupdate⟩ :=
    Node.ahead?_split_moved hnodup hn (fun _ _ => default) f
  refine ⟨front, back, hahead, htokens, ?_⟩
  rw [← Node.tokens_unspanned, show tree.root.unspanned = _ from h]
  exact hupdate _

/-- The node that is there now. -/
theorem find? (h : Shows root f n x tree) (hnodup : (root.descendants.map Node.id).Nodup)
    (hn : n ∈ root.descendants) (hid : x.id = n.id) :
    ∃ m, tree.find? n.id = some m ∧ m.unspanned = x := by
  let rename : Node → Node := fun m => { x with id := m.id }
  have hrename : rename (n.pushed f) = x := by
    show ({ x with id := (n.pushed f).id } : Node) = x
    rw [Node.id_pushed, ← hid]
    cases x
    rfl
  have hcongr := Node.update_congr (f := fun _ => x) (g := rename) (nodup_pushed f hnodup)
    (mem_pushed f hn) hrename.symm
  rw [Node.id_pushed] at hcongr
  have hfind : (root.pushed f).find? n.id = some (n.pushed f) := by
    rw [Node.find?_pushed, Node.find?_of_mem hnodup hn, Option.map_some]
  have hshows := congrArg (Node.find? n.id) (show tree.root.unspanned = _ from h)
  rw [hcongr, Node.find?_update n.id (f := rename) (fun _ => rfl), hfind, Option.map_some, hrename,
    Node.find?_unspanned] at hshows
  exact Option.map_eq_some_iff.mp hshows

/-- Everything is back where it was. -/
theorem restored (h : Shows root f n n.unspanned tree) (hf : ∀ r, f r = r)
    (hnodup : (root.descendants.map Node.id).Nodup) (hn : n ∈ root.descendants) :
    tree.root.unspanned = root.unspanned := by
  obtain rfl : f = fun r => r := funext hf
  exact Eq.trans h (unspanned_self hnodup hn)

end Shows

end Tree

end CssTree
