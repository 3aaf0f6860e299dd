import CssTree.Proofs.Text.Span
import CssTree.Proofs.Tree.Ahead

namespace CssTree

/-- An element with a node or a token in the place of its own. -/
def Element.map (f : Node → Node) (g : Token → Token) : Element → Element
  | .token t => .token (g t)
  | .node n => .node (f n)

/-- A list with every item changed by `f` and every other token by `g`. -/
def Listing.map (f : Node → Node) (g : Token → Token) (l : Listing) : Listing :=
  ⟨l.kind, l.opening.map g, ⟨l.items.pairs.map fun pair => (f pair.1, pair.2.map g)⟩,
    l.closing.map g⟩

/-- The tokens of items with the separators after them. -/
def Listing.tokensOf (pairs : List (Node × Option Token)) : List Token :=
  pairs.flatMap fun pair => pair.1.tokens ++ pair.2.toList

/-- What a token says, wherever it stands. -/
def Token.content (t : Token) : TokenKind × Text × Option TokenValue := (t.kind, t.text, t.value)

theorem Token.map_content_mapSpans (f : Span → Span) (ts : List Token) :
    (ts.map (·.mapSpans f)).map content = ts.map content := by
  rw [List.map_map]
  rfl

theorem Token.render_mapSpans (f : Span → Span) (t : Token) : (t.mapSpans f).render = t.render := by
  simp [Token.render, Token.mapSpans, Lexeme.render, List.flatMap_map]

@[simp] theorem Token.renderAll_mapSpans (f : Span → Span) (ts : List Token) :
    renderAll (ts.map (·.mapSpans f)) = renderAll ts := by
  simp [renderAll, List.flatMap_map, Token.render_mapSpans]

namespace Listing

variable {l : Listing} (f : Node → Node) (g : Token → Token)

theorem elements_map (l : Listing) : (l.map f g).elements = l.elements.map (Element.map f g) := by
  have htokens : ∀ ts : List Token,
      (ts.map Element.token).map (Element.map f g) = (ts.map g).map Element.token := by
    simp [Element.map]
  have hpairs : ∀ pairs : List (Node × Option Token),
      (pairs.map fun pair => (f pair.1, pair.2.map g)).flatMap
          (fun pair => Element.node pair.1 :: Element.ofToken? pair.2) =
        (pairs.flatMap fun pair => Element.node pair.1 :: Element.ofToken? pair.2).map
          (Element.map f g) := by
    intro pairs
    induction pairs with
    | nil => rfl
    | cons pair pairs ih =>
      obtain ⟨n, separator⟩ := pair
      rw [List.map_cons, List.flatMap_cons, List.flatMap_cons, List.map_append, ih]
      cases separator <;> rfl
  simp only [elements, map, List.map_append, htokens]
  rw [← hpairs]

theorem Formed.map {kind : ListKind} {opening : Nat} (h : l.Formed kind opening) :
    (l.map f g).Formed kind opening := by
  refine ⟨h.kind, by simp [Listing.map, h.opening], fun hkind pair hpair => ?_, fun hkind => ?_⟩
  · obtain ⟨pair, hmem, rfl⟩ := List.mem_map.mp hpair
    simp [h.separators hkind pair hmem]
  · simp [Listing.map, h.closing hkind]

theorem tokensOf_elements (l : Listing) :
    Element.tokensOf l.elements = l.opening ++ tokensOf l.items.pairs ++ l.closing := by
  have hpairs : ∀ pairs : List (Node × Option Token), Element.tokensOf
      (pairs.flatMap fun pair => Element.node pair.1 :: Element.ofToken? pair.2) =
        tokensOf pairs := by
    intro pairs
    induction pairs with
    | nil => rfl
    | cons pair pairs ih =>
      obtain ⟨n, separator⟩ := pair
      rw [List.flatMap_cons, Element.tokensOf_append, ih]
      cases separator <;> simp [tokensOf]
  simp only [elements, Element.tokensOf_append, Element.tokensOf_map_token]
  rw [← hpairs]

@[simp] theorem tokensOf_nil : tokensOf [] = [] := rfl

@[simp] theorem tokensOf_append (ps qs : List (Node × Option Token)) :
    tokensOf (ps ++ qs) = tokensOf ps ++ tokensOf qs := by
  simp [tokensOf]

@[simp] theorem tokensOf_cons (p : Node × Option Token) (ps : List (Node × Option Token)) :
    tokensOf (p :: ps) = p.1.tokens ++ p.2.toList ++ tokensOf ps := by
  simp [tokensOf]

end Listing

theorem Node.listing?_map {n : Node} {l : Listing} (h : n.Formed) (hl : n.listing? = some l)
    (f : Node → Node) (g : Token → Token) {m : Node} (hkind : m.kind = n.kind)
    (helements : m.elements = n.elements.map (Element.map f g)) :
    m.listing? = some (l.map f g) := by
  obtain ⟨kind, opening, hshape, hformed, -, hn⟩ := h.of_listing? hl
  have hm : ({ m with elements := (l.map f g).elements } : Node).listing? = some (l.map f g) :=
    Node.listing?_relist (hkind ▸ hshape) (hformed.map f g)
  rwa [Listing.elements_map, ← hn, ← helements] at hm

theorem Node.update_of_ne {id : NodeId} {n : Node} (h : n.id ≠ id) (f : Node → Node) :
    n.update id f =
      { n with elements := n.elements.map (Element.map (·.update id f) fun t => t) } := by
  have hall : ∀ es, Element.updateAll id f es =
      es.map (Element.map (·.update id f) fun t => t) := by
    intro es
    induction es with
    | nil => rfl
    | cons e es ih => cases e <;> simp [Element.updateAll, Element.map, ih]
  cases n
  rw [Node.update, if_neg h, hall]

theorem Node.listing?_update {id : NodeId} {n : Node} {l : Listing} (h : n.Formed)
    (hl : n.listing? = some l) (hne : n.id ≠ id) (f : Node → Node) :
    (n.update id f).listing? = some (l.map (·.update id f) fun t => t) := by
  rw [Node.update_of_ne hne]
  exact Node.listing?_map h hl _ _ rfl rfl

/-- A node with every span in it moved. -/
def Node.moved (onNode : NodeId → Span → Span) (onToken : Span → Span) (n : Node) : Node :=
  n.moveSpans (fun _ => false) onNode onToken

section Moved

variable (onNode : NodeId → Span → Span) (onToken : Span → Span)

theorem Node.moved_mk (id : NodeId) (kind : NodeKind) (span : Span) (es : List Element) :
    (Node.mk id kind span es).moved onNode onToken = ⟨id, kind, onNode id span,
      Element.moveSpansOf (fun _ => false) onNode onToken es⟩ := by
  rw [Node.moved, Node.moveSpans, if_neg (by simp)]

theorem Element.moveSpansOf_eq_map (es : List Element) :
    moveSpansOf (fun _ => false) onNode onToken es =
      es.map (Element.map (·.moved onNode onToken) (·.mapSpans onToken)) := by
  induction es with
  | nil => rfl
  | cons e es ih => cases e <;> simp [moveSpansOf, Element.map, Node.moved, ih]

namespace Node

@[simp] theorem id_moved (n : Node) : (n.moved onNode onToken).id = n.id := by
  cases n
  rw [moved_mk]

@[simp] theorem kind_moved (n : Node) : (n.moved onNode onToken).kind = n.kind := by
  cases n
  rw [moved_mk]

theorem span_moved (n : Node) : (n.moved onNode onToken).span = onNode n.id n.span := by
  cases n
  rw [moved_mk]

theorem elements_moved (n : Node) : (n.moved onNode onToken).elements =
    n.elements.map (Element.map (·.moved onNode onToken) (·.mapSpans onToken)) := by
  cases n
  rw [moved_mk, Element.moveSpansOf_eq_map]

theorem skeleton_moved (n : Node) : (n.moved onNode onToken).skeleton = n.skeleton :=
  n.skeleton_moveSpans _ _ _

end Node

mutual

theorem Node.tokens_moved : ∀ n : Node,
    (n.moved onNode onToken).tokens = n.tokens.map (·.mapSpans onToken)
  | ⟨id, kind, span, es⟩ => by
    rw [Node.moved_mk, Node.tokens_mk, Node.tokens_mk, Element.tokensOf_moved es]

theorem Element.tokensOf_moved : ∀ es : List Element,
    Element.tokensOf (Element.moveSpansOf (fun _ => false) onNode onToken es) =
      (Element.tokensOf es).map (·.mapSpans onToken)
  | [] => rfl
  | .token t :: es => by
    rw [Element.moveSpansOf, Element.tokensOf_token, Element.tokensOf_token, List.map_cons,
      Element.tokensOf_moved es]
  | .node n :: es => by
    rw [Element.moveSpansOf, Element.tokensOf_node, Element.tokensOf_node, List.map_append,
      Element.tokensOf_moved es, ← Node.tokens_moved n]
    rfl

end

mutual

theorem Node.descendants_moved : ∀ n : Node,
    (n.moved onNode onToken).descendants = n.descendants.map (·.moved onNode onToken)
  | ⟨id, kind, span, es⟩ => by
    rw [Node.moved_mk, Node.descendants_mk, Node.descendants_mk, List.map_cons, Node.moved_mk,
      Element.descendantsOf_moved es]

theorem Element.descendantsOf_moved : ∀ es : List Element,
    Element.descendantsOf (Element.moveSpansOf (fun _ => false) onNode onToken es) =
      (Element.descendantsOf es).map (·.moved onNode onToken)
  | [] => rfl
  | .token t :: es => by
    rw [Element.moveSpansOf, Element.descendantsOf_token, Element.descendantsOf_token,
      Element.descendantsOf_moved es]
  | .node n :: es => by
    rw [Element.moveSpansOf, Element.descendantsOf_node, Element.descendantsOf_node,
      List.map_append, Element.descendantsOf_moved es, ← Node.descendants_moved n]
    rfl

end

theorem Node.mem_moved {m n : Node} (h : m ∈ n.descendants) :
    m.moved onNode onToken ∈ (n.moved onNode onToken).descendants := by
  rw [descendants_moved]
  exact List.mem_map_of_mem h

@[simp] theorem Node.ids_moved (n : Node) :
    (n.moved onNode onToken).descendants.map Node.id = n.descendants.map Node.id := by
  rw [Node.descendants_moved, List.map_map]
  exact List.map_congr_left fun x _ => Node.id_moved _ _ x

@[simp] theorem Element.ids_moved (es : List Element) :
    (descendantsOf (moveSpansOf (fun _ => false) onNode onToken es)).map Node.id =
      (descendantsOf es).map Node.id := by
  rw [descendantsOf_moved, List.map_map]
  exact List.map_congr_left fun x _ => Node.id_moved _ _ x

mutual

theorem Node.ahead?_moved (i : NodeId) : ∀ n : Node,
    (n.moved onNode onToken).ahead? i = (n.ahead? i).map (·.map (·.mapSpans onToken))
  | ⟨id, kind, span, es⟩ => by
    rw [Node.moved_mk, Node.ahead?, Node.ahead?, Element.aheadIn?_moved i es]
    split <;> rfl

theorem Element.aheadIn?_moved (i : NodeId) : ∀ es : List Element,
    Element.aheadIn? i (Element.moveSpansOf (fun _ => false) onNode onToken es) =
      (Element.aheadIn? i es).map (·.map (·.mapSpans onToken))
  | [] => rfl
  | .token t :: es => by
    rw [Element.moveSpansOf, Element.aheadIn?, Element.aheadIn?, Element.aheadIn?_moved i es]
    cases Element.aheadIn? i es <;> rfl
  | .node n :: es => by
    have hn : (n.moveSpans (fun _ => false) onNode onToken).ahead? i =
        (n.ahead? i).map (·.map (·.mapSpans onToken)) := Node.ahead?_moved i n
    have htokens : (n.moveSpans (fun _ => false) onNode onToken).tokens =
        n.tokens.map (·.mapSpans onToken) := n.tokens_moved onNode onToken
    rw [Element.moveSpansOf, Element.aheadIn?, Element.aheadIn?, hn, htokens,
      Element.aheadIn?_moved i es]
    cases n.ahead? i with
    | some front => rfl
    | none => cases Element.aheadIn? i es <;> simp

end

@[simp] theorem Node.render_moved (n : Node) : (n.moved onNode onToken).render = n.render := by
  rw [Node.render, Node.tokens_moved, Token.renderAll_mapSpans, Node.render]

theorem Node.listing?_moved {n : Node} {l : Listing} (h : n.Formed) (hl : n.listing? = some l) :
    (n.moved onNode onToken).listing? =
      some (l.map (·.moved onNode onToken) (·.mapSpans onToken)) :=
  Node.listing?_map h hl _ _ (n.kind_moved _ _) (n.elements_moved _ _)

end Moved

/-- The tokens of a tree that was moved and in which one node is changed. -/
theorem Node.ahead?_split_moved {m n : Node} (hnodup : (n.descendants.map Node.id).Nodup)
    (hm : m ∈ n.descendants) (onNode : NodeId → Span → Span) (onToken : Span → Span) :
    ∃ front back, n.ahead? m.id = some front ∧ n.tokens = front ++ m.tokens ++ back ∧
      ∀ f, ((n.moved onNode onToken).update m.id f).tokens =
        front.map (·.mapSpans onToken) ++ (f (m.moved onNode onToken)).tokens ++
          back.map (·.mapSpans onToken) := by
  obtain ⟨front, back, hahead, htokens, -⟩ := ahead?_split hnodup hm
  obtain ⟨front', back', hahead', htokens', hupdate⟩ :=
    ahead?_split (by rw [ids_moved]; exact hnodup) (mem_moved onNode onToken hm)
  rw [id_moved, ahead?_moved, hahead, Option.map_some] at hahead'
  obtain rfl := Option.some.inj hahead'
  rw [tokens_moved, tokens_moved, htokens] at htokens'
  have hback : back' = back.map (·.mapSpans onToken) := by simpa using htokens'.symm
  rw [hback, id_moved] at hupdate
  exact ⟨front, back, hahead, htokens, hupdate⟩

theorem Tree.root_makeRoom (id : NodeId) (r : Span) (tree : Tree) :
    ∃ onNode, (tree.makeRoom id (some r)).root = tree.root.moved onNode r.insert := ⟨_, rfl⟩

mutual

theorem Node.moved_refill (onNode : NodeId → Span → Span) (onToken : Span → Span) :
    ∀ (n : Node) (ts : List Token),
      ((n.refill ts).1.moved onNode onToken, (n.refill ts).2.map (·.mapSpans onToken)) =
        (n.moved onNode onToken).refill (ts.map (·.mapSpans onToken))
  | ⟨id, kind, span, es⟩, ts => by
    rw [Node.refill, Node.moved_mk, Node.moved_mk, Node.refill,
      ← Element.moveSpansOf_refillAll onNode onToken es ts]

theorem Element.moveSpansOf_refillAll (onNode : NodeId → Span → Span) (onToken : Span → Span) :
    ∀ (es : List Element) (ts : List Token),
      (Element.moveSpansOf (fun _ => false) onNode onToken (Element.refillAll es ts).1,
          (Element.refillAll es ts).2.map (·.mapSpans onToken)) =
        Element.refillAll (Element.moveSpansOf (fun _ => false) onNode onToken es)
          (ts.map (·.mapSpans onToken))
  | [], _ => rfl
  | .token t :: es, [] => by
    have hes := congrArg Prod.fst (Element.moveSpansOf_refillAll onNode onToken es [])
    rw [Element.refillAll, Element.moveSpansOf, Element.moveSpansOf, List.map_nil,
      Element.refillAll]
    simpa using hes
  | .token t :: es, u :: ts => by
    rw [Element.refillAll, Element.moveSpansOf, List.map_cons, Element.refillAll,
      ← Element.moveSpansOf_refillAll onNode onToken es ts]
    rfl
  | .node n :: es, ts => by
    have hn := Node.moved_refill onNode onToken n ts
    have hes := Element.moveSpansOf_refillAll onNode onToken es (n.refill ts).2
    rw [Element.moveSpansOf, Element.refillAll, Element.refillAll]
    rw [Node.moved, Node.moved] at hn
    simp only [Prod.map_fst, Prod.map_snd, Element.moveSpansOf, ← hn, ← hes]
    rfl

end

/-- A lexeme with its span moved. -/
def Lexeme.moved (f : Span → Span) (l : Lexeme) : Lexeme := { l with span := f l.span }

namespace Token

variable (f : Span → Span)

@[simp] theorem leading_mapSpans (t : Token) : (t.mapSpans f).leading = t.leading.map (·.moved f) :=
  rfl

@[simp] theorem trailing_mapSpans (t : Token) :
    (t.mapSpans f).trailing = t.trailing.map (·.moved f) := rfl

theorem mapSpans_mapSpans (g : Span → Span) (t : Token) :
    (t.mapSpans f).mapSpans g = t.mapSpans fun r => g (f r) := by
  simp [mapSpans, Function.comp_def]

/-- A token whose spans are not moved. -/
theorem mapSpans_eq_self {f : Span → Span} {t : Token} (h : ∀ l ∈ t.lexemes, f l.span = l.span) :
    t.mapSpans f = t := by
  have hall : ∀ ls : List Lexeme, (∀ l ∈ ls, f l.span = l.span) → ls.map (·.moved f) = ls := by
    intro ls hls
    exact (List.map_congr_left fun l hl => by rw [Lexeme.moved, hls l hl]).trans (List.map_id' ls)
  rw [lexemes, List.forall_mem_append, List.forall_mem_cons] at h
  obtain ⟨hleading, hcore, htrailing⟩ := h
  obtain ⟨⟨kind, text, span⟩, value, leading, trailing⟩ := t
  show (⟨⟨kind, text, f span⟩, value, leading.map (·.moved f), trailing.map (·.moved f)⟩ : Token) = _
  rw [show f span = span from hcore, hall leading hleading, hall trailing htrailing]

end Token

namespace Node

variable (onNode : NodeId → Span → Span) (onToken : Span → Span)

theorem moved_mapTokens {f g : List Token → List Token} {n : Node}
    (h : (f n.tokens).map (·.mapSpans onToken) = g (n.tokens.map (·.mapSpans onToken))) :
    (n.mapTokens f).moved onNode onToken = (n.moved onNode onToken).mapTokens g := by
  rw [mapTokens, mapTokens, tokens_moved, ← h, ← n.moved_refill onNode onToken]

theorem moved_setLeading (trivia : List Lexeme) (n : Node) :
    (n.setLeading trivia).moved onNode onToken =
      (n.moved onNode onToken).setLeading (trivia.map (·.moved onToken)) := by
  apply moved_mapTokens
  cases n.tokens <;> rfl

end Node

mutual

theorem Node.moved_moved (onNode onNode' : NodeId → Span → Span) (onToken onToken' : Span → Span) :
    ∀ n : Node, (n.moved onNode onToken).moved onNode' onToken' =
      n.moved (fun i r => onNode' i (onNode i r)) fun r => onToken' (onToken r)
  | ⟨id, kind, span, es⟩ => by
    rw [Node.moved_mk, Node.moved_mk, Node.moved_mk, Element.moveSpansOf_moveSpansOf]

theorem Element.moveSpansOf_moveSpansOf (onNode onNode' : NodeId → Span → Span)
    (onToken onToken' : Span → Span) : ∀ es : List Element,
    Element.moveSpansOf (fun _ => false) onNode' onToken'
        (Element.moveSpansOf (fun _ => false) onNode onToken es) =
      Element.moveSpansOf (fun _ => false) (fun i r => onNode' i (onNode i r))
        (fun r => onToken' (onToken r)) es
  | [] => rfl
  | .token t :: es => by
    rw [Element.moveSpansOf, Element.moveSpansOf, Element.moveSpansOf,
      Element.moveSpansOf_moveSpansOf, Token.mapSpans_mapSpans]
  | .node n :: es => by
    have hn := Node.moved_moved onNode onNode' onToken onToken' n
    rw [Node.moved, Node.moved, Node.moved] at hn
    rw [Element.moveSpansOf, Element.moveSpansOf, Element.moveSpansOf,
      Element.moveSpansOf_moveSpansOf, hn]

end

mutual

/-- A node none of whose spans is moved. -/
theorem Node.moved_eq_self {onNode : NodeId → Span → Span} {onToken : Span → Span} : ∀ {n : Node},
    (∀ x ∈ n.descendants, onNode x.id x.span = x.span) →
      (∀ t ∈ n.tokens, t.mapSpans onToken = t) → n.moved onNode onToken = n
  | ⟨id, kind, span, es⟩, hnode, htoken => by
    rw [Node.descendants_mk, List.forall_mem_cons] at hnode
    rw [Node.moved_mk, show onNode id span = span from hnode.1,
      Element.moveSpansOf_eq_self hnode.2 htoken]

theorem Element.moveSpansOf_eq_self {onNode : NodeId → Span → Span} {onToken : Span → Span} :
    ∀ {es : List Element}, (∀ x ∈ Element.descendantsOf es, onNode x.id x.span = x.span) →
      (∀ t ∈ Element.tokensOf es, t.mapSpans onToken = t) →
        Element.moveSpansOf (fun _ => false) onNode onToken es = es
  | [], _, _ => rfl
  | .token t :: es, hnode, htoken => by
    rw [Element.descendantsOf_token] at hnode
    rw [Element.tokensOf_token, List.forall_mem_cons] at htoken
    rw [Element.moveSpansOf, htoken.1, Element.moveSpansOf_eq_self hnode htoken.2]
  | .node n :: es, hnode, htoken => by
    rw [Element.descendantsOf_node, List.forall_mem_append] at hnode
    rw [Element.tokensOf_node, List.forall_mem_append] at htoken
    have hn := Node.moved_eq_self hnode.1 htoken.1
    rw [Node.moved] at hn
    rw [Element.moveSpansOf, hn, Element.moveSpansOf_eq_self hnode.2 htoken.2]

end

mutual

theorem Node.moved_update {onNode : NodeId → Span → Span} {onToken : Span → Span} {id : NodeId}
    {f g : Node → Node} (h : ∀ m, (f m).moved onNode onToken = g (m.moved onNode onToken)) :
    ∀ n : Node, (n.update id f).moved onNode onToken = (n.moved onNode onToken).update id g
  | ⟨i, kind, span, es⟩ => by
    rw [Node.moved_mk, Node.update, Node.update]
    split
    · rw [h, Node.moved_mk]
    · rw [Node.moved_mk, Element.moveSpansOf_updateAll h]

theorem Element.moveSpansOf_updateAll {onNode : NodeId → Span → Span} {onToken : Span → Span}
    {id : NodeId} {f g : Node → Node}
    (h : ∀ m, (f m).moved onNode onToken = g (m.moved onNode onToken)) : ∀ es : List Element,
    Element.moveSpansOf (fun _ => false) onNode onToken (Element.updateAll id f es) =
      Element.updateAll id g (Element.moveSpansOf (fun _ => false) onNode onToken es)
  | [] => rfl
  | .token t :: es => by
    rw [Element.updateAll, Element.moveSpansOf, Element.moveSpansOf, Element.updateAll,
      Element.moveSpansOf_updateAll h]
  | .node n :: es => by
    have hn : (n.update id f).moveSpans (fun _ => false) onNode onToken =
        (n.moveSpans (fun _ => false) onNode onToken).update id g := Node.moved_update h n
    rw [Element.updateAll, Element.moveSpansOf, Element.moveSpansOf, Element.updateAll,
      Element.moveSpansOf_updateAll h, hn]

end

theorem Node.moved_update_const (onNode : NodeId → Span → Span) (onToken : Span → Span)
    (id : NodeId) (m n : Node) : (n.update id fun _ => m).moved onNode onToken =
      (n.moved onNode onToken).update id fun _ => m.moved onNode onToken :=
  Node.moved_update (f := fun _ => m) (fun _ => rfl) n

/-- In a tree whose spans were moved, a node is changed twice. -/
theorem Node.update_const_moved {root m x : Node} (hnodup : (root.descendants.map Node.id).Nodup)
    (hm : m ∈ root.descendants) (hx : x.id = m.id) (onNode : NodeId → Span → Span)
    (onToken : Span → Span) (f : Node → Node) :
    ((root.moved onNode onToken).update m.id fun _ => x).update m.id f =
      (root.moved onNode onToken).update m.id fun _ => f x := by
  have hconst := update_const (x := x) (by rwa [ids_moved]) (mem_moved onNode onToken hm)
    (by rw [id_moved, hx]) f
  rwa [id_moved] at hconst

theorem Tree.root_closeGap (r : Span) (tree : Tree) :
    (tree.closeGap r none).root = tree.root.moved (fun _ => r.delete) r.delete := by
  rw [Tree.closeGap]
  split
  next h =>
    refine (Node.moved_eq_self (fun _ _ => Span.delete_of_isEmpty h _) fun t _ => ?_).symm
    exact Token.mapSpans_eq_self fun _ _ => Span.delete_of_isEmpty h _
  next => rfl

/-- The text of a node behind what leads it. -/
def Node.body (n : Node) : Text :=
  Token.renderAll (n.tokens.modifyHead fun t => { t with leading := [] })

namespace Node

variable {n : Node}

theorem render_eq_body (n : Node) : n.render = Lexeme.render n.leading ++ n.body := by
  rw [render, leading, body]
  cases n.tokens with
  | nil => rfl
  | cons t ts => simp [Token.renderAll, Token.render]

theorem render_setLeading (h : n.tokens ≠ []) (trivia : List Lexeme) :
    (n.setLeading trivia).render = Lexeme.render trivia ++ n.body := by
  have htokens : (n.setLeading trivia).tokens =
      n.tokens.modifyHead fun t => { t with leading := trivia } := by
    apply tokens_mapTokens
    simp
  rw [render, htokens, body]
  cases hn : n.tokens with
  | nil => exact absurd hn h
  | cons t ts => simp [Token.renderAll, Token.render]

theorem render_prependLeading (h : n.tokens ≠ []) (trivia : List Lexeme) :
    (n.prependLeading trivia).render = Lexeme.render trivia ++ n.render := by
  rw [prependLeading, render_setLeading h, n.render_eq_body]
  simp [Lexeme.render]

theorem place_eq_moved (p : Position) (n : Node) : ∃ f, n.place p = n.moved (fun _ => f) f :=
  ⟨_, rfl⟩

theorem render_place (p : Position) (n : Node) : (n.place p).render = n.render := by
  obtain ⟨f, hplace⟩ := place_eq_moved p n
  rw [hplace, render_moved]

theorem leading_moved (onNode : NodeId → Span → Span) (onToken : Span → Span) (n : Node) :
    Lexeme.render (n.moved onNode onToken).leading = Lexeme.render n.leading := by
  rw [leading, tokens_moved, leading]
  cases n.tokens with
  | nil => rfl
  | cons t ts => simp [Token.mapSpans, Lexeme.render, List.flatMap_map]

theorem body_moved (onNode : NodeId → Span → Span) (onToken : Span → Span) (n : Node) :
    (n.moved onNode onToken).body = n.body := by
  have hrender := n.render_moved onNode onToken
  rw [render_eq_body, leading_moved, n.render_eq_body] at hrender
  exact List.append_cancel_left hrender

/-- The trivia in front of the first token of a node. -/
def leadingText (n : Node) : Text := (n.tokens.head?.map Token.leadingText).getD []

/-- The trivia behind the last token of a node. -/
def trailingText (n : Node) : Text := (n.tokens.getLast?.map Token.trailingText).getD []

/-- The text of a node is what stands at its two ends and something between. -/
theorem exists_core (n : Node) : ∃ core, n.render = n.leadingText ++ core ++ n.trailingText := by
  rcases List.eq_nil_or_concat n.tokens with hnone | ⟨ts, t, hlast⟩
  · exact ⟨[], by simp [render, leadingText, trailingText, hnone]⟩
  · rw [List.concat_eq_append] at hlast
    have htrailing : n.trailingText = t.trailingText := by simp [trailingText, hlast]
    cases ts with
    | nil =>
      refine ⟨t.text, ?_⟩
      simp [htrailing, render, leadingText, hlast, Token.render, Token.leadingText,
        Token.trailingText]
    | cons first ts =>
      refine ⟨first.text ++ first.trailingText ++ Token.renderAll ts ++ t.leadingText ++ t.text, ?_⟩
      simp [htrailing, render, leadingText, hlast, Token.render, Token.leadingText,
        Token.trailingText, Token.renderAll]

end Node

end CssTree
