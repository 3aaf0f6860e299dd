import CssTree.Proofs.Edit.Orderly
import CssTree.Proofs.Tree.Moved

namespace CssTree

/-- The separator that is missing between an item of a list and one behind it. -/
def ListKind.separatorAfter (kind : ListKind) (n : Node) : Text :=
  match kind with
  | .rules => []
  | .selectors => [',']
  | .declarations => if n.needsSemicolon then [';'] else []

/-- A gap beside a node: blanks, or a copy of what leads the node. -/
def Node.HasGap (n : Node) (gap : Text) : Prop :=
  (∀ c ∈ gap, isBlank c) ∨ gap = Lexeme.render n.leading

theorem render_copyTrivia (template : List Lexeme) (p : Position) :
    Lexeme.render (copyTrivia template p) = Lexeme.render template := by
  rw [copyTrivia, Lexeme.render_placeAll, List.map_map, Lexeme.render, List.flatMap]
  rfl

theorem render_blankTrivia (t : Text) (p : Position) : Lexeme.render (blankTrivia t p) = t := by
  rw [blankTrivia]
  split
  next h => rw [List.isEmpty_iff.mp h, Lexeme.render_nil]
  next => simp [Lexeme.render, Lexeme.place]

/-- A gap of one blank character is blank. -/
theorem forall_blank_blankTrivia {c : Char} (hc : isBlank c) (p : Position) :
    ∀ x ∈ Lexeme.render (blankTrivia [c] p), isBlank x := by
  rw [render_blankTrivia]
  exact List.forall_mem_singleton.mpr hc

theorem gapBefore_gap (kind : ListKind) (target : Node) (p : Position) :
    target.HasGap (Lexeme.render (gapBefore kind target p)) := by
  unfold gapBefore
  cases kind with
  | selectors => exact Or.inl (forall_blank_blankTrivia rfl p)
  | rules =>
    dsimp only
    split
    · exact Or.inl (forall_blank_blankTrivia rfl p)
    · exact Or.inr (render_copyTrivia _ _)
  | declarations =>
    dsimp only
    split
    · exact Or.inl (forall_blank_blankTrivia rfl p)
    · exact Or.inr (render_copyTrivia _ _)

/-- Behind an item the gap is blank or a copy of what leads the item; else it is blank. -/
theorem gapAfter_gap (list : Node) (kind : ListKind) (previous : Option Node) (fragment : Node)
    (p : Position) :
    (∀ c ∈ Lexeme.render (gapAfter list kind previous fragment p), isBlank c) ∨
      ∃ n ∈ previous, Lexeme.render (gapAfter list kind previous fragment p) =
        Lexeme.render n.leading := by
  have hcopy : ∀ q, ((previous.map (·.leading)).getD []).isEmpty = false →
      ∃ n ∈ previous, Lexeme.render (copyTrivia ((previous.map (·.leading)).getD []) q) =
        Lexeme.render n.leading := by
    intro q hlead
    cases previous with
    | none => cases hlead
    | some n => exact ⟨n, rfl, render_copyTrivia _ _⟩
  have hnone : ∀ c ∈ Lexeme.render [], isBlank c := List.forall_mem_nil _
  have hspace := forall_blank_blankTrivia (c := ' ') rfl p
  have hline := forall_blank_blankTrivia (c := '\n') rfl p
  unfold gapAfter
  dsimp only
  split
  · exact Or.inl hnone
  · cases kind with
    | selectors =>
      dsimp only
      split
      · exact Or.inl hspace
      · exact Or.inl hnone
    | rules =>
      dsimp only
      split
      next h => exact Or.inr (hcopy p (by simpa using h))
      next =>
        split
        · exact Or.inl hnone
        · split
          · exact Or.inl hline
          · exact Or.inl hspace
    | declarations =>
      dsimp only
      split
      next h => exact Or.inr (hcopy p (by simpa using h))
      next => exact Or.inl hspace

namespace Node

variable {m n c : Node} {l : Listing}

/-- No other child has a child below it. -/
theorem not_mem_sibling {ns ms : List Node} (hnodup : (m.descendants.map Node.id).Nodup)
    (hchildren : m.children = ns ++ c :: ms) :
    m.id ≠ c.id ∧ (∀ n ∈ ns, c.id ∉ n.descendants.map Node.id) ∧
      ∀ n ∈ ms, c.id ∉ n.descendants.map Node.id := by
  have hself : c.id ∈ c.descendants.map Node.id := List.mem_map_of_mem c.mem_descendants_self
  rw [descendants_children, hchildren, List.flatMap_append, List.flatMap_cons, List.map_cons,
    List.nodup_cons] at hnodup
  obtain ⟨hm, hrest⟩ := hnodup
  simp only [List.map_append, List.nodup_append] at hrest
  obtain ⟨-, ⟨-, -, hback⟩, hfront⟩ := hrest
  refine ⟨fun heq => hm ?_, fun n hn hin => ?_, fun n hn hin => ?_⟩
  · rw [heq]
    simp only [List.map_append, List.mem_append]
    exact Or.inr (Or.inl hself)
  · have hmem : c.id ∈ (ns.flatMap (·.descendants)).map Node.id := by
      obtain ⟨x, hx, hid⟩ := List.mem_map.mp hin
      exact List.mem_map.mpr ⟨x, List.mem_flatMap.mpr ⟨n, hn, hx⟩, hid⟩
    exact hfront _ hmem _ (List.mem_append_left _ hself) rfl
  · have hmem : c.id ∈ (ms.flatMap (·.descendants)).map Node.id := by
      obtain ⟨x, hx, hid⟩ := List.mem_map.mp hin
      exact List.mem_map.mpr ⟨x, List.mem_flatMap.mpr ⟨n, hn, hx⟩, hid⟩
    exact hback _ hself _ hmem rfl

end Node

namespace Listing

variable {l : Listing}

/-- In a list, an item stands behind what opens the list and the items before it. -/
theorem ahead?_item {m c : Node} {front back : List (Node × Option Token)}
    {separator : Option Token} (hnodup : (m.descendants.map Node.id).Nodup)
    (helements : m.elements = l.elements)
    (hpairs : l.items.pairs = front ++ (c, separator) :: back) :
    m.ahead? c.id = some (l.opening ++ tokensOf front) := by
  have hchildren : m.children = front.map Prod.fst ++ c :: back.map Prod.fst := by
    have hnodes : m.children = l.nodes := by
      rw [← nodes_elements, ← helements]
      rfl
    rw [hnodes, nodes, Punctuated.values, hpairs]
    simp
  obtain ⟨hne, hfront, -⟩ := Node.not_mem_sibling hnodup hchildren
  let before : Listing := ⟨l.kind, l.opening, ⟨front⟩, []⟩
  have hbefore : c.id ∉ (Element.descendantsOf before.elements).map Node.id := by
    rw [Element.descendantsOf_eq, nodes_elements, nodes, Punctuated.values]
    intro hmem
    obtain ⟨x, hx, hid⟩ := List.mem_map.mp hmem
    obtain ⟨n, hn, hx⟩ := List.mem_flatMap.mp hx
    exact hfront n hn (List.mem_map.mpr ⟨x, hx, hid⟩)
  have hsplit : m.elements = before.elements ++ .node c :: (Element.ofToken? separator ++
      (back.flatMap (fun pair => .node pair.1 :: Element.ofToken? pair.2) ++
        l.closing.map .token)) := by
    rw [helements, elements, hpairs]
    simp [before, elements]
  obtain ⟨id, kind, span, es⟩ := m
  rw [Node.ahead?, if_neg hne, show es = _ from hsplit, Element.aheadIn?_append hbefore,
    Element.aheadIn?, Node.ahead?_self, tokensOf_elements]
  simp [before]

theorem renderAll_tokensOf_map {f : Node → Node} {g : Token → Token}
    {pairs : List (Node × Option Token)} (hf : ∀ pair ∈ pairs, (f pair.1).render = pair.1.render)
    (hg : ∀ t, (g t).render = t.render) :
    Token.renderAll (tokensOf (pairs.map fun pair => (f pair.1, pair.2.map g))) =
      Token.renderAll (tokensOf pairs) := by
  induction pairs with
  | nil => rfl
  | cons pair pairs ih =>
    obtain ⟨n, separator⟩ := pair
    have hn : Token.renderAll (f n).tokens = Token.renderAll n.tokens := hf (n, separator) (by simp)
    have hseparator : Token.renderAll (separator.map g).toList =
        Token.renderAll separator.toList := by
      cases separator with
      | none => rfl
      | some t => simp [Token.renderAll, hg]
    rw [List.map_cons, tokensOf_cons, tokensOf_cons, Token.renderAll_append,
      Token.renderAll_append, Token.renderAll_append, Token.renderAll_append, hn, hseparator,
      ih fun p hp => hf p (List.mem_cons_of_mem _ hp)]

theorem renderAll_map {g : Token → Token} (hg : ∀ t, (g t).render = t.render) (ts : List Token) :
    Token.renderAll (ts.map g) = Token.renderAll ts := by
  simp [Token.renderAll, List.flatMap_map, hg]

theorem ids_map {f : Node → Node} (hf : ∀ n, (f n).id = n.id) (g : Token → Token) (l : Listing) :
    (l.map f g).nodes.map Node.id = l.nodes.map Node.id := by
  simp [nodes, Punctuated.values, map, hf, Function.comp_def]

/-- An item that is inserted stands between the items before its place and those behind it. -/
theorem insert_spec (item : Node) (separator : Option Token) {m : Node} {index : Nat}
    {front back : List (Node × Option Token)} (hl : m.listing? = some l)
    (hpairs : l.items.pairs = front ++ back) (hindex : front.length = index) :
    (m.mapListing (·.insert index item separator)).render =
        Token.renderAll l.opening ++ Token.renderAll (tokensOf front) ++ item.render ++
          Token.renderAll separator.toList ++ Token.renderAll (tokensOf back) ++
            Token.renderAll l.closing ∧
      (m.mapListing (·.insert index item separator)).children.map Node.id =
        (l.nodes.map Node.id).insertIdx index item.id := by
  have hinserted : (l.insert index item separator).items.pairs =
      front ++ (item, separator) :: back := pairs_insert hpairs hindex
  have helements : (m.mapListing (·.insert index item separator)).elements =
      (l.insert index item separator).elements := by rw [Node.mapListing_of hl]
  constructor
  · rw [Node.render, ← Node.tokens_eq, helements, tokensOf_elements, hinserted]
    simp [insert, Node.render, List.append_assoc]
  · rw [Node.children, helements]
    show (Element.nodes _).map Node.id = _
    rw [nodes_elements, nodes, nodes, Punctuated.values, Punctuated.values, hinserted, hpairs,
      ← hindex]
    have hlength : front.length = ((front.map fun pair => pair.1).map Node.id).length := by simp
    simp only [List.map_append, List.map_cons]
    rw [hlength, insertIdx_length]

end Listing

namespace Node

variable {n : Node}

/-- A declaration gets the semicolon that it needs behind its last token. -/
theorem tokens_addSemicolon (h : n.Proper) (hneeds : n.needsSemicolon = true) (p : Position) :
    (n.mapDeclaration (·.addSemicolon p)).tokens = n.tokens ++ [.place .semicolon [';'] p] := by
  cases hd : n.declaration? with
  | none => simp [needsSemicolon, hd] at hneeds
  | some d =>
    have helements := h.formed.elements_declaration hd
    rw [needsSemicolon_of_declaration? hd, Declaration.needsSemicolon, Bool.and_eq_true] at hneeds
    have hsemicolon : d.semicolon = none := by simpa using hneeds.1
    have hopening : d.opening = none := by simpa [Declaration.isDisabled] using hneeds.2
    have hclosing : d.closing = none := h.comment d hd hopening
    rw [mapDeclaration_of hd, ← tokens_eq, ← n.tokens_eq, helements]
    simp [Declaration.elements, Declaration.addSemicolon, hsemicolon, hclosing]

theorem render_addSemicolon (h : n.Proper) (hneeds : n.needsSemicolon = true) (p : Position) :
    (n.mapDeclaration (·.addSemicolon p)).render = n.render ++ [';'] := by
  rw [render, tokens_addSemicolon h hneeds, Token.renderAll_append, render]
  simp [Token.renderAll, Token.render, Token.place, Token.ofLexeme, Lexeme.place]

/-- A fragment that is moved to its place, with trivia in front of it and the semicolon that it
needs. -/
theorem render_item {kind : ListKind} (h : n.Proper) (htokens : n.tokens ≠ []) (p q : Position)
    (trivia : List Lexeme) :
    (((n.place p).prependLeading trivia).closed (kind.lacksSemicolon n) q).render =
      Lexeme.render trivia ++ n.render ++ if kind.lacksSemicolon n then [';'] else [] := by
  obtain ⟨f, hplace⟩ := place_eq_moved p n
  have hskeleton : ((n.place p).prependLeading trivia).skeleton = n.skeleton := by
    rw [skeleton_prependLeading, skeleton_place]
  have hfilled : (n.place p).tokens ≠ [] := by
    rw [hplace, tokens_moved]
    simpa using htokens
  have hrender : ((n.place p).prependLeading trivia).render =
      Lexeme.render trivia ++ n.render := by
    rw [render_prependLeading hfilled, hplace, render_moved]
  rw [closed]
  split
  next hlacks =>
    rw [ListKind.lacksSemicolon, Bool.and_eq_true] at hlacks
    have hneeds := (needsSemicolon_of_skeleton h.formed hskeleton).trans hlacks.2
    rw [render_addSemicolon (h.of_skeleton hskeleton) hneeds, hrender]
  next => rw [hrender, List.append_nil]

theorem id_item (n : Node) (p q : Position) (trivia : List Lexeme) (needed : Bool) :
    (((n.place p).prependLeading trivia).closed needed q).id = n.id := by
  have hskeleton : ((n.place p).prependLeading trivia).skeleton = n.skeleton := by
    rw [skeleton_prependLeading, skeleton_place]
  rw [closed]
  split
  · rw [id_mapDeclaration, id_of_skeleton hskeleton]
  · exact id_of_skeleton hskeleton

end Node

namespace Listing

variable {l : Listing} {m c : Node} {front back : List (Node × Option Token)}
  {separator : Option Token} {index : Nat}

/-- An item of a list is changed, and another one is put in front of it. -/
theorem render_insertBefore (item : Node) (comma : Option Token) (hformed : m.Formed)
    (hnodup : (m.descendants.map Node.id).Nodup)
    (hl : m.listing? = some l) (hpairs : l.items.pairs = front ++ (c, separator) :: back)
    (hindex : front.length = index) {f : Node → Node} (hf : ∀ n, (f n).id = n.id) :
    let m' := (m.update c.id f).mapListing (·.insert index item comma)
    m'.render = Token.renderAll (l.opening ++ tokensOf front) ++ item.render ++
        Token.renderAll comma.toList ++ (f c).render ++
          Token.renderAll (separator.toList ++ tokensOf back ++ l.closing) ∧
      m'.children.map Node.id = (m.children.map Node.id).insertIdx index item.id := by
  intro m'
  have hchildren : m.children = front.map Prod.fst ++ c :: back.map Prod.fst := by
    rw [hformed.children_listing hl, nodes, Punctuated.values, hpairs]
    simp
  obtain ⟨hne, hfront, hback⟩ := Node.not_mem_sibling hnodup hchildren
  let g : Node → Node := (·.update c.id f)
  have hrest : ∀ pairs : List (Node × Option Token),
      (∀ n ∈ pairs.map Prod.fst, c.id ∉ n.descendants.map Node.id) →
        ∀ pair ∈ pairs, (g pair.1).render = pair.1.render := by
    intro pairs hpairs pair hpair
    show (pair.1.update c.id f).render = _
    rw [Node.update_of_not_mem f (hpairs _ (List.mem_map_of_mem hpair))]
  have hl' : (m.update c.id f).listing? = some (l.map g fun t => t) :=
    Node.listing?_update hformed hl hne f
  have hpairs' : (l.map g fun t => t).items.pairs =
      (front.map fun pair => (g pair.1, pair.2.map fun t => t)) ++
        (((c, separator) :: back).map fun pair => (g pair.1, pair.2.map fun t => t)) := by
    rw [← List.map_append, ← hpairs]
    rfl
  obtain ⟨hrender, hids⟩ := insert_spec item comma hl' hpairs'
    (by simpa using hindex)
  constructor
  · have hc : g c = f c := Node.update_self rfl
    rw [hrender, List.map_cons, tokensOf_cons,
      renderAll_tokensOf_map (hrest front hfront) (fun _ => rfl)]
    simp only [Token.renderAll_append]
    rw [renderAll_tokensOf_map (hrest back hback) (fun _ => rfl), hc]
    simp [map, Node.render]
  · rw [hids, ids_map (Node.id_update hf c.id), hformed.children_listing hl]

/-- The same in a list whose spans were moved, where the item in front of which the other one is put
gets a gap. -/
theorem render_moved_insertBefore (item : Node) (comma : Option Token) (hformed : m.Formed)
    (hnodup : (m.descendants.map Node.id).Nodup)
    (hl : m.listing? = some l) (hpairs : l.items.pairs = front ++ (c, separator) :: back)
    (hindex : front.length = index) (hfilled : c.tokens ≠ []) (gap : List Lexeme)
    (onNode : NodeId → Span → Span) (onToken : Span → Span) :
    let m' := ((m.moved onNode onToken).update c.id (·.setLeading gap)).mapListing
      (·.insert index item comma)
    m'.render = Token.renderAll (l.opening ++ tokensOf front) ++ item.render ++
        Token.renderAll comma.toList ++ (Lexeme.render gap ++ c.body) ++
          Token.renderAll (separator.toList ++ tokensOf back ++ l.closing) ∧
      m'.children.map Node.id = (m.children.map Node.id).insertIdx index item.id := by
  intro m'
  let σ : Node → Node := (·.moved onNode onToken)
  let τ : Token → Token := (·.mapSpans onToken)
  have hpairs' : (l.map σ τ).items.pairs = (front.map fun pair => (σ pair.1, pair.2.map τ)) ++
      (σ c, separator.map τ) :: back.map fun pair => (σ pair.1, pair.2.map τ) := by
    simp [Listing.map, hpairs]
  have hnodup' : ((σ m).descendants.map Node.id).Nodup := by
    rw [Node.descendants_moved, List.map_map]
    simpa [Function.comp_def] using hnodup
  have hset : ∀ n : Node, (n.setLeading gap).id = n.id := fun n =>
    Node.id_of_skeleton (n.skeleton_setLeading gap)
  obtain ⟨hrender, hids⟩ := render_insertBefore item comma
    (hformed.of_skeleton (m.skeleton_moved onNode onToken)) hnodup'
    (m.listing?_moved onNode onToken hformed hl) hpairs' (by simpa using hindex) hset
  have hchange : ((σ m).update (σ c).id (·.setLeading gap)).mapListing
      (·.insert index item comma) = m' := by
    simp only [m', σ, Node.id_moved]
  have hmap : ∀ pairs : List (Node × Option Token), Token.renderAll (tokensOf
      (pairs.map fun pair => (σ pair.1, pair.2.map τ))) = Token.renderAll (tokensOf pairs) :=
    fun pairs => renderAll_tokensOf_map (fun pair _ => pair.1.render_moved _ _)
      (Token.render_mapSpans _)
  have hseparator : Token.renderAll (separator.map τ).toList =
      Token.renderAll separator.toList := by
    cases separator with
    | none => rfl
    | some t => simp [Token.renderAll, τ, Token.render_mapSpans]
  have hbody : ((σ c).setLeading gap).render = Lexeme.render gap ++ c.body := by
    have hne : (σ c).tokens ≠ [] := by
      rw [Node.tokens_moved]
      simpa using hfilled
    rw [Node.render_setLeading hne, Node.body_moved]
  have hchildren : (σ m).children.map Node.id = m.children.map Node.id :=
    Node.ids_children_of_skeleton (m.skeleton_moved onNode onToken)
  rw [hchange] at hrender hids
  refine ⟨?_, by rw [hids, hchildren]⟩
  rw [hrender, hbody]
  simp only [Token.renderAll_append, hmap, hseparator]
  simp [Listing.map]

/-- A list with the same items, and with some text behind the last of them. -/
structure Extends (l : Listing) (t : Text) (l' : Listing) : Prop where
  size : l'.items.size = l.items.size
  ids : l'.nodes.map Node.id = l.nodes.map Node.id
  opening : Token.renderAll l'.opening = Token.renderAll l.opening
  items : Token.renderAll (tokensOf l'.items.pairs) = Token.renderAll (tokensOf l.items.pairs) ++ t
  closing : Token.renderAll l'.closing = Token.renderAll l.closing

theorem Extends.trans {l' l'' : Listing} {t u : Text} (h : l.Extends t l') (h' : l'.Extends u l'') :
    l.Extends (t ++ u) l'' :=
  ⟨h'.size.trans h.size, h'.ids.trans h.ids, h'.opening.trans h.opening,
    by rw [h'.items, h.items, List.append_assoc], h'.closing.trans h.closing⟩

theorem extends_moved (onNode : NodeId → Span → Span) (onToken : Span → Span) (l : Listing) :
    l.Extends [] (l.map (·.moved onNode onToken) (·.mapSpans onToken)) := by
  refine ⟨by simp [map, Punctuated.size], ids_map (Node.id_moved _ _) _ _, ?_, ?_, ?_⟩
  · exact renderAll_map (Token.render_mapSpans _) _
  · rw [List.append_nil]
    exact renderAll_tokensOf_map (fun pair _ => pair.1.render_moved _ _) (Token.render_mapSpans _)
  · exact renderAll_map (Token.render_mapSpans _) _

theorem pairs_moved (onNode : NodeId → Span → Span) (onToken : Span → Span) (l : Listing)
    (hpairs : l.items.pairs = front ++ [(c, none)]) :
    (l.map (·.moved onNode onToken) (·.mapSpans onToken)).items.pairs =
      (front.map fun pair => (pair.1.moved onNode onToken, pair.2.map (·.mapSpans onToken))) ++
        [(c.moved onNode onToken, none)] := by
  simp [map, hpairs]

theorem extends_setSeparator (hpairs : l.items.pairs = front ++ [(c, none)]) (t : Token) :
    l.Extends t.render (l.setSeparator (l.items.size - 1) (some t)) := by
  have hindex : front.length = l.items.size - 1 := by
    rw [Punctuated.size, hpairs, List.length_append, List.length_singleton]
    omega
  have hset : (l.setSeparator (l.items.size - 1) (some t)).items.pairs = front ++ [(c, some t)] :=
    pairs_setSeparator hpairs hindex
  refine ⟨size_setSeparator _ _ _, by rw [nodes_setSeparator], rfl, ?_, rfl⟩
  rw [hset, hpairs]
  simp [Token.renderAll]

theorem extends_update (hnodup : (m.descendants.map Node.id).Nodup)
    (hchildren : m.children = l.nodes) (hpairs : l.items.pairs = front ++ [(c, none)])
    {f : Node → Node} (hf : ∀ n, (f n).id = n.id) {t : Text}
    (ht : (f c).render = c.render ++ t) :
    l.Extends t (l.map (·.update c.id f) fun t => t) := by
  have hsplit : m.children = front.map Prod.fst ++ c :: [] := by
    rw [hchildren, nodes, Punctuated.values, hpairs]
    simp
  obtain ⟨-, hfront, -⟩ := Node.not_mem_sibling hnodup hsplit
  refine ⟨by simp [map, Punctuated.size], ids_map (Node.id_update hf c.id) _ _, by simp [map], ?_,
    by simp [map]⟩
  have hself : c.update c.id f = f c := Node.update_self rfl
  show Token.renderAll (tokensOf (l.items.pairs.map fun pair =>
    (pair.1.update c.id f, pair.2.map fun t => t))) = _
  rw [hpairs, List.map_append, tokensOf_append, Token.renderAll_append,
    renderAll_tokensOf_map (f := (·.update c.id f)) (fun pair hpair => by
      rw [Node.update_of_not_mem f (hfront _ (List.mem_map_of_mem hpair))]) fun _ => rfl]
  simp only [List.map_cons, List.map_nil, hself, Option.map_none, tokensOf_cons, Option.toList_none,
    List.append_nil, tokensOf_nil, tokensOf_append, Token.renderAll_append, List.append_assoc]
  exact congrArg _ ht

/-- An item that is appended stands behind the items and before what closes the list. -/
theorem Extends.append (item : Node) {l' : Listing} {t : Text} (h : l.Extends t l')
    (hl : m.listing? = some l') :
    (m.mapListing (·.insert l.items.size item none)).render =
        Token.renderAll l.opening ++ Token.renderAll (tokensOf l.items.pairs) ++ t ++ item.render ++
          Token.renderAll l.closing ∧
      (m.mapListing (·.insert l.items.size item none)).children.map Node.id =
        (l.nodes.map Node.id).insertIdx l.items.size item.id := by
  have hpairs : l'.items.pairs = l'.items.pairs ++ [] := (List.append_nil _).symm
  obtain ⟨hrender, hids⟩ := insert_spec item none hl hpairs h.size
  refine ⟨?_, by rw [hids, h.ids]⟩
  rw [hrender, h.opening, h.items, h.closing]
  simp

end Listing

namespace Tree.Sound

variable {tree : Tree} {list target fragment : Node} {listing : Listing} {loose : List Entry}
  {index : Nat}

/-- A tree with room made in it, in which one list is changed then. -/
theorem exists_moved (h : tree.Sound loose) (hlist : list ∈ tree.root.descendants) (r : Span) :
    ∃ onNode front back, (tree.makeRoom list.id (some r)).root = tree.root.moved onNode r.insert ∧
      tree.root.ahead? list.id = some front ∧
      tree.render = Token.renderAll front ++ list.render ++ Token.renderAll back ∧
      ∀ f : Node → Node, (∀ m, (f m).id = m.id) →
        ((tree.root.moved onNode r.insert).update list.id f).render = Token.renderAll front ++
          (f (list.moved onNode r.insert)).render ++ Token.renderAll back ∧
        ((tree.root.moved onNode r.insert).update list.id f).find? list.id =
          some (f (list.moved onNode r.insert)) := by
  obtain ⟨onNode, hroot⟩ := tree.root_makeRoom list.id r
  obtain ⟨front, back, hahead, htokens, -⟩ := Node.ahead?_split h.nodup hlist
  have hmoved : (tree.makeRoom list.id (some r)).Sound loose := h.alike (.makeRoom _ _ _)
  have hmem : list.moved onNode r.insert ∈ (tree.makeRoom list.id (some r)).root.descendants := by
    rw [hroot]
    exact Node.mem_moved _ _ hlist
  refine ⟨onNode, front, back, hroot, hahead, ?_, fun f hf => ⟨?_, ?_⟩⟩
  · rw [Tree.render, Node.render, htokens]
    simp [Node.render]
  · obtain ⟨front', back', hahead', htokens', hupdate⟩ := Node.ahead?_split hmoved.nodup hmem
    rw [Node.id_moved, hroot] at hahead' hupdate
    rw [hroot, Node.tokens_moved, Node.tokens_moved, htokens] at htokens'
    rw [Node.ahead?_moved, hahead, Option.map_some] at hahead'
    obtain rfl := Option.some.inj hahead'
    have hback : back' = back.map (·.mapSpans r.insert) := by simpa using htokens'.symm
    rw [Node.render, hupdate, hback]
    simp [Node.render]
  · have hfind := hmoved.find?_of_mem hmem
    rw [Node.id_moved, Tree.find?, hroot] at hfind
    rw [Node.find?_update list.id hf, hfind, Option.map_some]

/-- In front of an item: the new item takes over what leads the old one, which gets a gap. -/
theorem splicedBefore (h : tree.Sound loose) (hlist : list ∈ tree.root.descendants)
    (hlisting : list.listing? = some listing) (htarget : listing.items.get? index = some target)
    (hfilled : target.tokens ≠ []) (hproper : fragment.Proper) (htokens : fragment.tokens ≠ []) :
    let tree' := tree.insertedBefore list listing.kind index target fragment
    ∃ front gap back, tree.root.ahead? target.id = some front ∧ target.HasGap gap ∧
      tree.render = Token.renderAll front ++ Lexeme.render target.leading ++ back ∧
      tree'.render = Token.renderAll front ++ Lexeme.render target.leading ++
        (fragment.render ++ listing.kind.separatorAfter fragment ++ gap) ++ back ∧
      ∃ list', tree'.find? list.id = some list' ∧
        list'.children.map Node.id = (list.children.map Node.id).insertIdx index fragment.id := by
  unfold Tree.insertedBefore
  extract_lets start lacksSemicolon text separatorAt gap moved lead item comma tree'
  have hformed := h.formed list hlist
  have helements := hformed.elements_listing hlisting
  obtain ⟨front, separator, back, hpairs, hindex⟩ := Listing.exists_item htarget
  have hnodup := Node.nodup_below h.nodup hlist
  have hmem := Node.mem_descendants_child
    (List.mem_of_getElem? ((hformed.getElem?_children hlisting index).trans htarget))
  obtain ⟨onNode, before, after, hroot, hahead, hrender, hresult⟩ := h.exists_moved hlist
    (.ofText start (fragment.render ++ text ++ Lexeme.render gap))
  have hmoved : moved.Sound loose := h.alike (.makeRoom _ _ _)
  obtain ⟨hlisttext, hids⟩ := Listing.render_moved_insertBefore item comma
    hformed hnodup hlisting hpairs hindex hfilled gap onNode
    (Span.ofText start (fragment.render ++ text ++ Lexeme.render gap)).insert
  have hset : ∀ n : Node, (n.setLeading gap).id = n.id := fun n =>
    Node.id_of_skeleton (n.skeleton_setLeading gap)
  have hin : ∀ n ∈ tree.root.descendants, n.moved onNode
      (Span.ofText start (fragment.render ++ text ++ Lexeme.render gap)).insert ∈
        moved.root.descendants := by
    intro n hn
    rw [hroot]
    exact Node.mem_moved _ _ hn
  -- Both changes are changes of the list.
  have hroot' : tree'.root = moved.root.update list.id fun m =>
      (m.update target.id (·.setLeading gap)).mapListing (·.insert index item comma) := by
    have hwithin := Node.update_within target.id (·.setLeading gap) hmoved.nodup
      (hin list hlist) (by
        rw [Node.descendants_moved]
        exact List.mem_map.mpr ⟨_, List.mem_map_of_mem hmem, Node.id_moved _ _ _⟩)
    show (moved.root.update target.id (·.setLeading gap)).update list.id
      (·.mapListing (·.insert index item comma)) = _
    rw [hwithin, Node.id_moved, Node.update_update (Node.id_update hset _)]
  obtain ⟨htext, hfind⟩ := hresult (fun m =>
    (m.update target.id (·.setLeading gap)).mapListing (·.insert index item comma))
    fun m => by rw [Node.id_mapListing, Node.id_update hset]
  have hlead : Lexeme.render lead = Lexeme.render target.leading := by
    have hfound := hmoved.find?_of_mem (hin target (Node.mem_descendants_trans hlist hmem))
    rw [Node.id_moved] at hfound
    simp only [lead, hfound]
    exact target.leading_moved _ _
  have hitem : item.render = Lexeme.render target.leading ++ fragment.render ++
      if lacksSemicolon then [';'] else [] := by
    rw [← hlead]
    exact Node.render_item hproper htokens start separatorAt lead
  have hafter : (if lacksSemicolon then [';'] else []) ++ Token.renderAll comma.toList =
      listing.kind.separatorAfter fragment := by
    simp only [lacksSemicolon, comma, ListKind.lacksSemicolon, ListKind.separatorAfter]
    cases listing.kind <;>
      simp [Token.renderAll, Token.render, Token.place, Token.ofLexeme, Lexeme.place]
  refine ⟨before ++ (listing.opening ++ Listing.tokensOf front), Lexeme.render gap,
    target.body ++ Token.renderAll (separator.toList ++ Listing.tokensOf back ++ listing.closing) ++
      Token.renderAll after, ?_, gapBefore_gap _ _ _, ?_, ?_, ?_⟩
  · exact Node.ahead?_trans h.nodup hlist hahead (Listing.ahead?_item hnodup helements hpairs)
  · have hlist' : list.render = Token.renderAll (listing.opening ++ Listing.tokensOf front) ++
        target.render ++
          Token.renderAll (separator.toList ++ Listing.tokensOf back ++ listing.closing) := by
      rw [Node.render, ← Node.tokens_eq, helements, Listing.tokensOf_elements, hpairs]
      simp [Node.render]
    rw [hrender, hlist', target.render_eq_body]
    simp
  · rw [Tree.render, hroot', hroot, htext, hlisttext, hitem, ← hafter]
    simp
  · refine ⟨_, by rw [Tree.find?, hroot', hroot, hfind], ?_⟩
    rw [hids, Node.id_item]

/-- The last item of a list has no separator behind it. -/
theorem exists_last (h : tree.Sound loose) (hlist : list ∈ tree.root.descendants)
    (hlisting : list.listing? = some listing) {c : Node} (hlast : listing.items.last? = some c) :
    ∃ front, listing.items.pairs = front ++ [(c, none)] := by
  have hends := (h.formed list hlist).endsSeparated_listing hlisting
  obtain ⟨⟨n, separator⟩, hpair, rfl⟩ := Option.map_eq_some_iff.mp hlast
  obtain ⟨front, hpairs⟩ := List.getLast?_eq_some_iff.mp hpair
  obtain rfl : separator = none := Punctuated.endsSeparated_eq_false.mp hends _ hpair
  exact ⟨front, hpairs⟩

/-- What is changed in a list that has made room, for its last item to have the separator that it
lacks. -/
def Separates (tree : Tree) (list : Node) (listing : Listing) (r : Span) (f : Node → Node) : Prop :=
  (∀ m, (f m).id = m.id) ∧
    ((tree.makeRoom list.id (some r)).separatedLast list listing).root =
      (tree.makeRoom list.id (some r)).root.update list.id f ∧
    ∀ onNode, (tree.makeRoom list.id (some r)).root = tree.root.moved onNode r.insert →
      ∃ l, (f (list.moved onNode r.insert)).listing? = some l ∧
        listing.Extends ((listing.items.last?.map listing.kind.separatorAfter).getD []) l

section Separated

variable {c : Node}

/-- The last selector gets a comma. -/
theorem exists_comma (h : tree.Sound loose) (hlist : list ∈ tree.root.descendants)
    (hlisting : list.listing? = some listing) (hlast : listing.items.last? = some c)
    (hkind : listing.kind = .selectors) (r : Span) : ∃ f, Separates tree list listing r f := by
  have hformed := h.formed list hlist
  have hmoved (onNode : NodeId → Span → Span) := list.listing?_moved onNode r.insert hformed hlisting
  obtain ⟨front, hpairs⟩ := h.exists_last hlist hlisting hlast
  have hcomma : listing.lacksComma = true := by
    simp [Listing.lacksComma, hlast, hkind, Punctuated.endsSeparated, hpairs]
  unfold Separates Tree.separatedLast
  rw [if_pos hcomma]
  refine ⟨_, fun m => Node.id_mapListing _ m, rfl, fun onNode _ => ?_⟩
  rw [Node.mapListing_of (hmoved onNode)]
  obtain ⟨kind, opening, hshape, hl, -, -⟩ := hformed.of_listing? hlisting
  have hshape' : (list.moved onNode r.insert).kind.listShape? = some (kind, opening) := by
    rwa [Node.kind_moved]
  refine ⟨_, Node.listing?_relist hshape' ((hl.map _ _).setSeparator (fun hne => ?_) _), ?_⟩
  · exact absurd (hl.kind.symm.trans hkind) hne
  · have hextends := (listing.extends_moved onNode r.insert).trans (Listing.extends_setSeparator
      (listing.pairs_moved onNode r.insert hpairs) (.place .comma [','] (listing.appendAt list)))
    simpa [Listing.map, Punctuated.size, hlast, hkind, ListKind.separatorAfter, Token.render,
      Token.place, Token.ofLexeme, Lexeme.place] using hextends

/-- The last declaration gets a semicolon. -/
theorem exists_semicolon (h : tree.Sound loose) (hproper : ∀ x ∈ tree.root.descendants, x.Proper)
    (hlist : list ∈ tree.root.descendants) (hlisting : list.listing? = some listing)
    (hlast : listing.items.last? = some c) (hcomma : listing.lacksComma = false)
    (hlacks : listing.lacksSemicolon = true) (r : Span) : ∃ f, Separates tree list listing r f := by
  have hformed := h.formed list hlist
  have hmoved (onNode : NodeId → Span → Span) := list.listing?_moved onNode r.insert hformed hlisting
  obtain ⟨front, hpairs⟩ := h.exists_last hlist hlisting hlast
  have hmem := Node.mem_descendants_child (hformed.mem_children_last? hlisting hlast)
  unfold Separates Tree.separatedLast
  rw [if_neg (by simp [hcomma]), hlast]
  dsimp only
  rw [if_pos hlacks]
  rw [Listing.lacksSemicolon, hlast, Option.any_some, ListKind.lacksSemicolon,
    Bool.and_eq_true] at hlacks
  have hdeclarations : listing.kind = .declarations := by simpa using hlacks.1
  have hsound : (tree.makeRoom list.id (some r)).Sound loose := h.alike (.makeRoom _ _ _)
  let f : Node → Node := (·.mapDeclaration (·.addSemicolon (listing.appendAt list)))
  have hf : ∀ n, (f n).id = n.id := Node.id_mapDeclaration _
  refine ⟨(·.update c.id f), Node.id_update hf c.id, ?_, fun onNode hroot => ?_⟩
  · obtain ⟨onNode, hroot⟩ := tree.root_makeRoom list.id r
    have hin : list.moved onNode r.insert ∈
        (tree.makeRoom list.id (some r)).root.descendants := by
      rw [hroot]
      exact Node.mem_moved _ _ hlist
    have hwithin := Node.update_within c.id f hsound.nodup hin (by
      rw [Node.descendants_moved]
      exact List.mem_map.mpr ⟨_, List.mem_map_of_mem hmem, Node.id_moved _ _ _⟩)
    rwa [Node.id_moved] at hwithin
  · have hnodup : ((list.moved onNode r.insert).descendants.map Node.id).Nodup := by
      rw [Node.descendants_moved, List.map_map]
      simpa [Function.comp_def] using Node.nodup_below h.nodup hlist
    have hformed' := hformed.of_skeleton (list.skeleton_moved onNode r.insert)
    have hchildren := hformed'.children_listing (hmoved onNode)
    have hpairs' := listing.pairs_moved onNode r.insert hpairs
    have hskeleton := c.skeleton_moved onNode r.insert
    have hc := hproper c (Node.mem_descendants_trans hlist hmem)
    have hsemicolon : (f (c.moved onNode r.insert)).render =
        (c.moved onNode r.insert).render ++ [';'] :=
      Node.render_addSemicolon (hc.of_skeleton hskeleton)
        ((Node.needsSemicolon_of_skeleton hc.formed hskeleton).trans hlacks.2) _
    have hupdate := (listing.extends_moved onNode r.insert).trans
      (Listing.extends_update hnodup hchildren hpairs' hf hsemicolon)
    rw [Node.id_moved] at hupdate
    have hne : (list.moved onNode r.insert).id ≠ c.id := by
      rw [Listing.nodes, Punctuated.values, hpairs', List.map_append] at hchildren
      simpa using (Node.not_mem_sibling hnodup hchildren).1
    refine ⟨_, Node.listing?_update hformed' (hmoved onNode) hne f, ?_⟩
    simpa [hdeclarations, ListKind.separatorAfter, hlacks.2] using hupdate

/-- Nothing is changed where no separator is lacking. -/
theorem separates_id (h : tree.Sound loose) (hlist : list ∈ tree.root.descendants)
    (hlisting : list.listing? = some listing) (hcomma : listing.lacksComma = false)
    (hlacks : listing.lacksSemicolon = false)
    (hnone : (listing.items.last?.map listing.kind.separatorAfter).getD [] = []) (r : Span) :
    Separates tree list listing r fun m => m := by
  refine ⟨fun _ => rfl, ?_, fun onNode _ =>
    ⟨_, list.listing?_moved onNode r.insert (h.formed list hlist) hlisting, ?_⟩⟩
  · unfold Tree.separatedLast
    rw [if_neg (by simp [hcomma])]
    cases listing.items.last? <;> simp [hlacks, Node.update_id]
  · rw [hnone]
    exact listing.extends_moved onNode r.insert

/-- The last item of a list gets the separator that it lacks. -/
theorem exists_separated (h : tree.Sound loose) (hproper : ∀ x ∈ tree.root.descendants, x.Proper)
    (hlist : list ∈ tree.root.descendants) (hlisting : list.listing? = some listing) (r : Span) :
    ∃ f, Separates tree list listing r f := by
  cases hlast : listing.items.last? with
  | none =>
    refine ⟨_, h.separates_id hlist hlisting ?_ ?_ (by simp [hlast]) r⟩
    · simp [Listing.lacksComma, hlast]
    · simp [Listing.lacksSemicolon, hlast]
  | some c =>
    by_cases hkind : listing.kind = .selectors
    · exact h.exists_comma hlist hlisting hlast hkind r
    · have hcomma : listing.lacksComma = false := by simp [Listing.lacksComma, hkind]
      cases hlacks : listing.lacksSemicolon with
      | true => exact h.exists_semicolon hproper hlist hlisting hlast hcomma hlacks r
      | false =>
        refine ⟨_, h.separates_id hlist hlisting hcomma hlacks ?_ r⟩
        simp only [Listing.lacksSemicolon, hlast, Option.any_some, ListKind.lacksSemicolon] at hlacks
        rw [hlast]
        cases hk : listing.kind <;> simp_all [ListKind.separatorAfter]

end Separated

/-- Behind the last item of a list, or behind what opens a list without items. -/
theorem splicedAfter (h : tree.Sound loose) (hproper : ∀ x ∈ tree.root.descendants, x.Proper)
    (hlist : list ∈ tree.root.descendants) (hlisting : list.listing? = some listing)
    (hfragment : fragment.Proper) (htokens : fragment.tokens ≠ []) :
    let tree' := tree.insertedAfter list listing fragment
    let gapAt := (listing.appendAt list).advance listing.missing
    let gap := Lexeme.render (gapAfter list listing.kind listing.items.last? fragment gapAt)
    ∃ front back, (match listing.items.last? with
        | some n => ∃ before, tree.root.ahead? n.id = some before ∧
          front = Token.renderAll before ++ n.render ∧ n.HasGap gap
        | none => ∃ before, tree.root.ahead? list.id = some before ∧
          front = Token.renderAll before ++ Token.renderAll listing.opening ∧
          ∀ c ∈ gap, isBlank c) ∧
      tree.render = front ++ back ∧
      tree'.render = front ++ ((listing.items.last?.map listing.kind.separatorAfter).getD [] ++ gap ++
        fragment.render ++ if listing.kind.lacksSemicolon fragment then [';'] else []) ++ back ∧
      ∃ list', tree'.find? list.id = some list' ∧ list'.children.map Node.id =
        (list.children.map Node.id).insertIdx listing.items.size fragment.id := by
  unfold Tree.insertedAfter
  extract_lets start gapAt gap fragmentAt lacksSemicolon ending moved item tree' gapAt' gap'
  have hformed := h.formed list hlist
  have helements := hformed.elements_listing hlisting
  obtain ⟨onNode, before, after, hroot, hahead, hrender, hresult⟩ := h.exists_moved hlist
    (.ofText start (listing.missing ++ Lexeme.render gap ++ fragment.render ++ ending))
  obtain ⟨f, hf, hseparated, hlist'⟩ := h.exists_separated hproper hlist hlisting
    (.ofText start (listing.missing ++ Lexeme.render gap ++ fragment.render ++ ending))
  obtain ⟨l, hl, hextends⟩ := hlist' onNode hroot
  obtain ⟨hlisttext, hids⟩ := hextends.append item hl
  have hroot' : tree'.root = moved.root.update list.id fun m =>
      (f m).mapListing (·.insert listing.items.size item none) := by
    show ((moved.separatedLast list listing).root.update list.id
      (·.mapListing (·.insert listing.items.size item none))) = _
    rw [hseparated, Node.update_update hf]
  obtain ⟨htext, hfind⟩ := hresult (fun m =>
    (f m).mapListing (·.insert listing.items.size item none))
    fun m => by rw [Node.id_mapListing, hf]
  have hitem : item.render = Lexeme.render gap ++ fragment.render ++
      if lacksSemicolon then [';'] else [] :=
    Node.render_item hfragment htokens _ _ gap
  have hgap : (∀ c ∈ Lexeme.render gap, isBlank c) ∨
      ∃ n ∈ listing.items.last?, Lexeme.render gap = Lexeme.render n.leading :=
    gapAfter_gap _ _ _ _ _
  refine ⟨Token.renderAll before ++ Token.renderAll listing.opening ++
    Token.renderAll (Listing.tokensOf listing.items.pairs),
    Token.renderAll listing.closing ++ Token.renderAll after, ?_, ?_, ?_, ?_⟩
  · cases hlast : listing.items.last? with
    | none =>
      have hpairs : listing.items.pairs = [] := by
        simpa [Punctuated.last?] using hlast
      rw [hlast] at hgap
      exact ⟨before, hahead, by simp [hpairs, Token.renderAll], by simpa using hgap⟩
    | some n =>
      obtain ⟨front, hpairs⟩ := h.exists_last hlist hlisting hlast
      have hnodup := Node.nodup_below h.nodup hlist
      rw [hlast] at hgap
      refine ⟨before ++ (listing.opening ++ Listing.tokensOf front), ?_, ?_, ?_⟩
      · exact Node.ahead?_trans h.nodup hlist hahead
          (Listing.ahead?_item hnodup helements hpairs)
      · simp [hpairs, Node.render]
      · simpa [Node.HasGap] using hgap
  · have hlisttext' : list.render = Token.renderAll listing.opening ++
        Token.renderAll (Listing.tokensOf listing.items.pairs) ++
          Token.renderAll listing.closing := by
      rw [Node.render, ← Node.tokens_eq, helements, Listing.tokensOf_elements]
      simp
    rw [hrender, hlisttext']
    simp
  · rw [Tree.render, hroot', hroot, htext, hlisttext, hitem]
    simp [lacksSemicolon, gap', gapAt', gap, gapAt, start]
  · refine ⟨_, by rw [Tree.find?, hroot', hroot, hfind], ?_⟩
    rw [hids, Node.id_item, hformed.children_listing hlisting]

end Tree.Sound

end CssTree
