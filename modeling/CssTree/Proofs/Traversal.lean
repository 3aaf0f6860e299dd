import CssTree.Proofs.Session
import CssTree.Proofs.Token.Fold
import CssTree.Tree.Walk

namespace CssTree

namespace Token

/-- A token that stands between others in a text without its ends. -/
theorem flatMap_zipIdx_inner {last : Nat} : ∀ (ts : List Token) {k : Nat}, 0 < k →
    k + ts.length ≤ last →
    ((ts.zipIdx k).flatMap fun (t, i) =>
      (if 0 < i then t.leadingText else []) ++ t.text ++ if i < last then t.trailingText else []) =
      renderAll ts
  | [], _, _, _ => rfl
  | t :: ts, k, hk, hlast => by
    rw [List.length_cons] at hlast
    have hafter : k + 1 + ts.length ≤ last := by omega
    have hrest := flatMap_zipIdx_inner ts (Nat.succ_pos k) hafter
    have hinner : k < last := by omega
    rw [List.zipIdx_cons, List.flatMap_cons, hrest]
    dsimp only
    rw [if_pos hk, if_pos hinner]
    rfl

/-- Leaving out the trivia at the ends by the places of the tokens is taking it off the first token
and the last. -/
theorem renderTrimmed_eq (ts : List Token) : renderTrimmed ts = renderAll (stripEnds ts) := by
  cases ts with
  | nil => rfl
  | cons t us =>
    rcases List.eq_nil_or_concat us with rfl | ⟨ms, u, rfl⟩
    · simp [renderTrimmed, stripEnds, mapLast, renderAll, render]
    · have hstrip : stripEnds (t :: ms ++ [u]) =
          { t with leading := [] } :: ms ++ [{ u with trailing := [] }] :=
        mapLast_concat (fun t : Token => { t with trailing := [] })
          ({ t with leading := [] } :: ms) u
      have hlast : (t :: (ms ++ [u])).length - 1 = ms.length + 1 := by simp
      have hinner := flatMap_zipIdx_inner ms Nat.one_pos (Nat.add_comm 1 _).le
      rw [List.concat_eq_append, ← List.cons_append, hstrip, List.cons_append, renderTrimmed,
        hlast, List.zipIdx_cons, List.zipIdx_append, List.flatMap_cons, List.flatMap_append,
        Nat.zero_add, hinner]
      simp [renderAll, render, leadingText, trailingText, Nat.add_comm 1]

/-- The text of tokens is that without its ends between what leads the first token and what trails
the last. -/
theorem renderAll_stripEnds {ts : List Token} (h : ts ≠ []) :
    renderAll ts = (ts.headD default).leadingText ++ renderAll (stripEnds ts) ++
      (ts.getLastD default).trailingText := by
  rw [← render_lexemesOf, (lexemesOf_stripEnds h).1, Lexeme.render_append, Lexeme.render_append,
    render_lexemesOf]
  rfl

end Token

mutual

/-- A count of the nodes is as long as the list of them. -/
theorem Node.count_eq : ∀ n : Node, n.count = n.descendants.length
  | ⟨_, _, _, es⟩ => Element.counts_eq es

theorem Element.counts_eq : ∀ es : List Element,
    (Element.walkAll (fun _ => none) (fun _ counts => counts.foldr (· + ·) 1) es).foldr
      (· + ·) 1 = (Element.descendantsOf es).length + 1
  | [] => rfl
  | .token _ :: es => Element.counts_eq es
  | .node n :: es => by
    rw [Element.walkAll, List.foldr_cons, Element.counts_eq es, Element.descendantsOf_node,
      List.length_append, Nat.add_assoc]
    exact congrArg (· + _) n.count_eq

end

namespace Tree

variable {tree : Tree} {n : Node} {es : List Element} {σ α β : Type}

namespace Linked

theorem find?_eq (h : tree.Linked) (hn : n ∈ tree.root.descendants) : tree.find? n.id = some n :=
  Node.find?_of_mem h.nodup hn

theorem contains_eq (h : tree.Linked) (hn : n ∈ tree.root.descendants) :
    tree.contains n.id = true := (h.mem_iff n.id).mpr (List.mem_map_of_mem hn)

theorem elements_eq (h : tree.Linked) (hn : n ∈ tree.root.descendants) :
    tree.elements n.id = n.elements := by
  rw [elements, h.find?_eq hn]
  rfl

theorem children_eq (h : tree.Linked) (hn : n ∈ tree.root.descendants) :
    tree.children n.id = n.children.map Node.id := by
  rw [children, h.elements_eq hn]
  rfl

theorem contains_eq_false (h : tree.Linked) {id : NodeId} (hid : tree.find? id = none) :
    tree.contains id = false := by
  rw [← Bool.not_eq_true, h.mem_iff]
  rintro hmem
  obtain ⟨m, hm, rfl⟩ := List.mem_map.mp hmem
  rw [h.find?_eq hm] at hid
  cases hid

/-- No node has more nodes below it than the tree has. -/
theorem length_le (h : tree.Linked) (hn : n ∈ tree.root.descendants) :
    n.descendants.length ≤ tree.root.descendants.length :=
  (List.subperm_of_subset (Node.nodup_below h.nodup hn).of_map fun _ hm =>
    Node.mem_descendants_trans hn hm).length_le

end Linked

mutual

theorem descendantsFrom_node (h : tree.Linked) : ∀ n : Node, n.descendants ⊆ tree.root.descendants →
    ∀ fuel out stack, tree.descendantsFrom (n.descendants.length + fuel) out (n.id :: stack) =
      tree.descendantsFrom fuel (out ++ n.descendants.map Node.id) stack
  | ⟨id, kind, span, es⟩, hn, fuel, out, stack => by
    have hself := hn (Node.mem_descendants_self _)
    have hbelow := descendantsFrom_elements h es fun _ hm => hn (List.mem_cons_of_mem _ hm)
    have hlength : (Node.mk id kind span es).descendants.length + fuel =
        (Element.descendantsOf es).length + fuel + 1 := by
      rw [Node.descendants_mk, List.length_cons]
      omega
    -- Put on the stack from the last one on, the children stand on it in their order.
    rw [hlength, descendantsFrom, if_pos (h.contains_eq hself), h.children_eq hself,
      List.foldl_reverse, List.foldr_cons_eq_append', Node.children, hbelow, List.append_assoc]
    rfl

theorem descendantsFrom_elements (h : tree.Linked) : ∀ es : List Element,
    Element.descendantsOf es ⊆ tree.root.descendants →
    ∀ fuel out stack, tree.descendantsFrom ((Element.descendantsOf es).length + fuel) out
        ((es.filterMap Element.node?).map Node.id ++ stack) =
      tree.descendantsFrom fuel (out ++ (Element.descendantsOf es).map Node.id) stack
  | [], _, fuel, _, _ => by simp
  | .token _ :: es, hes, fuel, out, stack => descendantsFrom_elements h es hes fuel out stack
  | .node n :: es, hes, fuel, out, stack => by
    rw [Element.descendantsOf_node] at hes
    have hnode := descendantsFrom_node h n fun _ hm => hes (List.mem_append_left _ hm)
    have hrest := descendantsFrom_elements h es fun _ hm => hes (List.mem_append_right _ hm)
    rw [Element.descendantsOf_node, List.map_append, ← List.append_assoc, ← hrest, ← hnode,
      List.length_append, Nat.add_assoc]
    rfl

end

mutual

theorem writeFrom_node (h : tree.Linked) (write : β → Token → β) : ∀ n : Node,
    n.descendants ⊆ tree.root.descendants → ∀ {fuel}, n.descendants.length ≤ fuel → ∀ out,
    tree.writeFrom write fuel out n.id = some (n.tokens.foldl write out)
  | ⟨id, kind, span, es⟩, hn, fuel + 1, hfuel, out => by
    rw [writeFrom, h.elements_eq (hn (Node.mem_descendants_self _))]
    exact writeAll_elements h write es (fun _ hm => hn (List.mem_cons_of_mem _ hm))
      (Nat.le_of_succ_le_succ hfuel) out

theorem writeAll_elements (h : tree.Linked) (write : β → Token → β) : ∀ es : List Element,
    Element.descendantsOf es ⊆ tree.root.descendants →
    ∀ {fuel}, (Element.descendantsOf es).length ≤ fuel → ∀ out,
    es.foldlM
      (fun out e =>
        match e with
        | .token t => some (write out t)
        | .node n => tree.writeFrom write fuel out n.id)
      out = some ((Element.tokensOf es).foldl write out)
  | [], _, _, _, _ => rfl
  | .token t :: es, hes, _, hfuel, out => writeAll_elements h write es hes hfuel (write out t)
  | .node n :: es, hes, _, hfuel, out => by
    rw [Element.descendantsOf_node] at hes hfuel
    rw [List.length_append] at hfuel
    have hnode := writeFrom_node h write n (fun _ hm => hes (List.mem_append_left _ hm))
      (Nat.le_of_add_right_le hfuel) out
    have hrest := writeAll_elements h write es (fun _ hm => hes (List.mem_append_right _ hm))
      (Nat.le_of_add_left_le hfuel)
    rw [List.foldlM_cons]
    dsimp only
    rw [hnode, Option.bind_eq_bind, Option.bind_some, hrest, Element.tokensOf_node,
      List.foldl_append]

end

mutual

theorem walk_node (h : tree.Linked) (note : Node → σ → σ) (combine : NodeKind → List α → α) :
    ∀ n : Node, n.descendants ⊆ tree.root.descendants →
    ∀ {fuel}, n.descendants.length ≤ fuel → ∀ s,
    (tree.walk (.descending note combine) fuel n.id).run s =
      some (some (n.walk (fun _ => none) combine), n.descendants.foldl (fun s m => note m s) s)
  | ⟨id, kind, span, es⟩, hn, fuel + 1, hfuel, s => by
    have hself := hn (Node.mem_descendants_self _)
    have hbelow := walkAll_elements h note combine es (fun _ hm => hn (List.mem_cons_of_mem _ hm))
      (Nat.le_of_succ_le_succ hfuel)
    rw [walk, h.find?_eq hself]
    show (((tree.children id).filterMapM (tree.walk _ fuel)).run (note _ s)).bind
      (fun r => some (some (combine kind r.1), r.2)) = _
    rw [h.children_eq hself, Node.children, hbelow]
    rfl

theorem walkAll_elements (h : tree.Linked) (note : Node → σ → σ)
    (combine : NodeKind → List α → α) : ∀ es : List Element,
    Element.descendantsOf es ⊆ tree.root.descendants →
    ∀ {fuel}, (Element.descendantsOf es).length ≤ fuel → ∀ s,
    (((es.filterMap Element.node?).map Node.id).filterMapM
        (tree.walk (.descending note combine) fuel)).run s =
      some (Element.walkAll (fun _ => none) combine es,
        (Element.descendantsOf es).foldl (fun s m => note m s) s)
  | [], _, _, _, _ => rfl
  | .token _ :: es, hes, _, hfuel, s => walkAll_elements h note combine es hes hfuel s
  | .node n :: es, hes, fuel, hfuel, s => by
    rw [Element.descendantsOf_node] at hes hfuel
    rw [List.length_append] at hfuel
    have hnode := walk_node h note combine n (fun _ hm => hes (List.mem_append_left _ hm))
      (Nat.le_of_add_right_le hfuel) s
    have hrest := walkAll_elements h note combine es
      (fun _ hm => hes (List.mem_append_right _ hm)) (Nat.le_of_add_left_le hfuel)
    have hids : ((.node n :: es).filterMap Element.node?).map Node.id =
        n.id :: (es.filterMap Element.node?).map Node.id := rfl
    rw [hids, List.filterMapM_cons, StateT.run_bind, hnode]
    show ((List.filterMapM (tree.walk _ fuel) _).run
      (n.descendants.foldl (fun s m => note m s) s)).bind
      (fun r => some (n.walk (fun _ => none) combine :: r.1, r.2)) = _
    rw [hrest, Element.descendantsOf_node, List.foldl_append]
    rfl

end

/-- What the ways through a tree come to from one of its nodes, with fuel for `fuel` nodes. -/
structure Traversed (tree : Tree) (fuel : Nat) (n : Node) : Prop where
  /-- The stack gives the nodes in the order of the recursion over the elements. -/
  descendants : tree.descendants fuel n.id = some (n.descendants.map Node.id)
  nodup : (n.descendants.map Node.id).Nodup
  /-- A visitor that goes on to all children is handed the nodes in that order. -/
  walk : ∀ {σ α : Type} (note : Node → σ → σ) (combine : NodeKind → List α → α) (s : σ),
    (tree.walk (.descending note combine) fuel n.id).run s =
      some (some (n.walk (fun _ => none) combine), n.descendants.foldl (fun s m => note m s) s)
  count : (tree.walk .counting fuel n.id).run () = some (some n.descendants.length, ())
  tokens : tree.tokens fuel n.id = some n.tokens
  text : tree.text fuel n.id = some (some (Token.renderAll n.tokens))
  trimmedText : tree.trimmedText fuel n.id = some n.trimmedText
  /-- The text is the trimmed text between the trivia at its two ends. -/
  ends : n.tokens ≠ [] → Token.renderAll n.tokens = (n.tokens.headD default).leadingText ++
    n.trimmedText ++ (n.tokens.getLastD default).trailingText

theorem Linked.traversed (h : tree.Linked) (hn : n ∈ tree.root.descendants) {fuel : Nat}
    (hfuel : n.descendants.length ≤ fuel) : tree.Traversed fuel n := by
  have hbelow : n.descendants ⊆ tree.root.descendants :=
    fun _ hm => Node.mem_descendants_trans hn hm
  have htokens : tree.tokens fuel n.id = some n.tokens := by
    rw [tokens, writeFrom_node h _ n hbelow hfuel, List.foldl_append_eq_append,
      ← List.flatMap_def, List.flatMap_singleton', List.nil_append]
  exact
    { descendants := by
        rw [descendants, ← Nat.add_sub_cancel' hfuel, descendantsFrom_node h n hbelow,
          descendantsFrom, List.nil_append]
      nodup := Node.nodup_below h.nodup hn
      walk := fun note combine s => walk_node h note combine n hbelow hfuel s
      count := by
        rw [Visitor.counting, walk_node h _ _ n hbelow hfuel, ← n.count_eq]
        rfl
      tokens := htokens
      text := by
        rw [text, h.find?_eq hn]
        show (tree.writeFrom Printer.token fuel {} n.id).map _ = _
        rw [writeFrom_node h _ n hbelow hfuel, Option.map_some]
        exact congrArg (some ∘ some) (Printer.tokens_buffer {} n.tokens)
      trimmedText := by
        rw [trimmedText, htokens, Option.map_some, Token.renderTrimmed_eq]
        rfl
      ends := Token.renderAll_stripEnds }

/-- Nothing is reached from an id that no node is called by. -/
theorem Linked.untraversed (h : tree.Linked) {id : NodeId} (hid : tree.find? id = none)
    {fuel : Nat} (hfuel : 0 < fuel) :
    tree.descendants fuel id = some [] ∧ tree.tokens fuel id = some [] ∧
      tree.text fuel id = some none ∧ tree.trimmedText fuel id = some [] ∧
      ∀ {σ α : Type} (v : Visitor σ α) (s : σ), (tree.walk v fuel id).run s = some (none, s) := by
  obtain ⟨fuel, rfl⟩ := Nat.exists_eq_succ_of_ne_zero hfuel.ne'
  have hnone : tree.tokens (fuel + 1) id = some [] := by
    rw [tokens, writeFrom, elements, hid]
    rfl
  refine ⟨?_, hnone, ?_, ?_, fun v s => ?_⟩
  · rw [descendants, descendantsFrom, if_neg (by rw [h.contains_eq_false hid]; simp),
      descendantsFrom]
  · rw [text, hid]
  · rw [trimmedText, hnone]
    rfl
  · rw [walk, hid]
    rfl

end Tree

namespace Session

/-- Whatever was read and whatever calls were made on the tree, with fuel for as many nodes as it
has or for more: from each of its nodes, the stack of ids, a visitor that goes on to the children
and the recursion over elements come to the same nodes in the same order, each of them once; a count
by a visitor is their number; the text is that of the tokens with their trivia, and the trimmed text
is this without the trivia at its two ends. From any other id they all come to nothing. -/
theorem traversals_agree (p : Production) (config : Config) (t : Text) (calls : List Call)
    (id : NodeId) (spare : Nat) :
    let tree := (Session.run ⟨Tree.parse p config t, false⟩ calls).tree
    let fuel := tree.root.descendants.length + spare
    match tree.find? id with
    | some n => n.id = id ∧ tree.Traversed fuel n
    | none => tree.descendants fuel id = some [] ∧ tree.tokens fuel id = some [] ∧
      tree.text fuel id = some none ∧ tree.trimmedText fuel id = some [] ∧
      ∀ {σ α : Type} (v : Visitor σ α) (s : σ), (tree.walk v fuel id).run s = some (none, s) := by
  intro tree fuel
  have hlinked : tree.Linked := (sound_run (Tree.sound_parse p config t) calls).linked
  split
  next n hn =>
    have hmem : n ∈ tree.root.descendants := List.mem_of_find?_eq_some hn
    exact ⟨by simpa using List.find?_some hn,
      hlinked.traversed hmem ((hlinked.length_le hmem).trans (Nat.le_add_right _ _))⟩
  next hnone =>
    have hroot : 0 < tree.root.descendants.length :=
      List.length_pos_of_mem (Node.mem_descendants_self _)
    exact hlinked.untraversed hnone (hroot.trans_le (Nat.le_add_right _ _))

end Session

end CssTree
