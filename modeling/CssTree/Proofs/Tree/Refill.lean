import CssTree.Proofs.Token.Fold
import CssTree.Proofs.Tree.Skeleton

namespace CssTree

mutual

theorem Node.refill_append : ∀ (n : Node) (ts us : List Token),
    ts.length = n.tokens.length →
      (n.refill (ts ++ us)).2 = us ∧ (n.refill (ts ++ us)).1.tokens = ts
  | ⟨_, _, _, es⟩, ts, us, h => Element.refillAll_append es ts us h

theorem Element.refillAll_append : ∀ (es : List Element) (ts us : List Token),
    ts.length = (Element.tokensOf es).length →
      (Element.refillAll es (ts ++ us)).2 = us ∧
        Element.tokensOf (Element.refillAll es (ts ++ us)).1 = ts
  | [], ts, us, h => by
    obtain rfl := List.length_eq_zero_iff.mp h
    exact ⟨rfl, rfl⟩
  | .token t :: es, [], us, h => by simp at h
  | .token t :: es, u :: ts, us, h => by
    have hrest := Element.refillAll_append es ts us (by simpa using h)
    rw [List.cons_append, Element.refillAll]
    exact ⟨hrest.1, by simp [hrest.2]⟩
  | .node n :: es, ts, us, h => by
    rw [Element.tokensOf_node, List.length_append] at h
    have hfirst := Node.refill_append n (ts.take n.tokens.length)
      (ts.drop n.tokens.length ++ us) (by rw [List.length_take]; omega)
    have hrest := Element.refillAll_append es (ts.drop n.tokens.length) us
      (by rw [List.length_drop]; omega)
    rw [← List.append_assoc, List.take_append_drop] at hfirst
    rw [Element.refillAll]
    simp only [hfirst.1, Prod.map_fst, Prod.map_snd, Element.tokensOf_node, hfirst.2, hrest.2, id_eq,
      List.take_append_drop, and_true]
    exact hrest.1

end

mutual

theorem Node.skeleton_refill : ∀ (n : Node) (ts us : List Token),
    ts.map (fun t => t.kind) = n.tokens.map (fun t => t.kind) →
      (n.refill (ts ++ us)).1.skeleton = n.skeleton
  | ⟨_, _, _, es⟩, ts, us, h => by
    rw [Node.refill]
    simp only [Node.skeleton_mk]
    rw [Element.skeletonAll_refillAll es ts us h]

theorem Element.skeletonAll_refillAll : ∀ (es : List Element) (ts us : List Token),
    ts.map (fun t => t.kind) = (Element.tokensOf es).map (fun t => t.kind) →
      Element.skeletonAll (Element.refillAll es (ts ++ us)).1 = Element.skeletonAll es
  | [], _, _, _ => rfl
  | .token t :: es, [], us, h => by simp at h
  | .token t :: es, u :: ts, us, h => by
    rw [Element.tokensOf_token, List.map_cons, List.map_cons, List.cons.injEq] at h
    have hrest := Element.skeletonAll_refillAll es ts us h.2
    rw [List.cons_append, Element.refillAll]
    simp only [Prod.map_fst, Element.skeletonAll_token, hrest, Token.skeleton_eq h.1]
  | .node n :: es, ts, us, h => by
    rw [Element.tokensOf_node, List.map_append] at h
    have hlength := congrArg List.length h
    simp only [List.length_append, List.length_map] at hlength
    have htake : (ts.take n.tokens.length).map (fun t => t.kind) =
        n.tokens.map (fun t => t.kind) := by
      rw [List.map_take, h, List.take_left' (List.length_map _)]
    have hdrop : (ts.drop n.tokens.length).map (fun t => t.kind) =
        (Element.tokensOf es).map (fun t => t.kind) := by
      rw [List.map_drop, h, List.drop_left' (List.length_map _)]
    have happ := Node.refill_append n (ts.take n.tokens.length)
      (ts.drop n.tokens.length ++ us) (by rw [List.length_take]; omega)
    have hfirst := Node.skeleton_refill n (ts.take n.tokens.length)
      (ts.drop n.tokens.length ++ us) htake
    have hrest := Element.skeletonAll_refillAll es (ts.drop n.tokens.length) us hdrop
    rw [← List.append_assoc, List.take_append_drop] at happ hfirst
    rw [Element.refillAll]
    simp only [happ.1, Prod.map_fst, Element.skeletonAll_node, hfirst, hrest]

end

mutual

/-- Of two lists of tokens that a node is filled with, the second counts if it is long enough. -/
theorem Node.refill_refill : ∀ (n : Node) (ts us : List Token), n.tokens.length ≤ us.length →
    (n.refill ts).1.refill us = n.refill us
  | ⟨_, _, _, es⟩, ts, us, h => by
    have hes := Element.refillAll_refillAll es ts us h
    rw [Node.refill, Node.refill, Node.refill]
    simp only [hes]

theorem Element.refillAll_refillAll : ∀ (es : List Element) (ts us : List Token),
    (Element.tokensOf es).length ≤ us.length →
      Element.refillAll (Element.refillAll es ts).1 us = Element.refillAll es us
  | [], _, _, _ => rfl
  | .token t :: es, _, [], h => by simp at h
  | .token t :: es, ts, u :: us, h => by
    have hlength : (Element.tokensOf es).length ≤ us.length := by simpa using h
    cases ts with
    | nil =>
      rw [Element.refillAll, Element.refillAll, Element.refillAll_refillAll es [] us hlength,
        Element.refillAll]
    | cons t' ts =>
      rw [Element.refillAll, Prod.map_fst, Element.refillAll,
        Element.refillAll_refillAll es ts us hlength, Element.refillAll]
  | .node n :: es, ts, us, h => by
    rw [Element.tokensOf_node, List.length_append] at h
    have hn := Node.refill_refill n ts us (by omega)
    have hrest : (n.refill us).2 = us.drop n.tokens.length := by
      have happ := n.refill_append (us.take n.tokens.length) (us.drop n.tokens.length)
        (by rw [List.length_take]; omega)
      rw [List.take_append_drop] at happ
      exact happ.1
    have hes := Element.refillAll_refillAll es (n.refill ts).2 (us.drop n.tokens.length)
      (by rw [List.length_drop]; omega)
    rw [Element.refillAll]
    simp only [Prod.map_fst, Element.refillAll, hn, hrest, hes]

end

mutual

/-- A node filled with its own tokens. -/
theorem Node.refill_tokens : ∀ (n : Node) (us : List Token), n.refill (n.tokens ++ us) = (n, us)
  | ⟨_, _, _, es⟩, us => by
    rw [Node.refill, Node.tokens_mk, Element.refillAll_tokensOf es us]

theorem Element.refillAll_tokensOf : ∀ (es : List Element) (us : List Token),
    Element.refillAll es (Element.tokensOf es ++ us) = (es, us)
  | [], _ => rfl
  | .token t :: es, us => by
    rw [Element.tokensOf_token, List.cons_append, Element.refillAll,
      Element.refillAll_tokensOf es us]
    rfl
  | .node n :: es, us => by
    rw [Element.tokensOf_node, List.append_assoc, Element.refillAll, Node.refill_tokens n]
    simp only [Element.refillAll_tokensOf es us]
    rfl

end

/-- Elements refilled with the tokens that they begin with. -/
theorem Element.refillAll_front (es fs : List Element) (ts : List Token) :
    refillAll (es ++ fs) (tokensOf es ++ ts) = (refillAll fs ts).map (es ++ ·) id := by
  induction es with
  | nil => rfl
  | cons e es ih =>
    cases e with
    | token t =>
      rw [List.cons_append, tokensOf_token, List.cons_append, refillAll, ih]
      rfl
    | node n =>
      rw [List.cons_append, tokensOf_node, List.append_assoc, refillAll, n.refill_tokens]
      simp only [ih]
      rfl

theorem map_mapLast {α β : Type} {f : α → α} {g : α → β} (h : ∀ x, g (f x) = g x) (xs : List α) :
    (mapLast f xs).map g = xs.map g := by
  induction xs with
  | nil => rfl
  | cons x xs ih => cases xs <;> simp_all [mapLast]

theorem length_mapLast {α : Type} (f : α → α) (xs : List α) : (mapLast f xs).length = xs.length := by
  have h := congrArg List.length (map_mapLast (f := f) (g := fun _ => ()) (fun _ => rfl) xs)
  simpa using h

namespace Node

theorem tokens_mapTokens {f : List Token → List Token} {n : Node}
    (h : (f n.tokens).length = n.tokens.length) : (n.mapTokens f).tokens = f n.tokens := by
  have hrefill := n.refill_append (f n.tokens) [] h
  rw [List.append_nil] at hrefill
  exact hrefill.2

theorem skeleton_mapTokens {f : List Token → List Token} {n : Node}
    (h : (f n.tokens).map (fun t => t.kind) = n.tokens.map (fun t => t.kind)) :
    (n.mapTokens f).skeleton = n.skeleton := by
  have hrefill := n.skeleton_refill (f n.tokens) [] h
  rwa [List.append_nil] at hrefill

theorem mapTokens_mapTokens {f g : List Token → List Token} {n : Node}
    (hg : (g n.tokens).length = n.tokens.length)
    (hf : (f (g n.tokens)).length = n.tokens.length) :
    (n.mapTokens g).mapTokens f = n.mapTokens fun ts => f (g ts) := by
  rw [mapTokens, tokens_mapTokens hg, mapTokens, n.refill_refill _ _ hf.ge, mapTokens]

theorem mapTokens_eq_self {f : List Token → List Token} {n : Node} (h : f n.tokens = n.tokens) :
    n.mapTokens f = n := by
  have hself := n.refill_tokens []
  rw [List.append_nil] at hself
  rw [mapTokens, h, hself]

theorem tokens_setLeading (trivia : List Lexeme) (n : Node) :
    (n.setLeading trivia).tokens = n.tokens.modifyHead fun t => { t with leading := trivia } :=
  tokens_mapTokens (List.length_modifyHead ..)

theorem setLeading_setLeading (trivia others : List Lexeme) (n : Node) :
    (n.setLeading others).setLeading trivia = n.setLeading trivia := by
  rw [setLeading, setLeading, mapTokens_mapTokens (by simp) (by simp), setLeading]
  congr 1
  funext ts
  cases ts <;> rfl

theorem setLeading_leading (n : Node) : n.setLeading n.leading = n := by
  apply mapTokens_eq_self
  rw [leading]
  cases n.tokens <;> rfl

theorem leading_setLeading_nil (n : Node) : (n.setLeading []).leading = [] := by
  rw [leading, tokens_setLeading]
  cases n.tokens <;> rfl

theorem skeleton_setLeading (trivia : List Lexeme) (n : Node) :
    (n.setLeading trivia).skeleton = n.skeleton := by
  apply skeleton_mapTokens
  cases n.tokens <;> rfl

theorem skeleton_prependLeading (trivia : List Lexeme) (n : Node) :
    (n.prependLeading trivia).skeleton = n.skeleton := n.skeleton_setLeading _

theorem skeleton_appendTrailing (trivia : List Lexeme) (n : Node) :
    (n.appendTrailing trivia).skeleton = n.skeleton := by
  apply skeleton_mapTokens
  exact map_mapLast (f := fun t : Token => { t with trailing := t.trailing ++ trivia })
    (g := fun t => t.kind) (fun _ => rfl) _

theorem span_mapTokens (f : List Token → List Token) (n : Node) : (n.mapTokens f).span = n.span := by
  cases n
  rfl

theorem tokens_appendTrailing (trivia : List Lexeme) (n : Node) :
    (n.appendTrailing trivia).tokens =
      mapLast (fun t => { t with trailing := t.trailing ++ trivia }) n.tokens :=
  tokens_mapTokens (length_mapLast _ _)

theorem lexemes_appendTrailing (trivia : List Lexeme) {n : Node} (h : n.tokens ≠ []) :
    Token.lexemesOf (n.appendTrailing trivia).tokens = Token.lexemesOf n.tokens ++ trivia := by
  rw [tokens_appendTrailing]
  obtain ⟨ts, t, ht⟩ := List.eq_nil_or_concat n.tokens |>.resolve_left h
  rw [ht, List.concat_eq_append, mapLast_concat]
  simp [Token.lexemes]

theorem skeleton_respan (n : Node) : n.respan.skeleton = n.skeleton := n.skeleton_respanFrom _

theorem skeleton_mapSpans (f : Span → Span) (n : Node) : (n.mapSpans f).skeleton = n.skeleton :=
  n.skeleton_moveSpans _ _ _

theorem skeleton_shift (lines columns : Int) (n : Node) :
    (n.shift lines columns).skeleton = n.skeleton := n.skeleton_mapSpans _

theorem skeleton_place (p : Position) (n : Node) : (n.place p).skeleton = n.skeleton :=
  n.skeleton_shift _ _

end Node

end CssTree
