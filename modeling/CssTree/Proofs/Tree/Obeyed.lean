import CssTree.Proofs.Tree.Moved
import CssTree.Proofs.Tree.Relist
import CssTree.Proofs.Tree.Respan

namespace CssTree

variable {P : Span → Prop} {R : Text → Prop}

/-- The span of a token obeys one rule and the texts of the trivia attached to it another. -/
structure Token.Obeys (P : Span → Prop) (R : Text → Prop) (t : Token) : Prop where
  span : P t.span
  leading : ∀ l ∈ t.leading, R l.text
  trailing : ∀ l ∈ t.trailing, R l.text

/-- All tokens of a node obey the rules. -/
def Node.Obeys (P : Span → Prop) (R : Text → Prop) (n : Node) : Prop := ∀ t ∈ n.tokens, t.Obeys P R

namespace Token

variable {t : Token} {ts : List Token}

theorem Obeys.setLeading (h : t.Obeys P R) {trivia : List Lexeme} (htrivia : ∀ l ∈ trivia, R l.text) :
    ({ t with leading := trivia } : Token).Obeys P R := ⟨h.span, htrivia, h.trailing⟩

theorem Obeys.setTrailing (h : t.Obeys P R) {trivia : List Lexeme}
    (htrivia : ∀ l ∈ trivia, R l.text) : ({ t with trailing := trivia } : Token).Obeys P R :=
  ⟨h.span, h.leading, htrivia⟩

theorem Obeys.mapSpans (h : t.Obeys P R) {f : Span → Span} (hf : ∀ r, P r → P (f r)) :
    (t.mapSpans f).Obeys P R := by
  refine ⟨hf _ h.span, ?_, ?_⟩
  · rw [leading_mapSpans, List.forall_mem_map]
    exact h.leading
  · rw [trailing_mapSpans, List.forall_mem_map]
    exact h.trailing

theorem obeys_some (h : t.Obeys P R) : ∀ u ∈ some t, u.Obeys P R := by
  rintro u ⟨rfl⟩
  exact h

/-- All trivia of some tokens, wherever it is attached. -/
def trivia (ts : List Token) : List Lexeme := ts.flatMap fun t => t.leading ++ t.trailing

theorem perm_lexemesOf (ts : List Token) : (lexemesOf ts).Perm (ts.map toLexeme ++ trivia ts) := by
  induction ts with
  | nil => exact .nil
  | cons t ts ih =>
    have hfirst : t.lexemes.Perm (t.toLexeme :: (t.leading ++ t.trailing)) := by
      simp [lexemes]
    rw [lexemesOf_cons, List.map_cons, trivia, List.flatMap_cons, List.cons_append]
    exact (hfirst.append ih).trans (.cons _ (List.perm_append_comm_assoc _ _ _))

theorem obeys_iff :
    (∀ t ∈ ts, t.Obeys P R) ↔
      (∀ l ∈ ts.map toLexeme, P l.span) ∧ ∀ l ∈ trivia ts, R l.text := by
  rw [List.forall_mem_map, trivia, List.forall_mem_flatMap]
  constructor
  · intro h
    refine ⟨fun t ht => (h t ht).span, fun t ht => ?_⟩
    exact List.forall_mem_append.mpr ⟨(h t ht).leading, (h t ht).trailing⟩
  · rintro ⟨hspan, htrivia⟩ t ht
    obtain ⟨hleading, htrailing⟩ := List.forall_mem_append.mp (htrivia t ht)
    exact ⟨hspan t ht, hleading, htrailing⟩

/-- Trivia that moves between tokens stays what it is. -/
theorem Regroups.obeys {f : List Token → List Token} (hf : Regroups f)
    (h : ∀ t ∈ ts, t.Obeys P R) : ∀ t ∈ f ts, t.Obeys P R := by
  have hperm := perm_lexemesOf (f ts)
  rw [hf.lexemes, hf.tokens] at hperm
  have htrivia : (trivia ts).Perm (trivia (f ts)) :=
    (List.perm_append_left_iff _).mp ((perm_lexemesOf ts).symm.trans hperm)
  obtain ⟨hspans, htexts⟩ := obeys_iff.mp h
  refine obeys_iff.mpr ⟨?_, fun l hl => htexts l (htrivia.mem_iff.mpr hl)⟩
  rw [hf.tokens]
  exact hspans

end Token

namespace Element

def Obeys (P : Span → Prop) (R : Text → Prop) : Element → Prop
  | token t => t.Obeys P R
  | node n => n.Obeys P R

@[simp] theorem obeys_token (t : Token) : (token t).Obeys P R ↔ t.Obeys P R := Iff.rfl

@[simp] theorem obeys_node (n : Node) : (node n).Obeys P R ↔ n.Obeys P R := Iff.rfl

theorem obeys_tokensOf {es : List Element} :
    (∀ t ∈ tokensOf es, t.Obeys P R) ↔ ∀ e ∈ es, e.Obeys P R := by
  induction es with
  | nil => simp
  | cons e es ih =>
    rw [List.forall_mem_cons, ← ih]
    cases e with
    | token t => simp
    | node n => simp [or_imp, forall_and, Node.Obeys]

end Element

theorem Node.obeys_iff {n : Node} : n.Obeys P R ↔ ∀ e ∈ n.elements, e.Obeys P R := by
  rw [Node.Obeys, ← n.tokens_eq, Element.obeys_tokensOf]

mutual

theorem Node.Obeys.descendant : ∀ {n x : Node}, n.Obeys P R → x ∈ n.descendants → x.Obeys P R
  | ⟨i, kind, span, es⟩, x, h, hx => by
    rw [Node.descendants_mk] at hx
    rcases List.mem_cons.mp hx with rfl | hx
    · exact h
    · exact Element.obeys_descendantsOf (Node.obeys_iff.mp h) hx

theorem Element.obeys_descendantsOf : ∀ {es : List Element} {x : Node},
    (∀ e ∈ es, e.Obeys P R) → x ∈ Element.descendantsOf es → x.Obeys P R
  | [], _, _, hx => by simp at hx
  | .token _ :: es, _, h, hx => by
    rw [Element.descendantsOf_token] at hx
    exact Element.obeys_descendantsOf (List.forall_mem_cons.mp h).2 hx
  | .node n :: es, _, h, hx => by
    rw [List.forall_mem_cons, Element.obeys_node] at h
    rw [Element.descendantsOf_node] at hx
    rcases List.mem_append.mp hx with hx | hx
    · exact Node.Obeys.descendant h.1 hx
    · exact Element.obeys_descendantsOf h.2 hx

end

mutual

theorem Node.Obeys.moveSpans {frozen : NodeId → Bool} {onNode : NodeId → Span → Span}
    {onToken : Span → Span} (honToken : ∀ r, P r → P (onToken r)) :
    ∀ {n : Node}, n.Obeys P R → (n.moveSpans frozen onNode onToken).Obeys P R
  | ⟨i, kind, span, es⟩, h => by
    rw [Node.moveSpans]
    split
    · exact h
    · exact Node.obeys_iff.mpr (Element.obeys_moveSpansOf honToken (Node.obeys_iff.mp h))

theorem Element.obeys_moveSpansOf {frozen : NodeId → Bool} {onNode : NodeId → Span → Span}
    {onToken : Span → Span} (honToken : ∀ r, P r → P (onToken r)) :
    ∀ {es : List Element}, (∀ e ∈ es, e.Obeys P R) →
      ∀ e ∈ Element.moveSpansOf frozen onNode onToken es, e.Obeys P R
  | [], h => h
  | .token t :: es, h => by
    obtain ⟨ht, hes⟩ := List.forall_mem_cons.mp h
    rw [Element.moveSpansOf]
    exact List.forall_mem_cons.mpr ⟨ht.mapSpans honToken, Element.obeys_moveSpansOf honToken hes⟩
  | .node n :: es, h => by
    obtain ⟨hn, hes⟩ := List.forall_mem_cons.mp h
    rw [Element.moveSpansOf]
    exact List.forall_mem_cons.mpr
      ⟨Node.Obeys.moveSpans honToken hn, Element.obeys_moveSpansOf honToken hes⟩

end

mutual

theorem Node.Obeys.update {id : NodeId} {f : Node → Node}
    (hf : ∀ m : Node, m.Obeys P R → (f m).Obeys P R) :
    ∀ {n : Node}, n.Obeys P R → (n.update id f).Obeys P R
  | ⟨i, kind, span, es⟩, h => by
    rw [Node.update]
    split
    · exact hf _ h
    · exact Node.obeys_iff.mpr (Element.obeys_updateAll hf (Node.obeys_iff.mp h))

theorem Element.obeys_updateAll {id : NodeId} {f : Node → Node}
    (hf : ∀ m : Node, m.Obeys P R → (f m).Obeys P R) :
    ∀ {es : List Element}, (∀ e ∈ es, e.Obeys P R) →
      ∀ e ∈ Element.updateAll id f es, e.Obeys P R
  | [], h => h
  | .token t :: es, h => by
    obtain ⟨ht, hes⟩ := List.forall_mem_cons.mp h
    rw [Element.updateAll]
    exact List.forall_mem_cons.mpr ⟨ht, Element.obeys_updateAll hf hes⟩
  | .node n :: es, h => by
    obtain ⟨hn, hes⟩ := List.forall_mem_cons.mp h
    rw [Element.updateAll]
    exact List.forall_mem_cons.mpr ⟨Node.Obeys.update hf hn, Element.obeys_updateAll hf hes⟩

end

namespace Element

theorem splitToken_append (kind : TokenKind) (es : List Element) :
    ofToken? (splitToken kind es).1 ++ (splitToken kind es).2 = es := by
  unfold splitToken
  split
  · split <;> rfl
  · rfl

theorem splitNode_append (es : List Element) :
    ofNode? (splitNode es).1 ++ (splitNode es).2 = es := by
  unfold splitNode
  split <;> rfl

end Element

theorem Declaration.elements_prefix {es : List Element} {d : Declaration}
    (h : ofElements? es = some d) : d.elements <+: es := by
  rw [ofElements?] at h
  have hes := Element.splitToken_append .openComment es
  generalize Element.splitToken .openComment es = start at h hes
  obtain ⟨opening, rest⟩ := start
  dsimp only at h hes
  split at h
  next name colon value after =>
    have himportant := Element.splitNode_append after
    generalize Element.splitNode after = split at h himportant
    obtain ⟨important, after⟩ := split
    have hsemicolon := Element.splitToken_append .semicolon after
    dsimp only at h himportant
    generalize Element.splitToken .semicolon after = split at h hsemicolon
    obtain ⟨semicolon, after⟩ := split
    have hclosing := Element.splitToken_append .closeComment after
    obtain rfl := Option.some.inj h
    refine ⟨(Element.splitToken .closeComment after).2, ?_⟩
    rw [← hes, ← himportant, ← hsemicolon, elements]
    dsimp only
    conv_rhs => rw [← hclosing]
    simp
  next => cases h

/-- All tokens of a list obey the rules. -/
structure Listing.Obeys (P : Span → Prop) (R : Text → Prop) (l : Listing) : Prop where
  opening : ∀ t ∈ l.opening, t.Obeys P R
  items : ∀ pair ∈ l.items.pairs, pair.1.Obeys P R ∧ ∀ t ∈ pair.2, t.Obeys P R
  closing : ∀ t ∈ l.closing, t.Obeys P R

namespace Listing

theorem obeys_split (separated : Bool) {es : List Element} (h : ∀ e ∈ es, e.Obeys P R) :
    (∀ pair ∈ (split separated es).1, pair.1.Obeys P R ∧ ∀ t ∈ pair.2, t.Obeys P R) ∧
      ∀ t ∈ (split separated es).2, t.Obeys P R := by
  fun_induction split separated es with
  | case1 => simp
  | case2 t es ih =>
    rw [List.forall_mem_cons] at h
    exact ⟨(ih h.2).1, List.forall_mem_cons.mpr ⟨h.1, (ih h.2).2⟩⟩
  | case3 n => simpa using h
  | case4 n t es _ ih =>
    rw [List.forall_mem_cons, List.forall_mem_cons] at h
    exact ⟨List.forall_mem_cons.mpr ⟨⟨h.1, by simpa using h.2.1⟩, (ih h.2.2).1⟩, (ih h.2.2).2⟩
  | case5 n t es _ ih =>
    rw [List.forall_mem_cons, List.forall_mem_cons] at h
    exact ⟨List.forall_mem_cons.mpr ⟨⟨h.1, by simp⟩, (ih h.2.2).1⟩,
      List.forall_mem_cons.mpr ⟨h.2.1, (ih h.2.2).2⟩⟩
  | case6 n m es ih =>
    rw [List.forall_mem_cons] at h
    exact ⟨List.forall_mem_cons.mpr ⟨⟨h.1, by simp⟩, (ih h.2).1⟩, (ih h.2).2⟩

theorem obeys_ofElements (kind : ListKind) (opening : Nat) {es : List Element}
    (h : ∀ e ∈ es, e.Obeys P R) : (ofElements kind opening es).Obeys P R := by
  obtain ⟨hitems, hclosing⟩ := obeys_split (kind = .selectors)
    fun e he => h e (List.mem_of_mem_drop (i := opening) he)
  refine ⟨fun t ht => ?_, hitems, hclosing⟩
  obtain ⟨e, he, hopening⟩ := List.mem_filterMap.mp ht
  have hobeys := h e (List.mem_of_mem_take he)
  cases e with
  | token u =>
    obtain rfl := Option.some.inj hopening
    exact hobeys
  | node n => cases hopening

namespace Obeys

variable {l : Listing}

theorem elements (h : l.Obeys P R) : ∀ e ∈ l.elements, e.Obeys P R := by
  intro e he
  simp only [Listing.elements, List.mem_append, List.mem_map, List.mem_flatMap, List.mem_cons] at he
  rcases he with (⟨t, ht, rfl⟩ | ⟨pair, hpair, rfl | he⟩) | ⟨t, ht, rfl⟩
  · exact h.opening t ht
  · exact (h.items pair hpair).1
  · obtain ⟨t, ht, rfl⟩ := List.mem_map.mp he
    exact (h.items pair hpair).2 t (by simpa using ht)
  · exact h.closing t ht

theorem get? (h : l.Obeys P R) {index : Nat} {n : Node} (hget : l.items.get? index = some n) :
    n.Obeys P R := by
  obtain ⟨pair, hpair, rfl⟩ := Option.map_eq_some_iff.mp hget
  exact (h.items pair (List.mem_of_getElem? hpair)).1

theorem last? (h : l.Obeys P R) : ∀ n ∈ l.items.last?, n.Obeys P R := by
  intro n hn
  obtain ⟨pair, hpair, rfl⟩ := Option.map_eq_some_iff.mp hn
  exact (h.items pair (List.mem_of_getLast? hpair)).1

theorem insert (h : l.Obeys P R) (index : Nat) {n : Node} {separator : Option Token}
    (hn : n.Obeys P R) (hseparator : ∀ t ∈ separator, t.Obeys P R) :
    (l.insert index n separator).Obeys P R := by
  refine ⟨h.opening, fun pair hpair => ?_, h.closing⟩
  rw [Listing.insert, Punctuated.insert?] at hpair
  split at hpair
  next hle =>
    rcases (List.mem_insertIdx hle).mp hpair with rfl | hpair
    · exact ⟨hn, hseparator⟩
    · exact h.items pair hpair
  next => exact h.items pair hpair

theorem setSeparator (h : l.Obeys P R) (index : Nat) {separator : Option Token}
    (hseparator : ∀ t ∈ separator, t.Obeys P R) : (l.setSeparator index separator).Obeys P R := by
  refine ⟨h.opening, fun pair hpair => ?_, h.closing⟩
  rw [Listing.setSeparator, Punctuated.setSeparator] at hpair
  split at hpair
  next n old hget =>
    rcases List.mem_or_eq_of_mem_set hpair with hpair | rfl
    · exact h.items pair hpair
    · exact ⟨(h.items _ (List.mem_of_getElem? hget)).1, hseparator⟩
  next => exact h.items pair hpair

theorem remove (h : l.Obeys P R) (index : Nat) : (l.remove index).Obeys P R := by
  refine ⟨h.opening, fun pair hpair => ?_, h.closing⟩
  rw [Listing.remove, Punctuated.remove?] at hpair
  cases hget : l.items.pairs[index]? with
  | none => exact h.items pair (by simpa [hget] using hpair)
  | some removed =>
    rw [hget] at hpair
    exact h.items pair (List.mem_of_mem_eraseIdx hpair)

theorem removeLast (h : l.Obeys P R) (index : Nat) : (l.removeLast index).Obeys P R := by
  rw [Listing.removeLast]
  split
  · exact (h.setSeparator _ (by simp)).remove index
  · exact h.remove index

end Obeys

end Listing

/-- All tokens of a declaration obey the rules. -/
structure Declaration.Obeys (P : Span → Prop) (R : Text → Prop) (d : Declaration) : Prop where
  opening : ∀ t ∈ d.opening, t.Obeys P R
  name : d.name.Obeys P R
  colon : d.colon.Obeys P R
  value : d.value.Obeys P R
  important : ∀ n ∈ d.important, n.Obeys P R
  semicolon : ∀ t ∈ d.semicolon, t.Obeys P R
  closing : ∀ t ∈ d.closing, t.Obeys P R

theorem Declaration.obeys_iff {d : Declaration} :
    d.Obeys P R ↔ ∀ e ∈ d.elements, e.Obeys P R := by
  constructor
  · rintro ⟨hopening, hname, hcolon, hvalue, himportant, hsemicolon, hclosing⟩
    simp_all [elements, Element.ofToken?, Element.ofNode?, or_imp, forall_and]
  · intro h
    refine ⟨fun t ht => h (.token t) ?_, h (.token d.name) ?_, h (.token d.colon) ?_,
      h (.node d.value) ?_, fun n hn => h (.node n) ?_, fun t ht => h (.token t) ?_,
      fun t ht => h (.token t) ?_⟩ <;> simp_all [elements, Element.ofToken?, Element.ofNode?]

theorem forall_mem_mapLast {α : Type} {Q : α → Prop} {f : α → α} (hf : ∀ x, Q x → Q (f x))
    {xs : List α} (h : ∀ x ∈ xs, Q x) : ∀ x ∈ mapLast f xs, Q x := by
  induction xs using mapLast.induct with
  | case1 => simp [mapLast]
  | case2 x => simpa [mapLast] using hf x (h x List.mem_cons_self)
  | case3 x y xs ih =>
    rw [List.forall_mem_cons] at h
    exact List.forall_mem_cons.mpr ⟨h.1, ih h.2⟩

namespace Node.Obeys

variable {n : Node}

theorem leading (h : n.Obeys P R) : ∀ l ∈ n.leading, R l.text := by
  rw [Node.leading]
  cases htokens : n.tokens with
  | nil => simp
  | cons t ts => exact (h t (by rw [htokens]; exact List.mem_cons_self)).leading

theorem trailing (h : n.Obeys P R) :
    ∀ l ∈ (n.tokens.getLast?.map (·.trailing)).getD [], R l.text := by
  cases hlast : n.tokens.getLast? with
  | none => simp
  | some t => exact (h t (List.mem_of_getLast? hlast)).trailing

theorem listing? (h : n.Obeys P R) {l : Listing} (hl : n.listing? = some l) : l.Obeys P R := by
  rw [listing?_eq] at hl
  obtain ⟨shape, -, rfl⟩ := Option.map_eq_some_iff.mp hl
  exact Listing.obeys_ofElements _ _ (obeys_iff.mp h)

theorem mapListing (h : n.Obeys P R) {f : Listing → Listing}
    (hf : ∀ l : Listing, l.Obeys P R → (f l).Obeys P R) : (n.mapListing f).Obeys P R := by
  rw [Node.mapListing]
  split
  next l hl => exact obeys_iff.mpr (hf l (h.listing? hl)).elements
  next => exact h

theorem declaration? (h : n.Obeys P R) {d : Declaration} (hd : n.declaration? = some d) :
    d.Obeys P R := by
  rw [Node.declaration?] at hd
  split at hd
  next =>
    exact Declaration.obeys_iff.mpr fun e he =>
      obeys_iff.mp h e ((Declaration.elements_prefix hd).subset he)
  next => cases hd

theorem mapDeclaration (h : n.Obeys P R) {f : Declaration → Declaration}
    (hf : ∀ d : Declaration, d.Obeys P R → (f d).Obeys P R) : (n.mapDeclaration f).Obeys P R := by
  rw [Node.mapDeclaration]
  split
  next d hd => exact obeys_iff.mpr (Declaration.obeys_iff.mp (hf d (h.declaration? hd)))
  next => exact h

theorem setLeading (h : n.Obeys P R) {trivia : List Lexeme} (htrivia : ∀ l ∈ trivia, R l.text) :
    (n.setLeading trivia).Obeys P R := by
  rw [Node.Obeys, tokens_setLeading]
  rw [Node.Obeys] at h
  cases htokens : n.tokens with
  | nil => simp
  | cons t ts =>
    rw [htokens, List.forall_mem_cons] at h
    exact List.forall_mem_cons.mpr ⟨h.1.setLeading htrivia, h.2⟩

theorem prependLeading (h : n.Obeys P R) {trivia : List Lexeme} (htrivia : ∀ l ∈ trivia, R l.text) :
    (n.prependLeading trivia).Obeys P R :=
  h.setLeading (List.forall_mem_append.mpr ⟨htrivia, h.leading⟩)

theorem appendTrailing (h : n.Obeys P R) {trivia : List Lexeme} (htrivia : ∀ l ∈ trivia, R l.text) :
    (n.appendTrailing trivia).Obeys P R := by
  rw [Node.Obeys, tokens_appendTrailing]
  refine forall_mem_mapLast (fun t ht => ?_) h
  exact ht.setTrailing (List.forall_mem_append.mpr ⟨ht.trailing, htrivia⟩)

theorem regrouped (h : n.Obeys P R) {f : List Token → List Token} (hf : Token.Regroups f) :
    (n.mapTokens f).Obeys P R := by
  have hlength : (f n.tokens).length = n.tokens.length := by
    simpa using congrArg List.length (hf.tokens n.tokens)
  rw [Node.Obeys, tokens_mapTokens hlength]
  exact hf.obeys h

theorem respan (h : n.Obeys P R) : n.respan.Obeys P R := by
  rwa [Node.Obeys, tokens_respan]

theorem dropClosing (h : n.Obeys P R) : n.dropClosing.Obeys P R := by
  have hdropped := h.mapDeclaration (f := ({ · with closing := none })) fun _ hd =>
    { hd with closing := by simp }
  refine hdropped.appendTrailing ?_
  cases hd : n.declaration? with
  | none => simp
  | some d =>
    cases hclosing : d.closing with
    | none => simp [hclosing]
    | some t =>
      have ht := (h.declaration? hd).closing t hclosing
      simpa [hclosing] using ht.trailing

theorem dropOpening (h : n.Obeys P R) : (n.mapDeclaration (·.dropOpening)).Obeys P R := by
  refine h.mapDeclaration fun d hd => { hd with
    opening := by simp [Declaration.dropOpening]
    name := hd.name.setLeading ?_ }
  cases hopening : d.opening with
  | none => exact hd.name.leading
  | some t => exact (hd.opening t hopening).leading

end Node.Obeys

end CssTree
