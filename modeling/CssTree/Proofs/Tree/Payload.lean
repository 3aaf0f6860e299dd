import CssTree.Proofs.Tree.Formed
import CssTree.Tree.Payload

namespace CssTree

variable {α β : Type}

/-- The places of the tokens among some elements. -/
def Element.placesOf : List Element → (List Element → α) → List (Place α)
  | [], _ => []
  | .token t :: es, f => Place.ofToken t (fun t => f (.token t :: es)) ++
      placesOf es fun es => f (.token t :: es)
  | .node n :: es, f => placesOf es fun es => f (.node n :: es)

namespace Place

variable (g : α → β)

@[simp] theorem map_ofToken (t : Token) (f : Token → α) :
    (ofToken t f).map (map g) = ofToken t fun t => g (f t) := rfl

@[simp] theorem map_ofToken? (o : Option Token) (f : Option Token → α) :
    (ofToken? o f).map (map g) = ofToken? o fun o => g (f o) := by
  cases o <;> rfl

@[simp] theorem map_ofTokens (ts : List Token) (f : List Token → α) :
    (ofTokens ts f).map (map g) = ofTokens ts fun ts => g (f ts) := by
  induction ts generalizing f with
  | nil => rfl
  | cons t ts ih => simp [ofTokens, ih]

@[simp] theorem map_ofNamespace? (o : Option Namespace) (f : Option Namespace → α) :
    (ofNamespace? o f).map (map g) = ofNamespace? o fun o => g (f o) := by
  cases o <;> simp [ofNamespace?]

@[simp] theorem map_ofPunctuated (l : Punctuated Node Token) (f : Punctuated Node Token → α) :
    (ofPunctuated l f).map (map g) = ofPunctuated l fun l => g (f l) := by
  have hpairs : ∀ (pairs : List (Node × Option Token)) (f : List (Node × Option Token) → α),
      (ofSeparators pairs f).map (map g) = ofSeparators pairs fun pairs => g (f pairs) := by
    intro pairs
    induction pairs with
    | nil => exact fun _ => rfl
    | cons pair pairs ih => simp [ofSeparators, ih]
  exact hpairs l.pairs _

@[simp] theorem map_ofPunctuatedTokens (l : Punctuated Token Token)
    (f : Punctuated Token Token → α) :
    (ofPunctuatedTokens l f).map (map g) = ofPunctuatedTokens l fun l => g (f l) := by
  have hpairs : ∀ (pairs : List (Token × Option Token)) (f : List (Token × Option Token) → α),
      (ofTokenPairs pairs f).map (map g) = ofTokenPairs pairs fun pairs => g (f pairs) := by
    intro pairs
    induction pairs with
    | nil => exact fun _ => rfl
    | cons pair pairs ih => simp [ofTokenPairs, ih]
  exact hpairs l.pairs _

end Place

namespace Element

open Place (ofTokens ofPunctuated ofPunctuatedTokens)

variable (f : List Element → α)

@[simp] theorem placesOf_nil : placesOf [] f = [] := rfl

@[simp] theorem placesOf_token (t : Token) (es : List Element) :
    placesOf (.token t :: es) f = Place.ofToken t (fun t => f (.token t :: es)) ++
      placesOf es fun es => f (.token t :: es) := rfl

@[simp] theorem placesOf_node (n : Node) (es : List Element) :
    placesOf (.node n :: es) f = placesOf es fun es => f (.node n :: es) := rfl

@[simp] theorem placesOf_append (es fs : List Element) :
    placesOf (es ++ fs) f =
      placesOf es (fun es => f (es ++ fs)) ++ placesOf fs fun fs => f (es ++ fs) := by
  induction es generalizing f with
  | nil => rfl
  | cons e es ih => cases e <;> simp [ih]

@[simp] theorem placesOf_nodes (ns : List Node) : placesOf (ns.map .node) f = [] := by
  induction ns generalizing f with
  | nil => rfl
  | cons n ns ih => simp [ih]

@[simp] theorem placesOf_tokens (ts : List Token) :
    placesOf (ts.map .token) f = ofTokens ts fun ts => f (ts.map .token) := by
  induction ts generalizing f with
  | nil => rfl
  | cons t ts ih => simp [ofTokens, ih]

@[simp] theorem placesOf_ofNode? (o : Option Node) : placesOf (ofNode? o) f = [] := by
  cases o <;> rfl

@[simp] theorem placesOf_ofToken? (o : Option Token) :
    placesOf (ofToken? o) f = Place.ofToken? o fun o => f (ofToken? o) := by
  cases o <;> rfl

@[simp] theorem placesOf_namespace (o : Option Namespace) :
    placesOf (Namespace.elements? o) f =
      Place.ofNamespace? o fun o => f (Namespace.elements? o) := by
  cases o <;> simp [Namespace.elements?, Place.ofNamespace?]

@[simp] theorem placesOf_punctuated (l : Punctuated Node Token) :
    placesOf l.elements f = ofPunctuated l fun l => f l.elements := by
  obtain ⟨pairs⟩ := l
  simp only [Punctuated.elements, ofPunctuated]
  induction pairs generalizing f with
  | nil => rfl
  | cons pair pairs ih => simp [Place.ofSeparators, ih]

@[simp] theorem placesOf_punctuatedTokens (l : Punctuated Token Token) :
    placesOf l.tokenElements f = ofPunctuatedTokens l fun l => f l.tokenElements := by
  obtain ⟨pairs⟩ := l
  simp only [Punctuated.tokenElements, ofPunctuatedTokens]
  induction pairs generalizing f with
  | nil => rfl
  | cons pair pairs ih => simp [Place.ofTokenPairs, ih]

end Element

namespace Payload

/-- Every token stands in its place: the places of a payload are those of the tokens among its
elements, in order, and what is written to one is written to that element. -/
theorem places_node (id : NodeId) (span : Span) (p : Payload) :
    p.places.map (Place.map (node id span)) =
      Element.placesOf p.elements fun es => ⟨id, p.kind, span, es⟩ := by
  cases p <;> simp [places, elements, kind, node, Declaration.elements]

end Payload

namespace Element

theorem tokens_placesOf (f : List Element → α) (es : List Element) :
    (placesOf es f).map Place.token = es.filterMap token? := by
  induction es generalizing f with
  | nil => rfl
  | cons e es ih => cases e <;> simp [ih, Place.ofToken, token?, List.filterMap_cons]

/-- The place of a token that stands between others. -/
theorem placesOf_getElem? (f : List Element → α) (front back : List Element) (t : Token) :
    (placesOf (front ++ .token t :: back) f)[(front.filterMap token?).length]? =
      some ⟨t, fun u => f (front ++ .token u :: back)⟩ := by
  have hlength : (placesOf front fun es => f (es ++ .token t :: back)).length =
      (front.filterMap token?).length := by
    rw [← tokens_placesOf, List.length_map]
  rw [placesOf_append, List.getElem?_append_right (Nat.le_of_eq hlength), hlength, Nat.sub_self]
  rfl

end Element

namespace Payload

theorem tokens_places (p : Payload) :
    p.places.map Place.token = p.elements.filterMap Element.token? := by
  have hplaces := congrArg (List.map Place.token) (p.places_node 0 default)
  rw [Element.tokens_placesOf, List.map_map] at hplaces
  exact hplaces

end Payload

namespace Element

/-- What elements in the roles of some others satisfy. -/
def Recast (es : List Element) (P : List Element → Prop) : Prop :=
  ∀ fs : List Element, fs.map role = es.map role → P fs

/-- Elements in the roles of such a field are those of such a field. -/
def IsField (f : α → List Element) : Prop := ∀ a, Recast (f a) fun es => ∃ b, es = f b

namespace IsField

variable {f : α → List Element} {a : α} {P : List Element → Prop}

/-- What starts with a field reads as one of its kind, and what is left as what stands behind it. -/
theorem next (hf : IsField f) {es : List Element} (h : ∀ b, Recast es fun fs => P (f b ++ fs)) :
    Recast (f a ++ es) P := by
  intro fs hroles
  rw [List.map_append] at hroles
  obtain ⟨as, bs, rfl, has, hbs⟩ := List.map_eq_append_iff.mp hroles
  obtain ⟨b, rfl⟩ := hf a as has
  exact h b bs hbs

theorem last (hf : IsField f) (h : ∀ b, P (f b)) : Recast (f a) P := by
  intro fs hroles
  obtain ⟨b, rfl⟩ := hf a fs hroles
  exact h b

theorem token : IsField fun t => [Element.token t] := by
  intro t es h
  have hroles : es.map role = ([t].map .token).map role := h
  obtain ⟨us, rfl, hlength⟩ := tokens_of_roles hroles
  obtain ⟨u, rfl⟩ := List.length_eq_one_iff.mp hlength
  exact ⟨u, rfl⟩

theorem node : IsField fun n => [Element.node n] := by
  intro n es h
  obtain ⟨e, es', rfl, he, hes⟩ := List.map_eq_cons_iff.mp h
  obtain rfl := List.map_eq_nil_iff.mp hes
  cases e with
  | token u => simp [role] at he
  | node m => exact ⟨m, rfl⟩

theorem token? : IsField ofToken? := fun _ _ h => (token?_of_roles h).imp fun _ h => h.1

theorem node? : IsField ofNode? := fun _ _ h => node?_of_roles h

theorem tokens : IsField (List.map Element.token) := fun _ _ h =>
  (tokens_of_roles h).imp fun _ h => h.1

theorem nodes : IsField (List.map Element.node) := by
  intro ns
  induction ns with
  | nil => exact fun es h => ⟨[], List.map_eq_nil_iff.mp h⟩
  | cons n ns ih =>
    refine node.next fun m es h => ?_
    obtain ⟨ms, rfl⟩ := ih es h
    exact ⟨m :: ms, rfl⟩

theorem namespace? : IsField Namespace.elements? := by
  intro o
  cases o with
  | none => exact fun es h => ⟨none, List.map_eq_nil_iff.mp h⟩
  | some ns => exact token?.next fun label => token.last fun bar => ⟨some ⟨label, bar⟩, rfl⟩

theorem punctuated : IsField (Punctuated.elements) := fun _ _ h => by
  obtain ⟨pairs, rfl, -⟩ := Listing.pairs_of_roles h
  exact ⟨⟨pairs⟩, rfl⟩

theorem punctuatedTokens : IsField (Punctuated.tokenElements) := by
  rintro ⟨pairs⟩
  induction pairs with
  | nil => exact fun es h => ⟨⟨[]⟩, List.map_eq_nil_iff.mp h⟩
  | cons pair pairs ih =>
    simp only [Punctuated.tokenElements, List.flatMap_cons, List.cons_append]
    refine token.next fun t => token?.next fun separator es h => ?_
    obtain ⟨⟨rest⟩, rfl⟩ := ih es h
    exact ⟨⟨(t, separator) :: rest⟩, rfl⟩

/-- Elements in the roles of those of a payload are those of one of its kind. -/
theorem recast_payload (p : Payload) :
    Recast p.elements fun es => ∃ q : Payload, q.kind = p.kind ∧ es = q.elements := by
  -- One field after the other, in the order in which they stand in the payload.
  cases p with
  | styleSheet =>
    exact nodes.next fun rules => token.last fun ending => ⟨.styleSheet rules ending, rfl, rfl⟩
  | ruleList =>
    exact token.next fun opening => nodes.next fun rules => token?.last fun closing =>
      ⟨.ruleList opening rules closing, rfl, rfl⟩
  | rule =>
    exact node.next fun selectors => node.last fun declarations =>
      ⟨.rule selectors declarations, rfl, rfl⟩
  | selectorList => exact punctuated.last fun selectors => ⟨.selectorList selectors, rfl, rfl⟩
  | selector => exact nodes.last fun parts => ⟨.selector parts, rfl, rfl⟩
  | typeSelector =>
    exact namespace?.next fun ns => token.last fun name => ⟨.typeSelector ns name, rfl, rfl⟩
  | universalSelector =>
    exact namespace?.next fun ns => token.last fun star => ⟨.universalSelector ns star, rfl, rfl⟩
  | attributeSelector =>
    simp only [Payload.elements, List.append_assoc]
    exact token.next fun opening => namespace?.next fun ns => token.next fun name =>
      token?.next fun matcher => token?.next fun value => token?.next fun modifier =>
      token.last fun closing =>
      ⟨.attributeSelector opening ns name matcher value modifier closing, rfl, rfl⟩
  | classSelector =>
    exact token.next fun dot => token.last fun name => ⟨.classSelector dot name, rfl, rfl⟩
  | idSelector => exact token.last fun hash => ⟨.idSelector hash, rfl, rfl⟩
  | pseudoSelector =>
    exact token.next fun colon => token?.next fun second => token.next fun name =>
      node?.next fun arguments => token?.last fun closing =>
      ⟨.pseudoSelector colon second name arguments closing, rfl, rfl⟩
  | combinator => exact token.last fun t => ⟨.combinator t, rfl, rfl⟩
  | declarationList =>
    exact token.next fun opening => nodes.next fun declarations => token?.last fun closing =>
      ⟨.declarationList opening declarations closing, rfl, rfl⟩
  | declaration =>
    simp only [Payload.elements, Declaration.elements, List.append_assoc]
    exact token?.next fun opening => token.next fun name => token.next fun colon =>
      node.next fun value => node?.next fun important => token?.next fun semicolon =>
      token?.last fun closing =>
      ⟨.declaration ⟨opening, name, colon, value, important, semicolon, closing⟩, rfl, rfl⟩
  | valueList => exact nodes.last fun values => ⟨.valueList values, rfl, rfl⟩
  | preservedToken => exact token.last fun t => ⟨.preservedToken t, rfl, rfl⟩
  | functionValue =>
    exact token.next fun function => node.next fun arguments => token?.last fun closing =>
      ⟨.functionValue function arguments closing, rfl, rfl⟩
  | blockValue =>
    exact token.next fun opening => node.next fun values => token?.last fun closing =>
      ⟨.blockValue opening values closing, rfl, rfl⟩
  | importantValue =>
    exact token.next fun mark => token.last fun word => ⟨.importantValue mark word, rfl, rfl⟩
  | mediaQueryList => exact punctuated.last fun queries => ⟨.mediaQueryList queries, rfl, rfl⟩
  | charsetRule =>
    exact token.next fun keyword => token.next fun charset => token?.last fun semicolon =>
      ⟨.charsetRule keyword charset semicolon, rfl, rfl⟩
  | customMediaRule =>
    exact token.next fun keyword => token.next fun name => node.next fun media =>
      token?.last fun semicolon => ⟨.customMediaRule keyword name media semicolon, rfl, rfl⟩
  | documentRule =>
    exact token.next fun keyword => punctuated.next fun matchers => node.last fun rules =>
      ⟨.documentRule keyword matchers rules, rfl, rfl⟩
  | fontFaceRule =>
    exact token.next fun keyword => node.last fun declarations =>
      ⟨.fontFaceRule keyword declarations, rfl, rfl⟩
  | hostRule =>
    exact token.next fun keyword => node.last fun rules => ⟨.hostRule keyword rules, rfl, rfl⟩
  | importRule =>
    exact token.next fun keyword => node.next fun url => node?.next fun media =>
      token?.last fun semicolon => ⟨.importRule keyword url media semicolon, rfl, rfl⟩
  | keyframesRule =>
    exact token.next fun keyword => token.next fun name => node.last fun rules =>
      ⟨.keyframesRule keyword name rules, rfl, rfl⟩
  | keyframeRule =>
    exact node.next fun selectors => node.last fun declarations =>
      ⟨.keyframeRule selectors declarations, rfl, rfl⟩
  | keyframeSelectorList =>
    exact punctuatedTokens.last fun selectors => ⟨.keyframeSelectorList selectors, rfl, rfl⟩
  | mediaRule =>
    exact token.next fun keyword => node.next fun media => node.last fun rules =>
      ⟨.mediaRule keyword media rules, rfl, rfl⟩
  | namespaceRule =>
    exact token.next fun keyword => token?.next fun label => node.next fun url =>
      token?.last fun semicolon => ⟨.namespaceRule keyword label url semicolon, rfl, rfl⟩
  | pageRule =>
    exact token.next fun keyword => node?.next fun page => node.last fun declarations =>
      ⟨.pageRule keyword page declarations, rfl, rfl⟩
  | supportsRule =>
    exact token.next fun keyword => node.next fun condition => node.last fun rules =>
      ⟨.supportsRule keyword condition rules, rfl, rfl⟩
  | genericAtRule =>
    exact token.next fun keyword => node.next fun prelude => node?.next fun block =>
      token?.last fun semicolon => ⟨.genericAtRule keyword prelude block semicolon, rfl, rfl⟩
  | error => exact tokens.last fun ts => ⟨.error ts, rfl, rfl⟩

end IsField

end Element

namespace Node

/-- A node that holds a payload. -/
def Carries (n : Node) (p : Payload) : Prop := n = p.node n.id n.span

variable {n m : Node}

theorem carries_iff {p : Payload} : n.Carries p ↔ n.kind = p.kind ∧ n.elements = p.elements := by
  obtain ⟨id, kind, span, es⟩ := n
  simp [Carries, Payload.node]

/-- A node in the roles of one that holds a payload holds one. -/
theorem carries_of_roles (h : ∃ p, n.Carries p) (hkind : m.kind = n.kind)
    (hroles : m.elements.map Element.role = n.elements.map Element.role) : ∃ p, m.Carries p := by
  obtain ⟨p, hp⟩ := h
  obtain ⟨hp, helements⟩ := carries_iff.mp hp
  rw [helements] at hroles
  obtain ⟨q, hq, hes⟩ := Element.IsField.recast_payload p _ hroles
  exact ⟨q, carries_iff.mpr ⟨hkind.trans (hp.trans hq.symm), hes⟩⟩

end Node

/-- How many tokens may stand behind the items of a list; behind selectors there are none anyway. -/
def NodeKind.Closes : NodeKind → Nat → Prop
  | styleSheet, k => k = 1
  | ruleList, k | declarationList, k => k ≤ 1
  | _, _ => True

namespace Node

variable {n : Node} {kind : ListKind} {opening : Nat} {l : Listing}

theorem carries_of_listing (hshape : n.kind.listShape? = some (kind, opening))
    (hl : l.Formed kind opening) (hclosing : n.kind.Closes l.closing.length)
    (helements : n.elements = l.elements) : ∃ p, n.Carries p := by
  have hblock : kind ≠ .selectors → opening = 1 → l.closing.length ≤ 1 →
      ∃ o closing, n.elements = .token o :: l.nodes.map .node ++ Element.ofToken? closing := by
    intro hkind hopening hlength
    obtain ⟨o, ho⟩ := List.length_eq_one_iff.mp (hl.opening.trans hopening)
    refine ⟨o, l.closing.head?, ?_⟩
    rw [helements, hl.elements_eq hkind, ho]
    match l.closing, hlength with
    | [], _ => rfl
    | [t], _ => rfl
  obtain ⟨id, nodeKind, span, es⟩ := n
  cases nodeKind <;> cases hshape
  case styleSheet =>
    obtain ⟨t, ht⟩ := List.length_eq_one_iff.mp hclosing
    have hopening := List.length_eq_zero_iff.mp hl.opening
    refine ⟨.styleSheet l.nodes t, carries_iff.mpr ⟨rfl, ?_⟩⟩
    rw [helements, hl.elements_eq (by decide), hopening, ht]
    rfl
  case ruleList =>
    obtain ⟨o, closing, h⟩ := hblock (by decide) rfl hclosing
    exact ⟨.ruleList o l.nodes closing, carries_iff.mpr ⟨rfl, h⟩⟩
  case declarationList =>
    obtain ⟨o, closing, h⟩ := hblock (by decide) rfl hclosing
    exact ⟨.declarationList o l.nodes closing, carries_iff.mpr ⟨rfl, h⟩⟩
  case selectorList =>
    have hopening := List.length_eq_zero_iff.mp hl.opening
    refine ⟨.selectorList l.items, carries_iff.mpr ⟨rfl, ?_⟩⟩
    rw [helements, Listing.elements, hopening, hl.closing rfl]
    exact List.append_nil _

theorem closes_of_carries (h : ∃ p, n.Carries p) (hl : n.listing? = some l) :
    n.kind.Closes l.closing.length := by
  have hread : ∀ (kind : ListKind) (opening : List Token) (ns : List Node) (closing : List Token),
      kind ≠ .selectors → n.kind.listShape? = some (kind, opening.length) →
      n.elements = opening.map .token ++ ns.map .node ++ closing.map .token →
      l.closing = closing := by
    intro kind opening ns closing hkind hshape helements
    rw [listing?_eq, hshape, helements, ← Listing.elements_ofList kind, Option.map_some,
      (Listing.formed_ofList hkind opening ns closing).ofElements] at hl
    rw [← Option.some.inj hl]
  obtain ⟨p, hp⟩ := h
  obtain ⟨hkind, helements⟩ := carries_iff.mp hp
  cases p
  case styleSheet rules ending =>
    rw [hread .rules [] rules [ending] (by decide) (by rw [hkind]; rfl) helements, hkind]
    rfl
  case ruleList o rules closing =>
    rw [hread .rules [o] rules closing.toList (by decide) (by rw [hkind]; rfl) (by
      rw [helements]; cases closing <;> rfl), hkind]
    exact Option.length_toList_le
  case declarationList o declarations closing =>
    rw [hread .declarations [o] declarations closing.toList (by decide)
      (by rw [hkind]; rfl) (by rw [helements]; cases closing <;> rfl), hkind]
    exact Option.length_toList_le
  all_goals
    rw [hkind]
    trivial

theorem carries_of_declaration {d : Declaration} (hkind : n.kind = .declaration)
    (helements : n.elements = d.elements) : ∃ p, n.Carries p :=
  ⟨.declaration d, carries_iff.mpr ⟨hkind, helements⟩⟩

end Node

end CssTree
