import Mathlib.Data.List.Basic
import CssTree.Tree.View

namespace CssTree

namespace Element

@[simp] theorem ofToken?_none : ofToken? none = [] := rfl

@[simp] theorem ofToken?_some (t : Token) : ofToken? (some t) = [.token t] := rfl

@[simp] theorem ofNode?_none : ofNode? none = [] := rfl

@[simp] theorem ofNode?_some (n : Node) : ofNode? (some n) = [.node n] := rfl

end Element

/-- What a node of a kind lists, and the number of tokens before its items. -/
def NodeKind.listShape? : NodeKind → Option (ListKind × Nat)
  | styleSheet => some (.rules, 0)
  | ruleList => some (.rules, 1)
  | declarationList => some (.declarations, 1)
  | selectorList => some (.selectors, 0)
  | _ => none

theorem Node.listing?_eq (n : Node) :
    n.listing? = n.kind.listShape?.map fun shape => .ofElements shape.1 shape.2 n.elements := by
  unfold Node.listing? NodeKind.listShape?
  split <;> simp_all

namespace Listing

/-- A list whose elements can be told apart: no separators but between selectors, and no tokens
behind selectors. -/
structure Formed (k : ListKind) (n : Nat) (l : Listing) : Prop where
  kind : l.kind = k
  opening : l.opening.length = n
  separators : k ≠ .selectors → ∀ pair ∈ l.items.pairs, pair.2 = none
  closing : k = .selectors → l.closing = []

/-- The kinds of the separators behind the items of a list. -/
def separatorKinds (l : Listing) : List (Option TokenKind) :=
  l.items.pairs.map fun pair => pair.2.map (·.kind)

theorem endsSeparated_eq (l : Listing) :
    l.items.endsSeparated = l.separatorKinds.getLast?.any Option.isSome := by
  rw [Punctuated.endsSeparated, separatorKinds, List.getLast?_map, Option.any_map]
  congr
  funext pair
  simp

theorem elements_ofList (kind : ListKind) (opening : List Token) (ns : List Node)
    (closing : List Token) : (⟨kind, opening, .ofList ns, closing⟩ : Listing).elements =
      opening.map .token ++ ns.map .node ++ closing.map .token := by
  have hitems : (Punctuated.ofList ns : Punctuated Node Token).pairs.flatMap
      (fun pair => .node pair.1 :: Element.ofToken? pair.2) = ns.map .node := by
    simp only [Punctuated.ofList]
    induction ns with
    | nil => rfl
    | cons n ns ih => simp [ih]
  rw [elements]
  exact congrArg (opening.map .token ++ · ++ closing.map .token) hitems

theorem endsSeparated_ofList (ns : List Node) :
    (Punctuated.ofList ns : Punctuated Node Token).endsSeparated = false := by
  rw [Punctuated.endsSeparated, Punctuated.ofList, List.getLast?_map]
  cases ns.getLast? <;> rfl

theorem split_tokens (separated : Bool) (ts : List Token) :
    split separated (ts.map .token) = ([], ts) := by
  induction ts with
  | nil => rfl
  | cons t ts ih => simp [split, ih]

theorem split_node (separated : Bool) (n : Node) (es : List Element)
    (h : separated = true → ∀ t fs, es ≠ .token t :: fs) :
    split separated (.node n :: es) = (split separated es).map ((n, none) :: ·) id := by
  match es with
  | [] => rfl
  | .node m :: es => rfl
  | .token t :: es =>
    cases separated with
    | true => exact absurd rfl (h rfl t es)
    | false => simp [split, Prod.map]

theorem split_pairs {kind : ListKind} {opening : Nat} {l : Listing} (h : l.Formed kind opening) :
    split (kind = .selectors) (l.items.pairs.flatMap
        (fun pair => .node pair.1 :: Element.ofToken? pair.2) ++ l.closing.map .token) =
      (l.items.pairs, l.closing) := by
  obtain ⟨-, -, hseparators, hclosing⟩ := h
  generalize l.items.pairs = pairs at *
  induction pairs with
  | nil => exact split_tokens _ _
  | cons pair pairs ih =>
    obtain ⟨n, separator⟩ := pair
    have ih' := ih fun hk pair hp => hseparators hk pair (List.mem_cons_of_mem _ hp)
    rw [List.flatMap_cons, List.append_assoc]
    cases separator with
    | none =>
      have hne : (decide (kind = .selectors)) = true → ∀ t fs,
          pairs.flatMap (fun pair => .node pair.1 :: Element.ofToken? pair.2) ++
            l.closing.map .token ≠ .token t :: fs := by
        intro hk t fs
        rw [hclosing (of_decide_eq_true hk)]
        cases pairs <;> simp
      rw [Element.ofToken?_none, List.cons_append, List.nil_append, split_node _ _ _ hne, ih']
      rfl
    | some t =>
      have hk : kind = .selectors := by
        by_contra hk
        simpa using hseparators hk (n, some t) List.mem_cons_self
      rw [hk, decide_eq_true rfl] at ih' ⊢
      rw [Element.ofToken?_some, List.cons_append, List.cons_append, List.nil_append, split,
        if_pos rfl, ih']
      rfl

/-- The roles of the elements of a well-formed list are read off them. -/
theorem Formed.ofElements {kind : ListKind} {opening : Nat} {l : Listing}
    (h : l.Formed kind opening) : Listing.ofElements kind opening l.elements = l := by
  have hopening : (l.opening.map Element.token).length = opening := by simpa using h.opening
  have htake : l.elements.take opening = l.opening.map .token := by
    rw [elements, List.append_assoc]
    exact hopening ▸ List.take_left
  have hdrop : l.elements.drop opening = l.items.pairs.flatMap
      (fun pair => .node pair.1 :: Element.ofToken? pair.2) ++ l.closing.map .token := by
    rw [elements, List.append_assoc]
    exact hopening ▸ List.drop_left
  have htokens : (l.opening.map Element.token).filterMap Element.token? = l.opening := by
    induction l.opening <;> simp_all [Element.token?]
  rw [Listing.ofElements, hdrop, split_pairs h, htake, htokens, ← h.kind]

/-- A list of nodes between tokens. -/
theorem formed_ofList {kind : ListKind} (hkind : kind ≠ .selectors) (opening : List Token)
    (ns : List Node) (closing : List Token) :
    (⟨kind, opening, .ofList ns, closing⟩ : Listing).Formed kind opening.length := by
  refine ⟨rfl, rfl, fun _ pair hp => ?_, fun h => absurd h hkind⟩
  obtain ⟨n, -, rfl⟩ := List.mem_map.mp hp
  rfl

/-- Without separators a list is its nodes between tokens. -/
theorem Formed.elements_eq {kind : ListKind} {opening : Nat} {l : Listing}
    (h : l.Formed kind opening) (hkind : kind ≠ .selectors) :
    l.elements = l.opening.map .token ++ l.nodes.map .node ++ l.closing.map .token := by
  have hnone := h.separators hkind
  rw [elements, nodes, Punctuated.values]
  congr 2
  generalize l.items.pairs = pairs at hnone
  induction pairs with
  | nil => rfl
  | cons pair pairs ih =>
    obtain ⟨n, separator⟩ := pair
    obtain ⟨rfl, hpairs⟩ := List.forall_mem_cons.mp hnone
    rw [List.flatMap_cons, ih hpairs]
    rfl

end Listing

namespace Declaration

/-- A declaration whose delimiters are of their kinds. -/
structure Formed (d : Declaration) : Prop where
  opening : ∀ t ∈ d.opening, t.kind = .openComment
  name : d.name.kind ≠ .openComment
  semicolon : ∀ t ∈ d.semicolon, t.kind = .semicolon
  closing : ∀ t ∈ d.closing, t.kind = .closeComment

/-- The roles of the elements of a well-formed declaration are read off them. -/
theorem Formed.ofElements? {d : Declaration} (h : d.Formed) :
    Declaration.ofElements? d.elements = some d := by
  obtain ⟨opening, name, colon, value, important, semicolon, closing⟩ := d
  obtain ⟨hopening, hname, hsemicolon, hclosing⟩ := h
  cases opening <;> cases important <;> cases semicolon <;> cases closing <;>
    simp_all [Declaration.ofElements?, elements, Element.ofToken?, Element.ofNode?,
      Element.splitToken, Element.splitNode]

end Declaration

namespace Node

/-- A node whose elements can be told apart by the roles that its kind asks for. -/
structure Formed (n : Node) : Prop where
  listing : ∀ {kind opening}, n.kind.listShape? = some (kind, opening) →
    ∃ l : Listing, l.Formed kind opening ∧ l.items.endsSeparated = false ∧
      n.elements = l.elements
  declaration : n.kind = .declaration → ∃ d : Declaration, d.Formed ∧ n.elements = d.elements

/-- Most kinds ask for nothing. -/
theorem formed_of_kind {n : Node} (hlist : n.kind.listShape? = none)
    (hdeclaration : n.kind ≠ .declaration) : n.Formed :=
  ⟨fun h => by simp [hlist] at h, fun h => absurd h hdeclaration⟩

theorem formed_of_listing {n : Node} {kind : ListKind} {opening : Nat} {l : Listing}
    (hkind : n.kind.listShape? = some (kind, opening)) (hl : l.Formed kind opening)
    (hends : l.items.endsSeparated = false) (helements : n.elements = l.elements) : n.Formed := by
  refine ⟨fun h => ?_, fun h => by simp [h, NodeKind.listShape?] at hkind⟩
  obtain ⟨rfl, rfl⟩ := Prod.mk.inj (Option.some.inj (hkind.symm.trans h))
  exact ⟨l, hl, hends, helements⟩

theorem formed_of_declaration {n : Node} {d : Declaration} (hkind : n.kind = .declaration)
    (hd : d.Formed) (helements : n.elements = d.elements) : n.Formed :=
  ⟨fun h => by simp [hkind, NodeKind.listShape?] at h, fun _ => ⟨d, hd, helements⟩⟩

theorem Formed.listing? {n : Node} (h : n.Formed) {kind : ListKind} {opening : Nat}
    (hkind : n.kind.listShape? = some (kind, opening)) :
    ∃ l : Listing, l.Formed kind opening ∧ l.items.endsSeparated = false ∧
      n.elements = l.elements ∧ n.listing? = some l := by
  obtain ⟨l, hl, hends, helements⟩ := h.listing hkind
  refine ⟨l, hl, hends, helements, ?_⟩
  rw [n.listing?_eq, hkind, helements, Option.map_some, hl.ofElements]

theorem Formed.declaration? {n : Node} (h : n.Formed) (hkind : n.kind = .declaration) :
    ∃ d : Declaration, d.Formed ∧ n.elements = d.elements ∧ n.declaration? = some d := by
  obtain ⟨d, hd, helements⟩ := h.declaration hkind
  refine ⟨d, hd, helements, ?_⟩
  rw [Node.declaration?, if_pos hkind, helements, hd.ofElements?]

end Node

/-- The kind of a token, and nothing for a node. -/
def Element.role : Element → Option TokenKind
  | .token t => some t.kind
  | .node _ => none

theorem Element.tokens_of_roles {es : List Element} {ts : List Token}
    (h : es.map role = (ts.map token).map role) :
    ∃ us : List Token, es = us.map token ∧ us.length = ts.length := by
  induction ts generalizing es with
  | nil => exact ⟨[], by simpa using h, rfl⟩
  | cons t ts ih =>
    obtain ⟨e, es', rfl, he, hes⟩ := List.map_eq_cons_iff.mp h
    obtain ⟨us, rfl, hlength⟩ := ih hes
    cases e with
    | token u => exact ⟨u :: us, rfl, by simp [hlength]⟩
    | node n => simp [role] at he

theorem Element.token?_of_roles {es : List Element} {o : Option Token}
    (h : es.map role = (ofToken? o).map role) :
    ∃ o' : Option Token, es = ofToken? o' ∧ o'.map (fun t => t.kind) = o.map (fun t => t.kind) := by
  cases o with
  | none => exact ⟨none, by simpa using h, rfl⟩
  | some t =>
    obtain ⟨e, es', rfl, he, hes⟩ := List.map_eq_cons_iff.mp h
    obtain rfl := List.map_eq_nil_iff.mp hes
    cases e with
    | token u => exact ⟨some u, rfl, he⟩
    | node n => simp [role] at he

theorem Element.node?_of_roles {es : List Element} {o : Option Node}
    (h : es.map role = (ofNode? o).map role) :
    ∃ o' : Option Node, es = ofNode? o' := by
  cases o with
  | none => exact ⟨none, by simpa using h⟩
  | some n =>
    obtain ⟨e, es', rfl, he, hes⟩ := List.map_eq_cons_iff.mp h
    obtain rfl := List.map_eq_nil_iff.mp hes
    cases e with
    | token u => simp [role] at he
    | node m => exact ⟨some m, rfl⟩

theorem Listing.pairs_of_roles {es : List Element} {pairs : List (Node × Option Token)}
    (h : es.map Element.role =
      (pairs.flatMap fun pair => .node pair.1 :: Element.ofToken? pair.2).map Element.role) :
    ∃ pairs' : List (Node × Option Token),
      es = (pairs'.flatMap fun pair => .node pair.1 :: Element.ofToken? pair.2) ∧
        pairs'.map (fun pair => pair.2.map (·.kind)) =
          pairs.map (fun pair => pair.2.map (·.kind)) := by
  induction pairs generalizing es with
  | nil => exact ⟨[], by simpa using h, rfl⟩
  | cons pair pairs ih =>
    rw [List.flatMap_cons, List.cons_append, List.map_cons, List.map_append] at h
    obtain ⟨e, es', rfl, he, hes⟩ := List.map_eq_cons_iff.mp h
    obtain ⟨as, bs, rfl, has, hbs⟩ := List.map_eq_append_iff.mp hes
    obtain ⟨separator, rfl, hkind⟩ := Element.token?_of_roles has
    obtain ⟨pairs', rfl, hkinds⟩ := ih hbs
    cases e with
    | token t => simp [Element.role] at he
    | node n =>
      refine ⟨(n, separator) :: pairs', rfl, ?_⟩
      rw [List.map_cons, List.map_cons, hkind, hkinds]

theorem Listing.Formed.of_roles {kind : ListKind} {opening : Nat} {l : Listing}
    (h : l.Formed kind opening) {es : List Element}
    (hroles : es.map Element.role = l.elements.map Element.role) :
    ∃ l' : Listing, l'.Formed kind opening ∧ l'.separatorKinds = l.separatorKinds ∧
      es = l'.elements := by
  rw [Listing.elements, List.map_append, List.map_append] at hroles
  obtain ⟨as, cs, rfl, has, hcs⟩ := List.map_eq_append_iff.mp hroles
  obtain ⟨as, bs, rfl, has, hbs⟩ := List.map_eq_append_iff.mp has
  obtain ⟨us, rfl, hopening⟩ := Element.tokens_of_roles has
  obtain ⟨pairs, rfl, hpairs⟩ := pairs_of_roles hbs
  obtain ⟨vs, rfl, hclosing⟩ := Element.tokens_of_roles hcs
  refine ⟨⟨kind, us, ⟨pairs⟩, vs⟩, ⟨rfl, hopening.trans h.opening, ?_, ?_⟩, hpairs, rfl⟩
  · intro hk pair hp
    have hmem : pair.2.map (·.kind) ∈ l.separatorKinds := by
      rw [Listing.separatorKinds, ← hpairs]
      exact List.mem_map_of_mem hp
    obtain ⟨pair', hp', heq⟩ := List.mem_map.mp hmem
    rw [h.separators hk pair' hp'] at heq
    simpa using heq.symm
  · intro hk
    rw [h.closing hk] at hclosing
    exact List.length_eq_zero_iff.mp hclosing

/-- Declarations with the same delimiters. -/
structure Declaration.SameDelimiters (d d' : Declaration) : Prop where
  opening : d'.opening.isSome = d.opening.isSome
  semicolon : d'.semicolon.isSome = d.semicolon.isSome
  closing : d'.closing.isSome = d.closing.isSome

theorem Declaration.Formed.of_roles {d : Declaration} (h : d.Formed) {es : List Element}
    (hroles : es.map Element.role = d.elements.map Element.role) :
    ∃ d' : Declaration, d'.Formed ∧ d.SameDelimiters d' ∧ es = d'.elements := by
  rw [Declaration.elements, List.map_append, List.map_cons, List.map_cons, List.map_cons,
    List.map_append, List.map_append] at hroles
  obtain ⟨as, bs, rfl, has, hbs⟩ := List.map_eq_append_iff.mp hroles
  obtain ⟨opening, rfl, hopening⟩ := Element.token?_of_roles has
  obtain ⟨e₁, bs, rfl, he₁, hbs⟩ := List.map_eq_cons_iff.mp hbs
  obtain ⟨e₂, bs, rfl, he₂, hbs⟩ := List.map_eq_cons_iff.mp hbs
  obtain ⟨e₃, bs, rfl, he₃, hbs⟩ := List.map_eq_cons_iff.mp hbs
  obtain ⟨bs, fs, rfl, hbs, hfs⟩ := List.map_eq_append_iff.mp hbs
  obtain ⟨cs, gs, rfl, hcs, hgs⟩ := List.map_eq_append_iff.mp hbs
  obtain ⟨important, rfl⟩ := Element.node?_of_roles hcs
  obtain ⟨semicolon, rfl, hsemicolon⟩ := Element.token?_of_roles hgs
  obtain ⟨closing, rfl, hclosing⟩ := Element.token?_of_roles hfs
  have kinds : ∀ {o o' : Option Token} {kind : TokenKind},
      o'.map (fun t => t.kind) = o.map (fun t => t.kind) → (∀ t ∈ o, t.kind = kind) →
        ∀ t ∈ o', t.kind = kind := by
    rintro (_ | t) (_ | u) kind <;> simp_all
  have same : ∀ {o o' : Option Token}, o'.map (fun t => t.kind) = o.map (fun t => t.kind) →
      o'.isSome = o.isSome := fun h => by simpa using congrArg Option.isSome h
  match e₁, e₂, e₃ with
  | .token name, .token colon, .node value =>
    refine ⟨⟨opening, name, colon, value, important, semicolon, closing⟩,
      ⟨kinds hopening h.opening, ?_, kinds hsemicolon h.semicolon, kinds hclosing h.closing⟩,
      ⟨same hopening, same hsemicolon, same hclosing⟩, rfl⟩
    have hname : name.kind = d.name.kind := by simpa [Element.role] using he₁
    rw [hname]
    exact h.name
  | .node _, _, _ => simp [Element.role] at he₁
  | _, .node _, _ => simp [Element.role] at he₂
  | _, _, .token _ => simp [Element.role] at he₃

theorem Node.Formed.of_roles {n m : Node} (h : n.Formed) (hkind : m.kind = n.kind)
    (hroles : m.elements.map Element.role = n.elements.map Element.role) : m.Formed := by
  constructor
  · intro kind opening hlist
    obtain ⟨l, hl, hends, helements⟩ := h.listing (hkind ▸ hlist)
    obtain ⟨l', hl', hkinds, helements'⟩ := hl.of_roles (hroles.trans (by rw [helements]))
    rw [l.endsSeparated_eq, ← hkinds, ← l'.endsSeparated_eq] at hends
    exact ⟨l', hl', hends, helements'⟩
  · intro hdeclaration
    obtain ⟨d, hd, helements⟩ := h.declaration (hkind ▸ hdeclaration)
    obtain ⟨d', hd', -, helements'⟩ := hd.of_roles (hroles.trans (by rw [helements]))
    exact ⟨d', hd', helements'⟩

end CssTree
