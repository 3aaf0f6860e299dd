import CssTree.Edit.Mutation
import CssTree.Proofs.Tree.Update
import Mathlib.Data.List.Perm.Basic

namespace CssTree

namespace Element

theorem entriesOf_eq (p : Option NodeId) (es : List Element) :
    entriesOf p es = (nodes es).flatMap (·.entries p) := by
  induction es with
  | nil => rfl
  | cons e es ih => cases e <;> simp [ih]

theorem descendantsOf_eq (es : List Element) :
    descendantsOf es = (nodes es).flatMap (·.descendants) := by
  induction es with
  | nil => rfl
  | cons e es ih => cases e <;> simp [ih]

@[simp] theorem nodes_append (es fs : List Element) : nodes (es ++ fs) = nodes es ++ nodes fs :=
  List.filterMap_append

@[simp] theorem nodes_tokens (ts : List Token) : nodes (ts.map .token) = [] := by
  induction ts with
  | nil => rfl
  | cons t ts ih => simpa using ih

@[simp] theorem nodes_ofToken? (o : Option Token) : nodes (ofToken? o) = [] := by
  cases o <;> rfl

@[simp] theorem nodes_ofNode? (o : Option Node) : nodes (ofNode? o) = o.toList := by
  cases o <;> rfl

end Element

namespace Node

theorem entries_children (p : Option NodeId) (n : Node) :
    n.entries p = (n.id, p) :: n.children.flatMap (·.entries (some n.id)) := by
  rw [entries_eq, Element.entriesOf_eq]
  rfl

theorem descendants_children (n : Node) :
    n.descendants = n :: n.children.flatMap (·.descendants) := by
  cases n
  rw [descendants_mk, Element.descendantsOf_eq]
  rfl

/-- Children that are exchanged take their entries along. -/
theorem entries_perm {m m' : Node} {added removed : List Node} (hid : m'.id = m.id)
    (h : (removed ++ m'.children).Perm (added ++ m.children)) (p : Option NodeId) :
    (m.entries p ++ added.flatMap (·.entries (some m.id))).Perm
      (m'.entries p ++ removed.flatMap (·.entries (some m.id))) := by
  have hflat := h.flatMap_right (·.entries (some m.id))
  rw [List.flatMap_append, List.flatMap_append] at hflat
  rw [entries_children, entries_children, hid, List.cons_append, List.cons_append]
  refine .cons _ ?_
  exact List.perm_append_comm.trans (hflat.symm.trans List.perm_append_comm)

theorem mem_descendants_self (n : Node) : n ∈ n.descendants := by
  rw [n.descendants_children]
  exact List.mem_cons_self

theorem mem_descendants_child {n m : Node} (h : m ∈ n.children) : m ∈ n.descendants := by
  rw [n.descendants_children]
  exact List.mem_cons_of_mem _ (List.mem_flatMap.mpr ⟨m, h, m.mem_descendants_self⟩)

/-- A node that has some of its children from another one. -/
theorem all_of_children {Q : Node → Prop} {m m' : Node} (hm' : Q m')
    (h : ∀ c ∈ m'.children, (∀ x ∈ c.descendants, Q x) ∨ c ∈ m.children)
    (hm : ∀ x ∈ m.descendants, Q x) : ∀ x ∈ m'.descendants, Q x := by
  intro x hx
  rw [descendants_children] at hx
  rcases List.mem_cons.mp hx with rfl | hx
  · exact hm'
  · obtain ⟨c, hc, hxc⟩ := List.mem_flatMap.mp hx
    rcases h c hc with hnew | hold
    · exact hnew x hxc
    · exact hm x (mem_descendants_trans (mem_descendants_child hold) hxc)

end Node

theorem insertIdx_length {α : Type} (xs ys : List α) (x : α) :
    (xs ++ ys).insertIdx xs.length x = xs ++ x :: ys := by
  induction xs with
  | nil => rfl
  | cons y xs ih => simpa using ih

namespace Listing

variable {kind : ListKind} {opening index : Nat} {l : Listing} {n : Node}
  {separator : Option Token} {front back : List (Node × Option Token)}

theorem nodes_elements (l : Listing) : Element.nodes l.elements = l.nodes := by
  have hpairs : ∀ pairs : List (Node × Option Token), Element.nodes
      (pairs.flatMap fun pair => .node pair.1 :: Element.ofToken? pair.2) = pairs.map (·.1) := by
    intro pairs
    induction pairs with
    | nil => rfl
    | cons pair pairs ih => simp [ih]
  simp [elements, nodes, Punctuated.values, hpairs]

theorem pairs_insert (h : l.items.pairs = front ++ back) (hindex : front.length = index) :
    (l.insert index n separator).items.pairs = front ++ (n, separator) :: back := by
  have hle : index ≤ l.items.size := by
    rw [Punctuated.size, h, List.length_append]
    omega
  rw [insert, Punctuated.insert?, if_pos hle, h, ← hindex, insertIdx_length]
  rfl

theorem pairs_remove {pair : Node × Option Token} (h : l.items.pairs = front ++ pair :: back)
    (hindex : front.length = index) : (l.remove index).items.pairs = front ++ back := by
  rw [remove, Punctuated.remove?, h, ← hindex]
  simp [List.eraseIdx_append_of_length_le (Nat.le_refl _)]

theorem pairs_setSeparator {pair : Node × Option Token}
    (h : l.items.pairs = front ++ pair :: back) (hindex : front.length = index) :
    (l.setSeparator index separator).items.pairs = front ++ (pair.1, separator) :: back := by
  rw [setSeparator, Punctuated.setSeparator, h, ← hindex]
  simp

/-- The items in front of a place in a list and those behind it. -/
theorem exists_front (h : index ≤ l.items.size) :
    ∃ front back, l.items.pairs = front ++ back ∧ front.length = index :=
  ⟨l.items.pairs.take index, l.items.pairs.drop index, (List.take_append_drop _ _).symm,
    List.length_take_of_le h⟩

theorem exists_item (h : l.items.get? index = some n) :
    ∃ front separator back, l.items.pairs = front ++ (n, separator) :: back ∧
      front.length = index := by
  obtain ⟨pair, hget, rfl⟩ := Option.map_eq_some_iff.mp h
  obtain ⟨hlt, rfl⟩ := List.getElem?_eq_some_iff.mp hget
  refine ⟨l.items.pairs.take index, l.items.pairs[index].2, l.items.pairs.drop (index + 1), ?_,
    List.length_take_of_le (Nat.le_of_lt hlt)⟩
  rw [List.getElem_cons_drop, List.take_append_drop]

theorem perm_insert (h : index ≤ l.items.size) :
    (l.insert index n separator).nodes.Perm (n :: l.nodes) := by
  obtain ⟨front, back, hpairs, hindex⟩ := exists_front h
  rw [nodes, nodes, Punctuated.values, Punctuated.values, pairs_insert hpairs hindex, hpairs]
  simp only [List.map_append, List.map_cons]
  exact List.perm_middle

theorem perm_remove (h : l.items.get? index = some n) :
    l.nodes.Perm (n :: (l.remove index).nodes) := by
  obtain ⟨front, separator, back, hpairs, hindex⟩ := exists_item h
  rw [nodes, nodes, Punctuated.values, Punctuated.values, pairs_remove hpairs hindex, hpairs]
  simp only [List.map_append, List.map_cons]
  exact List.perm_middle

theorem length_nodes (l : Listing) : l.nodes.length = l.items.size := by
  simp [nodes, Punctuated.values, Punctuated.size]

theorem nodes_setSeparator (index : Nat) (separator : Option Token) (l : Listing) :
    (l.setSeparator index separator).nodes = l.nodes := by
  cases hget : l.items.get? index with
  | none =>
    rw [Punctuated.get?, Option.map_eq_none_iff] at hget
    rw [setSeparator, Punctuated.setSeparator, hget]
  | some n =>
    obtain ⟨front, separator, back, hpairs, hindex⟩ := exists_item hget
    rw [nodes, nodes, Punctuated.values, Punctuated.values, pairs_setSeparator hpairs hindex,
      hpairs]
    simp

@[simp] theorem size_setSeparator (index : Nat) (separator : Option Token) (l : Listing) :
    (l.setSeparator index separator).items.size = l.items.size := by
  rw [← length_nodes, nodes_setSeparator, length_nodes]

namespace Formed

theorem insert (h : l.Formed kind opening) (hle : index ≤ l.items.size)
    (hseparator : kind ≠ .selectors → separator = none) :
    (l.insert index n separator).Formed kind opening := by
  obtain ⟨front, back, hpairs, hindex⟩ := exists_front hle
  refine ⟨h.kind, h.opening, fun hk pair hp => ?_, h.closing⟩
  rw [pairs_insert hpairs hindex, List.mem_append, List.mem_cons] at hp
  have hold := h.separators hk pair
  rw [hpairs, List.mem_append] at hold
  rcases hp with hp | rfl | hp
  · exact hold (Or.inl hp)
  · exact hseparator hk
  · exact hold (Or.inr hp)

theorem remove (h : l.Formed kind opening) (hget : l.items.get? index = some n) :
    (l.remove index).Formed kind opening := by
  obtain ⟨front, separator, back, hpairs, hindex⟩ := exists_item hget
  refine ⟨h.kind, h.opening, fun hk pair hp => h.separators hk pair ?_, h.closing⟩
  rw [pairs_remove hpairs hindex, List.mem_append] at hp
  rw [hpairs, List.mem_append, List.mem_cons]
  exact hp.imp_right Or.inr

theorem setSeparator (h : l.Formed kind opening) (hseparator : kind ≠ .selectors → separator = none)
    (index : Nat) : (l.setSeparator index separator).Formed kind opening := by
  cases hget : l.items.get? index with
  | none =>
    rw [Punctuated.get?, Option.map_eq_none_iff] at hget
    rw [Listing.setSeparator, Punctuated.setSeparator, hget]
    exact h
  | some n =>
    obtain ⟨front, old, back, hpairs, hindex⟩ := exists_item hget
    refine ⟨h.kind, h.opening, fun hk pair hp => ?_, h.closing⟩
    rw [pairs_setSeparator hpairs hindex, List.mem_append, List.mem_cons] at hp
    have hold := h.separators hk pair
    rw [hpairs, List.mem_append, List.mem_cons] at hold
    rcases hp with hp | rfl | hp
    · exact hold (Or.inl hp)
    · exact hseparator hk
    · exact hold (Or.inr (Or.inr hp))

end Formed

end Listing

namespace Declaration

/-- The child nodes of a declaration. -/
def nodes (d : Declaration) : List Node := d.value :: d.important.toList

theorem nodes_elements (d : Declaration) : Element.nodes d.elements = d.nodes := by
  simp [elements, nodes]

end Declaration

namespace Punctuated

variable {α β : Type}

theorem endsSeparated_eq_false {l : Punctuated α β} :
    l.endsSeparated = false ↔ ∀ pair ∈ l.pairs.getLast?, pair.2 = none := by
  rw [endsSeparated]
  cases l.pairs.getLast? <;> simp

end Punctuated

namespace Listing

variable {l : Listing} {n : Node} {index : Nat} {separator : Option Token}

/-- A list with an item in front of another, or with one without a separator behind all. -/
theorem endsSeparated_insert (h : index ≤ l.items.size)
    (hlast : index < l.items.size → l.items.endsSeparated = false)
    (hseparator : l.items.size ≤ index → separator = none) :
    (l.insert index n separator).items.endsSeparated = false := by
  obtain ⟨front, back, hpairs, hindex⟩ := exists_front h
  have hsize : l.items.size = front.length + back.length := by
    rw [Punctuated.size, hpairs, List.length_append]
  rw [Punctuated.endsSeparated_eq_false, pairs_insert hpairs hindex]
  intro pair hp
  cases back with
  | nil =>
    rw [List.getLast?_concat] at hp
    obtain rfl := Option.some.inj hp
    exact hseparator (by rw [hsize, ← hindex]; exact Nat.le_refl _)
  | cons next back =>
    have hold := Punctuated.endsSeparated_eq_false.mp
      (hlast (by rw [hsize, ← hindex]; simp)) pair
    rw [hpairs, List.getLast?_append_cons] at hold
    rw [List.getLast?_append_cons, List.getLast?_cons_cons] at hp
    exact hold hp

/-- A list without an item that was not the last. -/
theorem endsSeparated_remove {next : Node} (hget : l.items.get? index = some n)
    (hnext : l.items.get? (index + 1) = some next) (hlast : l.items.endsSeparated = false) :
    (l.remove index).items.endsSeparated = false := by
  obtain ⟨front, separator, back, hpairs, hindex⟩ := exists_item hget
  rw [Punctuated.endsSeparated_eq_false, pairs_remove hpairs hindex]
  rw [Punctuated.endsSeparated_eq_false, hpairs] at hlast
  cases back with
  | nil => simp [Punctuated.get?, hpairs, ← hindex] at hnext
  | cons next back =>
    intro pair hp
    rw [List.getLast?_append_cons] at hp
    refine hlast pair ?_
    rwa [List.getLast?_append_cons, List.getLast?_cons_cons]

/-- The items of a list without the last one and the comma in front of it. -/
theorem pairs_removeLast {front : List (Node × Option Token)} {pair : Node × Option Token}
    (h : l.items.pairs = front ++ [pair]) (hindex : front.length = index) :
    l.commaBefore index = none ∧ (l.removeLast index).items.pairs = front ∨
      ∃ others last comma, front = others ++ [(last, some comma)] ∧
        l.commaBefore index = some comma ∧
          (l.removeLast index).items.pairs = others ++ [(last, none)] := by
  rw [removeLast]
  cases hcomma : l.commaBefore index with
  | none =>
    refine Or.inl ⟨rfl, ?_⟩
    rw [Option.isSome_none, if_neg (by simp), pairs_remove h hindex, List.append_nil]
  | some comma =>
    rw [commaBefore] at hcomma
    split at hcomma
    next hselectors =>
      rw [Bool.and_eq_true, decide_eq_true_iff, decide_eq_true_iff] at hselectors
      have hne : front ≠ [] := by
        rintro rfl
        exact absurd hindex (Nat.ne_of_lt hselectors.2)
      obtain ⟨others, ⟨last, separator⟩, rfl⟩ := List.eq_nil_or_concat front |>.resolve_left hne
      rw [List.concat_eq_append] at h hindex ⊢
      have hothers : others.length = index - 1 := by
        rw [← hindex]
        simp
      have hlast : separator = some comma := by
        simpa [Punctuated.separator?, h, ← hothers] using hcomma
      rw [List.append_assoc] at h
      have hset : (l.setSeparator (index - 1) none).items.pairs = others ++ (last, none) :: [pair] :=
        pairs_setSeparator h hothers
      rw [List.append_cons] at hset
      refine Or.inr ⟨others, last, comma, by rw [hlast], rfl, ?_⟩
      rw [Option.isSome_some, if_pos rfl, pairs_remove hset (by simpa using hindex),
        List.append_nil]
    next => simp at hcomma

theorem exists_last (hget : l.items.get? index = some n)
    (hnext : l.items.get? (index + 1) = none) :
    ∃ front separator, l.items.pairs = front ++ [(n, separator)] ∧ front.length = index := by
  obtain ⟨front, separator, back, hpairs, hindex⟩ := exists_item hget
  cases back with
  | nil => exact ⟨front, separator, hpairs, hindex⟩
  | cons pair back => simp [Punctuated.get?, hpairs, ← hindex] at hnext

theorem Formed.removeLast {kind : ListKind} {opening : Nat} (h : l.Formed kind opening)
    (hget : l.items.get? index = some n) (hnext : l.items.get? (index + 1) = none) :
    (l.removeLast index).Formed kind opening ∧ (l.removeLast index).items.endsSeparated = false ∧
      l.nodes.Perm (n :: (l.removeLast index).nodes) := by
  obtain ⟨front, separator, hpairs, hindex⟩ := exists_last hget hnext
  have hkind : (l.removeLast index).kind = l.kind := by
    rw [Listing.removeLast]
    split <;> rfl
  have hopening : (l.removeLast index).opening = l.opening := by
    rw [Listing.removeLast]
    split <;> rfl
  have hclosing : (l.removeLast index).closing = l.closing := by
    rw [Listing.removeLast]
    split <;> rfl
  have hformed : ∀ {pairs}, (l.removeLast index).items.pairs = pairs →
      (kind ≠ .selectors → ∀ pair ∈ pairs, pair.2 = none) →
        (l.removeLast index).Formed kind opening := fun heq hnone =>
    ⟨hkind.trans h.kind, hopening ▸ h.opening, heq ▸ hnone, hclosing ▸ h.closing⟩
  rcases pairs_removeLast hpairs hindex with ⟨hcomma, heq⟩ | ⟨others, last, comma, rfl, -, heq⟩
  · refine ⟨hformed heq fun hk pair hp => ?_, ?_, ?_⟩
    · exact h.separators hk pair (by rw [hpairs]; exact List.mem_append_left _ hp)
    · rw [Punctuated.endsSeparated_eq_false, heq]
      intro pair hp
      obtain ⟨others, rfl⟩ := List.getLast?_eq_some_iff.mp hp
      by_cases hk : kind = .selectors
      · have hothers : others.length = index - 1 := by
          rw [← hindex]
          simp
        have hpos : 0 < index := by
          rw [← hindex]
          simp
        rw [commaBefore, h.kind, hk] at hcomma
        simpa [hpos, Punctuated.separator?, hpairs, ← hothers] using hcomma
      · exact h.separators hk pair (by rw [hpairs]; simp)
    · rw [nodes, nodes, Punctuated.values, Punctuated.values, heq, hpairs, List.map_append]
      exact List.perm_append_comm
  · refine ⟨hformed heq fun hk pair hp => ?_, ?_, ?_⟩
    · have hold := h.separators hk (last, some comma) (by rw [hpairs]; simp)
      simp at hold
    · rw [Punctuated.endsSeparated_eq_false, heq]
      simp
    · rw [nodes, nodes, Punctuated.values, Punctuated.values, heq, hpairs]
      have hswap : ((others.map (·.1) ++ [last]) ++ [n]).Perm ([n] ++ (others.map (·.1) ++ [last])) :=
        List.perm_append_comm
      simpa using hswap

end Listing

theorem Element.nodes_skeletonAll (es : List Element) :
    nodes (skeletonAll es) = (nodes es).map Node.skeleton := by
  induction es with
  | nil => rfl
  | cons e es ih => cases e <;> simp [ih]

namespace Node

variable {m : Node} {l : Listing} {d : Declaration}

theorem formed_of_content {n : Node} (hkind : m.kind = n.kind) (helements : m.elements = n.elements)
    (h : n.Formed) : m.Formed := by
  constructor
  · rw [hkind, helements]
    exact h.listing
  · rw [hkind, helements]
    exact h.declaration

theorem Formed.of_listing? (h : m.Formed) (hl : m.listing? = some l) :
    ∃ kind opening, m.kind.listShape? = some (kind, opening) ∧ l.Formed kind opening ∧
      l.items.endsSeparated = false ∧ m.elements = l.elements := by
  rw [listing?_eq] at hl
  obtain ⟨⟨kind, opening⟩, hshape, -⟩ := Option.map_eq_some_iff.mp hl
  obtain ⟨l', hl', hends, helements, hlisting⟩ := h.listing? hshape
  rw [listing?_eq] at hlisting
  obtain rfl := Option.some.inj (hlisting.symm.trans hl)
  exact ⟨kind, opening, hshape, hl', hends, helements⟩

theorem Formed.elements_listing (h : m.Formed) (hl : m.listing? = some l) :
    m.elements = l.elements := by
  obtain ⟨-, -, -, -, -, helements⟩ := h.of_listing? hl
  exact helements

theorem Formed.endsSeparated_listing (h : m.Formed) (hl : m.listing? = some l) :
    l.items.endsSeparated = false := by
  obtain ⟨-, -, -, -, hends, -⟩ := h.of_listing? hl
  exact hends

theorem Formed.of_declaration? (h : m.Formed) (hd : m.declaration? = some d) :
    m.kind = .declaration ∧ d.Formed ∧ m.elements = d.elements := by
  have hkind : m.kind = .declaration := by
    rw [Node.declaration?] at hd
    by_contra hne
    simp [hne] at hd
  obtain ⟨d', hd', helements, hdeclaration⟩ := h.declaration? hkind
  obtain rfl := Option.some.inj (hdeclaration.symm.trans hd)
  exact ⟨hkind, hd', helements⟩

theorem Formed.elements_declaration (h : m.Formed) (hd : m.declaration? = some d) :
    m.elements = d.elements := by
  obtain ⟨-, -, helements⟩ := h.of_declaration? hd
  exact helements

theorem Formed.children_listing (h : m.Formed) (hl : m.listing? = some l) :
    m.children = l.nodes := by
  rw [← l.nodes_elements, ← h.elements_listing hl]
  rfl

/-- The items of a list are children of its node. -/
theorem Formed.mem_children_listing (h : m.Formed) (hl : m.listing? = some l)
    {pair : Node × Option Token} (hpair : pair ∈ l.items.pairs) : pair.1 ∈ m.children := by
  rw [h.children_listing hl]
  exact List.mem_map_of_mem hpair

theorem Formed.mem_children_last? {c : Node} (h : m.Formed) (hl : m.listing? = some l)
    (hc : l.items.last? = some c) : c ∈ m.children := by
  obtain ⟨pair, hpair, rfl⟩ := Option.map_eq_some_iff.mp hc
  exact h.mem_children_listing hl (List.mem_of_getLast? hpair)

theorem Formed.getElem?_children (h : m.Formed) (hl : m.listing? = some l) (i : Nat) :
    m.children[i]? = l.items.get? i := by
  rw [h.children_listing hl, Listing.nodes, Punctuated.values, List.getElem?_map, Punctuated.get?]

theorem Formed.children_declaration (h : m.Formed) (hd : m.declaration? = some d) :
    m.children = d.nodes := by
  rw [← d.nodes_elements, ← h.elements_declaration hd]
  rfl

theorem children_skeleton (n : Node) : n.skeleton.children = n.children.map skeleton := by
  rw [children, skeleton_elements]
  exact Element.nodes_skeletonAll n.elements

theorem ids_children_of_skeleton {n : Node} (heq : m.skeleton = n.skeleton) :
    m.children.map Node.id = n.children.map Node.id := by
  simpa [children_skeleton, Function.comp_def] using
    congrArg (fun x : Node => x.children.map Node.id) heq

/-- The same node with other spans and texts lists as many nodes. -/
theorem listing?_of_skeleton {n : Node} (hn : n.Formed) (hl : n.listing? = some l)
    (heq : m.skeleton = n.skeleton) :
    ∃ l' : Listing, m.listing? = some l' ∧ l'.kind = l.kind ∧ l'.items.size = l.items.size ∧
      l'.items.endsSeparated = false := by
  obtain ⟨kind, opening, hshape, hlist, -, -⟩ := hn.of_listing? hl
  have hkind : m.kind = n.kind := by rw [← m.skeleton_kind, heq, n.skeleton_kind]
  have hm := hn.of_skeleton heq
  obtain ⟨l', hlist', hends, -, hl'⟩ := hm.listing? (hkind ▸ hshape)
  have hlength : l'.nodes.length = l.nodes.length := by
    rw [← hm.children_listing hl', ← hn.children_listing hl]
    simpa [children_skeleton] using congrArg (fun x : Node => x.children.length) heq
  rw [l'.length_nodes, l.length_nodes] at hlength
  exact ⟨l', hl', hlist'.kind.trans hlist.kind.symm, hlength, hends⟩

/-- Which delimiters a declaration has can be told by the roles of the elements. -/
theorem declaration?_of_roles {n : Node} (hn : n.Formed) (hd : n.declaration? = some d)
    (hkind : m.kind = n.kind)
    (hroles : m.elements.map Element.role = n.elements.map Element.role) :
    ∃ d' : Declaration, m.declaration? = some d' ∧ d.SameDelimiters d' := by
  obtain ⟨hdeclaration, hformed, helements⟩ := hn.of_declaration? hd
  rw [helements] at hroles
  obtain ⟨d', hformed', hsame, helements'⟩ := hformed.of_roles hroles
  refine ⟨d', ?_, hsame⟩
  rw [Node.declaration?, if_pos (hkind.trans hdeclaration), helements', hformed'.ofElements?]

theorem declaration?_of_skeleton {n : Node} (hn : n.Formed) (hd : n.declaration? = some d)
    (heq : m.skeleton = n.skeleton) :
    ∃ d' : Declaration, m.declaration? = some d' ∧ d.SameDelimiters d' ∧
      d'.nodes.length = d.nodes.length := by
  obtain ⟨d', hd', hsame⟩ :=
    declaration?_of_roles hn hd (kind_of_skeleton heq) (roles_of_skeleton heq)
  refine ⟨d', hd', hsame, ?_⟩
  rw [← (hn.of_skeleton heq).children_declaration hd', ← hn.children_declaration hd]
  simpa using congrArg List.length (ids_children_of_skeleton heq)

theorem listing?_relist {kind : ListKind} {opening : Nat} {n : Node}
    (hshape : n.kind.listShape? = some (kind, opening)) (hl : l.Formed kind opening) :
    ({ n with elements := l.elements } : Node).listing? = some l := by
  rw [listing?_eq]
  show n.kind.listShape?.map _ = _
  rw [hshape, Option.map_some, hl.ofElements]

@[simp] theorem id_mapListing (f : Listing → Listing) (n : Node) : (n.mapListing f).id = n.id := by
  rw [mapListing]
  split <;> rfl

@[simp] theorem id_mapDeclaration (f : Declaration → Declaration) (n : Node) :
    (n.mapDeclaration f).id = n.id := by
  rw [mapDeclaration]
  split <;> rfl

@[simp] theorem kind_mapDeclaration (f : Declaration → Declaration) (n : Node) :
    (n.mapDeclaration f).kind = n.kind := by
  rw [mapDeclaration]
  split <;> rfl

theorem mapListing_of (hl : m.listing? = some l) (f : Listing → Listing) :
    m.mapListing f = { m with elements := (f l).elements } := by
  rw [mapListing, hl]

theorem mapDeclaration_of (hd : m.declaration? = some d) (f : Declaration → Declaration) :
    m.mapDeclaration f = { m with elements := (f d).elements } := by
  rw [mapDeclaration, hd]

end Node

end CssTree
