import CssTree.Proofs.Edit.Orderly
import CssTree.Proofs.Session

namespace CssTree

namespace Session

variable {s : Session}

theorem evolves_apply (h : s.tree.Sound []) (hproper : ∀ x ∈ s.tree.root.descendants, x.Proper)
    (m : Mutation) :
    s.tree.root.Evolves (m.exposes s.tree = false) (s.apply m).2.1.tree.root := by
  rcases root_apply h m with hroot | ⟨-, c, hedited⟩
  · rw [hroot]
    exact .refl
  · exact hedited.evolves h hproper

/-- A call exposes a declaration. Calls that move spans only never do. -/
def exposesBy (s : Session) : Call → Bool
  | .edit m => m.exposes s.tree
  | _ => false

theorem evolves_call (h : s.tree.Sound []) (hproper : ∀ x ∈ s.tree.root.descendants, x.Proper)
    (c : Call) : s.tree.root.Evolves (s.exposesBy c = false) (s.call c).tree.root := by
  cases c with
  | edit m => exact evolves_apply h hproper m
  | shift node lines columns => exact .alike .refl (Tree.Alike.shift node lines columns _).root
  | makeRoom node inserted => exact .alike .refl (Tree.Alike.makeRoom node inserted _).root
  | closeGap deleted => exact .alike .refl (Tree.Alike.closeGap deleted none _).root
  | resize node span => exact .alike .refl (Tree.Alike.resize node span _).root
  | observe => exact .refl
  | release => exact .refl

theorem proper_run (h : s.tree.Sound []) (hproper : ∀ x ∈ s.tree.root.descendants, x.Proper)
    (calls : List Call) : ∀ x ∈ (s.run calls).tree.root.descendants, x.Proper := by
  induction calls generalizing s with
  | nil => exact hproper
  | cons c calls ih => exact ih (sound_call h c) ((evolves_call h hproper c).proper hproper)

/-- One of the calls exposes a declaration. -/
def exposes (s : Session) : List Call → Bool
  | [] => false
  | c :: calls => s.exposesBy c || (s.call c).exposes calls

theorem terminated_run (h : s.tree.Sound []) (hproper : ∀ x ∈ s.tree.root.descendants, x.Proper)
    (hterminated : ∀ x ∈ s.tree.root.descendants, x.Terminated) {calls : List Call}
    (hquiet : s.exposes calls = false) :
    ∀ x ∈ (s.run calls).tree.root.descendants, x.Terminated := by
  induction calls generalizing s with
  | nil => exact hterminated
  | cons c calls ih =>
    rw [exposes, Bool.or_eq_false_iff] at hquiet
    have hevolves := evolves_call h hproper c
    exact ih (sound_call h c) (hevolves.proper hproper)
      (hevolves.terminated hquiet.1 hproper hterminated) hquiet.2

theorem orderly_parse (p : Production) (config : Config) (t : Text) :
    (Tree.parse p config t).root.Orderly := p.parse_orderly _ _ _

/-- Whatever was read and whatever calls were made on the tree, every node has a child in each of
its slots and no others, of a kind that the slot admits. A style sheet is only found at the root. -/
theorem slots_filled (p : Production) (config : Config) (t : Text) (calls : List Call) :
    let root := (Session.run ⟨Tree.parse p config t, false⟩ calls).tree.root
    ∀ n ∈ root.descendants, n.Slotted ∧ (n.kind = .styleSheet → n = root) := by
  intro root n hn
  have hproper : ∀ x ∈ root.descendants, x.Proper := proper_run (Tree.sound_parse p config t)
    (fun x hx => (orderly_parse p config t x hx).1) calls
  refine ⟨(hproper n hn).slots, fun hkind => ?_⟩
  rcases Node.exists_parent hn with hroot | ⟨parent, hparent, hchild⟩
  · exact hroot
  · exact absurd hkind ((hproper parent hparent).slots.kind_child hchild)

/-- What could not be read stands in the place of the selectors. -/
theorem slots_filled_replaced :
    let s : Session := ⟨Tree.parse .styleSheet {} "a{b: c}".toList, false⟩
    let root := (s.run [.edit (.replaceText 2 "!".toList)]).tree.root
    ∃ n ∈ root.descendants, n.kind = .rule ∧ n.Slotted ∧ (n.kind = .styleSheet → n = root) := by
  intro s root
  obtain ⟨n, hn, hkind⟩ : ∃ n ∈ root.descendants, n.kind = .rule := by decide +kernel
  exact ⟨n, hn, hkind, slots_filled _ _ _ _ n hn⟩

/-- Whatever was read and whatever calls were made on the tree, a list of selectors consists of its
selectors and a comma behind each of them but the last. -/
theorem selectors_separated (p : Production) (config : Config) (t : Text) (calls : List Call) :
    ∀ n ∈ (Session.run ⟨Tree.parse p config t, false⟩ calls).tree.root.descendants,
      n.kind = .selectorList → ∃ l, n.listing? = some l ∧ n.elements = l.elements ∧
        l.opening = [] ∧ l.closing = [] ∧ ∀ i, (l.items.separator? i).map (·.kind) =
          if i + 1 < l.items.size then some .comma else none := by
  intro n hn hkind
  have hproper : n.Proper := proper_run (Tree.sound_parse p config t)
    (fun x hx => (orderly_parse p config t x hx).1) calls n hn
  have hshape : n.kind.listShape? = some (.selectors, 0) := by rw [hkind]; rfl
  obtain ⟨l, hl, -, helements, hlisting⟩ := hproper.formed.listing? hshape
  refine ⟨l, hlisting, helements, List.eq_nil_of_length_eq_zero hl.opening, hl.closing rfl, ?_⟩
  exact (hproper.commas l hlisting hl.kind).separator?

/-- All selectors are taken out and two are put in. -/
theorem selectors_separated_refilled :
    let s : Session := ⟨Tree.parse .styleSheet {} "a, b{}".toList, false⟩
    let calls := [.edit (.removeSelector 4 0), .edit (.removeSelector 4 0),
      .edit (.appendSelector 4 "c".toList), .edit (.insertSelector 4 0 "d".toList)]
    ∃ n ∈ (s.run calls).tree.root.descendants, n.kind = .selectorList ∧
      ∃ l, n.listing? = some l ∧ n.elements = l.elements ∧ l.opening = [] ∧ l.closing = [] ∧
        ∀ i, (l.items.separator? i).map (·.kind) =
          if i + 1 < l.items.size then some .comma else none := by
  intro s calls
  obtain ⟨n, hn, hkind⟩ : ∃ n ∈ (s.run calls).tree.root.descendants, n.kind = .selectorList := by
    decide +kernel
  exact ⟨n, hn, hkind, selectors_separated _ _ _ _ n hn hkind⟩

end Session

namespace Node

variable {n : Node}

/-- A declaration without a comment around it. -/
def isEnabled (n : Node) : Bool := n.kind = .declaration && !n.declaration?.any (·.isDisabled)

/-- The last token of an enabled declaration that needs no semicolon is one. -/
theorem Proper.getLast?_tokens (h : n.Proper) (henabled : n.isEnabled = true)
    (hneeds : n.needsSemicolon = false) :
    n.tokens.getLast?.map (·.kind) = some .semicolon := by
  rw [isEnabled, Bool.and_eq_true, decide_eq_true_eq] at henabled
  obtain ⟨hkind, hopen⟩ := henabled
  obtain ⟨d, hformed, helements, hd⟩ := h.formed.declaration? hkind
  have hopening : d.opening = none := by
    simpa [hd, Declaration.isDisabled] using hopen
  have hclosing : d.closing = none := h.comment d hd hopening
  rw [Node.needsSemicolon, hd, Option.any_some, Declaration.needsSemicolon] at hneeds
  obtain ⟨semicolon, hsemicolon⟩ : ∃ t, d.semicolon = some t := by
    rw [← Option.isSome_iff_exists]
    simpa [Declaration.isDisabled, hopening] using hneeds
  have htokens : n.tokens = Element.tokensOf n.elements := by
    cases n
    rfl
  obtain ⟨es, hlast⟩ : ∃ es, n.elements = es ++ [.token semicolon] := by
    rw [helements, Declaration.elements, hopening, hclosing, hsemicolon]
    exact ⟨.token d.name :: .token d.colon :: .node d.value :: Element.ofNode? d.important,
      by simp [Element.ofToken?]⟩
  rw [htokens, hlast, Element.tokensOf_append, Element.tokensOf_token, Element.tokensOf_nil,
    List.getLast?_concat, Option.map_some, hformed.semicolon semicolon hsemicolon]

end Node

namespace Tree

/-- No enabled declaration runs into the item behind it. -/
def Apart (tree : Tree) : Prop :=
  ∀ list ∈ tree.root.descendants, list.kind = .declarationList → ∀ n ∈ list.children.dropLast,
    n.isEnabled = true → n.tokens.getLast?.map (·.kind) = some .semicolon

instance (tree : Tree) : Decidable tree.Apart :=
  inferInstanceAs (Decidable (∀ list ∈ tree.root.descendants, list.kind = .declarationList →
    ∀ n ∈ list.children.dropLast,
      n.isEnabled = true → n.tokens.getLast?.map (·.kind) = some .semicolon))

end Tree

namespace Session

/-- Whatever was read, declarations stay apart in whatever order calls are made on the tree, as long
as none of the calls exposes a declaration. -/
theorem declarations_apart (p : Production) (config : Config) (t : Text) (calls : List Call)
    (hquiet : (⟨Tree.parse p config t, false⟩ : Session).exposes calls = false) :
    (Session.run ⟨Tree.parse p config t, false⟩ calls).tree.Apart := by
  have hproper := proper_run (s := ⟨Tree.parse p config t, false⟩) (Tree.sound_parse p config t)
    (fun x hx => (orderly_parse p config t x hx).1) calls
  have hterminated := terminated_run (Tree.sound_parse p config t)
    (fun x hx => (orderly_parse p config t x hx).1)
    (fun x hx => (orderly_parse p config t x hx).2) hquiet
  intro list hlist hkind n hn henabled
  have hmem := Node.mem_descendants_trans hlist
    (Node.mem_descendants_child (List.dropLast_subset _ hn))
  exact (hproper n hmem).getLast?_tokens henabled (hterminated list hlist hkind n hn)

/-- Comments come and go around declarations that have their semicolons. -/
theorem declarations_apart_toggled :
    let s : Session :=
      ⟨Tree.parse .styleSheet { comments := true } "p{/* a: b; */ c: d}".toList, false⟩
    let calls := [.edit (.setDisabled 5 false), .edit (.appendDeclaration 9 "e: f".toList),
      .edit (.setProperty 8 "g".toList)]
    s.exposes calls = false ∧ (s.run calls).tree.Apart :=
  ⟨by decide +kernel, declarations_apart _ _ _ _ (by decide +kernel)⟩

/-- The comment is taken away from a declaration that has no semicolon, and another one follows. -/
theorem declarations_together :
    ¬(Session.run ⟨Tree.parse .styleSheet { comments := true } "p{/* a: b */ c: d}".toList, false⟩
      [.edit (.setDisabled 5 false)]).tree.Apart := by
  decide +kernel

end Session

end CssTree
