import CssTree.Proofs.Edit.Cut
import CssTree.Proofs.Tree.Chain

namespace CssTree

/-- A node with the elements of a list. -/
def Node.listed (n : Node) (l : Listing) : Node := { n with elements := l.elements }

theorem Node.eq_listed {n : Node} {l : Listing} (h : n.elements = l.elements) : n = n.listed l := by
  rw [listed, ← h]
  cases n
  rfl

namespace Listing

variable {l : Listing} {kind : ListKind} {opening : Nat} {pairs : List (Node × Option Token)}

/-- Only the separators between the items of a list matter. -/
theorem Formed.holding (h : l.Formed kind opening)
    (hpairs : kind ≠ .selectors → ∀ pair ∈ pairs, pair.2 = none) :
    (l.holding pairs).Formed kind opening :=
  ⟨h.kind, h.opening, hpairs, h.closing⟩

theorem elements_moved {onNode : NodeId → Span → Span} {onToken : Span → Span} {n : Node}
    (h : n.elements = l.elements) : (n.moved onNode onToken).elements =
      (l.map (·.moved onNode onToken) (·.mapSpans onToken)).elements := by
  rw [Node.elements_moved, h, elements_map]

theorem insert_holding {front back : List (Node × Option Token)} {index : Nat}
    (hindex : front.length = index) (n : Node) (separator : Option Token) (l : Listing) :
    (l.holding (front ++ back)).insert index n separator =
      l.holding (front ++ (n, separator) :: back) :=
  congrArg (fun pairs => l.holding pairs) (pairs_insert (l := l.holding (front ++ back)) rfl hindex)

end Listing

namespace Node

variable {root list c : Node} {l : Listing} {front back : List (Node × Option Token)}
  {separator : Option Token}

/-- An item of a list is changed in the tree that the list stands in. -/
theorem update_listing_item (hnodup : (root.descendants.map Node.id).Nodup)
    (hlist : list ∈ root.descendants) (hformed : list.Formed) (hl : list.listing? = some l)
    (hpairs : l.items.pairs = front ++ (c, separator) :: back) (f : Node → Node) :
    root.update c.id f =
      root.update list.id fun _ => list.listed (l.holding (front ++ (f c, separator) :: back)) := by
  have helements := hformed.elements_listing hl
  have hchildren : list.children = front.map Prod.fst ++ c :: back.map Prod.fst := by
    rw [hformed.children_listing hl, Listing.nodes, Punctuated.values, hpairs]
    simp
  have hchild : c ∈ list.descendants := mem_descendants_child (by simp [hchildren])
  have hself : list = list.listed (l.holding (front ++ (c, separator) :: back)) := by
    rw [← hpairs]
    exact eq_listed helements
  obtain ⟨hne, hfront, hback⟩ := not_mem_sibling (nodup_below hnodup hlist) hchildren
  rw [update_within c.id f hnodup hlist (List.mem_map_of_mem hchild)]
  refine update_congr hnodup hlist ?_
  conv_lhs => rw [hself]
  exact update_item f list l hne hfront hback

/-- An item of a list is changed, and another one is put in front of it. -/
theorem update_listing_insert {index : Nat} {comma : Option Token} (item : Node)
    (hnodup : (root.descendants.map Node.id).Nodup) (hlist : list ∈ root.descendants)
    (hformed : list.Formed) (hl : list.listing? = some l)
    (hpairs : l.items.pairs = front ++ (c, separator) :: back) (hindex : front.length = index)
    (hcomma : l.kind ≠ .selectors → comma = none) (f : Node → Node) :
    let l' := l.holding (front ++ (item, comma) :: (f c, separator) :: back)
    (list.listed l').listing? = some l' ∧
      (root.update c.id f).update list.id (·.mapListing (·.insert index item comma)) =
        root.update list.id fun _ => list.listed l' := by
  intro l'
  obtain ⟨kind, opening, hshape, hlisting, -, -⟩ := hformed.of_listing? hl
  have hseparators (hk : kind ≠ .selectors) : (∀ pair ∈ front, pair.2 = none) ∧
      separator = none ∧ ∀ pair ∈ back, pair.2 = none := by
    have hall := hlisting.separators hk
    rwa [hpairs, List.forall_mem_append, List.forall_mem_cons] at hall
  have hread : (list.listed (l.holding (front ++ (f c, separator) :: back))).listing? =
      some (l.holding (front ++ (f c, separator) :: back)) := by
    refine listing?_relist hshape (hlisting.holding fun hk => ?_)
    rw [List.forall_mem_append, List.forall_mem_cons]
    exact hseparators hk
  refine ⟨listing?_relist hshape (hlisting.holding fun hk => ?_), ?_⟩
  · obtain ⟨hfront, hseparator, hback⟩ := hseparators hk
    rw [List.forall_mem_append, List.forall_mem_cons, List.forall_mem_cons]
    exact ⟨hfront, hcomma fun heq => hk (hlisting.kind.symm.trans heq), hseparator, hback⟩
  · rw [update_listing_item hnodup hlist hformed hl hpairs,
      update_const (x := list.listed (l.holding (front ++ (f c, separator) :: back))) hnodup hlist rfl,
      mapListing_of hread, Listing.insert_holding hindex]
    rfl

end Node

/-- What becomes of the span of a node when room is made in the node `id`. -/
def Tree.grow (id : NodeId) (r : Span) (tree : Tree) (i : NodeId) (s : Span) : Span :=
  if i ∈ tree.arena.above id ++ [id] then (r.insert s).join r else r.insert s

theorem Tree.root_makeRoom_grow (id : NodeId) (r : Span) (tree : Tree) :
    (tree.makeRoom id (some r)).root = tree.root.moved (tree.grow id r) r.insert := rfl

theorem ListKind.lacksSemicolon_of_ne {kind : ListKind} (h : kind ≠ .declarations) (n : Node) :
    kind.lacksSemicolon n = false := by
  simp only [ListKind.lacksSemicolon, h, decide_false, Bool.false_and]

namespace Tree.Sound

variable {tree : Tree} {list target fragment : Node} {listing : Listing} {loose : List Entry}
  {index : Nat} {front back : List (Node × Option Token)} {separator : Option Token}

/-- An item is put in front of another one, which gets a gap. -/
theorem root_putBefore (h : tree.Sound loose) (hlist : list ∈ tree.root.descendants)
    (hlisting : list.listing? = some listing)
    (hpairs : listing.items.pairs = front ++ (target, separator) :: back)
    (hindex : front.length = index) (fragment : Node) :
    let start := target.coreStart
    let needed := listing.kind.lacksSemicolon fragment
    let text : Text := if listing.kind = .selectors then [','] else if needed then [';'] else []
    let separatorAt := start.advance fragment.render
    let gap := gapBefore listing.kind target (separatorAt.advance text)
    let comma := if listing.kind = .selectors then some (.place .comma [','] separatorAt) else none
    let r : Span := .ofText start (fragment.render ++ text ++ Lexeme.render gap)
    let σ : Node → Node := (·.moved (tree.grow list.id r) r.insert)
    let τ : Token → Token := (·.mapSpans r.insert)
    let item := ((fragment.place start).prependLeading (σ target).leading).closed needed separatorAt
    let l := (listing.map σ τ).holding (front.map (Listing.mapItem σ τ) ++ (item, comma) ::
      ((σ target).setLeading gap, separator.map τ) :: back.map (Listing.mapItem σ τ))
    ((σ list).listed l).listing? = some l ∧
      (tree.insertedBefore list listing.kind index target fragment).root =
        (σ tree.root).update list.id fun _ => (σ list).listed l := by
  intro start needed text separatorAt gap comma r σ τ item' l
  unfold Tree.insertedBefore
  extract_lets moved lead item
  have hmoved : moved.Sound loose := h.alike (.makeRoom _ _ _)
  have hin : ∀ n ∈ tree.root.descendants, σ n ∈ moved.root.descendants :=
    fun n hn => Node.mem_moved _ _ hn
  have hpair : (target, separator) ∈ listing.items.pairs := by simp [hpairs]
  have hchild : target ∈ list.descendants :=
    Node.mem_descendants_child ((h.formed list hlist).mem_children_listing hlisting hpair)
  have hitem : item = item' := by
    have hfound := hmoved.find?_of_mem (hin target (Node.mem_descendants_trans hlist hchild))
    rw [Node.id_moved] at hfound
    simp only [item, item', lead, hfound]
    rfl
  have hpairs' : (listing.map σ τ).items.pairs = front.map (Listing.mapItem σ τ) ++
      (σ target, separator.map τ) :: back.map (Listing.mapItem σ τ) := by
    rw [show (listing.map σ τ).items.pairs = listing.items.pairs.map (Listing.mapItem σ τ) from rfl,
      hpairs, List.map_append]
    rfl
  have hread : (σ list).listing? = some (listing.map σ τ) :=
    Node.listing?_moved _ _ (h.formed list hlist) hlisting
  have hcomma : (listing.map σ τ).kind ≠ .selectors → comma = none := fun hk => if_neg hk
  have hinsert := Node.update_listing_insert item hmoved.nodup (hin list hlist)
    (hmoved.formed _ (hin list hlist)) hread hpairs' (by simpa using hindex) hcomma (·.setLeading gap)
  rw [Node.id_moved, Node.id_moved, hitem] at hinsert
  rwa [hitem]

/-- A rule or a selector that is put in front of another one needs no semicolon. -/
theorem root_insertedBefore (h : tree.Sound loose) (hlist : list ∈ tree.root.descendants)
    (hlisting : list.listing? = some listing) (hkind : listing.kind ≠ .declarations)
    (hpairs : listing.items.pairs = front ++ (target, separator) :: back)
    (hindex : front.length = index) (fragment : Node) :
    ∃ (text : Text) (gap : List Lexeme) (comma : Option Token),
      let r : Span := .ofText target.coreStart (fragment.render ++ text ++ Lexeme.render gap)
      let σ : Node → Node := (·.moved (tree.grow list.id r) r.insert)
      let τ : Token → Token := (·.mapSpans r.insert)
      let item := (fragment.place target.coreStart).prependLeading (σ target).leading
      let l := (listing.map σ τ).holding (front.map (Listing.mapItem σ τ) ++ (item, comma) ::
        ((σ target).setLeading gap, separator.map τ) :: back.map (Listing.mapItem σ τ))
      ((σ list).listed l).listing? = some l ∧
        (tree.insertedBefore list listing.kind index target fragment).root =
          (σ tree.root).update list.id fun _ => (σ list).listed l := by
  have hput := h.root_putBefore hlist hlisting hpairs hindex fragment
  rw [ListKind.lacksSemicolon_of_ne hkind] at hput
  exact ⟨_, _, _, hput⟩

/-- The items of a list in front of one that is appended: the last of them gets the comma that it
lacks. -/
def Separated (listing : Listing) (σ : Node → Node) (τ : Token → Token) (start : Position)
    (others : List (Node × Option Token)) : Prop :=
  listing.lacksComma = false ∧ others = listing.items.pairs.map (Listing.mapItem σ τ) ∨
    ∃ front last, listing.lacksComma = true ∧ listing.items.pairs = front ++ [(last, none)] ∧
      others = front.map (Listing.mapItem σ τ) ++ [(σ last, some (.place .comma [','] start))]

/-- The items of a list in front of one that is appended: the last of them gets the separator that
it lacks. -/
inductive Completed (listing : Listing) (σ : Node → Node) (τ : Token → Token) (start : Position) :
    List (Node × Option Token) → Prop
  | asIs : listing.lacksComma = false → listing.lacksSemicolon = false →
      Completed listing σ τ start (listing.items.pairs.map (Listing.mapItem σ τ))
  | comma {front : List (Node × Option Token)} {last : Node} : listing.lacksComma = true →
      listing.items.pairs = front ++ [(last, none)] → Completed listing σ τ start
        (front.map (Listing.mapItem σ τ) ++ [(σ last, some (.place .comma [','] start))])
  | semicolon {front : List (Node × Option Token)} {last : Node} :
      listing.kind.lacksSemicolon last = true →
      listing.items.pairs = front ++ [(last, none)] → Completed listing σ τ start
        (front.map (Listing.mapItem σ τ) ++ [((σ last).mapDeclaration (·.addSemicolon start), none)])

namespace Completed

variable {σ : Node → Node} {τ : Token → Token} {start : Position}
  {others : List (Node × Option Token)}

theorem separated (h : Completed listing σ τ start others) (hkind : listing.kind ≠ .declarations) :
    Separated listing σ τ start others := by
  cases h with
  | asIs hcomma _ => exact Or.inl ⟨hcomma, rfl⟩
  | comma hcomma hpairs => exact Or.inr ⟨_, _, hcomma, hpairs, rfl⟩
  | semicolon hlacks =>
    rw [ListKind.lacksSemicolon_of_ne hkind] at hlacks
    cases hlacks

theorem size (h : Completed listing σ τ start others) : others.length = listing.items.size := by
  cases h with
  | asIs => simp [Punctuated.size]
  | comma _ hpairs => simp [Punctuated.size, hpairs]
  | semicolon _ hpairs => simp [Punctuated.size, hpairs]

theorem separators {kind : ListKind} {opening : Nat} (h : Completed listing σ τ start others)
    (hl : listing.Formed kind opening) (hk : kind ≠ .selectors) : ∀ pair ∈ others, pair.2 = none := by
  have hall := (hl.map σ τ).separators hk
  rw [show (listing.map σ τ).items.pairs = listing.items.pairs.map (Listing.mapItem σ τ) from rfl]
    at hall
  cases h with
  | asIs => exact hall
  | comma hcomma =>
    rw [Listing.lacksComma, hl.kind, decide_eq_false hk] at hcomma
    cases hcomma
  | semicolon _ hpairs =>
    rw [hpairs, List.map_append, List.forall_mem_append] at hall
    exact List.forall_mem_append.mpr ⟨hall.1, List.forall_mem_singleton.mpr rfl⟩

end Completed

/-- The last item of a list whose spans were moved gets the separator that it lacks. -/
theorem root_separatedLast {moved : Tree} {onNode : NodeId → Span → Span} {onToken : Span → Span}
    (h : tree.Sound loose) (hmoved : moved.Sound loose) (hlist : list ∈ tree.root.descendants)
    (hlisting : list.listing? = some listing) (hroot : moved.root = tree.root.moved onNode onToken) :
    let σ : Node → Node := (·.moved onNode onToken)
    let τ : Token → Token := (·.mapSpans onToken)
    ∃ others, Completed listing σ τ (listing.appendAt list) others ∧
      (moved.separatedLast list listing).root = moved.root.update list.id fun _ =>
        (σ list).listed ((listing.map σ τ).holding others) := by
  intro σ τ
  have helements := (h.formed list hlist).elements_listing hlisting
  have hread : (σ list).listing? = some (listing.map σ τ) :=
    Node.listing?_moved _ _ (h.formed list hlist) hlisting
  have hmem : σ list ∈ moved.root.descendants := by
    rw [hroot]
    exact Node.mem_moved _ _ hlist
  have hid : (σ list).id = list.id := Node.id_moved _ _ _
  have hpairs' : ∀ {front last}, listing.items.pairs = front ++ [(last, none)] →
      (listing.map σ τ).items.pairs = front.map (Listing.mapItem σ τ) ++ (σ last, none) :: [] := by
    intro front last hpairs
    rw [show (listing.map σ τ).items.pairs = listing.items.pairs.map (Listing.mapItem σ τ) from rfl,
      hpairs, List.map_append]
    rfl
  have hself : moved.root = moved.root.update list.id fun _ =>
      (σ list).listed ((listing.map σ τ).holding (listing.items.pairs.map (Listing.mapItem σ τ))) := by
    have hsame : σ list = (σ list).listed (listing.map σ τ) :=
      Node.eq_listed (Listing.elements_moved helements)
    have hcongr := Node.update_congr (f := fun m => m)
      (g := fun _ => (σ list).listed (listing.map σ τ)) hmoved.nodup hmem hsame
    rwa [Node.update_id, hid] at hcongr
  unfold Tree.separatedLast
  cases hcomma : listing.lacksComma with
  | true =>
    have hlast : listing.items.last?.isSome = true := by
      rw [Listing.lacksComma, Bool.and_eq_true, Bool.and_eq_true] at hcomma
      exact hcomma.1.2
    obtain ⟨last, hlast⟩ := Option.isSome_iff_exists.mp hlast
    obtain ⟨front, hpairs⟩ := h.exists_last hlist hlisting hlast
    refine ⟨_, .comma hcomma hpairs, ?_⟩
    have hcongr := Node.update_congr hmoved.nodup hmem (f := (·.mapListing (·.setSeparator
      (listing.items.size - 1) (some (.place .comma [','] (listing.appendAt list))))))
      (g := fun _ => (σ list).listed ((listing.map σ τ).holding (front.map (Listing.mapItem σ τ) ++
        [(σ last, some (.place .comma [','] (listing.appendAt list)))]))) (by
      rw [Node.mapListing_of hread]
      refine congrArg (fun pairs => (σ list).listed ((listing.map σ τ).holding pairs))
        (Listing.pairs_setSeparator (hpairs' hpairs) ?_)
      simp [Punctuated.size, hpairs])
    rwa [hid] at hcongr
  | false =>
    cases hlast : listing.items.last? with
    | none => exact ⟨_, .asIs hcomma (by simp [Listing.lacksSemicolon, hlast]), hself⟩
    | some last =>
      dsimp only
      rw [if_neg (by simp)]
      cases hlacks : listing.kind.lacksSemicolon last with
      | false =>
        have hsemicolon : listing.lacksSemicolon = false := by
          simp [Listing.lacksSemicolon, hlast, hlacks]
        rw [if_neg (by simp [hsemicolon])]
        exact ⟨_, .asIs hcomma hsemicolon, hself⟩
      | true =>
        obtain ⟨front, hpairs⟩ := h.exists_last hlist hlisting hlast
        rw [if_pos (by simp [Listing.lacksSemicolon, hlast, hlacks])]
        refine ⟨_, .semicolon hlacks hpairs, ?_⟩
        have hupdate := Node.update_listing_item hmoved.nodup hmem (hmoved.formed _ hmem) hread
          (hpairs' hpairs) (·.mapDeclaration (·.addSemicolon (listing.appendAt list)))
        rwa [Node.id_moved, hid] at hupdate

/-- An item is put behind the last one, which gets the separator that it lacks. -/
theorem root_putLast (h : tree.Sound loose) (hlist : list ∈ tree.root.descendants)
    (hlisting : list.listing? = some listing) (fragment : Node) :
    let start := listing.appendAt list
    let gapAt := start.advance listing.missing
    let gap := gapAfter list listing.kind listing.items.last? fragment gapAt
    let fragmentAt := gapAt.advance (Lexeme.render gap)
    let needed := listing.kind.lacksSemicolon fragment
    let ending : Text := if needed then [';'] else []
    let r : Span :=
      .ofText start (listing.missing ++ Lexeme.render gap ++ fragment.render ++ ending)
    let σ : Node → Node := (·.moved (tree.grow list.id r) r.insert)
    let τ : Token → Token := (·.mapSpans r.insert)
    let item := ((fragment.place fragmentAt).prependLeading gap).closed needed
      (fragmentAt.advance fragment.render)
    ∃ others, Completed listing σ τ start others ∧
      let l := (listing.map σ τ).holding (others ++ [(item, none)])
      ((σ list).listed l).listing? = some l ∧
        (tree.insertedAfter list listing fragment).root =
          (σ tree.root).update list.id fun _ => (σ list).listed l := by
  intro start gapAt gap fragmentAt needed ending r σ τ item
  obtain ⟨kind, opening, hshape, hl, -, -⟩ := (h.formed list hlist).of_listing? hlisting
  let moved := tree.makeRoom list.id (some r)
  have hroot : moved.root = σ tree.root := tree.root_makeRoom_grow list.id r
  have hmoved : moved.Sound loose := h.alike (.makeRoom _ _ _)
  have hmem : σ list ∈ moved.root.descendants := by
    rw [hroot]
    exact Node.mem_moved _ _ hlist
  obtain ⟨others, hothers, hseparated⟩ := h.root_separatedLast hmoved hlist hlisting hroot
  have hshape' : (σ list).kind.listShape? = some (kind, opening) := by rwa [Node.kind_moved]
  have hread' : ((σ list).listed ((listing.map σ τ).holding others)).listing? =
      some ((listing.map σ τ).holding others) :=
    Node.listing?_relist hshape' ((hl.map σ τ).holding (hothers.separators hl))
  refine ⟨others, hothers, Node.listing?_relist hshape' ((hl.map σ τ).holding fun hk => ?_), ?_⟩
  · rw [List.forall_mem_append]
    exact ⟨hothers.separators hl hk, List.forall_mem_singleton.mpr rfl⟩
  rw [← hroot]
  show (moved.separatedLast list listing).root.update list.id
    (·.mapListing (·.insert listing.items.size item none)) = _
  have hconst := Node.update_const (x := (σ list).listed ((listing.map σ τ).holding others))
    hmoved.nodup hmem rfl (·.mapListing (·.insert listing.items.size item none))
  rw [Node.id_moved] at hconst
  have hinserted : ((listing.map σ τ).holding others).insert listing.items.size item none =
      (listing.map σ τ).holding (others ++ [(item, none)]) := by
    have hinsert : ((listing.map σ τ).holding (others ++ [])).insert listing.items.size item none =
        (listing.map σ τ).holding (others ++ [(item, none)]) :=
      Listing.insert_holding hothers.size item none (listing.map σ τ)
    rwa [List.append_nil] at hinsert
  rw [hseparated, hconst, Node.mapListing_of hread', hinserted]
  rfl

/-- A rule or a selector is put behind the last one, which gets the comma that it lacks. -/
theorem root_insertedAfter (h : tree.Sound loose) (hlist : list ∈ tree.root.descendants)
    (hlisting : list.listing? = some listing) (hkind : listing.kind ≠ .declarations)
    (fragment : Node) :
    let start := listing.appendAt list
    let gapAt := start.advance listing.missing
    let gap := gapAfter list listing.kind listing.items.last? fragment gapAt
    let r : Span := .ofText start (listing.missing ++ Lexeme.render gap ++ fragment.render)
    let σ : Node → Node := (·.moved (tree.grow list.id r) r.insert)
    let τ : Token → Token := (·.mapSpans r.insert)
    let item := (fragment.place (gapAt.advance (Lexeme.render gap))).prependLeading gap
    ∃ others, Separated listing σ τ start others ∧
      let l := (listing.map σ τ).holding (others ++ [(item, none)])
      ((σ list).listed l).listing? = some l ∧
        (tree.insertedAfter list listing fragment).root =
          (σ tree.root).update list.id fun _ => (σ list).listed l := by
  have hput := h.root_putLast hlist hlisting fragment
  simp only [ListKind.lacksSemicolon_of_ne hkind, Bool.false_eq_true, if_false, List.append_nil] at hput
  obtain ⟨others, hothers, hroot⟩ := hput
  exact ⟨others, hothers.separated hkind, hroot⟩

end Tree.Sound

end CssTree
