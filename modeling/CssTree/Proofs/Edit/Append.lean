import CssTree.Proofs.Edit.Undo

namespace CssTree

variable {list fragment : Node} {kind : ListKind} {previous : Option Node} {p : Position}

/-- The gap behind an item starts where it is put. -/
theorem start_gapAfter (list : Node) (kind : ListKind) (previous : Option Node) (fragment : Node)
    (p : Position) : ∀ l ∈ (gapAfter list kind previous fragment p).head?, l.span.start = p := by
  have hblank : ∀ c, ∀ l ∈ (blankTrivia [c] p).head?, l.span.start = p := by
    intro c l hl
    obtain rfl := Option.some.inj hl
    rfl
  have hcopy : ∀ ls, ∀ l ∈ (copyTrivia ls p).head?, l.span.start = p := by
    intro ls l hl
    cases ls with
    | nil => cases hl
    | cons m ls =>
      obtain rfl := Option.some.inj hl
      rfl
  have hnone : ∀ l ∈ ([] : List Lexeme).head?, l.span.start = p := fun l hl => by cases hl
  unfold gapAfter
  dsimp only
  repeat' split
  all_goals first | exact hblank _ | exact hcopy _ | exact hnone

/-- What leads an item stands in the place of a gap. -/
theorem gapAfter_of_leading (h : fragment.leading ≠ []) (list : Node) (kind : ListKind)
    (previous : Option Node) (p : Position) : gapAfter list kind previous fragment p = [] := by
  unfold gapAfter
  rw [if_pos (by simpa using h)]

theorem not_fuse_gapAfter (hbreak : fragment.leading = [] → fragment.render.head? ≠ some '\n')
    (list : Node) (kind : ListKind) (previous : Option Node) (p : Position) :
    ¬Fuse (Lexeme.render (gapAfter list kind previous fragment p)) fragment.render := by
  by_cases hlead : fragment.leading = []
  · exact fun hfuse => hbreak hlead hfuse.2
  · rw [gapAfter_of_leading hlead]
    exact not_fuse_nil_left _

/-- A text that is moved behind a gap. -/
theorem Node.Laid.chained_behind {gap : List Lexeme} (h : fragment.Laid [])
    (htokens : fragment.tokens ≠ []) (hgap : ∀ l ∈ gap.head?, l.span.start = p)
    (hroom : (p.advance (Lexeme.render gap)).HasRoom fragment.render.length) :
    Chained Token.fullSpan p
      ((fragment.place (p.advance (Lexeme.render gap))).prependLeading gap).tokens
      ((p.advance (Lexeme.render gap)).advance fragment.render) := by
  have hchained := h.chained_place hroom
  have hplaced := tokens_place_ne_nil htokens (p.advance (Lexeme.render gap))
  rw [prependLeading, tokens_setLeading, leading]
  cases hn : (fragment.place (p.advance (Lexeme.render gap))).tokens with
  | nil => exact absurd hn hplaced
  | cons t ts =>
    rw [hn] at hchained
    refine hchained.lead (Position.le_advance _ _) ?_
    cases gap with
    | nil =>
      cases hchained with
      | cons hstart => exact hstart
    | cons l ls => exact hgap l rfl

namespace Listing

variable {l : Listing}

theorem commaBefore_eq {front back : List (Node × Option Token)} {n : Node}
    {separator : Option Token} {index : Nat} (hkind : l.kind = .selectors)
    (hpairs : l.items.pairs = front ++ (n, separator) :: back) (hindex : front.length + 1 = index) :
    l.commaBefore index = separator := by
  subst hindex
  rw [commaBefore, if_pos (by simp [hkind]), Punctuated.separator?, hpairs]
  simp

/-- Only a comma can be missing behind the last item of a list without declarations. -/
theorem missing_eq (h : l.kind ≠ .declarations) :
    l.missing = if l.lacksComma then [','] else [] := by
  have hlacks : l.lacksSemicolon = false := by
    rw [lacksSemicolon]
    cases l.items.last? <;> simp [ListKind.lacksSemicolon, h]
  rw [missing, hlacks]
  rfl

/-- What is missing is not the first half of a line break. -/
theorem not_fuse_missing (h : l.kind ≠ .declarations) (t : Text) : ¬Fuse l.missing t := by
  rw [missing_eq h]
  split <;> simp [Fuse]

/-- The region of an item that was appended goes from the comma that came in with it to its end. -/
theorem lastRegion_appended {l' : Listing} {index : Nat} {removed : Node} {start stop : Position}
    (h : l.kind ≠ .declarations) (hspan : removed.span = ⟨start.advance l.missing, stop⟩)
    (hstop : start.advance l.missing ≤ stop)
    (hcomma : l'.commaBefore index =
      if l.lacksComma then some (.place .comma [','] start) else none) :
    l'.lastRegion index removed = ⟨start, stop⟩ := by
  rw [missing_eq h] at hspan hstop
  rw [lastRegion, hcomma, hspan]
  cases hlacks : l.lacksComma with
  | false => rfl
  | true =>
    rw [hlacks] at hstop
    have hstart : start ≤ start.advance [','] := Position.le_advance _ _
    show (Span.ofText start [',']).join ⟨start.advance [','], stop⟩ = _
    exact Span.ext ((Position.min_def _ _).trans (if_pos hstart))
      ((Position.max_def _ _).trans (if_pos hstop))

end Listing

/-- An item that is appended covers its gap and its text, behind what was missing in front of it. -/
theorem Node.Laid.chained_appended {listing : Listing} {start : Position} (h : fragment.Laid [])
    (htokens : fragment.tokens ≠ []) (hkind : listing.kind ≠ .declarations)
    (hbreak : fragment.leading = [] → fragment.render.head? ≠ some '\n')
    (hroom : (start.advance (listing.missing ++ Lexeme.render (gapAfter list kind previous fragment
      (start.advance listing.missing)))).HasRoom fragment.render.length) :
    let gap := gapAfter list kind previous fragment (start.advance listing.missing)
    Chained Token.fullSpan (start.advance listing.missing)
      ((fragment.place ((start.advance listing.missing).advance (Lexeme.render gap))).prependLeading
        gap).tokens
      (Span.ofText start (listing.missing ++ Lexeme.render gap ++ fragment.render)).stop := by
  intro gap
  have hstop : (Span.ofText start (listing.missing ++ Lexeme.render gap ++ fragment.render)).stop =
      ((start.advance listing.missing).advance (Lexeme.render gap)).advance fragment.render := by
    show start.advance _ = _
    rw [List.append_assoc, Position.advance_append (Listing.not_fuse_missing hkind _),
      Position.advance_append (not_fuse_gapAfter hbreak _ _ _ _)]
  rw [Position.advance_append (Listing.not_fuse_missing hkind _)] at hroom
  rw [hstop]
  exact h.chained_behind htokens (start_gapAfter _ _ _ _ _) hroom

namespace Tree

variable {tree tree' : Tree} {r : Span} {loose : List Entry} {listing : Listing}

/-- Lists of nodes of one kind are of one kind. -/
theorem Sound.listing_kind {m : Node} {listing' : Listing} (h : tree.Sound loose)
    (hlist : list ∈ tree.root.descendants) (hlisting : list.listing? = some listing)
    (hm : m.Formed) (hread : m.listing? = some listing') (hkind : m.kind = list.kind) :
    listing'.kind = listing.kind := by
  obtain ⟨kind, opening, hshape, hl, -⟩ := (h.formed list hlist).of_listing? hlisting
  obtain ⟨kind', opening', hshape', hl', -⟩ := hm.of_listing? hread
  rw [hkind, hshape, Option.some.injEq, Prod.mk.injEq] at hshape'
  rw [hl'.kind, hl.kind, hshape'.1]

/-- A list without tokens whose items have some has no items, and nothing else. -/
theorem Sound.empty_listing (h : tree.Sound loose) (hlist : list ∈ tree.root.descendants)
    (hlisting : list.listing? = some listing) (hitems : ∀ n ∈ list.children, n.tokens ≠ [])
    (hnone : list.tokens = []) :
    listing.opening = [] ∧ listing.items.pairs = [] ∧ listing.closing = [] := by
  have helements := (h.formed list hlist).elements_listing hlisting
  rw [← list.tokens_eq, helements, Listing.tokensOf_elements] at hnone
  simp only [List.append_eq_nil_iff] at hnone
  refine ⟨hnone.1.1, List.eq_nil_iff_forall_not_mem.mpr fun pair hpair => ?_, hnone.2⟩
  have hchild := (h.formed list hlist).mem_children_listing hlisting hpair
  obtain ⟨xs, ys, hsplit⟩ := List.append_of_mem hpair
  rw [hsplit] at hnone
  simp only [Listing.tokensOf_append, Listing.tokensOf_cons, List.append_eq_nil_iff] at hnone
  exact hitems pair.1 hchild hnone.1.2.2.1.1

namespace Sound.Separated

variable {σ : Node → Node} {τ : Token → Token} {start : Position}
  {others : List (Node × Option Token)}

theorem length (h : Sound.Separated listing σ τ start others) :
    others.length = listing.items.size := by
  rcases h with ⟨-, rfl⟩ | ⟨front, last, -, hpairs, rfl⟩
  · rw [List.length_map, Punctuated.size]
  · simp [Punctuated.size, hpairs]

theorem eq_nil (h : Sound.Separated listing σ τ start others) (hnone : listing.items.pairs = []) :
    others = [] :=
  List.eq_nil_of_length_eq_zero (by rw [h.length, Punctuated.size, hnone]; rfl)

/-- An item that was appended goes with the comma that came in with it, and the others stay. -/
theorem removeLast {listing' : Listing} {others' : List (Node × Option Token)} {removed : Node}
    (h : Sound.Separated listing σ τ start others) (hkind : listing'.kind = listing.kind)
    (hends : listing.items.endsSeparated = false)
    (hpairs : listing'.items.pairs = others' ++ [(removed, none)])
    (hothers : others'.map (Listing.pushItem fun s => s) = others.map (Listing.pushItem fun s => s)) :
    listing'.commaBefore listing.items.size =
        (if listing.lacksComma then some (.place .comma [','] start) else none) ∧
      (listing'.removeLast listing.items.size).items.pairs.map (Listing.pushItem fun s => s) =
        (listing.items.pairs.map (Listing.mapItem σ τ)).map (Listing.pushItem fun s => s) := by
  have hlength : others'.length = listing.items.size := by
    simpa [h.length] using congrArg List.length hothers
  rcases h with ⟨hlacks, rfl⟩ | ⟨front, last, hlacks, hlist, rfl⟩
  · rw [hlacks]
    rcases Listing.pairs_removeLast hpairs hlength with
      ⟨hnone, hrest⟩ | ⟨pairs, last', comma, rfl, -, -⟩
    · exact ⟨hnone, by rw [hrest, hothers]⟩
    · rw [List.map_map, List.map_append, List.map_singleton] at hothers
      obtain ⟨front, ends, hlist, -, hpair⟩ := List.map_eq_append_iff.mp hothers.symm
      obtain ⟨⟨last, separator⟩, rfl, hlast⟩ := List.map_eq_singleton_iff.mp hpair
      obtain rfl : separator = none :=
        Punctuated.endsSeparated_eq_false.mp hends (last, separator) (by rw [hlist]; simp)
      cases congrArg Prod.snd hlast
  · rw [List.map_append, List.map_singleton] at hothers
    obtain ⟨front', ends, rfl, hfront, hpair⟩ := List.map_eq_append_iff.mp hothers
    obtain ⟨⟨last', separator⟩, rfl, hlast⟩ := List.map_eq_singleton_iff.mp hpair
    obtain ⟨hnode, hseparator⟩ := Prod.mk.inj hlast
    obtain ⟨comma, rfl, hcomma⟩ := Option.map_eq_some_iff.mp hseparator
    have hself : ∀ t : Token, t.mapSpans (fun s => s) = t := fun t =>
      Token.mapSpans_eq_self fun _ _ => rfl
    obtain rfl : comma = .place .comma [','] start :=
      (hself comma).symm.trans (hcomma.trans (hself _))
    have hselectors : listing'.kind = .selectors := by
      rw [Listing.lacksComma, Bool.and_eq_true, Bool.and_eq_true, decide_eq_true_eq] at hlacks
      exact hkind.trans hlacks.1.1
    have hbefore : listing'.commaBefore listing.items.size = some (.place .comma [','] start) := by
      have hsplit : listing'.items.pairs =
          front' ++ (last', some (.place .comma [','] start)) :: [(removed, none)] := by
        rw [hpairs, List.append_assoc]
        rfl
      refine Listing.commaBefore_eq hselectors hsplit ?_
      rw [← hlength, List.length_append, List.length_singleton]
    rcases Listing.pairs_removeLast hpairs hlength with
      ⟨hnone, -⟩ | ⟨pairs, last'', comma, hsame, -, hrest⟩
    · rw [hnone] at hbefore
      cases hbefore
    · obtain ⟨rfl, hpair⟩ := List.append_inj' hsame rfl
      obtain ⟨rfl, -⟩ := Prod.mk.inj (List.singleton_inj.mp hpair)
      refine ⟨by rw [hbefore, hlacks]; rfl, ?_⟩
      rw [hrest, hlist, List.map_append, List.map_append, List.map_append, hfront]
      exact congrArg (_ ++ [·]) (Prod.ext hnode rfl)

end Sound.Separated

/-- A list without tokens starts where its first item comes in, once its spans are computed anew. -/
theorem Sound.start_appended {σ : Node → Node} {τ : Token → Token} {start stop : Position}
    {others : List (Node × Option Token)} {item list' : Node} (h : tree.Sound loose)
    (hlist : list ∈ tree.root.descendants) (hlisting : list.listing? = some listing)
    (hkind : listing.kind ≠ .declarations) (hitems : ∀ n ∈ list.children, n.tokens ≠ [])
    (hothers : Sound.Separated listing σ τ start others)
    (hchained : Chained Token.fullSpan (start.advance listing.missing) item.tokens stop)
    (hitem : item.tokens ≠ []) (hnone : list.tokens = []) :
    (list'.listed ((listing.map σ τ).holding (others ++ [(item, none)]))).respan.span.start =
      start := by
  obtain ⟨hopening, hpairs, hclosing⟩ := h.empty_listing hlist hlisting hitems hnone
  have hmissing : listing.missing = [] := by
    rw [Listing.missing_eq hkind]
    simp [Listing.lacksComma, Punctuated.last?, hpairs]
  rw [hmissing] at hchained
  have htokens : (list'.listed ((listing.map σ τ).holding (others ++ [(item, none)]))).tokens =
      item.tokens := by
    show Element.tokensOf (Listing.holding _ _).elements = _
    rw [Listing.tokensOf_holding, hothers.eq_nil hpairs]
    simp [Listing.map, hopening, hclosing]
  rw [Node.span_respan (by rw [htokens]; exact hchained) (by rw [htokens]; exact hitem)]
  rfl

/-- An item that was put behind the last one is taken out again. -/
theorem Sound.returned_after (h : tree.Sound (fragment.entries none))
    (hlist : list ∈ tree.root.descendants) (hlisting : list.listing? = some listing)
    (hkind : listing.kind ≠ .declarations) (hitems : ∀ n ∈ list.children, n.tokens ≠ [])
    (hfragment : fragment.Laid []) (hformed : ∀ x ∈ fragment.descendants, x.Formed)
    (htokens : fragment.tokens ≠ []) (hheaded : fragment.Headed)
    (hbreak : fragment.leading = [] → fragment.render.head? ≠ some '\n')
    (hroom : ((listing.appendAt list).advance (listing.missing ++ Lexeme.render
      (gapAfter list listing.kind listing.items.last? fragment
        ((listing.appendAt list).advance listing.missing)))).HasRoom fragment.render.length) :
    let tree' := (tree.insertedAfter list listing fragment).respan list.id
    ∃ (r : Span) (list' : Node) (listing' : Listing) (removed : Node),
      r.start = listing.appendAt list ∧ tree.Changed list r list' listing' tree' ∧
      listing'.items.get? listing.items.size = some removed ∧
      listing'.items.get? (listing.items.size + 1) = none ∧
      tree.Returned list r
        ((tree'.removeLast list' listing' listing.items.size removed).respan list'.id) := by
  intro tree'
  obtain ⟨others, hothers, hread, hroot⟩ := h.root_insertedAfter hlist hlisting hkind fragment
  let start := listing.appendAt list
  let gap := gapAfter list listing.kind listing.items.last? fragment (start.advance listing.missing)
  let r : Span := .ofText start (listing.missing ++ Lexeme.render gap ++ fragment.render)
  have hr : r.IsValid := Span.isValid_ofText _ _
  have hsound := h.insertedAfter hlist hlisting hformed
  obtain ⟨listing', hchanged, hsame⟩ := h.exists_changed hlist hr hsound hread hroot
  have hsound' : tree'.Sound [] := hsound.alike (.respan _ _)
  have hpushed := Listing.map_pushItem_of_pushed hsame
  rw [List.map_append, List.map_singleton, List.map_eq_append_iff] at hpushed
  obtain ⟨others', rest, hpairs', hothers', hrest⟩ := hpushed
  obtain ⟨⟨removed, comma'⟩, rfl, hremoved⟩ := List.map_eq_singleton_iff.mp hrest
  obtain ⟨hnode, hcomma'⟩ := Prod.mk.inj hremoved
  obtain rfl : comma' = none := Option.map_eq_none_iff.mp hcomma'
  have hlength : others'.length = listing.items.size := by
    simpa [hothers.length] using congrArg List.length hothers'
  let item := (fragment.place ((start.advance listing.missing).advance
    (Lexeme.render gap))).prependLeading gap
  have hitem : item.tokens ≠ [] :=
    Node.tokens_setLeading_ne_nil (Node.tokens_place_ne_nil htokens _) _
  have hchained := hfragment.chained_appended htokens hkind hbreak hroom
  have hspan : removed.span = ⟨start.advance listing.missing, r.stop⟩ := by
    have hlast : listing'.items.last? = some removed := by simp [Punctuated.last?, hpairs']
    have hchild := (hsound'.formed _ hchanged.mem).mem_children_last? hchanged.listing hlast
    have hskeleton : removed.skeleton = fragment.skeleton := by
      rw [Node.skeleton_of_unspanned hnode, Node.skeleton_prependLeading, Node.skeleton_place]
    refine Node.span_child_respan_of_headed hchild (hheaded.of_skeleton hskeleton) ?_
    rw [Node.tokens_of_unspanned hnode]
    exact hchained
  obtain ⟨hbefore, hback⟩ := hothers.removeLast
    (h.listing_kind hlist hlisting (hsound'.formed _ hchanged.mem) hchanged.listing hchanged.kind)
    ((h.formed list hlist).endsSeparated_listing hlisting) hpairs' hothers'
  have hremove := @Sound.root_removeLast tree' _ removed listing' listing.items.size hsound'
    hchanged.mem hchanged.listing
  rw [Listing.lastRegion_appended hkind hspan hchained.le hbefore] at hremove
  refine ⟨r, _, listing', removed, rfl, hchanged, ?_, ?_, hchanged.returned h hlist hlisting rfl
    (Node.unspanned_respan _) hsame (Listing.map_pushItem_back (Span.delete_insert hr) hback)
    (h.start_appended hlist hlisting hkind hitems hothers hchained hitem) hremove⟩
  · rw [Punctuated.get?, hpairs', ← hlength]
    simp
  · rw [Punctuated.get?, hpairs', ← hlength]
    simp

end Tree

end CssTree
