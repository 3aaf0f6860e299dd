import CssTree.Proofs.Edit.Append
import CssTree.Proofs.Edit.Container
import CssTree.Proofs.Grammar.Filled
import CssTree.Proofs.Grammar.Headed
import CssTree.Proofs.Insertion
import CssTree.Proofs.Removal
import CssTree.Proofs.Repair
import CssTree.Proofs.Text.Push

namespace CssTree

mutual

/-- A token of a node is an element of one of the nodes in it. -/
theorem Node.exists_element : ∀ {n : Node} {t : Token}, t ∈ n.tokens →
    ∃ m ∈ n.descendants, .token t ∈ m.elements
  | ⟨id, kind, span, es⟩, t, h => by
    rw [Node.tokens_mk] at h
    rcases Element.exists_element h with hown | ⟨m, hm, hin⟩
    · exact ⟨_, Node.mem_descendants_self _, hown⟩
    · rw [Node.descendants_mk]
      exact ⟨m, List.mem_cons_of_mem _ hm, hin⟩

theorem Element.exists_element : ∀ {es : List Element} {t : Token}, t ∈ Element.tokensOf es →
    .token t ∈ es ∨ ∃ m ∈ Element.descendantsOf es, .token t ∈ m.elements
  | [], t, h => by cases h
  | .token u :: es, t, h => by
    rw [Element.tokensOf_token] at h
    rcases List.mem_cons.mp h with rfl | h
    · exact Or.inl List.mem_cons_self
    · rw [Element.descendantsOf_token]
      exact (Element.exists_element h).imp_left (List.mem_cons_of_mem _)
  | .node n :: es, t, h => by
    rw [Element.tokensOf_node] at h
    rw [Element.descendantsOf_node]
    rcases List.mem_append.mp h with h | h
    · obtain ⟨m, hm, hin⟩ := Node.exists_element h
      exact Or.inr ⟨m, List.mem_append_left _ hm, hin⟩
    · rcases Element.exists_element h with hown | ⟨m, hm, hin⟩
      · exact Or.inl (List.mem_cons_of_mem _ hown)
      · exact Or.inr ⟨m, List.mem_append_right _ hm, hin⟩

end

/-- An element of a node with no wrong spans has none itself. -/
theorem Violation.ofElement_eq_nil {index : LineIndex} {parent : Node} {e : Element} :
    ∀ {previous : Option Span} {es : List Element}, ofElements index parent previous es = [] →
      e ∈ es → ofElement index parent e = []
  | _, [], _, he => by cases he
  | previous, f :: fs, h, he => by
    simp only [ofElements, List.append_eq_nil_iff] at h
    rcases List.mem_cons.mp he with rfl | he
    · exact h.1.1
    · exact ofElement_eq_nil h.2 he

namespace Tree

variable {tree : Tree} {n : Node} {t : Token} {l : Lexeme}

/-- In a tree with no wrong spans those of nodes cover what the nodes render. -/
theorem slice?_node (h : tree.violations = []) (hn : n ∈ tree.root.descendants) :
    (LineIndex.ofText tree.render).slice? n.span = some n.render := by
  have hnode := List.flatMap_eq_nil_iff.mp h n hn
  simp only [Violation.ofNode, List.append_eq_nil_iff] at hnode
  by_contra hfound
  rw [if_neg hfound] at hnode
  exact List.cons_ne_nil _ _ hnode.1.2

/-- In a tree with no wrong spans those of lexemes cover their text. -/
theorem slice?_lexeme (h : tree.violations = []) (hn : n ∈ tree.root.descendants)
    (ht : t ∈ n.tokens) (hl : l ∈ t.lexemes) :
    (LineIndex.ofText tree.render).slice? l.span = some l.text := by
  obtain ⟨m, hm, hin⟩ := Node.exists_element ht
  have hnode := List.flatMap_eq_nil_iff.mp h m (Node.mem_descendants_trans hn hm)
  simp only [Violation.ofNode, List.append_eq_nil_iff] at hnode
  have htoken : Violation.ofToken (.ofText tree.render) t = [] :=
    Violation.ofElement_eq_nil hnode.2 hin
  have hlexeme := List.flatMap_eq_nil_iff.mp htoken l (by
    simp only [Token.lexemes, List.mem_append, List.mem_cons] at hl
    rcases hl with hl | rfl | hl <;> simp [*])
  by_contra hfound
  rw [Violation.ofLexeme, if_neg hfound] at hlexeme
  exact List.cons_ne_nil _ _ hlexeme

end Tree

/-- The removal at `index` that takes back an insertion into a list of rules or selectors. -/
inductive Mutation.TakenBack (index : Nat) : Mutation → Mutation → Prop
  | rule {container : NodeId} {t : Text} :
      TakenBack index (.insertRule container index t) (.removeRule container index)
  | lastRule {container : NodeId} {t : Text} :
      TakenBack index (.appendRule container t) (.removeRule container index)
  | selector {container : NodeId} {t : Text} :
      TakenBack index (.insertSelector container index t) (.removeSelector container index)
  | lastSelector {container : NodeId} {t : Text} :
      TakenBack index (.appendSelector container t) (.removeSelector container index)

/-- Where an item is put into a list. -/
def Listing.insertAt (list : Node) (index : Nat) (l : Listing) : Position :=
  ((l.items.get? index).map (·.coreStart)).getD (l.appendAt list)

/-- What leads the item at `index` stands in front of the first token of that item. -/
def Node.LeadsAt (list : Node) (index : Nat) : Prop :=
  ∀ n ∈ list.children[index]?, ∀ l ∈ n.leading,
    l.span.start < n.coreStart ∧ l.span.stop ≤ n.coreStart

instance (list : Node) (index : Nat) : Decidable (list.LeadsAt index) :=
  inferInstanceAs (Decidable (∀ n ∈ list.children[index]?, ∀ l ∈ n.leading, _))

namespace Tree

variable {tree tree' : Tree} {list n : Node} {r : Span} {loose : List Entry}

/-- Where a tree lies where its text says, a change of a list that was undone leaves nothing
behind. -/
theorem Returned.root_eq (h : tree.Returned list r tree') (hsound : tree.Sound loose)
    (hlaid : tree.root.Laid []) (hlist : list ∈ tree.root.descendants) (hr : r.IsValid)
    (hstart : list.span.start ≤ r.start) (hstop : r.start ≤ list.span.stop) :
    tree'.root = tree.root := by
  obtain ⟨x, hx, hplace, hroot⟩ := h
  obtain ⟨before, -, -, hlistlaid⟩ := hlaid.descendant hlist
  have hmoved : tree.root.moved (fun i s => r.delete (tree.grow list.id r i s)) (fun s => s) =
      tree.root := by
    refine Node.moved_eq_self (fun m hm => ?_) fun _ _ => Token.mapSpans_eq_self fun _ _ => rfl
    rw [Tree.grow]
    split
    next hgrows =>
      have hbelow : list ∈ m.descendants := (hsound.mem_growing_iff hlist hm).mp hgrows
      have hcontains := contains_span hlaid hm hbelow
      exact Span.delete_insert_join hr (Position.le_trans hcontains.1 hstart)
        (Position.le_trans hstop hcontains.2)
    next => exact Span.delete_insert hr _
  have hself : x.respan = list := by
    rw [Node.respan_congr hx fun hnone => ?_]
    · exact hlistlaid.respan
    · rw [hplace hnone]
      refine Position.le_antisymm ?_ hstart
      rw [hlistlaid.span, Node.render, hnone] at hstop ⊢
      simpa [Span.behind] using hstop
  rw [hroot, hmoved, hself]
  have hid := Node.update_congr (f := fun _ => list) (g := fun m => m) hsound.nodup hlist rfl
  rwa [Node.update_id] at hid

end Tree

namespace Tree

variable {tree : Tree} {list target fragment : Node} {listing : Listing} {loose : List Entry}
  {index : Nat} {r : Span} {u : Text} {k : Nat}

/-- Where a text is found there is room for as much as the whole text may grow by. -/
theorem hasRoom_of_slice? {t : Text} (h : (LineIndex.ofText t).slice? r = some u)
    (hk : t.length + k ≤ Position.limit) : r.start.HasRoom k ∧ r.stop.HasRoom k := by
  obtain ⟨-, hstart, hstop⟩ := LineIndex.slice?_spec h
  simp only [Position.HasRoom]
  omega

theorem hasRoom_coreStart (hvalid : tree.violations = []) (htarget : target ∈ tree.root.descendants)
    (hfilled : target.tokens ≠ []) (hk : tree.render.length + k ≤ Position.limit) :
    target.coreStart.HasRoom k ∧ ∃ t ∈ target.tokens.head?, t.span.IsValid := by
  obtain ⟨t, ts, hhead⟩ := List.exists_cons_of_ne_nil hfilled
  have hslice := slice?_lexeme (t := t) (l := t.toLexeme) hvalid htarget (by simp [hhead])
    (by simp [Token.lexemes])
  refine ⟨?_, t, by rw [hhead]; rfl, (LineIndex.slice?_spec hslice).1⟩
  rw [Node.coreStart, hhead]
  exact (hasRoom_of_slice? hslice hk).1

theorem Sound.hasRoom_appendAt (h : tree.Sound loose) (hvalid : tree.violations = [])
    (hlist : list ∈ tree.root.descendants) (hlisting : list.listing? = some listing)
    (hk : tree.render.length + k ≤ Position.limit) : (listing.appendAt list).HasRoom k := by
  have helements := (h.formed list hlist).elements_listing hlisting
  rw [Listing.appendAt]
  cases hlast : listing.items.last? with
  | some last =>
    have hchild := (h.formed list hlist).mem_children_last? hlisting hlast
    exact (hasRoom_of_slice? (slice?_node hvalid
      (Node.mem_descendants_trans hlist (Node.mem_descendants_child hchild))) hk).2
  | none =>
    show (listing.openEnd list).HasRoom k
    rw [Listing.openEnd]
    cases hopening : listing.opening.head? with
    | none => exact (hasRoom_of_slice? (slice?_node hvalid hlist) hk).1
    | some t =>
      have hmem : t ∈ list.tokens := by
        rw [← list.tokens_eq, helements, Listing.tokensOf_elements]
        exact List.mem_append_left _ (List.mem_append_left _ (List.mem_of_head? hopening))
      show t.fullSpan.stop.HasRoom k
      rw [Token.fullSpan]
      cases htrailing : t.trailing.getLast? with
      | none =>
        exact (hasRoom_of_slice? (slice?_lexeme (l := t.toLexeme) hvalid hlist hmem
          (by simp [Token.lexemes])) hk).2
      | some l =>
        exact (hasRoom_of_slice? (slice?_lexeme hvalid hlist hmem (l := l)
          (by simp [Token.lexemes, List.mem_of_getLast? htrailing])) hk).2

/-- Where a document has not grown too long there was room for the item in front of another one. -/
theorem Sound.hasRoom_insertedBefore (h : tree.Sound loose) (hvalid : tree.violations = [])
    (hlist : list ∈ tree.root.descendants) (hlisting : list.listing? = some listing)
    (htarget : listing.items.get? index = some target) (hfilled : target.tokens ≠ [])
    (hitem : fragment.Proper) (htokens : fragment.tokens ≠ [])
    (hlimit : (tree.insertedBefore list listing.kind index target fragment).render.length ≤
      Position.limit) :
    target.coreStart.HasRoom fragment.render.length ∧ ∃ t ∈ target.tokens.head?, t.span.IsValid := by
  have hchild := ((h.formed list hlist).getElem?_children hlisting index).trans htarget
  obtain ⟨_, _, _, -, -, hrender, hrender', -⟩ :=
    h.splicedBefore hlist hlisting htarget hfilled hitem htokens
  refine hasRoom_coreStart hvalid (Node.mem_descendants_trans hlist
    (Node.mem_descendants_child (List.mem_of_getElem? hchild))) hfilled (Nat.le_trans ?_ hlimit)
  rw [hrender, hrender']
  simp only [List.length_append]
  omega

/-- What is missing in front of an item is no longer than the separator that an item asks for. -/
theorem length_missing_le (hkind : listing.kind ≠ .declarations) : listing.missing.length ≤
    ((listing.items.last?.map listing.kind.separatorAfter).getD []).length := by
  rw [Listing.missing_eq hkind]
  split
  next hlacks =>
    rw [Listing.lacksComma, Bool.and_eq_true, Bool.and_eq_true, decide_eq_true_eq,
      Option.isSome_iff_exists] at hlacks
    obtain ⟨⟨hselectors, last, hlast⟩, -⟩ := hlacks
    rw [hlast, hselectors]
    exact Nat.le_refl _
  next => exact Nat.zero_le _

/-- There was room for the item behind the others, and for the comma and the gap in front of it. -/
theorem Sound.hasRoom_insertedAfter (h : tree.Sound loose)
    (hproper : ∀ x ∈ tree.root.descendants, x.Proper) (hvalid : tree.violations = [])
    (hlist : list ∈ tree.root.descendants) (hlisting : list.listing? = some listing)
    (hkind : listing.kind ≠ .declarations) (hitem : fragment.Proper) (htokens : fragment.tokens ≠ [])
    (hlimit : (tree.insertedAfter list listing fragment).render.length ≤ Position.limit) :
    ((listing.appendAt list).advance (listing.missing ++ Lexeme.render
      (gapAfter list listing.kind listing.items.last? fragment
        ((listing.appendAt list).advance listing.missing)))).HasRoom fragment.render.length := by
  obtain ⟨_, _, -, hrender, hrender', -⟩ := h.splicedAfter hproper hlist hlisting hitem htokens
  have hmissing := length_missing_le hkind
  refine (h.hasRoom_appendAt hvalid hlist hlisting (Nat.le_trans ?_ hlimit)).advance (Nat.le_refl _)
  rw [hrender, hrender']
  simp only [List.length_append]
  omega

/-- An item that was put into a list is taken out again. -/
theorem Sound.returned (h : tree.Sound (fragment.entries none))
    (hproper : ∀ x ∈ tree.root.descendants, x.Proper) (hvalid : tree.violations = [])
    (hlist : list ∈ tree.root.descendants) (hlisting : list.listing? = some listing)
    (hkind : listing.kind ≠ .declarations) (hitems : ∀ n ∈ list.children, n.tokens ≠ [])
    (hindex : index ≤ listing.items.size) (hfragment : fragment.Laid [])
    (hformed : ∀ x ∈ fragment.descendants, x.Formed) (hitem : fragment.Proper)
    (htokens : fragment.tokens ≠ []) (hheaded : fragment.Headed)
    (hbreak : fragment.leading = [] → fragment.render.head? ≠ some '\n')
    (hstart : fragment.leading = [] ∨ index = listing.items.size) (hleads : list.LeadsAt index)
    (hlimit : (tree.inserted list listing index fragment).render.length ≤ Position.limit) :
    let tree' := tree.inserted list listing index fragment
    ∃ (r : Span) (list' : Node) (listing' : Listing) (removed : Node),
      r.start = listing.insertAt list index ∧ tree.Changed list r list' listing' tree' ∧
      listing'.items.get? index = some removed ∧
      tree.Returned list r (tree'.without list' listing' index removed) := by
  rw [Tree.inserted] at hlimit ⊢
  rw [Listing.insertAt]
  cases htarget : listing.items.get? index with
  | some target =>
    rw [htarget, render_respan] at hlimit
    have hchild := ((h.formed list hlist).getElem?_children hlisting index).trans htarget
    have hfilled := hitems target (List.mem_of_getElem? hchild)
    have hlead : fragment.leading = [] := by
      refine hstart.resolve_right fun hlast => ?_
      rw [hlast, Punctuated.get?, Punctuated.size, List.getElem?_length] at htarget
      cases htarget
    obtain ⟨hroom, hfirst⟩ :=
      h.hasRoom_insertedBefore hvalid hlist hlisting htarget hfilled hitem htokens hlimit
    obtain ⟨r, list', listing', removed, next, hat, hchanged, hremoved, hnext, hreturned⟩ :=
      h.returned_before hlist hlisting hkind htarget hfragment hformed htokens hlead hroom hfirst
        (hleads target hchild)
    refine ⟨r, list', listing', removed, hat, hchanged, hremoved, ?_⟩
    rw [Tree.without, hnext]
    exact hreturned
  | none =>
    rw [htarget, render_respan] at hlimit
    obtain rfl : index = listing.items.size := by
      rw [Punctuated.get?, Option.map_eq_none_iff, List.getElem?_eq_none_iff] at htarget
      exact Nat.le_antisymm hindex htarget
    have hroom :=
      h.hasRoom_insertedAfter hproper hvalid hlist hlisting hkind hitem htokens hlimit
    obtain ⟨r, list', listing', removed, hat, hchanged, hremoved, hnext, hreturned⟩ :=
      h.returned_after hlist hlisting hkind hitems hfragment hformed htokens hheaded hbreak hroom
    refine ⟨r, list', listing', removed, hat, hchanged, hremoved, ?_⟩
    rw [Tree.without, hnext]
    exact hreturned

end Tree

section Placed

variable {tree : Tree} {n list : Node} {listing : Listing} {loose : List Entry} {t : Token}
  {index : Nat}

/-- A node that lies behind a text covers its tokens. -/
theorem Node.Laid.contains_token {before : Text} (h : n.Laid before) (ht : t ∈ n.tokens) :
    n.span.Contains t.fullSpan ∧ t.fullSpan.Contains t.span ∧ t.span.IsValid := by
  obtain ⟨xs, ys, htokens⟩ := List.append_of_mem ht
  have hall := h.laidAll_tokens
  rw [htokens, Token.laidAll_append, Token.laidAll_cons] at hall
  have htoken := hall.2.1
  have hcore : t.span = _ := (Lexeme.laid_append.mp htoken).2.1
  refine ⟨?_, ?_, ?_⟩
  · rw [h.span, htoken.fullSpan, Node.render, htokens, Token.renderAll_append,
      Token.renderAll_cons, ← List.append_assoc]
    exact Span.contains_behind
  · rw [htoken.fullSpan, hcore]
    exact Span.contains_behind
  · rw [hcore]
    exact Span.isValid_behind _ _

/-- An item is put into a list between the ends of the list. -/
theorem Tree.Sound.insertAt_within (h : tree.Sound loose) (index : Nat) (hlaid : tree.root.Laid [])
    (hlist : list ∈ tree.root.descendants) (hlisting : list.listing? = some listing)
    (hitems : ∀ n ∈ list.children, n.tokens ≠ []) :
    list.span.start ≤ listing.insertAt list index ∧
      listing.insertAt list index ≤ list.span.stop := by
  have helements := (h.formed list hlist).elements_listing hlisting
  have hplaced : ∀ m ∈ tree.root.descendants, ∃ before, m.Laid before := fun m hm => by
    obtain ⟨xs, -, -, hm⟩ := hlaid.descendant hm
    exact ⟨_, hm⟩
  have hbelow : ∀ c ∈ list.children, c ∈ tree.root.descendants := fun c hc =>
    Node.mem_descendants_trans hlist (Node.mem_descendants_child hc)
  have hwithin : ∀ c ∈ list.children, list.span.Contains c.span := fun c hc =>
    contains_span hlaid hlist (Node.mem_descendants_child hc)
  obtain ⟨before, hlistlaid⟩ := hplaced list hlist
  rw [Listing.insertAt]
  cases htarget : listing.items.get? index with
  | some target =>
    have hchild := List.mem_of_getElem?
      (((h.formed list hlist).getElem?_children hlisting index).trans htarget)
    obtain ⟨t, ts, hhead⟩ := List.exists_cons_of_ne_nil (hitems target hchild)
    obtain ⟨_, htargetlaid⟩ := hplaced target (hbelow target hchild)
    obtain ⟨hfull, hcore, hvalid⟩ := htargetlaid.contains_token (t := t) (by simp [hhead])
    have hstart : target.coreStart = t.span.start := by
      rw [Node.coreStart, hhead]
      rfl
    show list.span.start ≤ target.coreStart ∧ target.coreStart ≤ list.span.stop
    rw [hstart]
    exact ⟨Position.le_trans (hwithin target hchild).1 (Position.le_trans hfull.1 hcore.1),
      Position.le_trans hvalid (Position.le_trans hcore.2 (Position.le_trans hfull.2
        (hwithin target hchild).2))⟩
  | none =>
    show list.span.start ≤ listing.appendAt list ∧ listing.appendAt list ≤ list.span.stop
    rw [Listing.appendAt]
    cases hlast : listing.items.last? with
    | some last =>
      have hchild := (h.formed list hlist).mem_children_last? hlisting hlast
      obtain ⟨_, hlastlaid⟩ := hplaced last (hbelow last hchild)
      have hvalid : last.span.IsValid := by
        rw [hlastlaid.span]
        exact Span.isValid_behind _ _
      exact ⟨Position.le_trans (hwithin last hchild).1 hvalid, (hwithin last hchild).2⟩
    | none =>
      show list.span.start ≤ listing.openEnd list ∧ listing.openEnd list ≤ list.span.stop
      rw [Listing.openEnd]
      cases hopening : listing.opening.head? with
      | none =>
        refine ⟨Position.le_refl _, ?_⟩
        show list.span.start ≤ list.span.stop
        rw [hlistlaid.span]
        exact Span.isValid_behind _ _
      | some t =>
        have ht : t ∈ list.tokens := by
          rw [← list.tokens_eq, helements, Listing.tokensOf_elements]
          exact List.mem_append_left _ (List.mem_append_left _ (List.mem_of_head? hopening))
        obtain ⟨hfull, hcore, hvalid⟩ := hlistlaid.contains_token ht
        exact ⟨Position.le_trans hfull.1 (Position.le_trans hcore.1
          (Position.le_trans hvalid hcore.2)), hfull.2⟩

/-- The nodes right below the root of a tree that was read have text throughout. -/
theorem Tree.filled_children (p : Production) (config : Config) (t : Text) :
    ∀ c ∈ (Tree.parse p config t).root.children, Lexeme.Filled (Token.lexemesOf c.tokens) := by
  intro c hc
  by_cases hp : p = .styleSheet
  · subst hp
    exact Tree.filled_rules config t c hc
  cases herror : (Tree.parse p config t).root.isError with
  | true =>
    have hslots := (Session.orderly_parse p config t _ (Node.mem_descendants_self _)).1.slots
    rw [Node.isError, decide_eq_true_eq] at herror
    rw [Node.Slotted, herror, show NodeKind.slots .error _ = [] from rfl] at hslots
    rw [List.forall₂_nil_left_iff.mp hslots] at hc
    cases hc
  | false =>
    have hfilled : Lexeme.Filled (Token.lexemesOf (Tree.parse p config t).root.tokens) :=
      Production.filled_parse hp _ Arena.fresh_empty t herror
    obtain ⟨xs, ys, htokens, -⟩ := (Tree.laid_parse p config t).1.descendant
      (Node.mem_descendants_child hc)
    rw [htokens, Token.lexemesOf_append, Token.lexemesOf_append, Lexeme.filled_append,
      Lexeme.filled_append] at hfilled
    exact hfilled.1.2

/-- In a tree that was read, what leads an item stands in front of it. -/
theorem Tree.leadsAt_parse (p : Production) (config : Config) (t : Text)
    (hlist : list ∈ (Tree.parse p config t).root.descendants) : list.LeadsAt index := by
  intro target htarget l hl
  obtain ⟨hlaid, hwhole⟩ := laid_parse p config t
  have hchild : target ∈ list.children := List.mem_of_getElem? htarget
  obtain ⟨xs, ys, htokens, htargetlaid⟩ := hlaid.descendant
    (Node.mem_descendants_trans hlist (Node.mem_descendants_child hchild))
  obtain ⟨u, us, hhead⟩ : ∃ u us, target.tokens = u :: us := by
    cases hnone : target.tokens with
    | nil => simp [Node.leading, hnone] at hl
    | cons u us => exact ⟨u, us, rfl⟩
  obtain ⟨ls, ls', hleading⟩ : ∃ ls ls', u.leading = ls ++ l :: ls' :=
    List.append_of_mem (by simpa [Node.leading, hhead] using hl)
  have hfilled : l.text ≠ [] := by
    obtain ⟨c, hc, hin⟩ : ∃ c ∈ (Tree.parse p config t).root.children, target ∈ c.descendants := by
      rw [Node.descendants_children] at hlist
      rcases List.mem_cons.mp hlist with rfl | hlist
      · exact ⟨target, hchild, target.mem_descendants_self⟩
      · obtain ⟨c, hc, hlist⟩ := List.mem_flatMap.mp hlist
        exact ⟨c, hc, Node.mem_descendants_trans hlist (Node.mem_descendants_child hchild)⟩
    obtain ⟨_, _, -, hclaid⟩ := hlaid.descendant (Node.mem_descendants_child hc)
    obtain ⟨vs, ws, hbelow, -⟩ := hclaid.descendant hin
    refine Tree.filled_children p config t c hc l ?_
    rw [hbelow, hhead]
    simp [Token.lexemes, hleading]
  let before := Token.renderAll xs ++ Lexeme.render ls
  obtain ⟨hspan, hcore⟩ : l.span = .behind before l.text ∧
      u.span = .behind (before ++ l.text ++ Lexeme.render ls') u.text := by
    have hall := htargetlaid.laidAll_tokens
    rw [hhead, Token.laidAll_cons, Token.Laid, Token.lexemes, hleading, List.append_assoc,
      Lexeme.laid_append, List.cons_append, Lexeme.laid_cons, Lexeme.laid_append,
      Lexeme.laid_cons] at hall
    exact ⟨hall.1.2.1, hall.1.2.2.2.1⟩
  have hbefore : ¬Fuse before l.text := by
    have hlexemes : Token.lexemesOf (Tree.parse p config t).root.tokens =
        (Token.lexemesOf xs ++ ls) ++ l :: (ls' ++ u.toLexeme :: u.trailing ++
          Token.lexemesOf us ++ Token.lexemesOf ys) := by
      rw [htokens, hhead]
      simp [Token.lexemes, hleading]
    rw [hlexemes] at hwhole
    have hcut := hwhole.not_fuse_render
    rwa [Lexeme.render_append, Token.render_lexemesOf, Lexeme.render_cons,
      fuse_append_right_iff hfilled] at hcut
  have hstart : target.coreStart = u.span.start := by
    rw [Node.coreStart, hhead]
    rfl
  have hstop : l.span.stop ≤ u.span.start := by
    rw [hspan, hcore]
    exact Position.origin_advance_le (before ++ l.text) (Lexeme.render ls')
  refine ⟨?_, hstart ▸ hstop⟩
  rw [hstart]
  refine Position.lt_of_lt_of_le ?_ hstop
  rw [hspan]
  exact Position.advance_lt hbefore hfilled

end Placed

namespace Mutation

variable {tree tree' : Tree} {m m' : Mutation} {list list' : Node} {index : Nat} {q : Production}
  {t : Text} {onNode : NodeId → Span → Span} {f : Span → Span}

/-- What is taken back was read as a rule or a selector, into a list of such. -/
theorem TakenBack.items (h : m.TakenBack index m') (hinserts : m.Inserts tree list index q t) :
    (q = .rule ∨ q = .keyframeRule ∨ q = .selector) ∧
      ∀ listing, list.listing? = some listing → listing.kind ≠ .declarations := by
  have hrules : ∀ {n : Node}, n.ruleList = .ok list →
      ((if tree.inKeyframes list then Production.keyframeRule else .rule) = .rule ∨
        (if tree.inKeyframes list then Production.keyframeRule else .rule) = .keyframeRule ∨
        (if tree.inKeyframes list then Production.keyframeRule else .rule) = .selector) ∧
      ∀ listing, list.listing? = some listing → listing.kind ≠ .declarations := by
    intro n hlist
    refine ⟨by split <;> simp, fun listing hlisting hkind => ?_⟩
    have hslot := Node.slot_of_ruleList hlist hlisting
    rw [hkind] at hslot
    cases hslot
  have hselectors : ∀ {n : Node}, n.selectorList = .ok list →
      ∀ listing, list.listing? = some listing → listing.kind ≠ .declarations := by
    intro n hlist listing hlisting hkind
    have hslot := Node.slot_of_selectorList hlist hlisting
    rw [hkind] at hslot
    cases hslot
  cases h with
  | rule => cases hinserts with | rule hget hlist => exact hrules hlist
  | lastRule => cases hinserts with | lastRule hget hlist => exact hrules hlist
  | selector => cases hinserts with
    | selector hget hlist => exact ⟨Or.inr (Or.inr rfl), hselectors hlist⟩
  | lastSelector => cases hinserts with
    | lastSelector hget hlist => exact ⟨Or.inr (Or.inr rfl), hselectors hlist⟩

/-- The removal finds the list that the insertion made. -/
theorem TakenBack.removes (h : m.TakenBack index m') (hinserts : m.Inserts tree list index q t)
    (hnodup : (tree.root.descendants.map Node.id).Nodup)
    (hnodup' : (tree'.root.descendants.map Node.id).Nodup) (hid : list'.id = list.id)
    (hkind : list'.kind = list.kind)
    (hroot : tree'.root = (tree.root.moved onNode f).update list.id fun _ => list') :
    m'.Removes tree' list' index := by
  let g : Node → Node := fun n => (n.moved onNode f).update list.id fun _ => list'
  have hself : g list = list' := Node.update_self (Node.id_moved _ _ list)
  have hcontainer : ∀ {container : NodeId} {n : Node}, tree.get container = .ok n →
      list ∈ n.descendants → tree'.get container = .ok (g n) ∧
        (list ∈ n.children → (g n).kind = n.kind ∧ (g n).children = n.children.map g) := by
    intro container n hget hlist
    obtain ⟨hn, rfl⟩ := Tree.mem_of_get hget
    refine ⟨Tree.get_exchanged hnodup hnodup' hn hlist hid hroot, fun hchild => ?_⟩
    exact Node.exchanged_child (Node.nodup_below hnodup hn) hchild list'
  have hrules : ∀ {container : NodeId} {n : Node}, tree.get container = .ok n →
      n.ruleList = .ok list → Removes tree' (.removeRule container index) list' index := by
    intro container n hget hlist
    obtain ⟨hget', hchildren⟩ := hcontainer hget (Node.mem_of_ruleList hlist)
    have hlist' := Node.ruleList_exchanged (g := g) hlist (by rw [hself, hkind]) hchildren
    rw [hself] at hlist'
    exact .rule hget' hlist'
  have hselectors : ∀ {container : NodeId} {n : Node}, tree.get container = .ok n →
      n.selectorList = .ok list → Removes tree' (.removeSelector container index) list' index := by
    intro container n hget hlist
    obtain ⟨hget', hchildren⟩ := hcontainer hget (Node.mem_of_selectorList hlist)
    have hlist' := Node.selectorList_exchanged (g := g) hlist (by rw [hself, hkind]) hchildren
    rw [hself] at hlist'
    exact .selector hget' hlist'
  cases h with
  | rule => cases hinserts with | rule hget hlist => exact hrules hget hlist
  | lastRule => cases hinserts with | lastRule hget hlist => exact hrules hget hlist
  | selector => cases hinserts with | selector hget hlist => exact hselectors hget hlist
  | lastSelector => cases hinserts with | lastSelector hget hlist => exact hselectors hget hlist

end Mutation

namespace Tree

variable {tree tree' : Tree} {fragment : Node} {q : Production} {t : Text}

/-- A text that is read as a rule or a selector starts with a token, and not with a line feed. -/
theorem Sound.headed_of_reads (h : tree.Sound [])
    (hq : q = .rule ∨ q = .keyframeRule ∨ q = .selector)
    (hreads : tree.reads q t = (fragment, tree')) (herror : fragment.isError = false) :
    fragment.Headed ∧ (fragment.leading = [] → fragment.render.head? ≠ some '\n') := by
  have hconfig : q ≠ .declaration := by rcases hq with rfl | rfl | rfl <;> decide
  have hsheet : q ≠ .styleSheet := by rcases hq with rfl | rfl | rfl <;> decide
  obtain rfl : fragment = (q.parse tree.config tree.arena t).1 := by
    rw [Tree.reads, if_neg hconfig] at hreads
    exact (congrArg Prod.fst hreads).symm
  refine ⟨q.parse_headed hq _ _ t herror, fun hleading hbreak => ?_⟩
  have hunbroken := Production.unbroken_parse hsheet _ h.fresh t herror
  have hfilled := Production.filled_parse hsheet _ h.fresh t herror
  rw [Node.leading] at hleading
  rw [Node.render] at hbreak
  cases htokens : (q.parse tree.config tree.arena t).1.tokens with
  | nil => simp [htokens] at hbreak
  | cons u us =>
    rw [htokens] at hunbroken hfilled hleading hbreak
    replace hleading : u.leading = [] := hleading
    have htext : u.text ≠ [] := hfilled u.toLexeme (by simp [Token.lexemes])
    obtain ⟨c, cs, hcs⟩ := List.exists_cons_of_ne_nil htext
    refine hunbroken u rfl hleading ?_
    rw [Token.renderAll_cons, Token.render, hleading, hcs] at hbreak
    rw [hcs]
    exact hbreak

end Tree

namespace Session

/-- An insertion and the removal that takes it back, as two calls in a row. -/
theorem returned_apply {s : Session} {m m' : Mutation} {list : Node} {index : Nat} {q : Production}
    {text : Text} (hsound : s.tree.Sound []) (hproper : ∀ x ∈ s.tree.root.descendants, x.Proper)
    (hinserts : m.Inserts s.tree list index q text) (hback : m.TakenBack index m')
    (hitems : ∀ n ∈ list.children, n.tokens ≠ []) (hindex : index ≤ list.children.length)
    (haccepted : (s.tree.reads q text).1.isError = false)
    (hstart : (s.tree.reads q text).1.leading = [] ∨ index = list.children.length)
    (hvalid : s.tree.violations = []) (hleads : list.LeadsAt index)
    (hlimit : (s.apply m).2.1.tree.render.length ≤ Position.limit) :
    let s' := (s.apply m).2.1
    (s.apply m).1 = .ok (some (.inserted list.id (s.tree.reads q text).1.id)) ∧
      (s'.apply m').1 = .ok (some (.removed list.id index)) ∧
      ∃ (tree : Tree) (loose : List Entry) (r : Span), tree.Sound loose ∧
        tree.root = s.tree.root ∧ r.IsValid ∧
        (∃ listing, list.listing? = some listing ∧ r.start = listing.insertAt list index) ∧
        tree.Returned list r (s'.apply m').2.1.tree := by
  intro s'
  let item := (s.tree.reads q text).1
  obtain ⟨hlist, hitem, ⟨listing, hlisting⟩, expected, hsteps⟩ := hinserts.steps
  obtain ⟨hq, hkinds⟩ := hback.items hinserts
  obtain ⟨tree, hreads⟩ : ∃ tree, s.tree.reads q text = (item, tree) := ⟨_, rfl⟩
  obtain ⟨hread, hcomplete, hroot, -⟩ := hsound.reads hreads
  have hlength : list.children.length = listing.items.size := by
    rw [(hsound.formed list hlist).children_listing hlisting, Listing.length_nodes]
  rw [hlength] at hindex hstart
  have hrun := hsteps.trans
    (Edit.insertItem_run hsound hlist hlisting hindex hreads haccepted expected)
  have hafter : s'.tree = tree.inserted list listing index item := by
    show (m.steps.run.run ⟨s.tree, []⟩).2.tree = _
    rw [hrun]
  have hlimit' : (tree.inserted list listing index item).render.length ≤ Position.limit := by
    rw [← hafter]
    exact hlimit
  have hvalid' : tree.violations = [] := by
    rw [Tree.violations, Tree.render, hroot]
    exact hvalid
  obtain ⟨htokens, -⟩ := hsound.text_of_reads hitem hreads haccepted
  obtain ⟨hheaded, hbreak⟩ := hsound.headed_of_reads hq hreads haccepted
  obtain ⟨r, list', listing', removed, hat, hchanged, hremoved, hreturned⟩ :=
    hread.returned (hroot ▸ hproper) hvalid' (hroot ▸ hlist) hlisting (hkinds listing hlisting)
      hitems hindex hcomplete.laid hcomplete.formed
      (Tree.orderly_of_reads hreads item item.mem_descendants_self).1 htokens hheaded hbreak hstart
      hleads hlimit'
  have hroot' := hchanged.root
  rw [hroot, ← hafter] at hroot'
  have hsound' : s'.tree.Sound [] := sound_apply hsound m
  have hremoves := hback.removes hinserts hsound.nodup hsound'.nodup hchanged.id hchanged.kind hroot'
  obtain ⟨-, -, hsteps'⟩ := hremoves.steps hsound'
  have hrun' := hsteps'.trans (Edit.removeItem_run hchanged.listing hremoved)
  have hend : (s'.apply m').2.1.tree = s'.tree.without list' listing' index removed := by
    show (m'.steps.run.run ⟨s'.tree, []⟩).2.tree = _
    rw [hrun']
  rw [← hafter, ← hend] at hreturned
  refine ⟨?_, ?_, tree, _, r, hread, hroot, hchanged.isValid, ⟨listing, hlisting, hat⟩, hreturned⟩
  · rw [apply, hrun]
    rfl
  · rw [apply, hrun', hchanged.id]
    rfl

/-- An item that is put into a list of rules or selectors, in a session whose tree has no wrong spans,
and is taken out again. The text, the list and all tokens with their trivia and their spans are what
they were; right after reading, so are the spans of nodes. The text starts with a token or goes
behind the last item, and what leads the item behind it stands in front of that item. -/
theorem insertion_undone (p : Production) (config : Config) (t : Text) (calls : List Call)
    {m m' : Mutation} {list : Node} {index : Nat} {q : Production} {text : Text}
    (hinserts : m.Inserts (Session.run ⟨Tree.parse p config t, false⟩ calls).tree list index q text)
    (hback : m.TakenBack index m') (hitems : ∀ n ∈ list.children, n.tokens ≠ [])
    (hindex : index ≤ list.children.length)
    (haccepted : ((Session.run ⟨Tree.parse p config t, false⟩ calls).tree.reads q
      text).1.isError = false)
    (hstart : ((Session.run ⟨Tree.parse p config t, false⟩ calls).tree.reads q
      text).1.leading = [] ∨ index = list.children.length)
    (hvalid : (Session.run ⟨Tree.parse p config t, false⟩ calls).tree.Valid)
    (hleads : calls = [] ∨ list.LeadsAt index)
    (hlimit : ((Session.run ⟨Tree.parse p config t, false⟩ calls).apply m).2.1.tree.render.length ≤
      Position.limit) :
    let s := Session.run ⟨Tree.parse p config t, false⟩ calls
    let s' := (s.apply m).2.1
    let s'' := (s'.apply m').2.1
    (s.apply m).1 = .ok (some (.inserted list.id (s.tree.reads q text).1.id)) ∧
      (s'.apply m').1 = .ok (some (.removed list.id index)) ∧
      s''.tree.render = s.tree.render ∧ s''.tree.size = s.tree.size ∧
      s''.tree.root.tokens = s.tree.root.tokens ∧
      (∃ list'', s''.tree.find? list.id = some list'' ∧
        list''.children.map Node.id = list.children.map Node.id) ∧
      (calls = [] → s''.tree.root = s.tree.root) := by
  intro s s' s''
  have hsound : s.tree.Sound [] := sound_run (Tree.sound_parse p config t) calls
  have hproper : ∀ x ∈ s.tree.root.descendants, x.Proper := proper_run
    (s := ⟨Tree.parse p config t, false⟩) (Tree.sound_parse p config t)
    (fun x hx => (orderly_parse p config t x hx).1) calls
  have hlist : list ∈ s.tree.root.descendants := hinserts.steps.1
  have hleads' : list.LeadsAt index := hleads.elim (fun hcalls => by
    subst hcalls
    exact Tree.leadsAt_parse p config t hlist) id
  obtain ⟨hinserted, hremoved, tree, loose, r, hread, hroot, hr, ⟨listing, hlisting, hat⟩, hreturned⟩ :=
    returned_apply hsound hproper hinserts hback hitems hindex haccepted hstart hvalid.1 hleads' hlimit
  have hsound'' : s''.tree.Sound [] := sound_apply (sound_apply hsound m) m'
  have hunspanned : s''.tree.root.unspanned = s.tree.root.unspanned := by
    rw [hreturned.unspanned hread.nodup (hroot ▸ hlist), hroot]
  have htokens : s''.tree.root.tokens = s.tree.root.tokens := Node.tokens_of_unspanned hunspanned
  refine ⟨hinserted, hremoved, ?_, ?_, htokens, ?_, fun hcalls => ?_⟩
  · rw [Tree.render, Node.render, htokens, Tree.render, Node.render]
  · rw [hsound''.linked.size_eq, hsound.linked.size_eq]
    have hids := congrArg List.length
      (Node.ids_of_skeleton (Node.skeleton_of_unspanned hunspanned))
    rwa [List.length_map, List.length_map] at hids
  · have hfind := congrArg (Node.find? list.id) hunspanned
    rw [Node.find?_unspanned, Node.find?_unspanned, Node.find?_of_mem hsound.nodup hlist] at hfind
    obtain ⟨list'', hlist'', heq⟩ := Option.map_eq_some_iff.mp hfind
    exact ⟨list'', hlist'', Node.ids_children_of_skeleton (Node.skeleton_of_unspanned heq)⟩
  · subst hcalls
    have hlaid : tree.root.Laid [] := hroot ▸ (Tree.laid_parse p config t).1
    have hwithin := hread.insertAt_within index hlaid (hroot ▸ hlist) hlisting hitems
    rw [← hat] at hwithin
    rw [hreturned.root_eq hread hlaid (hroot ▸ hlist) hr hwithin.1 hwithin.2, hroot]

/-- A rule between two others comes in with a line break, and both go again. -/
theorem insertion_undone_rule :
    let s : Session := ⟨Tree.parse .styleSheet {} "a{}\nb{}".toList, false⟩
    let m := Mutation.insertRule 10 1 "c{}".toList
    let s' := (s.apply m).2.1
    ∃ list, m.Inserts s.tree list 1 .rule "c{}".toList ∧ m.TakenBack 1 (.removeRule 10 1) ∧
      (∀ n ∈ list.children, n.tokens ≠ []) ∧ 1 ≤ list.children.length ∧
      (s.tree.reads .rule "c{}".toList).1.isError = false ∧
      (s.tree.reads .rule "c{}".toList).1.leading = [] ∧ s.tree.Valid ∧
      s'.tree.render.length ≤ Position.limit ∧ s'.tree.render = "a{}\nc{}\nb{}".toList ∧
      (s'.apply (.removeRule 10 1)).2.1.tree.root = s.tree.root := by
  intro s m s'
  have hlists : (s.tree.get 10).toOption.any (fun n => n.ruleList.toOption.any fun list =>
      1 ≤ list.children.length && (list.children.all fun n => !n.tokens.isEmpty) &&
        !s.tree.inKeyframes list) = true := by decide +kernel
  have haccepted : (s.tree.reads .rule "c{}".toList).1.isError = false := by decide +kernel
  have hstart : (s.tree.reads .rule "c{}".toList).1.leading = [] := by decide +kernel
  have hvalid : s.tree.Valid := ⟨by decide +kernel, by decide +kernel⟩
  have hlimit : s'.tree.render.length ≤ Position.limit := by decide +kernel
  cases hget : s.tree.get 10 with
  | error e => simp [hget, Except.toOption] at hlists
  | ok n =>
    cases hlist : n.ruleList with
    | error e => simp [hget, hlist, Except.toOption] at hlists
    | ok list =>
      obtain ⟨⟨hindex, hitems⟩, hkeyframes⟩ : (1 ≤ list.children.length ∧
          ∀ n ∈ list.children, n.tokens ≠ []) ∧ s.tree.inKeyframes list = false := by
        simpa [hget, hlist, Except.toOption] using hlists
      have hinserts : m.Inserts s.tree list 1 .rule "c{}".toList := by
        have hrule : m.Inserts s.tree list 1 (if s.tree.inKeyframes list then .keyframeRule else .rule)
            "c{}".toList := .rule hget hlist
        rwa [hkeyframes] at hrule
      obtain ⟨-, -, -, -, -, -, hroot⟩ := insertion_undone .styleSheet {} "a{}\nb{}".toList [] hinserts
        .rule hitems hindex haccepted (Or.inl hstart) hvalid (Or.inl rfl) hlimit
      exact ⟨list, hinserts, .rule, hitems, hindex, haccepted, hstart, hvalid, hlimit,
        by decide +kernel, hroot rfl⟩

/-- A carriage return and a line feed met at a splice and were parted again. An item is left whose first
token has the span of an equal text in the comment that leads it, so that no span is wrong by itself.
The comment grows over the next rule that is put in there, and does not come back. -/
theorem insertion_leaves_comment_behind :
    let s := Session.run
      ⟨Tree.parse .styleSheet { comments := true } "\n/*b;b\n*/b{}q{}c{}".toList, false⟩
      [.edit (.replaceText 4 "\n/*b;b\n*/b;b\n".toList), .edit (.replaceText 9 "/* a */".toList),
        .edit (.insertRule 15 1 "y{}".toList), .edit (.removeRule 15 1),
        .edit (.insertRule 15 0 "x{}\r".toList),
        .edit (.replaceText 29 "\n/*b;b\n*/x{}".toList), .edit (.removeRule 15 2)]
    let inserted := s.apply (.insertRule 15 1 "y{}".toList)
    let removed := inserted.2.1.apply (.removeRule 15 1)
    s.tree.Valid ∧ (∀ n ∈ s.tree.root.children, n.tokens ≠ []) ∧ 1 ≤ s.tree.root.children.length ∧
      (s.tree.reads .rule "y{}".toList).1.leading = [] ∧ inserted.1.isOk = true ∧
      removed.1.isOk = true ∧ removed.2.1.tree.render = s.tree.render ∧
      removed.2.1.tree.root.tokens ≠ s.tree.root.tokens := by
  unfold Tree.Valid
  decide +kernel

end Session

end CssTree
