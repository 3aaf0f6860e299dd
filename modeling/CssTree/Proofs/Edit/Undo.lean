import CssTree.Proofs.Edit.Insert
import CssTree.Proofs.Tree.Unspanned

namespace CssTree

namespace Listing

variable {onNode onNode' : NodeId → Span → Span} {f g : Span → Span}
  {pairs pairs' : List (Node × Option Token)}

/-- An item without the spans of nodes, and with the others moved. -/
def pushItem (f : Span → Span) : Node × Option Token → Node × Option Token :=
  mapItem (·.pushed f) (·.mapSpans f)

/-- A list without the spans of nodes, and with the others moved. -/
def pushed (f : Span → Span) (l : Listing) : Listing := l.map (·.pushed f) (·.mapSpans f)

theorem pushItem_moved (onNode : NodeId → Span → Span) (f g : Span → Span)
    (pair : Node × Option Token) :
    pushItem g (mapItem (·.moved onNode f) (·.mapSpans f) pair) = pushItem (fun r => g (f r)) pair := by
  obtain ⟨n, separator⟩ := pair
  simp [pushItem, mapItem, Node.pushed_moved, Token.mapSpans_mapSpans, Function.comp_def]

theorem pushItem_pushItem (f g : Span → Span) (pair : Node × Option Token) :
    pushItem g (pushItem f pair) = pushItem (fun r => g (f r)) pair :=
  pushItem_moved _ f g pair

theorem pushed_moved (onNode : NodeId → Span → Span) (f g : Span → Span) (l : Listing) :
    (l.map (·.moved onNode f) (·.mapSpans f)).pushed g = l.pushed fun r => g (f r) := by
  simp [pushed, map, Node.pushed_moved, Token.mapSpans_mapSpans, Function.comp_def]

theorem pushed_pushed (f g : Span → Span) (l : Listing) :
    (l.pushed f).pushed g = l.pushed fun r => g (f r) := l.pushed_moved _ f g

theorem pushed_holding (f : Span → Span) (pairs : List (Node × Option Token)) (l : Listing) :
    (l.holding pairs).pushed f = (l.pushed f).holding (pairs.map (pushItem f)) := rfl

theorem map_pushItem_of_pushed {l l' : Listing} (h : l'.pushed f = (l.holding pairs).pushed f) :
    l'.items.pairs.map (pushItem f) = pairs.map (pushItem f) := congrArg (·.items.pairs) h

/-- Items whose spans were moved there and back. -/
theorem map_pushItem_back (hback : ∀ r, g (f r) = r)
    (h : pairs'.map (pushItem fun r => r) =
      (pairs.map (mapItem (·.moved onNode f) (·.mapSpans f))).map (pushItem fun r => r)) :
    (pairs'.map (mapItem (·.moved onNode' g) (·.mapSpans g))).map (pushItem fun r => r) =
      pairs.map (pushItem fun r => r) := by
  have hpushed := congrArg (List.map (pushItem g)) h
  simp only [List.map_map, Function.comp_def, pushItem_pushItem, pushItem_moved, hback] at hpushed ⊢
  exact hpushed

/-- Lists of nodes that differ in spans of nodes only. -/
theorem pushed_of_unspanned {l l' : Listing} {m n : Node} (h : m.unspanned = n.unspanned)
    (hm : m.Formed) (hn : n.Formed) (hl : m.listing? = some l) (hl' : n.listing? = some l') :
    l.pushed (fun r => r) = l'.pushed fun r => r := by
  have hread := m.listing?_moved (fun _ _ => default) (fun r => r) hm hl
  have hread' := n.listing?_moved (fun _ _ => default) (fun r => r) hn hl'
  rw [show m.moved _ _ = n.moved _ _ from h, hread'] at hread
  exact (Option.some.inj hread).symm

end Listing

namespace Node

variable {onNode onNode' : NodeId → Span → Span} {f g : Span → Span} {list list' : Node}
  {listing listing' : Listing} {pairs pairs' : List (Node × Option Token)}

theorem pushed_listed (f : Span → Span) (n : Node) (l : Listing) :
    (n.listed l).pushed f = (n.pushed f).listed (l.pushed f) := moved_listed _ _ n l

/-- A list whose spans are moved back, and that holds the items that it held. -/
theorem unspanned_listed_back (hback : ∀ r, g (f r) = r) (helements : list.elements = listing.elements)
    (hlist : list'.unspanned = ((list.moved onNode f).listed
      ((listing.map (·.moved onNode f) (·.mapSpans f)).holding pairs)).unspanned)
    (hlisting : listing'.pushed (fun r => r) =
      ((listing.map (·.moved onNode f) (·.mapSpans f)).holding pairs).pushed fun r => r)
    (hpairs : pairs'.map (Listing.pushItem fun r => r) =
      listing.items.pairs.map (Listing.pushItem fun r => r)) :
    ((list'.moved onNode' g).listed
      ((listing'.map (·.moved onNode' g) (·.mapSpans g)).holding pairs')).unspanned =
        list.unspanned := by
  have hnode : (list'.moved onNode' g).unspanned =
      list.unspanned.listed ((listing.pushed fun r => r).holding (pairs.map (Listing.pushItem g))) := by
    have hpushed := congrArg (·.pushed g) hlist
    simp only [unspanned, pushed_pushed, pushed_listed, pushed_moved, Listing.pushed_holding,
      Listing.pushed_pushed, Listing.pushed_moved, List.map_map, Function.comp_def,
      Listing.pushItem_pushItem, hback] at hpushed
    simp only [unspanned, pushed_moved]
    exact hpushed
  have hread : (listing'.map (·.moved onNode' g) (·.mapSpans g)).pushed (fun r => r) =
      (listing.pushed fun r => r).holding (pairs.map (Listing.pushItem g)) := by
    have hpushed := congrArg (·.pushed g) hlisting
    simp only [Listing.pushed_pushed, Listing.pushed_holding, Listing.pushed_moved, List.map_map,
      Function.comp_def, Listing.pushItem_pushItem, hback] at hpushed
    rw [Listing.pushed_moved]
    exact hpushed
  have hself : list.unspanned = list.unspanned.listed (listing.pushed fun r => r) := by
    conv_lhs => rw [eq_listed helements, unspanned, pushed_listed]
    rfl
  rw [unspanned, pushed_listed, Listing.pushed_holding, hread, hpairs]
  show (list'.moved onNode' g).unspanned.listed _ = _
  rw [hnode]
  exact hself.symm

theorem pushed_setLeading (f : Span → Span) (trivia : List Lexeme) (n : Node) :
    (n.setLeading trivia).pushed f = (n.pushed f).setLeading (trivia.map (·.moved f)) :=
  moved_setLeading _ f trivia n

/-- An item that other trivia lead, once the spans are moved back and it gets those back that led it. -/
theorem pushItem_setLeading_back {target next : Node} {separator separator' : Option Token}
    {gap : List Lexeme} (hback : ∀ r, g (f r) = r)
    (h : Listing.pushItem (fun r => r) (next, separator') = Listing.pushItem (fun r => r)
      ((target.moved onNode f).setLeading gap, separator.map (·.mapSpans f))) :
    Listing.pushItem (fun r => r) ((next.moved onNode' g).setLeading target.leading,
        separator'.map (·.mapSpans g)) = Listing.pushItem (fun r => r) (target, separator) := by
  have hpushed := congrArg (Listing.pushItem g) h
  rw [Listing.pushItem_pushItem, Listing.pushItem_pushItem] at hpushed
  obtain ⟨hnode, hseparator⟩ := Prod.mk.inj hpushed
  refine Prod.ext ?_ ?_
  · replace hnode : next.pushed g = ((target.moved onNode f).setLeading gap).pushed g := hnode
    show Node.pushed _ ((next.moved _ _).setLeading target.leading) = target.pushed _
    rw [pushed_setLeading, pushed_moved]
    show (next.pushed g).setLeading _ = _
    rw [hnode, pushed_setLeading, setLeading_setLeading, pushed_moved, funext hback,
      ← pushed_setLeading, setLeading_leading]
  · simp only [Option.map_map, Function.comp_def, Token.mapSpans_mapSpans] at hseparator
    simp only [Listing.pushItem, Listing.mapItem, Option.map_map, Function.comp_def,
      Token.mapSpans_mapSpans]
    rw [← funext hback]
    exact hseparator

variable {m n : Node} {p : Position}

theorem leading_of_tokens (h : m.tokens = n.tokens) : m.leading = n.leading := by
  rw [leading, leading, h]

theorem leading_eq_moved (onNode : NodeId → Span → Span) (f : Span → Span) (n : Node) :
    (n.moved onNode f).leading = n.leading.map (·.moved f) := by
  rw [leading, leading, tokens_moved]
  cases n.tokens <;> rfl

theorem leading_setLeading (h : n.tokens ≠ []) (trivia : List Lexeme) :
    (n.setLeading trivia).leading = trivia := by
  rw [leading, tokens_setLeading]
  cases htokens : n.tokens with
  | nil => exact absurd htokens h
  | cons t ts => rfl

theorem tokens_setLeading_ne_nil (h : n.tokens ≠ []) (trivia : List Lexeme) :
    (n.setLeading trivia).tokens ≠ [] := by
  rw [tokens_setLeading]
  simpa using h

theorem coreStart_of_tokens (h : m.tokens = n.tokens) (hn : n.tokens ≠ []) :
    m.coreStart = n.coreStart := by
  rw [coreStart, coreStart, h]
  cases htokens : n.tokens with
  | nil => exact absurd htokens hn
  | cons t ts => rfl

theorem coreStart_setLeading (h : n.tokens ≠ []) (trivia : List Lexeme) :
    (n.setLeading trivia).coreStart = n.coreStart := by
  rw [coreStart, coreStart, tokens_setLeading]
  cases htokens : n.tokens with
  | nil => exact absurd htokens h
  | cons t ts => rfl

theorem coreStart_moved {t : Token} (h : n.tokens.head? = some t) :
    (n.moved onNode f).coreStart = (f t.span).start := by
  rw [coreStart, tokens_moved, List.head?_map, h]
  rfl

theorem tokens_ne_nil_of_head? {t : Token} (h : t ∈ n.tokens.head?) : n.tokens ≠ [] := by
  rintro hnone
  rw [hnone] at h
  cases h

theorem tokens_moved_ne_nil (h : n.tokens ≠ []) : (n.moved onNode f).tokens ≠ [] := by
  rw [tokens_moved]
  simpa using h

theorem tokens_place_ne_nil (h : n.tokens ≠ []) (p : Position) : (n.place p).tokens ≠ [] := by
  obtain ⟨f, hplace⟩ := place_eq_moved p n
  rw [hplace]
  exact tokens_moved_ne_nil h

/-- Trivia that end where a text comes in stay where they are. -/
theorem leading_moved_insert {r : Span}
    (h : ∀ l ∈ n.leading, l.span.start < r.start ∧ l.span.stop ≤ r.start) :
    (n.moved onNode r.insert).leading = n.leading := by
  rw [leading_eq_moved]
  refine (List.map_congr_left fun l hl => ?_).trans (List.map_id' _)
  obtain ⟨hbefore, hbehind⟩ := h l hl
  rw [Lexeme.moved, Span.insert_of_lt hbefore hbehind]

/-- A text that no trivia lead takes over those that it is given. -/
theorem leading_prependLeading_place (htokens : n.tokens ≠ []) (hlead : n.leading = [])
    (p : Position) (trivia : List Lexeme) :
    ((n.place p).prependLeading trivia).leading = trivia := by
  obtain ⟨f, hplace⟩ := place_eq_moved p n
  rw [prependLeading, leading_setLeading (tokens_place_ne_nil htokens p), hplace, leading_eq_moved,
    hlead, List.map_nil, List.append_nil]

/-- A text that no trivia lead is moved to the place where its first token shall start. -/
theorem Laid.coreStart_place (h : n.Laid []) (htokens : n.tokens ≠ []) (hlead : n.leading = [])
    (hroom : p.HasRoom n.render.length) : (n.place p).coreStart = p := by
  have hchained := h.chained_place hroom
  obtain ⟨f, hplace⟩ := place_eq_moved p n
  rw [leading] at hlead
  rw [hplace, tokens_moved] at hchained
  rw [hplace, coreStart, tokens_moved]
  cases hn : n.tokens with
  | nil => exact absurd hn htokens
  | cons t ts =>
    rw [hn] at hchained hlead
    replace hlead : t.leading = [] := hlead
    cases hchained with
    | cons hstart =>
      simpa [Token.fullSpan, hlead] using hstart

/-- What came in with a text reaches from where the text starts to where the node behind it starts
now. -/
theorem Laid.region_placed {fragment target removed next : Node} {r : Span} {gap trivia : List Lexeme}
    (h : fragment.Laid []) (htokens : fragment.tokens ≠ []) (hlead : fragment.leading = [])
    (hroom : r.start.HasRoom fragment.render.length) (hr : r.IsValid)
    (hat : r.start = target.coreStart) (hfilled : ∃ t ∈ target.tokens.head?, t.span.IsValid)
    (hremoved : removed.tokens = ((fragment.place r.start).prependLeading trivia).tokens)
    (hnext : next.tokens = ((target.moved onNode r.insert).setLeading gap).tokens) :
    (⟨removed.coreStart, next.coreStart⟩ : Span) = r := by
  obtain ⟨t, ht, hvalid⟩ := hfilled
  have hplaced := tokens_place_ne_nil htokens r.start
  have htarget : (target.moved onNode r.insert).tokens ≠ [] :=
    tokens_moved_ne_nil (tokens_ne_nil_of_head? ht)
  have hremovedStart : removed.coreStart = r.start := by
    rw [coreStart_of_tokens hremoved (tokens_setLeading_ne_nil hplaced _), prependLeading,
      coreStart_setLeading hplaced, h.coreStart_place htokens hlead hroom]
  have hstart : t.span.start = r.start := by
    rw [hat, coreStart, show target.tokens.head? = some t from ht]
    rfl
  have hnextStart : next.coreStart = r.stop := by
    rw [coreStart_of_tokens hnext (tokens_setLeading_ne_nil htarget _), coreStart_setLeading htarget,
      coreStart_moved ht]
    exact Span.insert_start hr hvalid hstart
  exact Span.ext hremovedStart hnextStart

/-- A text that came in, and the trivia that it took over, which no spans were pushed over. -/
theorem leading_placed {fragment target removed : Node} {r : Span} (htokens : fragment.tokens ≠ [])
    (hlead : fragment.leading = [])
    (hleading : ∀ l ∈ target.leading, l.span.start < r.start ∧ l.span.stop ≤ r.start)
    (hremoved : removed.tokens = ((fragment.place r.start).prependLeading
      (target.moved onNode r.insert).leading).tokens) : removed.leading = target.leading := by
  rw [leading_of_tokens hremoved, leading_prependLeading_place htokens hlead,
    leading_moved_insert hleading]

end Node

namespace Tree

variable {tree tree' : Tree} {list : Node} {r : Span} {loose : List Entry}

/-- A tree in which a change of a list was undone: spans of nodes were pushed past `r` and pulled
back over it, and those in the list were computed anew. -/
def Returned (list : Node) (r : Span) (tree tree' : Tree) : Prop :=
  ∃ x : Node, x.unspanned = list.unspanned ∧ (list.tokens = [] → x.span.start = r.start) ∧
    tree'.root = (tree.root.moved (fun i s => r.delete (tree.grow list.id r i s))
      fun s => s).update list.id fun _ => x.respan

theorem Returned.unspanned (h : tree.Returned list r tree')
    (hnodup : (tree.root.descendants.map Node.id).Nodup) (hlist : list ∈ tree.root.descendants) :
    tree'.root.unspanned = tree.root.unspanned := by
  obtain ⟨x, hx, -, hroot⟩ := h
  rw [hroot, Node.unspanned, Node.pushed, Node.moved_update_const, Node.moved_moved]
  show tree.root.unspanned.update list.id (fun _ => x.respan.unspanned) = tree.root.unspanned
  rw [Node.unspanned_respan, hx, Shows.unspanned_self hnodup hlist]

/-- A list was changed where `r` came in. The spans behind that place were pushed, those of the list
and of what it is in grew, and the list is now `list'`, which holds `listing'`. -/
structure Changed (list : Node) (r : Span) (list' : Node) (listing' : Listing)
    (tree tree' : Tree) : Prop where
  isValid : r.IsValid
  root : tree'.root =
    (tree.root.moved (tree.grow list.id r) r.insert).update list.id fun _ => list'
  id : list'.id = list.id
  kind : list'.kind = list.kind
  mem : list' ∈ tree'.root.descendants
  listing : list'.listing? = some listing'

/-- A list that was given other items holds them once its spans are computed anew. -/
theorem Sound.exists_changed {l : Listing} (h : tree.Sound loose)
    (hlist : list ∈ tree.root.descendants) (hr : r.IsValid) (hsound : tree'.Sound [])
    (hread : ((list.moved (tree.grow list.id r) r.insert).listed l).listing? = some l)
    (hroot : tree'.root = (tree.root.moved (tree.grow list.id r) r.insert).update list.id
      fun _ => (list.moved (tree.grow list.id r) r.insert).listed l) :
    ∃ listing', tree.Changed list r ((list.moved (tree.grow list.id r) r.insert).listed l).respan
      listing' (tree'.respan list.id) ∧ listing'.pushed (fun s => s) = l.pushed fun s => s := by
  let x := (list.moved (tree.grow list.id r) r.insert).listed l
  have hid : x.id = list.id := Node.id_moved _ _ list
  have hroot' : (tree'.respan list.id).root =
      (tree.root.moved (tree.grow list.id r) r.insert).update list.id fun _ => x.respan := by
    show tree'.root.update list.id Node.respan = _
    rw [hroot, Node.update_const_moved h.nodup hlist hid]
  have hself (y : Node) : y ∈ ((tree.root.moved (tree.grow list.id r) r.insert).update list.id
      fun _ => y).descendants := by
    have hin := Node.mem_update_self (fun _ => y) (by rw [Node.ids_moved]; exact h.nodup)
      (Node.mem_moved (tree.grow list.id r) r.insert hlist)
    rwa [Node.id_moved] at hin
  have hskeleton := Node.skeleton_respan x
  have hformed : x.Formed := hsound.formed x (by rw [hroot]; exact hself x)
  obtain ⟨listing', hread', -⟩ := Node.listing?_of_skeleton hformed hread hskeleton
  refine ⟨listing', ⟨hr, hroot', (Node.id_of_skeleton hskeleton).trans hid,
    (Node.kind_of_skeleton hskeleton).trans (Node.kind_moved _ _ list), ?_, hread'⟩,
    Listing.pushed_of_unspanned (Node.unspanned_respan x) (hformed.of_skeleton hskeleton) hformed
      hread' hread⟩
  rw [hroot']
  exact hself x.respan

/-- The change is undone when the list gets the items back that it held. -/
theorem Changed.returned {list' : Node} {listing listing' : Listing} {tree'' : Tree}
    {pairs pairs' : List (Node × Option Token)} (h : tree.Changed list r list' listing' tree')
    (hsound : tree.Sound loose) (hlist : list ∈ tree.root.descendants)
    (hlisting : list.listing? = some listing) {l : Listing}
    (hl : l = (listing.map (·.moved (tree.grow list.id r) r.insert)
      (·.mapSpans r.insert)).holding pairs)
    (hlist' : list'.unspanned = ((list.moved (tree.grow list.id r) r.insert).listed l).unspanned)
    (hlisting' : listing'.pushed (fun s => s) = l.pushed fun s => s)
    (hpairs : pairs'.map (Listing.pushItem fun s => s) =
      listing.items.pairs.map (Listing.pushItem fun s => s))
    (hstart : list.tokens = [] → list'.span.start = r.start)
    (hroot : tree''.root = (tree'.root.moved (fun _ => r.delete) r.delete).update list'.id
      fun _ => (list'.moved (fun _ => r.delete) r.delete).listed ((listing'.map
        (·.moved (fun _ => r.delete) r.delete) (·.mapSpans r.delete)).holding pairs')) :
    tree.Returned list r (tree''.respan list'.id) := by
  subst hl
  have hback : ∀ s, r.delete (r.insert s) = s := Span.delete_insert h.isValid
  have helements := (hsound.formed list hlist).elements_listing hlisting
  have hmoved : (list'.moved (fun _ => r.delete) r.delete).id = list.id :=
    (Node.id_moved _ _ list').trans h.id
  let y := (list'.moved (fun _ => r.delete) r.delete).listed ((listing'.map
    (·.moved (fun _ => r.delete) r.delete) (·.mapSpans r.delete)).holding pairs')
  refine ⟨y, Node.unspanned_listed_back hback helements hlist' hlisting' hpairs,
    fun hnone => ?_, ?_⟩
  · show (list'.moved (fun _ => r.delete) r.delete).span.start = r.start
    rw [Node.span_moved, Span.delete_start (hstart hnone)]
  · show tree''.root.update list'.id Node.respan = _
    rw [hroot, h.root, h.id, Node.moved_update_const, Node.moved_moved, funext hback,
      Node.update_const_moved (x := list'.moved (fun _ => r.delete) r.delete) hsound.nodup hlist
        hmoved,
      Node.update_const_moved (x := y) hsound.nodup hlist hmoved]

/-- A list with an item that has tokens has tokens. -/
theorem Sound.tokens_ne_nil {target : Node} {listing : Listing} {index : Nat} (h : tree.Sound loose)
    (hlist : list ∈ tree.root.descendants) (hlisting : list.listing? = some listing)
    (htarget : listing.items.get? index = some target) (hfilled : target.tokens ≠ []) :
    list.tokens ≠ [] := by
  intro hnone
  obtain ⟨front, separator, back, hpairs, -⟩ := Listing.exists_item htarget
  have helements := (h.formed list hlist).elements_listing hlisting
  rw [← list.tokens_eq, helements, Listing.tokensOf_elements, hpairs] at hnone
  simp only [Listing.tokensOf_append, Listing.tokensOf_cons, List.append_eq_nil_iff] at hnone
  exact hfilled hnone.1.2.2.1.1

/-- An item that was put in front of another one is taken out again. -/
theorem Sound.returned_before {target fragment : Node} {listing : Listing} {index : Nat}
    (h : tree.Sound (fragment.entries none)) (hlist : list ∈ tree.root.descendants)
    (hlisting : list.listing? = some listing) (hkind : listing.kind ≠ .declarations)
    (htarget : listing.items.get? index = some target) (hfragment : fragment.Laid [])
    (hformed : ∀ x ∈ fragment.descendants, x.Formed) (htokens : fragment.tokens ≠ [])
    (hlead : fragment.leading = []) (hroom : target.coreStart.HasRoom fragment.render.length)
    (hfilled : ∃ t ∈ target.tokens.head?, t.span.IsValid)
    (hleading : ∀ l ∈ target.leading,
      l.span.start < target.coreStart ∧ l.span.stop ≤ target.coreStart) :
    let tree' := (tree.insertedBefore list listing.kind index target fragment).respan list.id
    ∃ (r : Span) (list' : Node) (listing' : Listing) (removed next : Node),
      r.start = target.coreStart ∧ tree.Changed list r list' listing' tree' ∧
      listing'.items.get? index = some removed ∧ listing'.items.get? (index + 1) = some next ∧
      tree.Returned list r ((tree'.removeBefore list' index removed next).respan list'.id) := by
  intro tree'
  obtain ⟨front, separator, back, hpairs, hindex⟩ := Listing.exists_item htarget
  obtain ⟨text, gap, comma, hread, hroot⟩ :=
    h.root_insertedBefore hlist hlisting hkind hpairs hindex fragment
  let r : Span := .ofText target.coreStart (fragment.render ++ text ++ Lexeme.render gap)
  have hr : r.IsValid := Span.isValid_ofText _ _
  have hsound := h.insertedBefore hlist hlisting htarget hformed
  obtain ⟨listing', hchanged, hsame⟩ := h.exists_changed hlist hr hsound hread hroot
  have hitems := Listing.map_pushItem_of_pushed hsame
  rw [List.map_append, List.map_cons, List.map_cons, List.map_eq_append_iff] at hitems
  obtain ⟨front', rest, hpairs', hfront, hrest⟩ := hitems
  obtain ⟨⟨removed, comma'⟩, rest, rfl, hremoved, hrest⟩ := List.map_eq_cons_iff.mp hrest
  obtain ⟨⟨next, separator'⟩, back', rfl, hnext, hback⟩ := List.map_eq_cons_iff.mp hrest
  have hindex' : front'.length = index := by
    have hlength := congrArg List.length hfront
    simpa [hindex] using hlength
  have hremovedTokens := Node.tokens_of_unspanned (congrArg Prod.fst hremoved)
  have hnextTokens := Node.tokens_of_unspanned (congrArg Prod.fst hnext)
  have hregion : (⟨removed.coreStart, next.coreStart⟩ : Span) = r :=
    hfragment.region_placed htokens hlead hroom hr rfl hfilled hremovedTokens hnextTokens
  have hremovedLeading : removed.leading = target.leading :=
    Node.leading_placed (r := r) htokens hlead hleading hremovedTokens
  have hback' : ∀ s, r.delete (r.insert s) = s := Span.delete_insert hr
  have hitem : Listing.pushItem (fun s => s) ((next.moved (fun _ => r.delete) r.delete).setLeading
      removed.leading, separator'.map (·.mapSpans r.delete)) =
        Listing.pushItem (fun s => s) (target, separator) := by
    rw [hremovedLeading]
    exact Node.pushItem_setLeading_back hback' hnext
  have hremove := (hsound.alike (.respan _ _)).root_removeBefore hchanged.mem hchanged.listing
    hpairs' hindex'
  rw [hregion] at hremove
  refine ⟨r, _, listing', removed, next, rfl, hchanged, ?_, ?_, hchanged.returned h hlist hlisting rfl
    (Node.unspanned_respan _) hsame ?_ (fun hnone => absurd hnone ?_) hremove⟩
  · rw [Punctuated.get?, hpairs', ← hindex']
    simp
  · rw [Punctuated.get?, hpairs', ← hindex']
    simp
  · rw [hpairs, List.map_append, List.map_cons, List.map_append, List.map_cons,
      Listing.map_pushItem_back hback' hfront, Listing.map_pushItem_back hback' hback, hitem]
  · obtain ⟨t, ht, -⟩ := hfilled
    exact h.tokens_ne_nil hlist hlisting htarget (Node.tokens_ne_nil_of_head? ht)

end Tree

end CssTree
