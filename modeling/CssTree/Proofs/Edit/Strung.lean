import CssTree.Proofs.Edit.Respell
import CssTree.Proofs.Edit.Undo
import CssTree.Proofs.Insertion
import CssTree.Proofs.Tree.Placed

namespace CssTree

open CssTree.Frame

namespace Lexeme

variable {p : Position} {xs ys : List Lexeme}

theorem Whole.left (h : Whole (xs ++ ys)) : Whole xs := by
  rw [Whole, List.map_append] at h
  exact Unfused.left h

theorem Whole.right (h : Whole (xs ++ ys)) : Whole ys := by
  rw [Whole, List.map_append] at h
  exact Unfused.right h

/-- Lexemes that cut no line break end where their text does. -/
theorem Whole.after (h : Whole xs) (p : Position) : Lexeme.after p xs = p.advance (render xs) := by
  have hmerged : Unfused ([] :: xs.map Lexeme.text) := Unfused.merge [] [] _ h
  have horigin : Lexeme.after .origin xs = Position.origin.advance (render xs) := by
    simpa using after_of_unfused hmerged
  rw [Position.advance_eq_plus, ← horigin, ← after_plus, Position.plus_origin]

/-- Lexemes are written behind others that cut no line break. -/
theorem Strung.append (hxs : Strung p xs) (hwhole : Whole xs)
    (hys : Strung (p.advance (render xs)) ys) : Strung p (xs ++ ys) :=
  strung_append.mpr ⟨hxs, hwhole.after p ▸ hys⟩

theorem strung_placeAll (p : Position) (pieces : List (TokenKind × Text)) :
    Strung p (placeAll p pieces) := by
  induction pieces generalizing p with
  | nil => trivial
  | cons piece pieces ih => exact ⟨rfl, ih _⟩

end Lexeme

@[simp] theorem Token.lexemesOf_eq_nil {ts : List Token} : lexemesOf ts = [] ↔ ts = [] := by
  cases ts <;> simp [lexemes]

theorem strung_blankTrivia (t : Text) (p : Position) : Lexeme.Strung p (blankTrivia t p) := by
  unfold blankTrivia
  split
  · trivial
  · exact ⟨rfl, trivial⟩

theorem strung_gapBefore (kind : ListKind) (target : Node) (p : Position) :
    Lexeme.Strung p (gapBefore kind target p) := by
  unfold gapBefore
  repeat' split
  all_goals first | exact strung_blankTrivia _ p | exact Lexeme.strung_placeAll p _

theorem strung_gapAfter (list : Node) (kind : ListKind) (previous : Option Node) (fragment : Node)
    (p : Position) : Lexeme.Strung p (gapAfter list kind previous fragment p) := by
  unfold gapAfter
  dsimp only
  repeat' split
  all_goals first
    | exact strung_blankTrivia _ p
    | exact Lexeme.strung_placeAll p _
    | exact Lexeme.strung_nil p

namespace ListKind

/-- The semicolon that an item of a list needs. -/
def ending (kind : ListKind) (n : Node) (p : Position) : List Lexeme :=
  if kind.lacksSemicolon n then [.place .semicolon [';'] p] else []

theorem strung_ending (kind : ListKind) (n : Node) (p : Position) :
    Lexeme.Strung p (kind.ending n p) := by
  unfold ending
  split
  · exact ⟨rfl, trivial⟩
  · trivial

theorem render_ending (kind : ListKind) (n : Node) (p : Position) :
    Lexeme.render (kind.ending n p) = if kind.lacksSemicolon n then [';'] else [] := by
  unfold ending
  split <;> rfl

end ListKind

namespace Node

variable {n : Node} {p q : Position}

/-- The lexemes of a node behind what leads it. -/
def behindLead (n : Node) : List Lexeme :=
  match n.tokens with
  | [] => []
  | t :: ts => t.toLexeme :: (t.trailing ++ Token.lexemesOf ts)

theorem behindLead_ne_nil (h : n.tokens ≠ []) : n.behindLead ≠ [] := by
  rw [behindLead]
  cases htokens : n.tokens with
  | nil => exact absurd htokens h
  | cons t ts => exact List.cons_ne_nil _ _

theorem lexemesOf_tokens (n : Node) : Token.lexemesOf n.tokens = n.leading ++ n.behindLead := by
  rw [leading, behindLead]
  cases n.tokens with
  | nil => rfl
  | cons t ts => simp [Token.lexemes]

theorem lexemesOf_setLeading (h : n.tokens ≠ []) (trivia : List Lexeme) :
    Token.lexemesOf (n.setLeading trivia).tokens = trivia ++ n.behindLead := by
  rw [tokens_setLeading, behindLead]
  cases htokens : n.tokens with
  | nil => exact absurd htokens h
  | cons t ts => simp [Token.lexemes]

theorem behindLead_moved (onNode : NodeId → Span → Span) (f : Span → Span) (n : Node) :
    (n.moved onNode f).behindLead = n.behindLead.map (·.moved f) := by
  rw [behindLead, behindLead, tokens_moved]
  cases n.tokens with
  | nil => rfl
  | cons t ts =>
    simp only [List.map_cons, List.map_append, Token.lexemesOf_mapSpans]
    rfl

/-- The first token of a node stands behind what leads it. -/
theorem coreStart_of_strung (h : Token.Strung p n.tokens) (hn : n.tokens ≠ []) :
    n.coreStart = Lexeme.after p n.leading := by
  rw [coreStart, leading]
  cases htokens : n.tokens with
  | nil => exact absurd htokens hn
  | cons t ts =>
    rw [htokens, Token.Strung, Token.lexemesOf_cons, Token.lexemes, List.append_assoc,
      Lexeme.strung_append] at h
    exact congrArg Span.start h.2.1

theorem renderAll_place (p : Position) (n : Node) :
    Token.renderAll (n.place p).tokens = n.render := n.render_place p

/-- The lexemes of a fragment that is moved to its place, with trivia in front of it and the
semicolon that it needs. -/
theorem lexemesOf_item {kind : ListKind} (h : n.Proper) (htokens : n.tokens ≠ []) (p q : Position)
    (trivia : List Lexeme) :
    Token.lexemesOf (((n.place p).prependLeading trivia).closed (kind.lacksSemicolon n) q).tokens =
      trivia ++ (Token.lexemesOf (n.place p).tokens ++ kind.ending n q) := by
  have hskeleton : ((n.place p).prependLeading trivia).skeleton = n.skeleton := by
    rw [skeleton_prependLeading, skeleton_place]
  have hprepended : Token.lexemesOf ((n.place p).prependLeading trivia).tokens =
      trivia ++ Token.lexemesOf (n.place p).tokens := by
    rw [prependLeading, lexemesOf_setLeading (tokens_place_ne_nil htokens p), List.append_assoc,
      ← lexemesOf_tokens]
  rw [closed, ListKind.ending]
  split
  next hlacks =>
    rw [ListKind.lacksSemicolon, Bool.and_eq_true] at hlacks
    have hneeds := (needsSemicolon_of_skeleton h.formed hskeleton).trans hlacks.2
    rw [tokens_addSemicolon (h.of_skeleton hskeleton) hneeds, Token.lexemesOf_append, hprepended,
      List.append_assoc]
    rfl
  next => rw [hprepended, List.append_nil]

end Node

/-- The lexemes in front of the place where an item is put into a list. -/
def Listing.ahead (index : Nat) (l : Listing) : List Lexeme :=
  Token.lexemesOf (l.opening ++ tokensOf (l.items.pairs.take index)) ++
    ((l.items.get? index).map (·.leading)).getD []

namespace Listing

variable {l : Listing} {n : Node} {front back : List (Node × Option Token)} {index : Nat}
  {separator : Option Token}

theorem ahead_item (hpairs : l.items.pairs = front ++ (n, separator) :: back)
    (hindex : front.length = index) :
    l.ahead index = Token.lexemesOf (l.opening ++ tokensOf front) ++ n.leading := by
  have hget : l.items.get? index = some n := by
    rw [Punctuated.get?, hpairs, ← hindex]
    simp
  rw [ahead, hget, hpairs, ← hindex, List.take_left']
  · rfl
  · rfl

/-- The lexemes of a list, cut in front of the first token of an item. -/
theorem lexemesOf_cut (hpairs : l.items.pairs = front ++ (n, separator) :: back)
    (hindex : front.length = index) : Token.lexemesOf (Element.tokensOf l.elements) =
      l.ahead index ++
        (n.behindLead ++ Token.lexemesOf (separator.toList ++ tokensOf back ++ l.closing)) := by
  rw [ahead_item hpairs hindex, tokensOf_elements, hpairs]
  simp only [tokensOf_append, tokensOf_cons, Token.lexemesOf_append, n.lexemesOf_tokens,
    List.append_assoc]

/-- The lexemes of a list whose spans were moved, where an item is led by something else, and others
are put in front of it. -/
theorem lexemesOf_respaced (onNode : NodeId → Span → Span) (f : Span → Span) (h : n.tokens ≠ [])
    (l : Listing) (front back new : List (Node × Option Token)) (separator : Option Token)
    (gap : List Lexeme) :
    let σ : Node → Node := (·.moved onNode f)
    let τ : Token → Token := (·.mapSpans f)
    Token.lexemesOf (Element.tokensOf ((l.map σ τ).holding (front.map (mapItem σ τ) ++
        (new ++ ((σ n).setLeading gap, separator.map τ) :: back.map (mapItem σ τ)))).elements) =
      (Token.lexemesOf (l.opening ++ tokensOf front)).map (·.moved f) ++
        (Token.lexemesOf (tokensOf new) ++ (gap ++ (n.behindLead ++ Token.lexemesOf
          (separator.toList ++ tokensOf back ++ l.closing)).map (·.moved f))) := by
  intro σ τ
  have hmoved : ∀ pairs, tokensOf (pairs.map (mapItem σ τ)) = (tokensOf pairs).map τ :=
    tokensOf_mapItem _ _
  have hlexemes : ∀ ts : List Token, Token.lexemesOf (ts.map τ) =
      (Token.lexemesOf ts).map (·.moved f) := Token.lexemesOf_mapSpans _
  have hnext : Token.lexemesOf ((σ n).setLeading gap).tokens =
      gap ++ n.behindLead.map (·.moved f) := by
    rw [Node.lexemesOf_setLeading (Node.tokens_moved_ne_nil h), Node.behindLead_moved]
  rw [tokensOf_holding]
  simp only [tokensOf_append, tokensOf_cons, Token.lexemesOf_append, hnext, hmoved, hlexemes, map,
    Option.toList_map, List.map_append, List.append_assoc]

theorem ahead_size (l : Listing) :
    l.ahead l.items.size = Token.lexemesOf (l.opening ++ tokensOf l.items.pairs) := by
  have hget : l.items.get? l.items.size = none := by simp [Punctuated.get?, Punctuated.size]
  rw [ahead, hget, Punctuated.size, List.take_length]
  exact List.append_nil _

/-- What separates an item from the one behind it is written behind the item. -/
theorem strung_separators (kind : ListKind) (n : Node) (p : Position) :
    let separators := kind.ending n p ++
      Token.lexemesOf (if kind = .selectors then some (Token.place .comma [','] p) else none).toList
    Lexeme.Strung p separators ∧ Lexeme.render separators =
      if kind = .selectors then [','] else if kind.lacksSemicolon n then [';'] else [] := by
  intro separators
  by_cases hkind : kind = .selectors
  · have hseparators : separators = [.place .comma [','] p] := by
      simp only [separators, ListKind.ending, if_pos hkind,
        ListKind.lacksSemicolon_of_ne (by simp [hkind] : kind ≠ .declarations) n]
      rfl
    rw [hseparators, if_pos hkind]
    exact ⟨⟨rfl, trivial⟩, rfl⟩
  · have hseparators : separators = kind.ending n p := by
      simp only [separators, if_neg hkind, Option.toList_none, Token.lexemesOf_nil, List.append_nil]
    rw [hseparators, if_neg hkind]
    exact ⟨kind.strung_ending n p, kind.render_ending n p⟩

end Listing

namespace Tree

variable {tree : Tree} {C : List Frame} {list target fragment x : Node} {listing : Listing}
  {loose : List Entry} {index : Nat} {id : NodeId} {front back : List (Node × Option Token)}
  {separator : Option Token} {xs ys zs : List Lexeme}

/-- A text that cuts no line break between lexemes, and is no longer than positions reach. -/
structure Intact (tree : Tree) : Prop where
  whole : Lexeme.Whole tree.lexemes
  room : tree.render.length ≤ Position.limit

/-- What stands in a tree cuts no line break, and there is room for it. -/
theorem Intact.cut (h : tree.Intact) (hroot : tree.root = plug C x)
    (hx : Token.lexemesOf x.tokens = xs ++ (zs ++ ys)) :
    Lexeme.Whole zs ∧
      (Lexeme.after (startIn .origin C) xs).HasRoom (Lexeme.render zs).length := by
  constructor
  · have hwhole := h.whole
    rw [Tree.lexemes, hroot, Frame.tokens_plug, Token.lexemesOf_append, Token.lexemesOf_append, hx]
      at hwhole
    exact hwhole.right.left.right.left
  · have hlength := h.room
    rw [Tree.render, hroot] at hlength
    have horigin : Position.origin.HasRoom ((plug C x).render.length + 0) :=
      ⟨(Nat.zero_add _).trans_le hlength, (Nat.zero_add _).trans_le hlength⟩
    refine Lexeme.hasRoom_after ((hasRoom_startIn horigin).mono ?_)
    rw [Node.render, ← Token.render_lexemesOf, hx]
    simp only [Lexeme.render_append, List.length_append]
    omega

/-- A tree that is written without gaps once the spans in one of its nodes are computed. -/
def Threaded (id : NodeId) (tree : Tree) : Prop :=
  ∃ C x, tree.Threads C x ∧ x.id = id ∧ (x.tokens = [] → x.span.start = startIn .origin C)

theorem Threaded.strung (h : tree.Threaded id) (hsound : (tree.respan id).Sound loose) :
    (tree.respan id).root.Strung .origin := by
  obtain ⟨C, x, hthreads, rfl, hempty⟩ := h
  have hids := Node.ids_of_skeleton (Alike.respan x.id tree).root
  exact (hthreads.respan (apart_of_nodup (hthreads.root ▸ hids ▸ hsound.nodup)) hempty).2

theorem Intact.of_respan (h : (tree.respan id).Intact) : tree.Intact := by
  refine ⟨?_, by rw [← render_respan id tree]; exact h.room⟩
  rw [lexemes, ← tokens_respan id tree]
  exact h.whole

/-- In a tree without gaps every node is written where what is around it has it start. -/
theorem exists_threads {n : Node} (h : tree.root.Strung .origin) (hn : n ∈ tree.root.descendants) :
    ∃ C, tree.Threads C n ∧ n.Strung (startIn .origin C) := by
  obtain ⟨C, hroot⟩ := Node.exists_plug hn
  exact ⟨C, threads_of_strung h hroot, (strung_plug.mp (hroot ▸ h)).2⟩

/-- Nothing in front of the place behind the lexemes `ls` of a node starts there. -/
structure Clears (n : Node) (ls : List Lexeme) (tree : Tree) : Prop where
  around : ∀ C, tree.root = plug C n → ∀ F ∈ C, ∀ r ∈ Element.spansOf F.front,
    r.start < Lexeme.after n.span.start ls
  ahead : ∀ l ∈ ls, l.span.start < Lexeme.after n.span.start ls

theorem Clears.of_strung {n : Node} {p : Position} (h : tree.Clears n xs)
    (hn : n.Strung (startIn .origin C)) (hroot : tree.root = plug C n)
    (hp : p = Lexeme.after (startIn .origin C) xs) : (∀ l ∈ xs, l.span.start < p) ∧
      ∀ F ∈ C, ∀ r ∈ Element.spansOf F.front, r.start < p := by
  have hstart : n.span.start = startIn .origin C := congrArg Span.start hn.span
  rw [hp, ← hstart]
  exact ⟨h.ahead, h.around C hroot⟩

/-- A text is put in between the lexemes of a node. -/
theorem Threads.put {tree' : Tree} {n : Node} {s : Span} (h : tree.Threads C n)
    (hroot : tree'.root = plug (C.map (pushed (fun r => (s.insert r).join s) s.insert)) x)
    (hcut : Token.lexemesOf n.tokens = xs ++ ys) (hahead : ∀ l ∈ xs, l.span.start < s.start)
    (hclear : ∀ F ∈ C, ∀ r ∈ Element.spansOf F.front, r.start < s.start)
    (hstart : s.start = Lexeme.after (startIn .origin C) xs)
    (hstop : s.stop = s.start.advance (Lexeme.render zs))
    (hx : Token.lexemesOf x.tokens =
      xs.map (·.moved s.insert) ++ (zs ++ ys.map (·.moved s.insert))) (hintact : tree'.Intact)
    (hzs : Lexeme.Whole zs → s.start.HasRoom (Lexeme.render zs).length →
      Lexeme.Strung s.start zs) :
    tree'.Threads (C.map (pushed (fun r => (s.insert r).join s) s.insert)) x := by
  obtain ⟨hwhole, hroom⟩ := hintact.cut hroot hx
  rw [Lexeme.after_map_moved, startIn_pushed, ← hstart] at hroom
  exact h.inserted hroot hcut hahead hstart (hzs hwhole hroom)
    (hstop.trans (hwhole.after s.start).symm) hclear hx

/-- A fragment is written in its place. -/
theorem strung_fragment {arena arena' : Arena} {p : Position} {ls : List Lexeme}
    (h : fragment.Complete arena arena')
    (hwhole : Lexeme.Whole (Token.lexemesOf (fragment.place p).tokens))
    (hroom : p.HasRoom fragment.render.length)
    (hls : Lexeme.Strung (p.advance fragment.render) ls) :
    Lexeme.Strung p (Token.lexemesOf (fragment.place p).tokens ++ ls) := by
  have hplaced : Token.Strung p (fragment.place p).tokens :=
    (h.laid.strung_place h.whole hroom).tokens
  refine hplaced.append hwhole ?_
  rwa [Token.render_lexemesOf, Node.renderAll_place]

theorem tokens_last {removed : Node} (hformed : list.Formed) (hlisting : list.listing? = some listing)
    (hpairs : listing.items.pairs = front ++ [(removed, none)]) : list.tokens =
      (listing.opening ++ Listing.tokensOf front) ++ (removed.tokens ++ listing.closing) := by
  rw [← list.tokens_eq, hformed.elements_listing hlisting, Listing.tokensOf_elements, hpairs]
  simp

/-- An item of a list is written behind what opens the list and the items in front of it. -/
theorem strung_item {p : Position} (h : list.Strung p) (hformed : list.Formed)
    (hlisting : list.listing? = some listing)
    (hpairs : listing.items.pairs = front ++ (target, separator) :: back) :
    target.Strung (Token.after p (listing.opening ++ Listing.tokensOf front)) := by
  have hsplit := listing.elements_split front back target separator
  rw [← hpairs, show listing.holding listing.items.pairs = listing from rfl] at hsplit
  have hes := h.elements
  rw [hformed.elements_listing hlisting, hsplit, Element.strungAll_append, Element.strungAll_node,
    Listing.tokensOf_elements, List.append_nil] at hes
  exact hes.2.1

/-- The first token of an item of a list stands behind all that is in front of it. -/
theorem coreStart_item {p : Position} (h : list.Strung p) (hformed : list.Formed)
    (hlisting : list.listing? = some listing)
    (hpairs : listing.items.pairs = front ++ (target, separator) :: back)
    (hindex : front.length = index) (htarget : target.tokens ≠ []) :
    target.coreStart = Lexeme.after p (listing.ahead index) := by
  rw [Listing.ahead_item hpairs hindex, Lexeme.after_append]
  exact Node.coreStart_of_strung (strung_item h hformed hlisting hpairs).tokens htarget

/-- An item is put in front of another one. -/
theorem Sound.threaded_insertedBefore {arena arena' : Arena} (h : tree.Sound loose)
    (hstrung : tree.root.Strung .origin) (hlist : list ∈ tree.root.descendants)
    (hlisting : list.listing? = some listing)
    (hpairs : listing.items.pairs = front ++ (target, separator) :: back)
    (hindex : front.length = index) (htarget : target.tokens ≠ []) (hfragment : fragment.Proper)
    (hcomplete : fragment.Complete arena arena') (htokens : fragment.tokens ≠ [])
    (hclears : tree.Clears list (listing.ahead index))
    (hintact : (tree.insertedBefore list listing.kind index target fragment).Intact) :
    (tree.insertedBefore list listing.kind index target fragment).Threaded list.id := by
  obtain ⟨C, hthreads, hwithin⟩ := exists_threads hstrung hlist
  have hformed := h.formed list hlist
  have hput := h.root_putBefore hlist hlisting hpairs hindex fragment
  extract_lets start needed text separatorAt gap comma r σ τ item l at hput
  obtain ⟨-, hput⟩ := hput
  let x := (σ list).listed l
  have hroot : _ = plug (C.map (pushed (fun s => (r.insert s).join r) r.insert)) x :=
    hput.trans (h.root_makeRoom_update hthreads.root r fun _ => x)
  have hcut := Listing.lexemesOf_cut hpairs hindex
  rw [← hformed.elements_listing hlisting, list.tokens_eq] at hcut
  have hstart : r.start = Lexeme.after (startIn .origin C) (listing.ahead index) :=
    coreStart_item hwithin hformed hlisting hpairs hindex htarget
  obtain ⟨hahead, hclear⟩ := hclears.of_strung hwithin hthreads.root hstart
  let separators := listing.kind.ending fragment separatorAt ++ Token.lexemesOf comma.toList
  obtain ⟨hseparators, htext⟩ : Lexeme.Strung separatorAt separators ∧
      Lexeme.render separators = text :=
    Listing.strung_separators listing.kind fragment separatorAt
  let zs := Token.lexemesOf (fragment.place start).tokens ++ (separators ++ gap)
  have hzs : Lexeme.render zs = fragment.render ++ text ++ Lexeme.render gap := by
    rw [Lexeme.render_append, Lexeme.render_append, htext, Token.render_lexemesOf,
      Node.renderAll_place, List.append_assoc]
  have hitem : Token.lexemesOf item.tokens = (σ target).leading ++
      (Token.lexemesOf (fragment.place start).tokens ++ listing.kind.ending fragment separatorAt) :=
    Node.lexemesOf_item hfragment htokens _ _ _
  have hx : Token.lexemesOf x.tokens = (listing.ahead index).map (·.moved r.insert) ++ (zs ++
      (target.behindLead ++ Token.lexemesOf (separator.toList ++ Listing.tokensOf back ++
        listing.closing)).map (·.moved r.insert)) := by
    have hspaced := Listing.lexemesOf_respaced (tree.grow list.id r) r.insert htarget listing
      front back [(item, comma)] separator gap
    refine hspaced.trans ?_
    have hleading : (σ target).leading = target.leading.map (·.moved r.insert) :=
      Node.leading_eq_moved _ _ target
    have hnew : Token.lexemesOf (Listing.tokensOf [(item, comma)]) =
        target.leading.map (·.moved r.insert) ++ (Token.lexemesOf (fragment.place start).tokens ++
          separators) := by
      simp only [Listing.tokensOf_cons, Listing.tokensOf_nil, List.append_nil, Token.lexemesOf_append,
        hitem, hleading, separators, List.append_assoc]
    rw [hnew, Listing.ahead_item hpairs hindex]
    simp only [zs, List.map_append, List.append_assoc]
  refine ⟨_, x, hthreads.put hroot hcut hahead hclear hstart (congrArg start.advance hzs.symm) hx
    hintact fun hwhole hroom => ?_, Node.id_moved _ _ _, ?_⟩
  · refine strung_fragment hcomplete hwhole.left (hroom.mono ?_) ?_
    · rw [hzs]
      simp
    · have hbehind := hwhole.right
      refine hseparators.append hbehind.left ?_
      rw [htext]
      exact strung_gapBefore _ _ _
  · intro hnone
    rw [hnone, Token.lexemesOf_nil] at hx
    simp only [zs, List.nil_eq, List.append_eq_nil_iff, Token.lexemesOf_eq_nil] at hx
    exact absurd hx.2.1.1 (Node.tokens_place_ne_nil htokens start)

/-- The tokens of the items of a list that gets the separator that is missing behind the last of
them. -/
theorem Sound.Completed.tokens {onNode : NodeId → Span → Span} {f : Span → Span} {p : Position}
    {others : List (Node × Option Token)}
    (h : Sound.Completed listing (·.moved onNode f) (·.mapSpans f) p others)
    (hproper : ∀ pair ∈ listing.items.pairs, pair.1.Proper) : ∃ ts : List Token,
      Listing.tokensOf others = (Listing.tokensOf listing.items.pairs).map (·.mapSpans f) ++ ts ∧
        Token.Strung p ts ∧ Token.renderAll ts = listing.missing := by
  cases h with
  | asIs hcomma hsemicolon =>
    refine ⟨[], ?_, trivial, ?_⟩
    · rw [Listing.tokensOf_mapItem, List.append_nil]
    · rw [Listing.missing, hcomma, hsemicolon]
      rfl
  | @comma front last hcomma hpairs =>
    refine ⟨[.place .comma [','] p], ?_, ⟨rfl, trivial⟩, ?_⟩
    · rw [hpairs, Listing.tokensOf_append, Listing.tokensOf_append, Listing.tokensOf_mapItem]
      simp [Node.tokens_moved]
    · rw [Listing.missing, hcomma]
      rfl
  | @semicolon front last hlacks hpairs =>
    have hlast : last.Proper := hproper (last, none) (by simp [hpairs])
    have hskeleton : (last.moved onNode f).skeleton = last.skeleton := last.skeleton_moved onNode f
    obtain ⟨hkind, hneeds⟩ : listing.kind = .declarations ∧ last.needsSemicolon = true := by
      rwa [ListKind.lacksSemicolon, Bool.and_eq_true, decide_eq_true_eq] at hlacks
    have htokens := Node.tokens_addSemicolon (hlast.of_skeleton hskeleton)
      ((Node.needsSemicolon_of_skeleton hlast.formed hskeleton).trans hneeds) p
    refine ⟨[.place .semicolon [';'] p], ?_, ⟨rfl, trivial⟩, ?_⟩
    · rw [hpairs, Listing.tokensOf_append, Listing.tokensOf_append, Listing.tokensOf_mapItem]
      simp [htokens, Node.tokens_moved]
    · have hcomma : listing.lacksComma = false := by simp [Listing.lacksComma, hkind]
      have hsemicolon : listing.lacksSemicolon = true := by
        simp [Listing.lacksSemicolon, Punctuated.last?, hpairs, hlacks]
      rw [Listing.missing, hcomma, hsemicolon]
      rfl

/-- An item is appended where the last one ends, or where the list is opened. -/
theorem appendAt_of_strung {p : Position} (h : list.Strung p) (hsound : tree.Sound loose)
    (hlist : list ∈ tree.root.descendants) (hlisting : list.listing? = some listing) :
    listing.appendAt list = Lexeme.after p (listing.ahead listing.items.size) := by
  have hformed := hsound.formed list hlist
  rw [Listing.ahead_size, Listing.appendAt]
  cases hlast : listing.items.last? with
  | some last =>
    obtain ⟨front, hpairs⟩ := hsound.exists_last hlist hlisting hlast
    have htokens : Listing.tokensOf listing.items.pairs = Listing.tokensOf front ++ last.tokens := by
      simp [hpairs]
    show last.span.stop = Token.after p (listing.opening ++ Listing.tokensOf listing.items.pairs)
    rw [htokens, ← List.append_assoc, Token.after_append]
    exact congrArg Span.stop (strung_item h hformed hlisting hpairs).span
  | none =>
    have hitems : listing.items.pairs = [] := by simpa [Punctuated.last?] using hlast
    show listing.openEnd list =
      Token.after p (listing.opening ++ Listing.tokensOf listing.items.pairs)
    rw [hitems, Listing.openEnd]
    obtain ⟨kind, opening, hshape, hl, -, helements⟩ := hformed.of_listing? hlisting
    cases hopening : listing.opening with
    | nil => exact congrArg Span.start h.span
    | cons t ts =>
      -- At most one token opens a list.
      have hle : opening ≤ 1 := by
        unfold NodeKind.listShape? at hshape
        split at hshape <;> cases hshape <;> decide
      obtain rfl : ts = [] := by
        have hlength := hl.opening
        rw [hopening, List.length_cons] at hlength
        exact List.length_eq_zero_iff.mp (by omega)
      have htokens := h.tokens
      rw [← list.tokens_eq, helements, Listing.tokensOf_elements, hopening, List.append_assoc,
        Token.strung_append] at htokens
      exact congrArg Span.stop htokens.1.fullSpan

/-- An item is put behind the last one. -/
theorem Sound.threaded_insertedAfter {arena arena' : Arena} (h : tree.Sound loose)
    (hstrung : tree.root.Strung .origin) (hproper : ∀ n ∈ tree.root.descendants, n.Proper)
    (hlist : list ∈ tree.root.descendants) (hlisting : list.listing? = some listing)
    (hfragment : fragment.Proper) (hcomplete : fragment.Complete arena arena')
    (htokens : fragment.tokens ≠ []) (hclears : tree.Clears list (listing.ahead listing.items.size))
    (hintact : (tree.insertedAfter list listing fragment).Intact) :
    (tree.insertedAfter list listing fragment).Threaded list.id := by
  obtain ⟨C, hthreads, hwithin⟩ := exists_threads hstrung hlist
  have hformed := h.formed list hlist
  have hput := h.root_putLast hlist hlisting fragment
  extract_lets start gapAt gap fragmentAt needed ending r σ τ item at hput
  obtain ⟨others, hothers, -, hput⟩ := hput
  let l := (listing.map σ τ).holding (others ++ [(item, none)])
  let x := (σ list).listed l
  have hroot : _ = plug (C.map (pushed (fun s => (r.insert s).join r) r.insert)) x :=
    hput.trans (h.root_makeRoom_update hthreads.root r fun _ => x)
  let ys := Token.lexemesOf listing.closing
  have hcut : Token.lexemesOf list.tokens = listing.ahead listing.items.size ++ ys := by
    rw [← list.tokens_eq, hformed.elements_listing hlisting, Listing.tokensOf_elements,
      Token.lexemesOf_append, Listing.ahead_size]
  have hstart : r.start = Lexeme.after (startIn .origin C) (listing.ahead listing.items.size) :=
    appendAt_of_strung hwithin h hlist hlisting
  obtain ⟨hahead, hclear⟩ := hclears.of_strung hwithin hthreads.root hstart
  obtain ⟨ts, hts, hseparator, hmissing⟩ := hothers.tokens fun pair hpair => hproper _
    (Node.mem_descendants_trans hlist
      (Node.mem_descendants_child (hformed.mem_children_listing hlisting hpair)))
  let semicolon := listing.kind.ending fragment (fragmentAt.advance fragment.render)
  let zs := Token.lexemesOf ts ++
    (gap ++ (Token.lexemesOf (fragment.place fragmentAt).tokens ++ semicolon))
  have hzs : Lexeme.render zs =
      listing.missing ++ Lexeme.render gap ++ fragment.render ++ ending := by
    simp only [zs, semicolon, ending, needed, Lexeme.render_append, Token.render_lexemesOf,
      Node.renderAll_place, hmissing, ListKind.render_ending, List.append_assoc]
  have hitem : Token.lexemesOf item.tokens =
      gap ++ (Token.lexemesOf (fragment.place fragmentAt).tokens ++ semicolon) :=
    Node.lexemesOf_item hfragment htokens _ _ _
  have hlexemes : ∀ ts : List Token, Token.lexemesOf (ts.map τ) =
      (Token.lexemesOf ts).map (·.moved r.insert) := Token.lexemesOf_mapSpans _
  have hx : Token.lexemesOf x.tokens = (listing.ahead listing.items.size).map (·.moved r.insert) ++
      (zs ++ ys.map (·.moved r.insert)) := by
    show Token.lexemesOf (Element.tokensOf l.elements) = _
    rw [Listing.tokensOf_holding, Listing.tokensOf_append, hts, Listing.ahead_size]
    simp [Listing.map, hitem, hlexemes, Token.lexemesOf_mapSpans, zs, ys]
  refine ⟨_, x, hthreads.put hroot hcut hahead hclear hstart (congrArg start.advance hzs.symm) hx
    hintact fun hwhole hroom => ?_, Node.id_moved _ _ _, ?_⟩
  · have hbehind : Lexeme.Strung fragmentAt
        (Token.lexemesOf (fragment.place fragmentAt).tokens ++ semicolon) := by
      refine strung_fragment hcomplete hwhole.right.right.left ?_ (ListKind.strung_ending _ _ _)
      have hlength : listing.missing.length + ((Lexeme.render gap).length + fragment.render.length) ≤
          (Lexeme.render zs).length := by
        rw [hzs]
        simp only [List.length_append]
        omega
      exact ((hroom.mono hlength).advance (Nat.le_refl _)).advance (Nat.le_refl _)
    refine hseparator.append hwhole.left ?_
    rw [Token.render_lexemesOf, hmissing]
    exact (strung_gapAfter _ _ _ _ _).append hwhole.right.left hbehind
  · intro hnone
    rw [hnone, Token.lexemesOf_nil] at hx
    simp only [zs, List.nil_eq, List.append_eq_nil_iff, Token.lexemesOf_eq_nil] at hx
    exact absurd hx.2.1.2.2.1 (Node.tokens_place_ne_nil htokens fragmentAt)

/-- An item is taken out in front of another one. -/
theorem Sound.threaded_removedBefore {removed next : Node} {comma : Option Token}
    (h : tree.Sound []) (hstrung : tree.root.Strung .origin) (hlist : list ∈ tree.root.descendants)
    (hlisting : list.listing? = some listing)
    (hpairs : listing.items.pairs = front ++ (removed, comma) :: (next, separator) :: back)
    (hindex : front.length = index) (hremoved : removed.tokens ≠ []) (hnext : next.tokens ≠ []) :
    (tree.removeBefore list index removed next).Threaded list.id := by
  obtain ⟨C, hthreads, hwithin⟩ := exists_threads hstrung hlist
  have hformed := h.formed list hlist
  have hremove := h.root_removeBefore hlist hlisting hpairs hindex
  extract_lets r σ τ at hremove
  let l := (listing.map σ τ).holding (front.map (Listing.mapItem σ τ) ++
    ((σ next).setLeading removed.leading, separator.map τ) :: back.map (Listing.mapItem σ τ))
  let x := (σ list).listed l
  have hroot : _ = plug (C.map (pushed r.delete r.delete)) x := hremove.trans
    (update_moved_plug hthreads.root h.nodup (fun _ _ => rfl) (fun _ _ _ _ => rfl) fun _ => x)
  let xs := listing.ahead index
  let zs := removed.behindLead ++ Token.lexemesOf comma.toList ++ next.leading
  let ys := next.behindLead ++
    Token.lexemesOf (separator.toList ++ Listing.tokensOf back ++ listing.closing)
  have hcut : Token.lexemesOf list.tokens = xs ++ (zs ++ ys) := by
    rw [← list.tokens_eq, hformed.elements_listing hlisting, Listing.lexemesOf_cut hpairs hindex]
    simp only [xs, zs, ys, Listing.tokensOf_cons, Token.lexemesOf_append, Node.lexemesOf_tokens,
      List.append_assoc]
  have hstart : r.start = Lexeme.after (startIn .origin C) xs :=
    coreStart_item hwithin hformed hlisting hpairs hindex hremoved
  have hpairs' : listing.items.pairs =
      (front ++ [(removed, comma)]) ++ (next, separator) :: back := by
    rw [hpairs, List.append_assoc]
    rfl
  have hstop : r.stop = Lexeme.after r.start zs := by
    have hahead : listing.ahead (front ++ [(removed, comma)]).length = xs ++ zs := by
      rw [Listing.ahead_item hpairs' rfl]
      simp [xs, zs, Listing.ahead_item hpairs hindex, Node.lexemesOf_tokens]
    rw [hstart, ← Lexeme.after_append, ← hahead]
    exact coreStart_item hwithin hformed hlisting hpairs' rfl hnext
  have hstay : xs.map (·.moved r.delete) = xs := by
    have hall : Lexeme.Strung (startIn .origin C) (xs ++ (zs ++ ys)) := hcut ▸ hthreads.tokens
    have hr : r.start ≤ r.stop := by
      rw [hstop]
      exact Lexeme.le_after _ zs
    exact (Lexeme.strung_append.mp hall).1.map_delete hr hstart
  have hx : Token.lexemesOf x.tokens = xs.map (·.moved r.delete) ++ ys.map (·.moved r.delete) := by
    have hspaced := Listing.lexemesOf_respaced (fun _ => r.delete) r.delete hnext listing
      front back [] separator removed.leading
    refine hspaced.trans ?_
    have hxs : xs = Token.lexemesOf (listing.opening ++ Listing.tokensOf front) ++ removed.leading :=
      Listing.ahead_item hpairs hindex
    have hmoved : xs.map (·.moved r.delete) = (Token.lexemesOf (listing.opening ++
        Listing.tokensOf front)).map (·.moved r.delete) ++ removed.leading := by
      rw [hxs, List.map_append] at hstay ⊢
      rw [(List.append_inj hstay (List.length_map _)).2]
    rw [hmoved, List.append_assoc _ removed.leading]
    rfl
  refine ⟨_, x, hthreads.deleted hroot hcut hstart hstop hx, Node.id_moved _ _ _, fun hnone => ?_⟩
  rw [hnone, Token.lexemesOf_nil] at hx
  simp only [ys, List.nil_eq, List.append_eq_nil_iff, List.map_eq_nil_iff] at hx
  exact absurd hx.2.1 (Node.behindLead_ne_nil hnext)

/-- The last item of a list takes up what it is written in, with the comma in front of it. -/
theorem lastRegion_of_strung {removed : Node} {others : List Token} {p : Position}
    (h : list.Strung p) (hformed : list.Formed) (hlisting : list.listing? = some listing)
    (hpairs : listing.items.pairs = front ++ [(removed, none)])
    (hfront : Listing.tokensOf front = others ++ (listing.commaBefore index).toList) :
    let q := Token.after p (listing.opening ++ others)
    listing.lastRegion index removed =
      ⟨q, Token.after q ((listing.commaBefore index).toList ++ removed.tokens)⟩ := by
  intro q
  have hspan := (strung_item h hformed hlisting hpairs).span
  rw [hfront, ← List.append_assoc, Token.after_append _ (listing.opening ++ others)] at hspan
  rw [Listing.lastRegion]
  cases hcomma : listing.commaBefore index with
  | none =>
    rw [hcomma] at hspan
    exact hspan
  | some comma =>
    rw [hcomma, Option.toList_some] at hspan hfront
    have htokens := h.tokens
    rw [tokens_last hformed hlisting hpairs, hfront] at htokens
    have hahead := (Token.strung_append.mp htokens).1
    rw [← List.append_assoc] at hahead
    have hfull : comma.fullSpan = ⟨q, Token.after q [comma]⟩ :=
      (Token.strung_append.mp hahead).2.fullSpan
    show comma.fullSpan.join removed.span = _
    rw [hfull, hspan, Span.join_next (Token.le_after _ _) (Token.le_after _ _), Option.toList_some,
      Token.after_append]

/-- The last item of a list is taken out. -/
theorem Sound.threaded_removedLast {removed : Node} (h : tree.Sound [])
    (hstrung : tree.root.Strung .origin) (hlist : list ∈ tree.root.descendants)
    (hlisting : list.listing? = some listing)
    (hpairs : listing.items.pairs = front ++ [(removed, none)]) (hindex : front.length = index) :
    (tree.removeLast list listing index removed).Threaded list.id := by
  obtain ⟨C, hthreads, hwithin⟩ := exists_threads hstrung hlist
  have hformed := h.formed list hlist
  have hremove := @root_removeLast tree list removed listing index h hlist hlisting
  extract_lets r σ τ at hremove
  let l := (listing.map σ τ).holding
    ((listing.removeLast index).items.pairs.map (Listing.mapItem σ τ))
  let x := (σ list).listed l
  have hroot : _ = plug (C.map (pushed r.delete r.delete)) x :=
    hremove.trans
      (update_moved_plug hthreads.root h.nodup (fun _ _ => rfl) (fun _ _ _ _ => rfl) fun _ => x)
  obtain ⟨others, hfront, hstay⟩ := Listing.tokensOf_removeLast hpairs hindex
  let xs := Token.lexemesOf (listing.opening ++ others)
  let zs := Token.lexemesOf ((listing.commaBefore index).toList ++ removed.tokens)
  let ys := Token.lexemesOf listing.closing
  have hcut : Token.lexemesOf list.tokens = xs ++ (zs ++ ys) := by
    simp only [tokens_last hformed hlisting hpairs, hfront, Token.lexemesOf_append, xs, zs, ys,
      List.append_assoc]
  have hregion : r = ⟨Lexeme.after (startIn .origin C) xs,
      Lexeme.after (Lexeme.after (startIn .origin C) xs) zs⟩ :=
    lastRegion_of_strung hwithin hformed hlisting hpairs hfront
  have hx : Token.lexemesOf x.tokens = xs.map (·.moved r.delete) ++ ys.map (·.moved r.delete) := by
    show Token.lexemesOf (Element.tokensOf l.elements) = _
    rw [Listing.tokensOf_holding, Listing.tokensOf_mapItem, hstay]
    simp [Listing.map, Token.lexemesOf_mapSpans, xs, ys, τ]
  refine ⟨_, x, hthreads.deleted hroot hcut (by rw [hregion]) (by rw [hregion]) hx,
    Node.id_moved _ _ _, fun hnone => ?_⟩
  have hxs : xs = [] := by
    rw [hnone, Token.lexemesOf_nil] at hx
    simp only [List.nil_eq, List.append_eq_nil_iff, List.map_eq_nil_iff] at hx
    exact hx.1
  have hlistStart : list.span.start = startIn .origin C := congrArg Span.start hwithin.span
  show (σ list).span.start = _
  rw [Node.span_moved, startIn_pushed, Span.delete_start]
  · rw [hregion, hxs]
    rfl
  · rw [hlistStart, hregion, hxs]
    rfl

/-- The spans in a node of a tree that is written without gaps are computed again. -/
theorem Sound.strung_respan (h : tree.Sound loose) (hstrung : tree.root.Strung .origin)
    (id : NodeId) : (tree.respan id).root.Strung .origin := by
  by_cases hid : id ∈ tree.root.descendants.map Node.id
  · obtain ⟨n, hn, rfl⟩ := List.mem_map.mp hid
    obtain ⟨C, hthreads, hwithin⟩ := exists_threads hstrung hn
    have hroot : (tree.respan n.id).root = plug C n.respan :=
      root_update_plug hthreads.root h.nodup Node.respan
    rw [hroot]
    exact strung_plug.mpr ⟨by rw [Node.tokens_respan]; exact hthreads.around, hwithin.respan⟩
  · show (tree.root.update id Node.respan).Strung .origin
    rwa [Node.update_of_not_mem _ hid]

/-- A node is read anew. -/
theorem Sound.strung_replaced {n : Node} {arena arena' : Arena}
    (h : tree.Sound (fragment.entries none)) (hstrung : tree.root.Strung .origin)
    (hn : n ∈ tree.root.descendants) (hcomplete : fragment.Complete arena arena')
    (hclears : tree.Clears n [])
    (hintact : (tree.replacedWith n.id (fragment.place n.span.start)).Intact) :
    (tree.replacedWith n.id (fragment.place n.span.start)).root.Strung .origin := by
  obtain ⟨C, hroot⟩ := Node.exists_plug hn
  let placed := fragment.place n.span.start
  have hskeleton : placed.skeleton = fragment.skeleton := fragment.skeleton_place n.span.start
  have hplaced : tree.Sound (placed.entries none) := by
    rwa [← Node.entries_skeleton, hskeleton, Node.entries_skeleton]
  obtain ⟨hresized, hroot'⟩ :=
    hplaced.root_resized hroot (Node.formed_of_skeleton hcomplete.formed hskeleton)
  have hstart : n.span.start = startIn .origin C :=
    congrArg Span.start (strung_plug.mp (hroot ▸ hstrung)).2.span
  let resized := (tree.putContent n.id placed).resize n.id placed.span
  have hresult : tree.replacedWith n.id placed = resized ∨
      ∃ parent, tree.replacedWith n.id placed = resized.respan parent := by
    rw [Tree.replacedWith]
    split
    next parent _ => exact Or.inr ⟨parent.id, rfl⟩
    next => exact Or.inl rfl
  have hintact' : resized.Intact := by
    rcases hresult with heq | ⟨parent, heq⟩
    · exact heq ▸ hintact
    · exact (heq ▸ hintact : (resized.respan parent).Intact).of_respan
  have hstrung' : resized.root.Strung .origin := by
    have hall : ∀ ts : List Token,
        Token.lexemesOf ts = [] ++ (Token.lexemesOf ts ++ []) := fun ts => (List.append_nil _).symm
    obtain ⟨-, hroom⟩ := hintact'.cut hroot' (hall _)
    rw [startIn_pushed, startIn_pushed, Lexeme.after_nil, ← hstart] at hroom
    have hlength : Token.renderAll ({ placed with id := n.id } : Node).tokens = fragment.render := by
      rw [Node.tokens_mk, placed.tokens_eq]
      exact Node.renderAll_place _ _
    rw [Token.render_lexemesOf, hlength] at hroom
    have hw : placed.Strung (startIn .origin C) := by
      rw [← hstart]
      exact hcomplete.laid.strung_place hcomplete.whole hroom
    rw [hroot']
    exact Frame.strung_replaced (w := { placed with id := n.id }) (hroot ▸ hstrung)
      (hw.setId n.id) (hstart ▸ hclears.around C hroot)
  rcases hresult with heq | ⟨parent, heq⟩
  · rwa [heq]
  · rw [heq]
    exact hresized.strung_respan hstrung' parent

end Tree

end CssTree
