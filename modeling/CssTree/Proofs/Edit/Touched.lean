import CssTree.Proofs.Edit.Exchange
import CssTree.Proofs.Edit.Undo
import CssTree.Proofs.Shape
import CssTree.Proofs.Tree.Census

namespace CssTree

open CssTree.Frame (plug apart_of_nodup update_plug)

mutual

theorem Node.faded_moveSpans (frozen : NodeId → Bool) (onNode : NodeId → Span → Span)
    (onToken : Span → Span) : ∀ n : Node, (n.moveSpans frozen onNode onToken).faded = n.faded
  | ⟨id, kind, span, es⟩ => by
    rw [Node.moveSpans]
    split
    · rfl
    · rw [Node.faded_mk, Node.faded_mk, Element.faded_moveSpansOf]

theorem Element.faded_moveSpansOf (frozen : NodeId → Bool) (onNode : NodeId → Span → Span)
    (onToken : Span → Span) : ∀ es : List Element,
    Element.mapSpansAll (fun _ => default) (Element.moveSpansOf frozen onNode onToken es) =
      Element.mapSpansAll (fun _ => default) es
  | [] => rfl
  | .token t :: es => by
    rw [Element.moveSpansOf, Element.mapSpansAll_token, Element.mapSpansAll_token,
      Element.faded_moveSpansOf, Token.mapSpans_mapSpans]
  | .node n :: es => by
    have hn : (n.moveSpans frozen onNode onToken).mapSpans (fun _ => default) =
        n.mapSpans fun _ => default := Node.faded_moveSpans frozen onNode onToken n
    rw [Element.moveSpansOf, Element.mapSpansAll_node, Element.mapSpansAll_node, hn,
      Element.faded_moveSpansOf]

end

namespace Node

variable {m n : Node} {id : NodeId}

/-- A change that is the same up to places. -/
theorem faded_update_congr {f f' g : Node → Node} (hf : ∀ m, (f m).faded = g m.faded)
    (hf' : ∀ m, (f' m).faded = g m.faded) (h : m.faded = n.faded) :
    (m.update id f).faded = (n.update id f').faded := by
  have hm : (m.update id f).faded = m.faded.update id g := moved_update hf m
  have hn : (n.update id f').faded = n.faded.update id g := moved_update hf' n
  rw [hm, hn, h]

/-- A change of places only. -/
theorem faded_update_places {f : Node → Node} (hf : ∀ m, (f m).faded = m.faded) (n : Node) :
    (n.update id f).faded = n.faded := by
  have hupdate : (n.update id f).faded = n.faded.update id fun m => m :=
    moved_update (g := fun m => m) hf n
  rw [hupdate, update_id]

end Node

namespace Tree

theorem faded_makeRoom (id : NodeId) (inserted : Option Span) (tree : Tree) :
    (tree.makeRoom id inserted).root.faded = tree.root.faded := by
  rw [makeRoom]
  split
  · rfl
  · exact Node.faded_moveSpans _ _ _ _

theorem faded_closeGap (deleted : Span) (kept : Option NodeId) (tree : Tree) :
    (tree.closeGap deleted kept).root.faded = tree.root.faded := by
  rw [closeGap]
  split
  · rfl
  · exact Node.faded_moveSpans _ _ _ _

theorem faded_respan (id : NodeId) (tree : Tree) :
    (tree.respan id).root.faded = tree.root.faded :=
  Node.faded_update_places Node.faded_respan _

theorem faded_resize (id : NodeId) (span : Span) (tree : Tree) :
    (tree.resize id span).root.faded = tree.root.faded := by
  rw [resize]
  split
  · rfl
  · have hspan : ∀ m : Node, ({ m with span := span } : Node).faded = m.faded := by
      rintro ⟨id, kind, old, es⟩
      rfl
    rw [faded_makeRoom]
    exact (Node.faded_update_places hspan _).trans (faded_closeGap _ _ _)

/-- Two trees are the same up to places, but that the one has `n` where the other has `n'`. -/
def DiffersAt (tree tree' : Tree) (n n' : Node) : Prop :=
  ∃ C, tree.root = plug C n ∧ tree'.root.faded = (plug C n').faded

theorem differsAt_update {tree tree' : Tree} {n n' : Node}
    (hnodup : (tree.root.descendants.map Node.id).Nodup) (hn : n ∈ tree.root.descendants)
    (hroot : tree'.root.faded = (tree.root.update n.id fun _ => n').faded) :
    tree.DiffersAt tree' n n' := by
  obtain ⟨C, hplug⟩ := Node.exists_plug hn
  refine ⟨C, hplug, ?_⟩
  rw [hroot, hplug, update_plug (apart_of_nodup (hplug ▸ hnodup))]

theorem DiffersAt.of_root {tree tree₀ tree' : Tree} {n n' : Node} (h : tree.DiffersAt tree' n n')
    (hroot : tree.root = tree₀.root) : tree₀.DiffersAt tree' n n' := by
  rwa [DiffersAt, ← hroot]

end Tree

/-- The items of a list with the separator that the last of them lacks. -/
inductive Listing.Completes (l : Listing) : List (Node × Option Token) → Prop
  | asIs : Completes l l.items.pairs
  | comma {front : List (Node × Option Token)} {last : Node} {p : Position} : l.kind = .selectors →
      l.items.pairs = front ++ [(last, none)] →
      Completes l (front ++ [(last, some (.place .comma [','] p))])
  | semicolon {front : List (Node × Option Token)} {last : Node} {d : Declaration} {p : Position} :
      l.kind = .declarations → l.items.pairs = front ++ [(last, none)] →
      last.declaration? = some d → d.semicolon = none →
      Completes l (front ++ [(last.mapDeclaration (·.addSemicolon p), none)])

/-- What the edit `m` of a tree does to the one node at which the tree differs afterwards, the change
that it reports, and the subtrees that are gone and fresh. -/
inductive Node.Touched (tree : Tree) (m : Mutation) :
    Change → List Node → List Node → Node → Node → Prop
  /-- The item behind the new one gets other leading trivia. -/
  | insertedBefore {n target item : Node} {l : Listing} {front back : List (Node × Option Token)}
      {comma separator : Option Token} {gap : List Lexeme} : n.listing? = some l →
      l.items.pairs = front ++ (target, separator) :: back →
      (∀ t ∈ comma, l.kind = .selectors ∧ ∃ p, t = .place .comma [','] p) →
      Touched tree m (.inserted n.id item.id) [] [item] n
        (n.listed (l.holding
          (front ++ (item, comma) :: (target.setLeading gap, separator) :: back)))
  | insertedAfter {n item : Node} {l : Listing} {others : List (Node × Option Token)} :
      n.listing? = some l → l.Completes others →
      Touched tree m (.inserted n.id item.id) [] [item] n
        (n.listed (l.holding (others ++ [(item, none)])))
  /-- The item behind the old one takes over what led that. -/
  | removedBefore {n removed next : Node} {l : Listing} {front back : List (Node × Option Token)}
      {comma separator : Option Token} : n.listing? = some l →
      l.items.pairs = front ++ (removed, comma) :: (next, separator) :: back →
      (∀ t ∈ comma, t.kind = .comma) →
      Touched tree m (.removed n.id front.length) [removed] [] n
        (n.listed (l.holding (front ++ (next.setLeading removed.leading, separator) :: back)))
  | removedLast {n removed : Node} {l : Listing} {front : List (Node × Option Token)} :
      n.listing? = some l → l.items.pairs = front ++ [(removed, none)] →
      Touched tree m (.removed n.id front.length) [removed] [] n (n.listed (l.holding front))
  | removedComma {n removed last : Node} {l : Listing} {others : List (Node × Option Token)}
      {comma : Token} : n.listing? = some l →
      l.items.pairs = others ++ [(last, some comma), (removed, none)] → comma.kind = .comma →
      Touched tree m (.removed n.id (others.length + 1)) [removed] [] n
        (n.listed (l.holding (others ++ [(last, none)])))
  | replaced {n n' : Node} {p : Production} {t : Text} : m.Rereads tree n p t →
      n' = { (tree.reads p t).1 with id := n.id } → Touched tree m (.replaced n.id) [n] [n'] n n'
  | marked {n mark : Node} {d : Declaration} : n.declaration? = some d → d.important = none →
      Touched tree m (.modified n.id) [] [mark] n (n.mapDeclaration (·.setMark (some mark)))
  | unmarked {n mark : Node} {d : Declaration} : n.declaration? = some d →
      d.important = some mark →
      Touched tree m (.modified n.id) [mark] [] n (n.mapDeclaration (·.setMark none))
  /-- What led the name leads the start of a comment, and what trailed the last token trails the end
  of the comment. -/
  | disabled {n : Node} {d : Declaration} {ts : List Token} {t : Token} {p q : Position} :
      m = .setDisabled n.id true → n.declaration? = some d → d.opening = none →
      n.tokens = d.name :: ts ++ [t] →
      ((n.mapDeclaration (·.openComment p)).closeComment q).tokens =
        { Token.place .openComment ['/', '*'] p with leading := d.name.leading } ::
          { d.name with leading := blankTrivia [' '] (p.advance ['/', '*']) } ::
            ts ++ [t.cutTrailing, { Token.commentEnd q with trailing := t.trailing }] →
      Touched tree m (.modified n.id) [] [] n ((n.mapDeclaration (·.openComment p)).closeComment q)
  /-- What led the start of the comment leads the name, and what trailed the end of the comment
  trails the last token. The trivia inside the comment at its two ends is lost. -/
  | enabled {n : Node} {d : Declaration} {opening : Token} {ts : List Token} {t : Token} :
      m = .setDisabled n.id false → n.declaration? = some d → d.opening = some opening →
      n.tokens = opening :: d.name :: ts ++ t :: d.closing.toList →
      (n.dropClosing.mapDeclaration (·.dropOpening)).tokens =
        { d.name with leading := opening.leading } :: ts ++
          [{ t with trailing := t.trailing ++ (d.closing.map (·.trailing)).getD [] }] →
      Touched tree m (.modified n.id) [] [] n (n.dropClosing.mapDeclaration (·.dropOpening))

namespace Node

variable {n : Node} {l : Listing} {d : Declaration}

/-- A list gets other items. -/
theorem census_listed {gone fresh : List Node} {pairs : List (Node × Option Token)} (hn : n.Formed)
    (hl : n.listing? = some l)
    (h : ((gone ++ pairs.map Prod.fst).flatMap (·.census (some n.id))).Perm
      ((fresh ++ l.items.pairs.map Prod.fst).flatMap (·.census (some n.id)))) (p : Option NodeId) :
    (gone.flatMap (·.census (some n.id)) ++ (n.listed (l.holding pairs)).census p).Perm
      (fresh.flatMap (·.census (some n.id)) ++ n.census p) := by
  have hchildren : (n.listed (l.holding pairs)).children = pairs.map Prod.fst :=
    Listing.nodes_holding pairs l
  refine census_perm (show (n.listed (l.holding pairs)).id = n.id from rfl) rfl ?_ p
  rw [hchildren, hn.children_listing hl]
  exact h

/-- A declaration gets other parts. -/
theorem census_redeclared {gone fresh : List Node} {F : Declaration → Declaration} (hn : n.Formed)
    (hd : n.declaration? = some d) (h : (gone ++ (F d).nodes).Perm (fresh ++ d.nodes))
    (p : Option NodeId) :
    (gone.flatMap (·.census (some n.id)) ++ (n.mapDeclaration F).census p).Perm
      (fresh.flatMap (·.census (some n.id)) ++ n.census p) := by
  have hchildren : (n.mapDeclaration F).children = (F d).nodes := by
    rw [mapDeclaration_of hd]
    exact (F d).nodes_elements
  refine census_perm (n.id_mapDeclaration F) (n.kind_mapDeclaration F) ?_ p
  rw [hchildren, hn.children_declaration hd]
  exact h.flatMap_right _

/-- A declaration that keeps its nodes. -/
theorem census_mapDeclaration (hn : n.Formed) (hd : n.declaration? = some d)
    {F : Declaration → Declaration} (hF : (F d).nodes = d.nodes) (p : Option NodeId) :
    (n.mapDeclaration F).census p = n.census p := by
  have hchildren : (n.mapDeclaration F).children = n.children := by
    rw [mapDeclaration_of hd, hn.children_declaration hd, ← hF]
    exact (F d).nodes_elements
  rw [census_children, census_children, hchildren, id_mapDeclaration, kind_mapDeclaration]

theorem census_setLeading (trivia : List Lexeme) (n : Node) (p : Option NodeId) :
    (n.setLeading trivia).census p = n.census p :=
  census_of_skeleton (n.skeleton_setLeading trivia) p

theorem appendTrailing_nil (n : Node) : n.appendTrailing [] = n := by
  have hsame := map_mapLast (f := fun t : Token => { t with trailing := t.trailing ++ [] }) (g := fun t => t)
    (fun t => by simp) n.tokens
  rw [List.map_id', List.map_id'] at hsame
  exact mapTokens_eq_self hsame

theorem census_disabled (hn : n.Formed) (hd : n.declaration? = some d) (p q : Position)
    (r : Option NodeId) :
    ((n.mapDeclaration (·.openComment p)).closeComment q).census r = n.census r := by
  have hopened := hn.opened hd (show (Token.place .openComment ['/', '*'] p).kind = .openComment from
    rfl) (blankTrivia [' '] (p.advance ['/', '*']))
  let m := n.mapDeclaration (·.openComment p)
  have hskeleton : m.cutTrailing.skeleton = m.skeleton := m.skeleton_cutTrailing
  obtain ⟨cut, hcut, -, -⟩ := declaration?_of_skeleton hopened.2.1 hopened.2.2 hskeleton
  calc (m.closeComment q).census r
      = m.cutTrailing.census r :=
        census_mapDeclaration (hopened.2.1.of_skeleton hskeleton) hcut rfl r
    _ = m.census r := census_of_skeleton hskeleton r
    _ = n.census r := census_mapDeclaration hn hd rfl r

theorem census_enabled (hn : n.Formed) (hd : n.declaration? = some d) (p : Option NodeId) :
    (n.dropClosing.mapDeclaration (·.dropOpening)).census p = n.census p := by
  obtain ⟨-, -, hdropped, hskeleton, d', hd', -⟩ := hn.dropClosing hd
  calc (n.dropClosing.mapDeclaration (·.dropOpening)).census p
      = n.dropClosing.census p := census_mapDeclaration hdropped hd' rfl p
    _ = (n.mapDeclaration ({ · with closing := none })).census p := census_of_skeleton hskeleton p
    _ = n.census p := census_mapDeclaration (F := ({ · with closing := none })) hn hd rfl p

/-- The tokens of a declaration, the first and the last of which are changed by a comment. -/
theorem tokens_disabled (hn : n.Formed) (hd : n.declaration? = some d) (hopening : d.opening = none)
    (hclosing : d.closing = none) (p q : Position) : ∃ ts t, n.tokens = d.name :: ts ++ [t] ∧
      ((n.mapDeclaration (·.openComment p)).closeComment q).tokens =
        { Token.place .openComment ['/', '*'] p with leading := d.name.leading } ::
          { d.name with leading := blankTrivia [' '] (p.advance ['/', '*']) } ::
            ts ++ [t.cutTrailing, { Token.commentEnd q with trailing := t.trailing }] := by
  have helements := hn.elements_declaration hd
  have hopened : (n.mapDeclaration (·.openComment p)).Formed ∧
      (n.mapDeclaration (·.openComment p)).declaration? = some (d.openComment p) :=
    (hn.opened hd (show (Token.place .openComment ['/', '*'] p).kind = .openComment from rfl) _).2
  let rest := d.colon :: (d.value.tokens ++
    ((d.important.map Node.tokens).getD [] ++ d.semicolon.toList))
  obtain ⟨ts, t, hrest⟩ : ∃ ts t, rest = ts ++ [t] := by
    obtain ⟨ts, t, hlast⟩ := (List.eq_nil_or_concat rest).resolve_left (List.cons_ne_nil _ _)
    exact ⟨ts, t, hlast.trans List.concat_eq_append⟩
  have htokens : n.tokens = d.name :: rest := by
    rw [← n.tokens_eq, helements, Declaration.tokensOf_elements, hopening, hclosing]
    simp [rest]
  have hwithin : (n.mapDeclaration (·.openComment p)).tokens =
      { Token.place .openComment ['/', '*'] p with leading := d.name.leading } ::
        { d.name with leading := blankTrivia [' '] (p.advance ['/', '*']) } :: ts ++ [t] := by
    rw [mapDeclaration_of hd, tokens_mk, Declaration.tokensOf_elements, List.cons_append,
      List.cons_append, ← hrest]
    simp [rest, Declaration.openComment, hclosing]
  refine ⟨ts, t, by rw [htokens, hrest]; rfl, ?_⟩
  rw [closeComment_eq, tokens_closedBy hopened.1 hopened.2 hclosing rfl, hwithin, mapLast_concat, trailing,
    hwithin, List.getLast?_concat]
  simp

/-- The tokens of a declaration with a comment around it, before and after that is taken away. -/
theorem tokens_enabled {opening : Token} (hn : n.Formed) (hd : n.declaration? = some d)
    (hopening : d.opening = some opening) :
    ∃ ts t, n.tokens = opening :: d.name :: ts ++ t :: d.closing.toList ∧
      (n.dropClosing.mapDeclaration (·.dropOpening)).tokens =
        { d.name with leading := opening.leading } :: ts ++
          [{ t with trailing := t.trailing ++ (d.closing.map (·.trailing)).getD [] }] := by
  have helements := hn.elements_declaration hd
  obtain ⟨-, -, hdropped, -, d', hd', hsome⟩ := hn.dropClosing hd
  let rest := d.colon :: (d.value.tokens ++
    ((d.important.map Node.tokens).getD [] ++ d.semicolon.toList))
  obtain ⟨ts, t, hrest⟩ : ∃ ts t, rest = ts ++ [t] := by
    obtain ⟨ts, t, hlast⟩ := (List.eq_nil_or_concat rest).resolve_left (List.cons_ne_nil _ _)
    exact ⟨ts, t, hlast.trans List.concat_eq_append⟩
  have htokens : n.tokens = opening :: d.name :: rest ++ d.closing.toList := by
    rw [← n.tokens_eq, helements, Declaration.tokensOf_elements, hopening]
    simp [rest]
  let trailing := (d.closing.map (·.trailing)).getD []
  have hopen : (n.mapDeclaration ({ · with closing := none })).tokens =
      opening :: d.name :: ts ++ [t] := by
    rw [mapDeclaration_of hd, tokens_mk, Declaration.tokensOf_elements, List.cons_append,
      List.cons_append, ← hrest, hopening]
    simp [rest]
  have hclosed : n.dropClosing.tokens =
      opening :: d.name :: ts ++ [{ t with trailing := t.trailing ++ trailing }] := by
    rw [Node.dropClosing, hd, Option.bind_some, appendTrailing,
      tokens_mapTokens (length_mapLast _ _), hopen, mapLast_concat]
  refine ⟨ts, t, by simp [htokens, hrest], ?_⟩
  obtain ⟨opening', hopening'⟩ := Option.isSome_iff_exists.mp (hsome.trans (by rw [hopening]; rfl))
  obtain ⟨-, -, helements'⟩ := hdropped.of_declaration? hd'
  have hsplit := hclosed
  rw [← tokens_eq, helements', Declaration.tokensOf_elements, hopening'] at hsplit
  simp only [Option.toList_some, List.cons_append, List.nil_append, List.cons.injEq] at hsplit
  obtain ⟨hopen', hname, hrest'⟩ := hsplit
  rw [mapDeclaration_of hd', tokens_mk, Declaration.tokensOf_elements, List.cons_append, ← hrest',
    ← hname]
  simp [Declaration.dropOpening, hopening', hopen']

end Node

/-- Items that get the separator that the last of them lacks stand as before. -/
theorem Listing.Completes.census {l : Listing} {others : List (Node × Option Token)}
    (h : l.Completes others) (hl : ∀ x ∈ l.nodes, x.Formed) {p : Option NodeId} :
    (others.map Prod.fst).flatMap (·.census p) =
      (l.items.pairs.map Prod.fst).flatMap (·.census p) := by
  cases h with
  | asIs => rfl
  | comma _ hpairs => simp only [hpairs, List.map_append, List.map_cons, List.map_nil]
  | @semicolon front last d q _ hpairs hd _ =>
    have hlast : last.Formed := hl last (by rw [nodes, Punctuated.values, hpairs]; simp)
    simp only [hpairs, List.map_append, List.map_cons, List.map_nil, List.flatMap_append,
      List.flatMap_cons, List.flatMap_nil, List.append_nil]
    rw [Node.census_mapDeclaration hlast hd rfl]

namespace Node

variable {n : Node}

namespace Touched

variable {tree : Tree} {m : Mutation} {c : Change} {gone fresh : List Node} {n' : Node}

/-- Within the node that is touched, only what is gone or fresh stands differently. -/
theorem census (h : Touched tree m c gone fresh n n') (hn : ∀ x ∈ n.descendants, x.Formed)
    (p : Option NodeId) : ∃ q, (gone.flatMap (·.census q) ++ n'.census p).Perm
      (fresh.flatMap (·.census q) ++ n.census p) := by
  have hself : n.Formed := hn n n.mem_descendants_self
  cases h with
  | insertedBefore hl hpairs _ =>
    refine ⟨some n.id, census_listed hself hl ?_ p⟩
    simp only [hpairs, List.map_append, List.map_cons, List.flatMap_append, List.flatMap_cons,
      List.flatMap_nil, List.nil_append, List.append_nil, census_setLeading]
    exact List.perm_append_comm_assoc _ _ _
  | @insertedAfter _ item l others hl hothers =>
    refine ⟨some n.id, census_listed hself hl ?_ p⟩
    have hchildren : ∀ x ∈ l.nodes, x.Formed := fun x hx => by
      rw [← hself.children_listing hl] at hx
      exact hn x (mem_descendants_child hx)
    rw [List.nil_append, List.map_append, List.flatMap_append, List.flatMap_append,
      hothers.census hchildren]
    exact List.perm_append_comm
  | removedBefore hl hpairs _ =>
    refine ⟨some n.id, census_listed hself hl ?_ p⟩
    simp only [hpairs, List.map_append, List.map_cons, List.flatMap_append, List.flatMap_cons,
      List.flatMap_nil, List.nil_append, List.append_nil, census_setLeading]
    exact List.perm_append_comm_assoc _ _ _
  | removedLast hl hpairs =>
    refine ⟨some n.id, census_listed hself hl ?_ p⟩
    rw [hpairs, List.map_append, List.nil_append, List.flatMap_append, List.flatMap_append]
    exact List.perm_append_comm
  | removedComma hl hpairs _ =>
    refine ⟨some n.id, census_listed hself hl ?_ p⟩
    simp only [hpairs, List.map_append, List.map_cons, List.map_nil, List.flatMap_append,
      List.flatMap_cons, List.flatMap_nil, List.nil_append, List.append_nil]
    rw [← List.append_assoc (List.flatMap _ _)]
    exact List.perm_append_comm
  | replaced _ _ =>
    refine ⟨p, ?_⟩
    simp only [List.flatMap_cons, List.flatMap_nil, List.append_nil]
    exact List.perm_append_comm
  | marked hd hnone =>
    refine ⟨some n.id, census_redeclared hself hd ?_ p⟩
    rw [Declaration.nodes, Declaration.nodes, hnone]
    exact List.Perm.swap _ _ _
  | unmarked hd hmark =>
    refine ⟨some n.id, census_redeclared hself hd ?_ p⟩
    rw [Declaration.nodes, Declaration.nodes, hmark]
    exact List.Perm.swap _ _ _
  | disabled _ hd _ _ _ => exact ⟨p, .of_eq (census_disabled hself hd _ _ p)⟩
  | enabled _ hd _ _ _ => exact ⟨p, .of_eq (census_enabled hself hd p)⟩

end Touched

end Node

namespace Listing

variable {pairs : List (Node × Option Token)} {onNode : NodeId → Span → Span}
  {onToken : Span → Span}

/-- An item with the separator behind it, without their places. -/
def fadeItem : Node × Option Token → Node × Option Token := pushItem fun _ => default

theorem fadeItem_moved (pair : Node × Option Token) :
    fadeItem (mapItem (·.moved onNode onToken) (·.mapSpans onToken) pair) = fadeItem pair :=
  pushItem_moved onNode onToken _ pair

theorem map_fadeItem_moved (pairs : List (Node × Option Token)) :
    (pairs.map (mapItem (·.moved onNode onToken) (·.mapSpans onToken))).map fadeItem =
      pairs.map fadeItem := by
  rw [List.map_map]
  exact List.map_congr_left fun pair _ => fadeItem_moved pair

/-- An item that is led by other trivia than before. -/
theorem fadeItem_setLeading (trivia : List Lexeme) (n : Node) (separator : Option Token) :
    fadeItem ((n.moved onNode onToken).setLeading trivia, separator.map (·.mapSpans onToken)) =
      fadeItem (n.setLeading trivia, separator) := by
  have hset : ∀ m : Node, (m.setLeading trivia).faded =
      m.faded.setLeading (trivia.map (·.moved fun _ => default)) := Node.pushed_setLeading _ trivia
  have hseparator : (separator.map (·.mapSpans onToken)).map Token.faded =
      separator.map Token.faded := by
    cases separator with
    | none => rfl
    | some t => exact congrArg some (Token.mapSpans_mapSpans onToken _ t)
  refine Prod.ext ?_ hseparator
  show (Node.setLeading trivia _).faded = (n.setLeading trivia).faded
  rw [hset, hset, Node.faded_moved]

end Listing

/-- All that separates the items of a list is commas. -/
theorem Node.Proper.comma {n item : Node} {l : Listing} {separator : Option Token} (h : n.Proper)
    (hl : n.listing? = some l) (hitem : (item, separator) ∈ l.items.pairs) :
    ∀ t ∈ separator, t.kind = .comma := by
  rintro t rfl
  obtain ⟨kind, opening, -, hformed, -, -⟩ := h.formed.of_listing? hl
  by_cases hkind : l.kind = .selectors
  · obtain ⟨hfront, hlast⟩ := h.commas l hl hkind
    have hmem : some t.kind ∈ l.separatorKinds := List.mem_map.mpr ⟨_, hitem, rfl⟩
    refine Option.some.inj (hfront _ (List.mem_dropLast_of_mem_of_ne_getLast? hmem fun hend => ?_))
    cases hlast _ hend.symm
  · cases hformed.separators (fun heq => hkind (hformed.kind.trans heq)) _ hitem

/-- A list whose spans were moved, and that got items which say what others say. -/
theorem Node.faded_relisted {n : Node} {l : Listing} {pairs pairs' : List (Node × Option Token)}
    (onNode : NodeId → Span → Span) (onToken : Span → Span)
    (h : pairs.map Listing.fadeItem = pairs'.map Listing.fadeItem) :
    ((n.moved onNode onToken).listed
      ((l.map (·.moved onNode onToken) (·.mapSpans onToken)).holding pairs)).faded =
      (n.listed (l.holding pairs')).faded := by
  have hitems : pairs.map (Listing.pushItem fun _ => default) =
      pairs'.map (Listing.pushItem fun _ => default) := h
  rw [faded, faded, pushed_listed, pushed_listed, Listing.pushed_holding, Listing.pushed_holding,
    Listing.pushed_moved, hitems, pushed_moved]

namespace Tree.Sound

variable {tree tree' tree₀ : Tree} {m : Mutation} {list fragment : Node} {listing : Listing}
  {loose : List Entry} {index : Nat} {onNode : NodeId → Span → Span} {onToken : Span → Span}

/-- A tree whose spans were moved and in which a list got items which say what others say. -/
theorem differsAt_relisted {pairs pairs' : List (Node × Option Token)} (h : tree.Sound loose)
    (hlist : list ∈ tree.root.descendants)
    (hroot : tree'.root = (tree.root.moved onNode onToken).update list.id fun _ =>
      (list.moved onNode onToken).listed
        ((listing.map (·.moved onNode onToken) (·.mapSpans onToken)).holding pairs))
    (hpairs : pairs.map Listing.fadeItem = pairs'.map Listing.fadeItem) :
    tree.DiffersAt (tree'.respan list.id) list (list.listed (listing.holding pairs')) := by
  refine differsAt_update h.nodup hlist ?_
  have hupdate : ∀ (root x : Node), (root.update list.id fun _ => x).faded =
      root.faded.update list.id fun _ => x.faded := fun root x =>
    Node.moved_update_const _ _ list.id x root
  rw [faded_respan, hroot, hupdate, hupdate, Node.faded_moved, Node.faded_relisted _ _ hpairs]

theorem Completed.completes {start : Position} {others : List (Node × Option Token)}
    (h : Completed listing (·.moved onNode onToken) (·.mapSpans onToken) start others) :
    ∃ others', listing.Completes others' ∧
      others.map Listing.fadeItem = others'.map Listing.fadeItem := by
  cases h with
  | asIs => exact ⟨_, .asIs, Listing.map_fadeItem_moved _⟩
  | @comma front last hcomma hpairs =>
    rw [Listing.lacksComma, Bool.and_eq_true, Bool.and_eq_true, decide_eq_true_eq] at hcomma
    refine ⟨_, .comma (p := start) hcomma.1.1 hpairs, ?_⟩
    rw [List.map_append, List.map_append, Listing.map_fadeItem_moved]
    exact congrArg (front.map Listing.fadeItem ++ [·])
      (Prod.ext (Node.faded_moved onNode onToken last) rfl)
  | @semicolon front last hlacks hpairs =>
    rw [ListKind.lacksSemicolon, Bool.and_eq_true, decide_eq_true_eq, Node.needsSemicolon,
      Option.any_eq_true] at hlacks
    obtain ⟨hkind, d, hd, hneeds⟩ := hlacks
    rw [Declaration.needsSemicolon, Bool.and_eq_true, Option.isNone_iff_eq_none] at hneeds
    refine ⟨_, .semicolon (p := start) hkind hpairs hd hneeds.1, ?_⟩
    have hadded : ∀ m : Node, (m.mapDeclaration (·.addSemicolon start)).faded =
        m.faded.mapDeclaration
          ({ · with semicolon := some (Token.place .semicolon [';'] start).faded }) := fun m =>
      Node.moved_mapDeclaration (F := (·.addSemicolon start)) (fun _ => rfl) m
    rw [List.map_append, List.map_append, Listing.map_fadeItem_moved]
    refine congrArg (front.map Listing.fadeItem ++ [·]) (Prod.ext ?_ rfl)
    show (Node.mapDeclaration _ _).faded = (last.mapDeclaration _).faded
    rw [hadded, hadded, Node.faded_moved]

theorem touches_insertedBefore {target : Node} (h : tree.Sound loose) (hsame : tree.root = tree₀.root)
    (hlist : list ∈ tree.root.descendants) (hlisting : list.listing? = some listing)
    (htarget : listing.items.get? index = some target) (fragment : Node) :
    ∃ gone fresh n n', tree₀.DiffersAt
      ((tree.insertedBefore list listing.kind index target fragment).respan list.id) n n' ∧
        Node.Touched tree₀ m (.inserted list.id fragment.id) gone fresh n n' := by
  obtain ⟨front, separator, back, hpairs, hindex⟩ := Listing.exists_item htarget
  have hput := h.root_putBefore hlist hlisting hpairs hindex fragment
  extract_lets start needed text separatorAt gap comma r σ τ item at hput
  obtain ⟨-, hroot⟩ := hput
  have hcomma : ∀ t ∈ comma, listing.kind = .selectors ∧ ∃ p, t = .place .comma [','] p := by
    intro t ht
    obtain ⟨hkind, hsome⟩ := Option.ite_none_right_eq_some.mp ht
    exact ⟨hkind, separatorAt, (Option.some.inj hsome).symm⟩
  have hid : item.id = fragment.id := Node.id_item _ _ _ _ _
  have htouched : Node.Touched tree₀ m (.inserted list.id item.id) _ _ list
      (list.listed (listing.holding
        (front ++ (item, comma) :: (target.setLeading gap, separator) :: back))) :=
    .insertedBefore hlisting hpairs hcomma
  rw [hid] at htouched
  refine ⟨_, _, _, _, (h.differsAt_relisted hlist hroot ?_).of_root hsame, htouched⟩
  simp only [List.map_append, List.map_cons, σ, τ, Listing.map_fadeItem_moved]
  rw [Listing.fadeItem_setLeading]

theorem touches_insertedAfter (h : tree.Sound loose) (hsame : tree.root = tree₀.root)
    (hlist : list ∈ tree.root.descendants) (hlisting : list.listing? = some listing) (fragment : Node) :
    ∃ gone fresh n n', tree₀.DiffersAt
      ((tree.insertedAfter list listing fragment).respan list.id) n n' ∧
        Node.Touched tree₀ m (.inserted list.id fragment.id) gone fresh n n' := by
  have hput := h.root_putLast hlist hlisting fragment
  extract_lets start gapAt gap fragmentAt needed ending r σ τ item at hput
  obtain ⟨others, hothers, -, hroot⟩ := hput
  obtain ⟨others', hcompletes, hitems⟩ := hothers.completes
  have hid : item.id = fragment.id := Node.id_item _ _ _ _ _
  have htouched : Node.Touched tree₀ m (.inserted list.id item.id) _ _ list _ :=
    .insertedAfter hlisting hcompletes
  rw [hid] at htouched
  refine ⟨_, _, _, _, (h.differsAt_relisted hlist hroot ?_).of_root hsame, htouched⟩
  rw [List.map_append, List.map_append, hitems]

theorem touches_removeBefore {removed next : Node} (h : tree.Sound [])
    (hproper : ∀ x ∈ tree.root.descendants, x.Proper) (hlist : list ∈ tree.root.descendants)
    (hlisting : list.listing? = some listing) (hget : listing.items.get? index = some removed)
    (hnext : listing.items.get? (index + 1) = some next) :
    ∃ gone fresh n n', tree.DiffersAt
      ((tree.removeBefore list index removed next).respan list.id) n n' ∧
        Node.Touched tree m (.removed list.id index) gone fresh n n' := by
  obtain ⟨front, comma, separator, back, hpairs, hindex⟩ := Listing.exists_next hget hnext
  have hroot := h.root_removeBefore hlist hlisting hpairs hindex
  have hcomma : ∀ t ∈ comma, t.kind = .comma :=
    (hproper list hlist).comma hlisting (show (removed, comma) ∈ _ by simp [hpairs])
  have htouched : Node.Touched tree m (.removed list.id front.length) _ _ list _ :=
    .removedBefore hlisting hpairs hcomma
  rw [hindex] at htouched
  refine ⟨_, _, _, _, h.differsAt_relisted hlist hroot ?_, htouched⟩
  rw [List.map_append, List.map_append, List.map_cons, List.map_cons, Listing.map_fadeItem_moved,
    Listing.map_fadeItem_moved, Listing.fadeItem_setLeading]

theorem touches_removeLast {removed : Node} (h : tree.Sound [])
    (hproper : ∀ x ∈ tree.root.descendants, x.Proper) (hlist : list ∈ tree.root.descendants)
    (hlisting : list.listing? = some listing) (hget : listing.items.get? index = some removed)
    (hnext : listing.items.get? (index + 1) = none) :
    ∃ gone fresh n n', tree.DiffersAt
      ((tree.removeLast list listing index removed).respan list.id) n n' ∧
        Node.Touched tree m (.removed list.id index) gone fresh n n' := by
  obtain ⟨front, separator, hpairs, hindex⟩ := Listing.exists_last hget hnext
  obtain rfl : separator = none := by
    have hends := (h.formed list hlist).endsSeparated_listing hlisting
    exact Punctuated.endsSeparated_eq_false.mp hends (removed, separator) (by simp [hpairs])
  have hdiffers : tree.DiffersAt ((tree.removeLast list listing index removed).respan list.id) list
      (list.listed (listing.holding (listing.removeLast index).items.pairs)) :=
    h.differsAt_relisted hlist (h.root_removeLast hlist hlisting) (Listing.map_fadeItem_moved _)
  rcases Listing.pairs_removeLast hpairs hindex with
    ⟨-, hfront⟩ | ⟨others, last, comma, rfl, -, hothers⟩
  · have htouched : Node.Touched tree m (.removed list.id front.length) _ _ list _ :=
      .removedLast hlisting hpairs
    rw [hfront] at hdiffers
    rw [hindex] at htouched
    exact ⟨_, _, _, _, hdiffers, htouched⟩
  · have hcomma : comma.kind = .comma := (hproper list hlist).comma hlisting
      (show (last, some comma) ∈ _ by simp [hpairs]) comma rfl
    have htouched : Node.Touched tree m (.removed list.id (others.length + 1)) _ _ list _ :=
      .removedComma hlisting (hpairs.trans (List.append_assoc _ _ _)) hcomma
    rw [hothers] at hdiffers
    rw [List.length_append, List.length_singleton] at hindex
    rw [hindex] at htouched
    exact ⟨_, _, _, _, hdiffers, htouched⟩

theorem differsAt_changed {n : Node} {f : Node → Node} (h : tree.Sound loose)
    (hn : n ∈ tree.root.descendants) (hroot : tree'.root.faded = (tree.root.update n.id f).faded) :
    tree.DiffersAt tree' n (f n) := by
  refine differsAt_update h.nodup hn ?_
  rw [hroot, Node.update_congr (g := fun _ => f n) h.nodup hn rfl]

variable {n mark : Node} {d d' : Declaration}

theorem touches_marked (h : tree.Sound []) (hn : n ∈ tree.root.descendants)
    (hd : n.declaration? = some d) (hnone : d.important = none) :
    ∃ gone fresh n₀ n', tree.DiffersAt ((tree.marked n.id d.value).respan n.id) n₀ n' ∧
      Node.Touched tree m (.modified n.id) gone fresh n₀ n' := by
  have hroot : ((tree.marked n.id d.value).respan n.id).root.faded =
      (tree.root.update n.id (·.mapDeclaration
        (·.setMark (some (importantNode tree.arena.next d.value.span.stop))))).faded := by
    rw [faded_respan]
    exact Node.faded_update_congr (Node.faded_setMark _) (Node.faded_setMark _) (faded_makeRoom _ _ _)
  exact ⟨_, _, _, _, h.differsAt_changed hn hroot, .marked hd hnone⟩

theorem touches_unmarked (h : tree.Sound []) (hn : n ∈ tree.root.descendants)
    (hd : n.declaration? = some d) (hmark : d.important = some mark) :
    ∃ gone fresh n₀ n', tree.DiffersAt ((tree.unmarked n.id mark).respan n.id) n₀ n' ∧
      Node.Touched tree m (.modified n.id) gone fresh n₀ n' := by
  have hroot : ((tree.unmarked n.id mark).respan n.id).root.faded =
      (tree.root.update n.id (·.mapDeclaration (·.setMark none))).faded := by
    rw [faded_respan]
    exact faded_closeGap _ _ _
  exact ⟨_, _, _, _, h.differsAt_changed hn hroot, .unmarked hd hmark⟩

theorem touches_wrapped (h : tree.Sound []) (hn : n ∈ tree.root.descendants)
    (hd : n.declaration? = some d) (hopening : d.opening = none) (hclosing : d.closing = none)
    (hm : m = .setDisabled n.id true) :
    ∃ gone fresh n₀ n', tree.DiffersAt ((tree.wrapped n.id d).respan n.id) n₀ n' ∧
      Node.Touched tree m (.modified n.id) gone fresh n₀ n' := by
  have hroot : ((tree.wrapped n.id d).respan n.id).root.faded =
      (tree.root.update n.id fun m =>
        (m.mapDeclaration (·.openComment default)).closeComment default).faded := by
    rw [faded_respan, ← Node.update_update fun m => m.id_mapDeclaration _]
    unfold Tree.wrapped
    extract_lets start opened last stop
    refine Node.faded_update_congr (g := fun k => (k.closeComment default).faded)
      (Node.faded_closeComment stop default) (Node.faded_closeComment default default) ?_
    rw [faded_makeRoom]
    exact Node.faded_update_congr (g := fun k => (k.mapDeclaration (·.openComment default)).faded)
      (Node.faded_openComment start default) (Node.faded_openComment default default)
      (faded_makeRoom _ _ _)
  obtain ⟨ts, t, htokens, htokens'⟩ :=
    Node.tokens_disabled (h.formed n hn) hd hopening hclosing default default
  exact ⟨_, _, _, _, h.differsAt_changed hn hroot, .disabled hm hd hopening htokens htokens'⟩

theorem faded_closingDropped (h : tree.Sound []) (hn : n ∈ tree.root.descendants)
    (hd : n.declaration? = some d) :
    (tree.closingDropped n.id d).root.faded = (tree.root.update n.id Node.dropClosing).faded := by
  rw [Tree.closingDropped]
  cases hclosing : d.closing with
  | some c =>
    have hdrop : ∀ m : Node, m.dropClosing.faded = m.faded.dropClosing := Node.moved_dropClosing _ _
    exact Node.faded_update_congr hdrop hdrop (faded_closeGap _ _ _)
  | none =>
    have hself : n.dropClosing = n := by
      rw [Node.dropClosing, hd, Option.bind_some, hclosing,
        (h.formed n hn).mapDeclaration_eq_self hd (by cases d; cases hclosing; rfl)]
      exact n.appendTrailing_nil
    rw [Node.update_congr (g := fun m => m) h.nodup hn hself, Node.update_id]

theorem touches_unwrapped (h : tree.Sound []) (hn : n ∈ tree.root.descendants)
    (hd : n.declaration? = some d) (hopening : d.opening ≠ none)
    (hd' : (tree.closingDropped n.id d).declaration n.id = .ok d')
    (hm : m = .setDisabled n.id false) :
    ∃ gone fresh n₀ n', tree.DiffersAt
      (((tree.closingDropped n.id d).openingDropped n.id d').respan n.id) n₀ n' ∧
        Node.Touched tree m (.modified n.id) gone fresh n₀ n' := by
  obtain ⟨opening, hopen⟩ := Option.ne_none_iff_exists'.mp hopening
  have hclosed := h.faded_closingDropped hn hd
  obtain ⟨x, hx, hid, hxd⟩ := mem_of_declaration hd'
  have hxdrop : x.faded = n.dropClosing.faded := by
    have hcut := h.closingDropped n.id d
    have hmem : n.dropClosing.faded ∈ (tree.closingDropped n.id d).root.faded.descendants := by
      rw [hclosed]
      have hself := Node.mem_update_self Node.dropClosing h.nodup hn
      exact Node.mem_moved _ _ hself
    have hnodup : ((tree.closingDropped n.id d).root.faded.descendants.map Node.id).Nodup := by
      rw [Node.ids_faded]
      exact hcut.nodup
    exact List.inj_on_of_nodup_map hnodup (Node.mem_moved _ _ hx) hmem
      (by simp [hid, Node.id_dropClosing])
  obtain ⟨opening', hopen'⟩ : ∃ t, d'.opening = some t := by
    obtain ⟨-, -, -, -, d₁, hd₁, hsome⟩ := (h.formed n hn).dropClosing hd
    have hread := congrArg Node.declaration? hxdrop
    rw [Node.faded, Node.faded, Node.pushed, Node.pushed, Node.declaration?_moved,
      Node.declaration?_moved, hxd, hd₁] at hread
    have hopens := congrArg (·.opening.isSome) (Option.some.inj hread)
    simp only [Declaration.map, Option.isSome_map, hsome, hopen, Option.isSome_some] at hopens
    exact Option.isSome_iff_exists.mp hopens
  have hroot : (((tree.closingDropped n.id d).openingDropped n.id d').respan n.id).root.faded =
      (tree.root.update n.id fun m => m.dropClosing.mapDeclaration (·.dropOpening)).faded := by
    rw [faded_respan, ← Node.update_update (fun m => m.id_dropClosing), Tree.openingDropped, hopen']
    have hdrop : ∀ m : Node, (m.mapDeclaration (·.dropOpening)).faded =
        m.faded.mapDeclaration (·.dropOpening) :=
      Node.moved_mapDeclaration fun d => d.map_dropOpening _ _
    exact Node.faded_update_congr hdrop hdrop ((faded_closeGap _ _ _).trans hclosed)
  obtain ⟨ts, t, htokens, htokens'⟩ := Node.tokens_enabled (h.formed n hn) hd hopen
  exact ⟨_, _, _, _, h.differsAt_changed hn hroot, .enabled hm hd hopen htokens htokens'⟩

theorem touches_replaced {tree₁ : Tree} {fragment : Node} {p : Production} {t : Text}
    (h : tree.Sound []) (hn : n ∈ tree.root.descendants) (hrereads : m.Rereads tree n p t)
    (hreads : tree.reads p t = (fragment, tree₁)) :
    ∃ gone fresh n₀ n', tree.DiffersAt
      (tree₁.replacedWith n.id (fragment.place n.span.start)) n₀ n' ∧
        Node.Touched tree m (.replaced n.id) gone fresh n₀ n' := by
  obtain ⟨-, -, hroot₁, -⟩ := h.reads hreads
  let placed := fragment.place n.span.start
  let put : Node → Node := ({ · with kind := placed.kind, elements := placed.elements })
  let n' : Node := { fragment with id := n.id }
  have hplaced : placed.faded = fragment.faded := by
    obtain ⟨f, hf⟩ := fragment.place_eq_moved n.span.start
    rw [show placed = _ from hf, Node.faded_moved]
  have hput : (put n).faded = n'.faded := by
    have hrename : ∀ k : Node, ({ k with id := n.id } : Node).faded = { k.faded with id := n.id } := by
      rintro ⟨_, _, _, _⟩
      rfl
    have hspan : (put n).faded = ({ placed with id := n.id } : Node).faded := rfl
    rw [hspan, hrename, hrename, hplaced]
  have hroot : (tree₁.replacedWith n.id placed).root.faded = (tree.root.update n.id put).faded := by
    have hresized : ((tree₁.putContent n.id placed).resize n.id placed.span).root.faded =
        (tree.root.update n.id put).faded := by
      rw [faded_resize, ← hroot₁]
      rfl
    unfold Tree.replacedWith
    extract_lets resized
    split
    · rw [faded_respan]
      exact hresized
    · exact hresized
  have hdiffers : tree.DiffersAt (tree₁.replacedWith n.id placed) n n' := by
    refine differsAt_update h.nodup hn ?_
    rw [hroot, Node.update_congr (g := fun _ => put n) h.nodup hn rfl, Node.faded, Node.faded,
      Node.pushed, Node.pushed, Node.moved_update_const, Node.moved_update_const]
    exact congrArg (fun x => Node.update n.id (fun _ => x) _) hput
  have hn' : n' = { (tree.reads p t).1 with id := n.id } := by rw [hreads]
  exact ⟨_, _, _, _, hdiffers, .replaced hrereads hn'⟩

end Tree.Sound

namespace Tree

variable {tree tree' : Tree} {m : Mutation} {c : Change}

/-- An edit that does not move trivia all over the tree touches one node. -/
theorem Edited.touches (h : tree.Sound [])
    (hproper : ∀ x ∈ tree.root.descendants, x.Proper) (hedited : tree.Edited m tree' c) :
    (m.MovesTrivia ∧ tree'.root.skeleton = tree.root.skeleton) ∨
      ∃ gone fresh n n', tree.DiffersAt tree' n n' ∧ Node.Touched tree m c gone fresh n n' := by
  cases hedited with
  | @insertedBefore _ _ _ fragment _ _ _ _ hlist hlisting htarget _ hreads _ =>
    obtain ⟨hread, -, hroot, -⟩ := h.reads hreads
    exact Or.inr (hread.touches_insertedBefore hroot (hroot ▸ hlist) hlisting htarget fragment)
  | @insertedAfter _ _ fragment _ _ _ hlist hlisting _ hreads _ =>
    obtain ⟨hread, -, hroot, -⟩ := h.reads hreads
    exact Or.inr (hread.touches_insertedAfter hroot (hroot ▸ hlist) hlisting fragment)
  | removedBefore hlist hlisting hget hnext =>
    exact Or.inr (h.touches_removeBefore hproper hlist hlisting hget hnext)
  | removedLast hlist hlisting hget hnext =>
    exact Or.inr (h.touches_removeLast hproper hlist hlisting hget hnext)
  | replaced hn hrereads hreads => exact Or.inr (h.touches_replaced hn hrereads hreads)
  | marked hn hd hnone => exact Or.inr (h.touches_marked hn hd hnone)
  | unmarked hn hd hmark => exact Or.inr (h.touches_unmarked hn hd hmark)
  | wrapped hn hd hnone hm =>
    exact Or.inr (h.touches_wrapped hn hd hnone ((hproper _ hn).comment _ hd hnone) hm)
  | unwrapped hn hd hsome hd' hm => exact Or.inr (h.touches_unwrapped hn hd hsome hd' hm)
  | regrouped hf hm =>
    exact Or.inl ⟨hm, (Node.skeleton_respan _).trans (Node.skeleton_mapTokens (hf.kinds _))⟩

/-- Where two trees differ at a node that is touched, the rest of the nodes is spared. -/
theorem Sound.spares {gone fresh : List Node} {n n' : Node} (h : tree.Sound []) (h' : tree'.Sound [])
    (hdiffers : tree.DiffersAt tree' n n') (htouched : Node.Touched tree m c gone fresh n n') :
    tree.Spares gone fresh tree' := by
  obtain ⟨C, hroot, hroot'⟩ := hdiffers
  obtain ⟨around, q, haround⟩ := Frame.census_plug C none
  have hn : n ∈ tree.root.descendants := hroot ▸ Frame.mem_plug C n
  have hcensus' : tree'.root.census none = (plug C n').census none := by
    have hskeleton := congrArg Node.skeleton hroot'
    rw [Node.faded, Node.faded, Node.pushed, Node.pushed, Node.skeleton_moved,
      Node.skeleton_moved] at hskeleton
    exact Node.census_of_skeleton hskeleton none
  obtain ⟨r, hperm⟩ := htouched.census
    (fun x hx => h.formed x (Node.mem_descendants_trans hn hx)) q
  refine h.linked.spares h'.linked (q := r) ?_
  rw [hcensus', hroot]
  calc gone.flatMap (·.census r) ++ (plug C n').census none
    _ |>.Perm (gone.flatMap (·.census r) ++ (around ++ n'.census q)) :=
        (haround n').append_left _
    _ |>.Perm (around ++ (gone.flatMap (·.census r) ++ n'.census q)) :=
        List.perm_append_comm_assoc _ _ _
    _ |>.Perm (around ++ (fresh.flatMap (·.census r) ++ n.census q)) := hperm.append_left _
    _ |>.Perm (fresh.flatMap (·.census r) ++ (around ++ n.census q)) :=
        List.perm_append_comm_assoc _ _ _
    _ |>.Perm (fresh.flatMap (·.census r) ++ (plug C n).census none) :=
        ((haround n).symm).append_left _

/-- An edit spares all nodes but those of the subtrees that are gone or fresh. -/
theorem Edited.spares (h : tree.Sound []) (hproper : ∀ x ∈ tree.root.descendants, x.Proper)
    (hedited : tree.Edited m tree' c) : ∃ gone fresh, tree.Spares gone fresh tree' ∧
      (m.MovesTrivia ∨ ∃ n n', tree.DiffersAt tree' n n' ∧ Node.Touched tree m c gone fresh n n') := by
  have h' := hedited.sound h
  rcases hedited.touches h hproper with ⟨hm, hskeleton⟩ | ⟨gone, fresh, n, n', hdiffers, htouched⟩
  · have hcensus := Node.census_of_skeleton hskeleton none
    exact ⟨[], [], h.linked.spares h'.linked (q := none) (.of_eq hcensus), Or.inl hm⟩
  · exact ⟨gone, fresh, h.spares h' hdiffers htouched, Or.inr ⟨n, n', hdiffers, htouched⟩⟩

end Tree

namespace Session

/-- In every session, an edit that succeeds leaves the rest of the tree alone. Every node outside of
the subtrees that go and come keeps its id, its kind and its parent. Unless the edit moves trivia
all over the tree, all is as it was up to places but for one node, and in that node all is as it
was but for the items that go and come, what leads the item behind them, a separator next to them,
and, where a declaration is disabled or enabled, the delimiters of the comment and the trivia
beside them. -/
theorem apply_spares (p : Production) (config : Config) (t : Text) (calls : List Call)
    (m : Mutation) :
    let s := Session.run ⟨Tree.parse p config t, false⟩ calls
    match s.apply m with
    | (.ok (some c), s', _) => ∃ gone fresh, s.tree.Spares gone fresh s'.tree ∧
        (m.MovesTrivia ∨ ∃ n n', s.tree.DiffersAt s'.tree n n' ∧
          n.Touched s.tree m c gone fresh n')
    | (.ok none, s', _) => s' = s
    | (.error _, s', _) => s'.tree.root = s.tree.root := by
  intro s
  have hparsed := Tree.sound_parse p config t
  have hsound : s.tree.Sound [] := sound_run hparsed calls
  have hproper : ∀ x ∈ s.tree.root.descendants, x.Proper :=
    proper_run hparsed (fun x hx => (orderly_parse p config t x hx).1) calls
  rw [apply]
  by_cases hforce : m.InForce s.tree
  · rw [Mutation.steps_inForce hforce]
    rfl
  · have hmakes := Mutation.steps_makes hsound hforce
    unfold Edit.Makes Edit.Leads at hmakes
    generalize m.steps.run.run ⟨s.tree, []⟩ = r at hmakes ⊢
    obtain ⟨e | ⟨⟩, d⟩ := r
    · exact hmakes.root
    · obtain ⟨c, hreported, hedited⟩ := hmakes
      dsimp only
      rw [hreported]
      exact hedited.spares hsound hproper

/-- Where a declaration is enabled, all nodes stay as they are, but the delimiters of the comment
and the blanks inside it are gone. -/
theorem enabling_drops_comment :
    let s : Session := ⟨Tree.parse .styleSheet { comments := true } "a{/* b:c */}".toList, false⟩
    let s' := (s.apply (.setDisabled 5 false)).2.1
    let written (tree : Tree) := tree.root.tokens.map fun t => (t.leadingText, t.text)
    (s.apply (.setDisabled 5 false)).1.toOption.isSome = true ∧
      s'.tree.root.census none = s.tree.root.census none ∧
      written s.tree = [([], ['a']), ([], ['{']), ([], ['/', '*']), ([' '], ['b']), ([], [':']),
        ([], ['c']), ([' '], ['*', '/']), ([], ['}']), ([], [])] ∧
      written s'.tree = [([], ['a']), ([], ['{']), ([], ['b']), ([], [':']), ([], ['c']),
        ([], ['}']), ([], [])] := by
  decide +kernel

end Session

end CssTree
