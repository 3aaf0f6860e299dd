import CssTree.Proofs.Block
import CssTree.Proofs.Edit.Growth
import CssTree.Proofs.Parse

namespace CssTree

open CssTree.Frame

/-- An edit takes the comment from around a declaration with nothing at its end, and another one
opens a comment right there. -/
structure Mutation.Collides (m m' : Mutation) (n n' : Node) (d d' : Declaration) : Prop where
  enables : m = .setDisabled n.id false
  disables : m' = .setDisabled n'.id true
  disabled : d.isDisabled = true
  enabled : d'.isDisabled = false
  semicolon : d.semicolon = none
  empty : (d.important.getD d.value).tailed = false
  touching : n.span.stop = d'.name.span.start

/-- The front of a block ends in a token if the last node in it does. -/
theorem Element.tailed_front (o : Token) {ns : List Node} (h : ∀ c ∈ ns.getLast?, c.tailed = true) :
    tailed (.token o :: ns.map .node) = true := by
  rcases List.eq_nil_or_concat ns with rfl | ⟨ms, c, rfl⟩
  · rfl
  · rw [List.concat_eq_append] at h ⊢
    rw [List.map_append, ← List.cons_append, tailed_append (by simp), List.map_singleton,
      tailed_node, h c (by simp)]
    rfl

namespace Tree

section Beside

variable {tree tree' : Tree} {C : List Frame} {n n' : Node} {d d' : Declaration}
  {made : Except EditError (Option Change) × Node} {answer : Except EditError (Option Change)}

/-- All but the declaration is as before. -/
theorem Site.root_faded (h : tree.Site n d) (hroot : tree.root = plug C n)
    (hmade : Remade n made answer tree tree') :
    tree'.root.faded = plug (C.map Frame.faded) made.2 := by
  have hapart : Frame.Apart (C.map Frame.faded) n.faded := by
    refine apart_of_nodup ?_
    rw [← faded_plug, ← hroot, Node.ids_faded]
    exact h.sound.nodup
  rw [hmade.exchanged.root, hroot, faded_plug, ← n.id_faded, update_plug hapart]

theorem Site.length_render (h : tree.Site n d) (hmade : Remade n made answer tree tree') {k : Nat}
    (hgrows : n.faded.Grows k made.2) : tree'.render.length ≤ tree.render.length + k := by
  obtain ⟨C, hroot⟩ := Node.exists_plug h.mem
  have hsplit := length_render_plug (C.map Frame.faded) n.faded made.2
  rw [← h.root_faded hroot hmade, ← faded_plug, ← hroot] at hsplit
  have hfaded : ∀ x : Node, x.faded.render = x.render := fun x => x.render_moved _ _
  have hlength := hgrows.length
  rw [hfaded] at hsplit hlength
  rw [hfaded, hfaded] at hsplit
  rw [Tree.render, Tree.render]
  omega

/-- What a declaration becomes does not hold one beside it. -/
theorem Site.id_not_mem (h : tree.Site n d) (hn' : n' ∈ tree.root.descendants)
    (hne : n' ∉ n.descendants) (hne' : n ∉ n'.descendants)
    (hmade : Remade n made answer tree tree') (hsound : tree'.Sound []) :
    n'.id ∉ made.2.descendants.map Node.id := by
  obtain ⟨C, hroot⟩ := Node.exists_plug h.mem
  have hapart : Frame.Apart (C.map Frame.faded) made.2 := by
    refine apart_of_nodup ?_
    rw [← h.root_faded hroot hmade, Node.ids_faded]
    exact hsound.nodup
  obtain ⟨F, hF, hid⟩ := id_mem_beside (hroot ▸ h.sound.nodup) (hroot ▸ hn') hne' hne
  have hbeside : F.faded.beside.map Node.id = F.beside.map Node.id := by
    simp [beside, Frame.faded, pushed, Element.mapSpansAll]
  obtain ⟨x, hx, hid⟩ := List.mem_map.mp (hbeside ▸ hid)
  exact hid ▸ hapart.beside F.faded (List.mem_map_of_mem hF) x hx

/-- A declaration beside one that is changed stands there as before. -/
theorem Site.beside (h : tree.Site n d) (h' : tree.Site n' d') (hne : n' ∉ n.descendants)
    (hne' : n ∉ n'.descendants) (hroot : tree.root = plug C n')
    (hmade : Remade n made answer tree tree') (hsound : tree'.Sound []) :
    ∃ (E : List Frame) (x : Node) (e : Declaration), tree'.root = plug E x ∧
      E.map Frame.faded = (C.map Frame.faded).map (updated n.id fun _ => made.2) ∧
        x.faded = n'.faded ∧ e.faded = d'.faded ∧ tree'.Site x e := by
  have hnodup := h.sound.nodup
  have haround : ∀ G ∈ C.map Frame.faded, G.id ≠ n.id := by
    intro G hG
    obtain ⟨F, hF, rfl⟩ := List.mem_map.mp hG
    exact id_ne_of_not_mem (hroot ▸ hnodup) (hroot ▸ h.mem) hne F hF
  have hbelow : n.id ∉ n'.faded.descendants.map Node.id := by
    rw [Node.ids_faded]
    intro hid
    obtain ⟨k, hk, hid⟩ := List.mem_map.mp hid
    obtain rfl := List.inj_on_of_nodup_map hnodup (Node.mem_descendants_trans h'.mem hk) h.mem hid
    exact hne' hk
  have hroot' := hmade.exchanged.root
  rw [hroot, faded_plug, update_plug_beside haround hbelow] at hroot'
  obtain ⟨E, x, hE, hEC, hx⟩ := exists_plug_of_faded hroot'
  have hdeclaration : x.declaration?.map Declaration.faded = some d'.faded := by
    rw [← Node.declaration?_faded h'.declaration, ← hx]
    exact (Node.declaration?_moved _ _ x).symm
  obtain ⟨e, he, hed⟩ := Option.map_eq_some_iff.mp hdeclaration
  refine ⟨E, x, e, hE, hEC, hx, hed, hsound, hmade.exchanged.strung, hE ▸ mem_plug E x, he, ?_, ?_⟩
  · rw [← x.filled_faded, hx, n'.filled_faded]
    exact h'.filled
  · have hsame : ∀ f : Declaration → Option Token, e.faded = d'.faded →
        (f e.faded).isSome = (f d'.faded).isSome := fun f h => by rw [h]
    have hclosing := hsame (·.closing) hed
    have hopening := hsame (·.opening) hed
    simp only [Declaration.faded, Declaration.map, Option.isSome_map] at hclosing hopening
    rw [hclosing, hopening, h'.comment]

end Beside

variable {config : Config} {t : Text} {n n' : Node} {d d' : Declaration} {m m' : Mutation}

/-- The first edit. -/
theorem remade_parse (hn : n ∈ (Tree.parse .styleSheet config t).root.descendants)
    (hd : n.declaration? = some d) (hm : m.target? = some n.id)
    (hroom : t.length + m.growth ≤ Position.limit) :
    let s : Session := ⟨Tree.parse .styleSheet config t, false⟩
    Remade n (m.remade s.tree.config s.tree.arena n.faded d.faded) (s.apply m).1 s.tree
      (s.apply m).2.1.tree := by
  intro s
  obtain ⟨C, hroot⟩ := Node.exists_plug hn
  have hsite : s.tree.Site n d := site_parse hn hd
  obtain ⟨-, C', F, o, ns, rfl, hfront, hsettled, hfilled⟩ := block_parse hroot hd
  have hrender : s.tree.render = t := (complete_parse_styleSheet config t).2
  have htailed : Element.tailed F.front = true := by
    rw [hfront]
    exact Element.tailed_front o fun c hc => (hsettled c (List.mem_of_getLast? hc)).tailed
  refine hsite.remade hroot hm (hrender ▸ hroom) fun _ hopening => ?_
  exact hsite.clear hroot hopening fun _ => ahead (hroot ▸ hsite.strung) hfilled htailed

/-- A node stops where the node behind it starts. -/
theorem stop_eq_start {C : List Frame} {F : Frame} {es : List Element} {p : Position}
    (h : (plug (C ++ [F]) n').Strung p) (hfront : F.front = es ++ [.node n]) :
    n.span.stop = n'.span.start := by
  rw [plug_append] at h
  have hes := (strung_plug.mp h).2.elements
  change Element.StrungAll _ (F.front ++ .node n' :: F.back) at hes
  rw [hfront, Element.strungAll_append, Element.strungAll_append, Element.strungAll_node,
    Element.strungAll_node] at hes
  obtain ⟨⟨-, hn, -⟩, hn', -⟩ := hes
  rw [hn.span, hn'.span, Element.tokensOf_append, Token.after_append, Element.tokensOf_node,
    Element.tokensOf_nil, List.append_nil]

/-- In a block, what is left in front of a declaration when one beside it is edited ends in a token,
unless the two edits collide. -/
theorem tailed_front_parse (hn : n ∈ (Tree.parse .styleSheet config t).root.descendants)
    (hd : n.declaration? = some d) {C : List Frame} {F : Frame} {o : Token} {ns : List Node}
    (hroot : (Tree.parse .styleSheet config t).root = plug (C ++ [F]) n')
    (hfront : F.front = .token o :: ns.map .node) (hsettled : ∀ c ∈ ns, c.Settled) {y : Node}
    (hy : n.needsSemicolon = false → n.span.stop = n'.span.start → y.tailed = true) :
    Element.tailed (Element.updateAll n.id (fun _ => y) F.faded.front) = true := by
  let change : Node → Node := fun c => c.faded.update n.id fun _ => y
  have hchanged : Element.updateAll n.id (fun _ => y) F.faded.front =
      .token o.faded :: (ns.map change).map .node := by
    show Element.updateAll n.id _ (Element.mapSpansAll _ F.front) = _
    rw [hfront, Element.mapSpansAll_token, Element.updateAll]
    refine congrArg _ ?_
    clear hfront hsettled
    induction ns with
    | nil => rfl
    | cons c ns ih => exact congrArg _ ih
  rw [hchanged]
  refine Element.tailed_front _ fun x hx => ?_
  rw [List.getLast?_map] at hx
  obtain ⟨c, hlast, rfl⟩ := Option.map_eq_some_iff.mp hx
  obtain ⟨htailed, hclosed, hplain⟩ := hsettled c (List.mem_of_getLast? hlast)
  have hnodup := (sound_parse .styleSheet config t).nodup
  obtain ⟨ms, rfl⟩ := List.getLast?_eq_some_iff.mp hlast
  have hmem : c ∈ (Tree.parse .styleSheet config t).root.descendants := by
    rw [hroot]
    refine mem_plug_beside (List.mem_append_right _ (List.mem_singleton_self F)) ?_
    refine List.mem_append_left _ ?_
    rw [hfront, Element.descendantsOf_token, Element.descendantsOf_eq]
    exact List.mem_flatMap.mpr ⟨c, by simp [Element.nodes, Element.node?], c.mem_descendants_self⟩
  by_cases hid : c.id = n.id
  · obtain rfl : c = n := List.inj_on_of_nodup_map hnodup hmem hn hid
    have hchange : change c = y := Node.update_self c.id_faded
    rw [hchange]
    have hcut : F.front = (.token o :: ms.map .node) ++ [.node c] := by
      rw [hfront, List.map_append]
      rfl
    exact hy hclosed (stop_eq_start (hroot ▸ strung_parse .styleSheet config t) hcut)
  · have hchange : change c = c.faded := by
      refine Node.update_of_not_mem _ ?_
      rw [Node.ids_faded]
      intro hmem'
      obtain ⟨x, hxc, hxid⟩ := List.mem_map.mp hmem'
      obtain rfl : x = n :=
        List.inj_on_of_nodup_map hnodup (Node.mem_descendants_trans hmem hxc) hn hxid
      have hkind : x.kind = .declaration :=
        ((sound_parse .styleSheet config t).formed x hn).of_declaration? hd |>.1
      exact hid (congrArg Node.id (hplain x hxc hkind)).symm
    rw [hchange, Node.tailed_faded]
    exact htailed

/-- The second edit, of a declaration beside the one that was edited first. -/
theorem remade_after (hn : n ∈ (Tree.parse .styleSheet config t).root.descendants)
    (hd : n.declaration? = some d) (hn' : n' ∈ (Tree.parse .styleSheet config t).root.descendants)
    (hd' : n'.declaration? = some d') (hne : n ≠ n') (hm : m.target? = some n.id)
    (hm' : m'.target? = some n'.id) (hcollides : ¬m.Collides m' n n' d d')
    (hroom : t.length + (m.growth + m'.growth) ≤ Position.limit) :
    let s : Session := ⟨Tree.parse .styleSheet config t, false⟩
    let s₁ := (s.apply m).2.1
    ∃ x, x.id = n'.id ∧ Remade x (m'.remade s.tree.config s₁.tree.arena n'.faded d'.faded)
      (s₁.apply m').1 s₁.tree (s₁.apply m').2.1.tree := by
  intro s s₁
  let made := m.remade s.tree.config s.tree.arena n.faded d.faded
  have hsite : s.tree.Site n d := site_parse hn hd
  have hsite' : s.tree.Site n' d' := site_parse hn' hd'
  have hbelow : n' ∉ n.descendants := not_below_parse hn hd hn' hd' hne
  have hbelow' : n ∉ n'.descendants := not_below_parse hn' hd' hn hd hne.symm
  have hmade : Remade n made (s.apply m).1 s.tree s₁.tree := remade_parse hn hd hm (by omega)
  have hsound : s₁.tree.Sound [] := Session.sound_apply hsite.sound m
  have hformed : n.faded.Formed := (hsite.sound.formed n hn).pushed _
  have hcomment : d.faded.closing.isSome = d.faded.opening.isSome := by
    simpa [Declaration.faded, Declaration.map] using hsite.comment
  have hgrows : n.faded.Grows m.growth made.2 :=
    Mutation.remade_grows hsite.sound.fresh hformed (Node.declaration?_faded hd) hcomment
  have hrender : s.tree.render = t := (complete_parse_styleSheet config t).2
  have hlength := hsite.length_render hmade hgrows
  rw [hrender] at hlength
  obtain ⟨C, hroot⟩ := Node.exists_plug hn'
  obtain ⟨-, C', F, o, ns, rfl, hfront, hsettled, hfilled⟩ := block_parse hroot hd'
  obtain ⟨E, x, e, hE, hEC, hx, he, hxsite⟩ := hsite.beside hsite' hbelow hbelow' hroot hmade hsound
  have hid : x.id = n'.id := by rw [← x.id_faded, hx, n'.id_faded]
  refine ⟨x, hid, ?_⟩
  have hclear : m' = .setDisabled x.id true → e.opening = none → ∀ F ∈ E,
      ∀ r ∈ Element.spansOf F.front, r.start < e.name.span.start := by
    intro hdisables hopening
    rw [List.map_append, List.map_append] at hEC
    obtain ⟨E', es, rfl, -, hlast⟩ := List.map_eq_append_iff.mp hEC
    obtain ⟨G, rfl, hG⟩ := List.map_eq_singleton_iff.mp hlast
    have hfrontG : Element.mapSpansAll (fun _ => default) G.front =
        Element.updateAll n.id (fun _ => made.2) F.faded.front := congrArg Frame.front hG
    refine hxsite.clear hE hopening fun hleading => ahead (hE ▸ hxsite.strung) ?_ ?_
    · rw [← Element.filled_faded, hfrontG]
      exact Element.filled_updateAll (hgrows.filled (n.filled_faded.mpr hsite.filled)) _
        ((Element.filled_faded _).mpr hfilled)
    · rw [← Element.tailed_faded, hfrontG]
      refine tailed_front_parse hn hd hroot hfront hsettled fun hclosed hstop => ?_
      refine Mutation.remade_tailed hformed (Node.declaration?_faded hd) hcomment ?_ ?_
      · rw [d.needsSemicolon_faded]
        rwa [Node.needsSemicolon, hd] at hclosed
      · rintro ⟨id, rfl⟩ hdisabled hsemicolon
        obtain rfl : id = n.id := Option.some.inj hm
        rw [d.tailed_faded]
        by_contra hempty
        have hopening' : d'.opening = none := by
          rw [← d'.opening_faded, ← he, e.opening_faded]
          exact hopening
        have hstart := (hsite'.name_start hopening').2.2
        rw [show d'.name.leading = [] by rw [← d'.leading_faded, ← he, e.leading_faded]; exact hleading,
          Lexeme.after_nil, ← hstop] at hstart
        exact hcollides ⟨rfl, by rw [hdisables, hid], by simpa using hdisabled,
          by simp [Declaration.isDisabled, hopening'], d.semicolon_faded.mp hsemicolon,
          Bool.eq_false_iff.mpr hempty, hstart.symm⟩
  have hremade := hxsite.remade (m := m') hE (by rw [hid, hm']) (by omega) hclear
  rw [hx, he, hmade.config] at hremade
  exact hremade

end Tree

theorem NodeId.kept_min {i k : Nat} (h : i < k) : NodeId.Kept (min · k) i := by
  have hmin : ∀ j : Nat, min j k = i ↔ j = i := by omega
  exact hmin

theorem Tree.Sound.id_lt {tree : Tree} {n : Node} (h : tree.Sound [])
    (hn : n ∈ tree.root.descendants) : n.id < tree.arena.next := by
  have hid : n.id ∈ (tree.root.entries none).map Prod.fst := by
    rw [Node.ids_entries]
    exact List.mem_map_of_mem hn
  obtain ⟨e, he, hid⟩ := List.mem_map.mp hid
  exact hid ▸ (h.grown.fresh e (List.mem_append_left _ he)).2

namespace Session

variable {config : Config} {t : Text} {n n' : Node} {d d' : Declaration} {m m' : Mutation}

/-- The tree after both edits, but for places and the ids of new nodes. -/
theorem root_after (hn : n ∈ (Tree.parse .styleSheet config t).root.descendants)
    (hd : n.declaration? = some d) (hn' : n' ∈ (Tree.parse .styleSheet config t).root.descendants)
    (hd' : n'.declaration? = some d') (hne : n ≠ n') (hm : m.target? = some n.id)
    (hm' : m'.target? = some n'.id) (hcollides : ¬m.Collides m' n n' d d')
    (hroom : t.length + (m.growth + m'.growth) ≤ Position.limit) :
    let s : Session := ⟨Tree.parse .styleSheet config t, false⟩
    let s₁ := (s.apply m).2.1
    let ρ : NodeId → NodeId := (min · s.tree.arena.next)
    let y := (m.remade config s.tree.arena n.faded d.faded).2.mapIds ρ
    let y' := (m'.remade config s.tree.arena n'.faded d'.faded).2.mapIds ρ
    (s₁.apply m').1 = (s.apply m').1 ∧ n'.id ∉ y.descendants.map Node.id ∧
      (s₁.apply m').2.1.tree.root.Strung .origin ∧
        (s₁.apply m').2.1.tree.root.faded.mapIds ρ =
          ((s.tree.root.faded.mapIds ρ).update n.id fun _ => y).update n'.id fun _ => y' := by
  intro s s₁ ρ y y'
  have hsound : s.tree.Sound [] := Tree.sound_parse .styleSheet config t
  have hsound₁ : s₁.tree.Sound [] := sound_apply hsound m
  have hmade := Tree.remade_parse hn hd hm (by omega)
  obtain ⟨x, hid, hmade'⟩ := Tree.remade_after hn hd hn' hd' hne hm hm' hcollides hroom
  have hmade₀ := Tree.remade_parse hn' hd' hm' (by omega)
  obtain ⟨hanswer, hsame⟩ := m'.remade_congr s.tree.config hsound₁.fresh hsound.fresh hmade.next
    (Nat.le_refl _) n'.faded d'.faded
  have hkept : ∀ k ∈ s.tree.root.descendants, NodeId.Kept ρ k.id := fun k hk =>
    NodeId.kept_min (hsound.id_lt hk)
  refine ⟨hmade'.answer.trans (hanswer.trans hmade₀.answer.symm), ?_, hmade'.exchanged.strung, ?_⟩
  · have hmem := (Tree.site_parse hn hd).id_not_mem hn' (Tree.not_below_parse hn hd hn' hd' hne)
      (Tree.not_below_parse hn' hd' hn hd hne.symm) hmade hsound₁
    rw [Node.ids_mapIds]
    intro hin
    obtain ⟨i, hi, hρ⟩ := List.mem_map.mp hin
    exact hmem ((hkept n' hn' i).mp hρ ▸ hi)
  · rw [hmade'.exchanged.root, hid, Node.mapIds_update (hkept n' hn'), hmade.exchanged.root,
      Node.mapIds_update (hkept n hn), hsame]
    rfl

/-- Edits of two declarations of a style sheet do the same in either order, unless one takes the
comment from around a declaration with nothing at its end and the other one opens a comment right
there: the answers are the same, the text, and the tree with all its places, but for the ids of
nodes that were read anew. -/
theorem edits_commute (hn : n ∈ (Tree.parse .styleSheet config t).root.descendants)
    (hd : n.declaration? = some d) (hn' : n' ∈ (Tree.parse .styleSheet config t).root.descendants)
    (hd' : n'.declaration? = some d') (hne : n ≠ n') (hm : m.target? = some n.id)
    (hm' : m'.target? = some n'.id) (hcollides : ¬m.Collides m' n n' d d')
    (hcollides' : ¬m'.Collides m n' n d' d)
    (hroom : t.length + (m.growth + m'.growth) ≤ Position.limit) :
    let s : Session := ⟨Tree.parse .styleSheet config t, false⟩
    let s₁ := (s.apply m).2.1
    let s₂ := (s.apply m').2.1
    let tree₁ := (s₁.apply m').2.1.tree
    let tree₂ := (s₂.apply m).2.1.tree
    let fresh := s.tree.arena.next
    (s₁.apply m').1 = (s.apply m').1 ∧ (s₂.apply m).1 = (s.apply m).1 ∧
      tree₁.render = tree₂.render ∧
        tree₁.root.mapIds (min · fresh) = tree₂.root.mapIds (min · fresh) ∧
          (tree₁.root.descendants.map Node.id).Nodup ∧
            (tree₂.root.descendants.map Node.id).Nodup := by
  intro s s₁ s₂ tree₁ tree₂ fresh
  have hsound : s.tree.Sound [] := Tree.sound_parse .styleSheet config t
  obtain ⟨hanswer', hy, hstrung, hroot⟩ := root_after hn hd hn' hd' hne hm hm' hcollides hroom
  obtain ⟨hanswer, hy', hstrung', hroot'⟩ :=
    root_after hn' hd' hn hd hne.symm hm' hm hcollides' (by omega)
  have hid : n.id ≠ n'.id := fun hid => hne (List.inj_on_of_nodup_map hsound.nodup hn hn' hid)
  have hroots : tree₁.root.mapIds (min · fresh) = tree₂.root.mapIds (min · fresh) := by
    refine (hstrung.mapIds _).eq (hstrung'.mapIds _) ?_
    rw [Node.faded_mapIds, Node.faded_mapIds, hroot, hroot', Node.update_comm hid hy hy']
  have hrender : tree₁.render = tree₂.render := by
    have htokens := congrArg Node.tokens hroots
    rw [Node.tokens_mapIds, Node.tokens_mapIds] at htokens
    rw [Tree.render, Tree.render, Node.render, Node.render, htokens]
  exact ⟨hanswer', hanswer, hrender, hroots,
    (sound_apply (sound_apply hsound m) m').nodup, (sound_apply (sound_apply hsound m') m).nodup⟩

/-- A value with a line break in it, and a mark on the line that it moves. -/
theorem edits_commute_lines :
    let s : Session := ⟨Tree.parse .styleSheet {} "a{b:c;d:e}".toList, false⟩
    let m : Mutation := .setValue 5 "x\ny".toList
    let m' : Mutation := .setImportant 8 true
    let tree₁ := ((s.apply m).2.1.apply m').2.1.tree
    let tree₂ := ((s.apply m').2.1.apply m).2.1.tree
    tree₁.render = "a\x7bb:x\ny;d:e !important\x7d".toList ∧ tree₁.render = tree₂.render ∧
      tree₁.root.mapIds (min · s.tree.arena.next) =
        tree₂.root.mapIds (min · s.tree.arena.next) := by
  intro s m m' tree₁ tree₂
  have hdeclaration : ∀ id : NodeId, (s.tree.find? id).any (·.declaration?.isSome) = true →
      ∃ n d, n ∈ s.tree.root.descendants ∧ n.id = id ∧ n.declaration? = some d := by
    intro id hall
    obtain ⟨n, hfind, hsome⟩ := (Option.any_eq_true _ _).mp hall
    obtain ⟨d, hd⟩ := Option.isSome_iff_exists.mp hsome
    obtain ⟨hmem, hid⟩ := Tree.mem_of_get (show s.tree.get id = .ok n by rw [Tree.get, hfind])
    exact ⟨n, d, hmem, hid, hd⟩
  obtain ⟨n, d, hn, hid, hd⟩ := hdeclaration 5 (by decide +kernel)
  obtain ⟨n', d', hn', hid', hd'⟩ := hdeclaration 8 (by decide +kernel)
  have hne : n ≠ n' := by
    rintro rfl
    exact absurd (hid.symm.trans hid') (by decide)
  have hcollides : ¬m.Collides m' n n' d d' := fun h => by simpa [m] using h.enables
  have hcollides' : ¬m'.Collides m n' n d' d := fun h => by simpa [m'] using h.enables
  have hm : m.target? = some n.id := congrArg some hid.symm
  have hm' : m'.target? = some n'.id := congrArg some hid'.symm
  obtain ⟨-, -, hrender, hroots, -, -⟩ :=
    edits_commute hn hd hn' hd' hne hm hm' hcollides hcollides' (by decide +kernel)
  exact ⟨by decide +kernel, hrender, hroots⟩

/-- The value of the first declaration is empty, and has the place where the comment around the
second one opens: the comment pushes it away if it is there already. -/
theorem edits_collide :
    let s : Session :=
      ⟨Tree.parse .styleSheet { comments := true } "p{/* a:*/c:d}".toList, false⟩
    let m : Mutation := .setDisabled 4 false
    let m' : Mutation := .setDisabled 7 true
    let tree₁ := ((s.apply m).2.1.apply m').2.1.tree
    let tree₂ := ((s.apply m').2.1.apply m).2.1.tree
    let stops (tree : Tree) := (tree.declaration 4).toOption.map (·.value.span.stop)
    tree₁.render = tree₂.render ∧ stops tree₁ = some ⟨0, 7⟩ ∧ stops tree₂ = some ⟨0, 4⟩ := by
  decide +kernel

end Session

end CssTree
