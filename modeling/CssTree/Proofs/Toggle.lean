import CssTree.Proofs.Edit.Lasting
import CssTree.Proofs.Shape
import CssTree.Proofs.Tree.Declared

namespace CssTree

@[simp] theorem Token.mapSpans_id (t : Token) : t.mapSpans (fun r => r) = t :=
  Token.mapSpans_eq_self fun _ _ => rfl

@[simp] theorem Lexeme.map_moved_id (ls : List Lexeme) : ls.map (·.moved fun r => r) = ls :=
  List.map_id' ls

namespace Node

variable {n : Node} {d : Declaration}

theorem pushed_opened (f : Span → Span) (opening : Token) (gap : List Lexeme) (n : Node) :
    (n.mapDeclaration (·.opened opening gap)).pushed f = (n.pushed f).mapDeclaration
      (·.opened (opening.mapSpans f) (gap.map (·.moved f))) :=
  moved_mapDeclaration (fun d => d.map_opened _ f opening gap) n

theorem unspanned_openComment (p : Position) (n : Node) :
    (n.mapDeclaration (·.openComment p)).unspanned =
      n.unspanned.mapDeclaration (·.openComment p) := by
  simp only [Declaration.openComment_eq, unspanned, pushed_opened, Token.mapSpans_id,
    Lexeme.map_moved_id]

@[simp] theorem id_closeComment (p : Position) (n : Node) : (n.closeComment p).id = n.id := by
  rw [closeComment_eq, closedBy, id_mapDeclaration, ← skeleton_id, skeleton_cutTrailing, skeleton_id]

theorem unspanned_closeComment (p : Position) (n : Node) :
    (n.closeComment p).unspanned = n.unspanned.closeComment p := by
  rw [closeComment_eq, closeComment_eq, unspanned, pushed, moved_closedBy, Token.mapSpans_id]
  rfl

theorem moved_appendTrailing (onNode : NodeId → Span → Span) (onToken : Span → Span)
    (trivia : List Lexeme) (n : Node) : (n.appendTrailing trivia).moved onNode onToken =
      (n.moved onNode onToken).appendTrailing (trivia.map (·.moved onToken)) := by
  let append (trivia : List Lexeme) (t : Token) : Token := { t with trailing := t.trailing ++ trivia }
  have happend : ∀ t : Token, (append trivia t).mapSpans onToken =
      append (trivia.map (·.moved onToken)) (t.mapSpans onToken) := by
    intro t
    simp [append, Token.mapSpans, Lexeme.moved]
  exact moved_mapTokens _ _ (mapLast_map happend _)

theorem moved_dropClosing (onNode : NodeId → Span → Span) (onToken : Span → Span) (n : Node) :
    n.dropClosing.moved onNode onToken = (n.moved onNode onToken).dropClosing := by
  have hdrop : (n.mapDeclaration ({ · with closing := none })).moved onNode onToken =
      (n.moved onNode onToken).mapDeclaration ({ · with closing := none }) :=
    moved_mapDeclaration (F := ({ · with closing := none })) (fun _ => rfl) n
  have htrailing : (((n.moved onNode onToken).declaration?.bind (·.closing)).map (·.trailing)).getD [] =
      (((n.declaration?.bind (·.closing)).map (·.trailing)).getD []).map (·.moved onToken) := by
    rw [declaration?_moved]
    cases n.declaration? with
    | none => rfl
    | some d =>
      obtain ⟨opening, name, colon, value, important, semicolon, closing⟩ := d
      cases closing <;> simp [Declaration.map]
  rw [dropClosing, dropClosing, htrailing, ← hdrop, moved_appendTrailing]

theorem unspanned_dropClosing (n : Node) : n.dropClosing.unspanned = n.unspanned.dropClosing :=
  moved_dropClosing _ _ n

theorem unspanned_dropOpening (n : Node) :
    (n.mapDeclaration (·.dropOpening)).unspanned = n.unspanned.mapDeclaration (·.dropOpening) :=
  moved_mapDeclaration (fun d => d.map_dropOpening _ _) n

end Node

namespace Node

variable {n : Node} {d : Declaration}

theorem Formed.pushed (h : n.Formed) (f : Span → Span) : (n.pushed f).Formed :=
  h.of_skeleton (n.skeleton_moved _ _)

theorem declaration?_pushed (hd : n.declaration? = some d) (f : Span → Span) :
    (n.pushed f).declaration? = some (d.map (·.pushed f) (·.mapSpans f)) := by
  rw [Node.pushed, declaration?_moved, hd]
  rfl

theorem render_pushed (f : Span → Span) (n : Node) : (n.pushed f).render = n.render :=
  n.render_moved _ _

theorem leadingText_pushed (f : Span → Span) (n : Node) :
    (n.pushed f).leadingText = n.leadingText := by
  rw [leadingText, leadingText, tokens_pushed, List.head?_map]
  cases n.tokens.head? with
  | none => rfl
  | some t => simp [Token.leadingText, Token.mapSpans, Lexeme.render, List.flatMap_map]

theorem trailingText_pushed (f : Span → Span) (n : Node) :
    (n.pushed f).trailingText = n.trailingText := by
  rw [trailingText, trailingText, tokens_pushed, List.getLast?_map]
  cases n.tokens.getLast? with
  | none => rfl
  | some t => simp [Token.trailingText, Token.mapSpans, Lexeme.render, List.flatMap_map]

/-- The text of a declaration with a comment around it. -/
theorem render_commented (h : n.Formed) (hd : n.declaration? = some d) (hopening : d.opening = none)
    (hclosing : d.closing = none) (f g : Span → Span) (p q : Position) :
    ∃ core, n.render = n.leadingText ++ core ++ n.trailingText ∧
      ((((n.pushed f).mapDeclaration (·.openComment p)).pushed g).closeComment q).render =
        n.leadingText ++ ("/* ".toList ++ core ++ " */".toList) ++ n.trailingText := by
  obtain ⟨core, hcore⟩ := n.exists_core
  refine ⟨core, hcore, ?_⟩
  let opening : Token := .place .openComment ['/', '*'] p
  let gap := blankTrivia [' '] (p.advance ['/', '*'])
  let m := n.pushed f
  have hm : m.declaration? = some (d.map (·.pushed f) (·.mapSpans f)) := declaration?_pushed hd f
  obtain ⟨-, hformed, hopened⟩ := (h.pushed f).opened hm (show opening.kind = .openComment from rfl) gap
  obtain ⟨rest, hrest, hrender, htrailing⟩ := render_opened (h.pushed f) hm
    (by simp [Declaration.map, hopening]) opening gap
  rw [leadingText_pushed] at hrest hrender
  rw [trailingText_pushed] at htrailing
  rw [render_pushed, hcore, List.append_assoc] at hrest
  obtain rfl : core ++ n.trailingText = rest := List.append_cancel_left hrest
  let x := (m.mapDeclaration (·.opened opening gap)).pushed g
  have hx : x.render = n.leadingText ++ "/* ".toList ++ core ++ n.trailingText := by
    have hstart : opening.text ++ Lexeme.render opening.trailing ++ Lexeme.render gap =
        "/* ".toList := rfl
    rw [render_pushed, hrender, hstart]
    simp only [List.append_assoc]
  have htrail : x.trailingText = n.trailingText := by rw [trailingText_pushed, htrailing]
  have hcut := x.render_eq_cutTrailing
  rw [hx, htrail] at hcut
  have hclosed := render_closedBy (hformed.pushed g) (declaration?_pushed hopened g)
    (by simp [Declaration.map, Declaration.opened, hclosing])
    (show (Token.commentEnd q).kind = .closeComment from rfl)
  have hend : Lexeme.render (Token.commentEnd q).leading ++ (Token.commentEnd q).text =
      " */".toList := rfl
  rw [hend] at hclosed
  rw [closeComment_eq]
  refine hclosed.trans ?_
  rw [show (Node.pushed g _).trailingText = _ from htrail]
  rw [← List.append_cancel_right hcut]
  simp only [List.append_assoc]

end Node

namespace Tree.Shows

variable {root n x : Node} {f : Span → Span} {tree : Tree} {d d' : Declaration}

/-- The declaration that is there now. -/
theorem declaration (h : Shows root f n x tree) (hnodup : (root.descendants.map Node.id).Nodup)
    (hn : n ∈ root.descendants) (hid : x.id = n.id) (hd : x.declaration? = some d) :
    ∃ d', tree.declaration n.id = .ok d' ∧ d'.map Node.unspanned (fun t => t) = d := by
  obtain ⟨m, hfind, rfl⟩ := h.find? hnodup hn hid
  rw [Node.unspanned, Node.pushed, Node.declaration?_moved] at hd
  obtain ⟨d', hd', rfl⟩ := Option.map_eq_some_iff.mp hd
  refine ⟨d', declaration_of_find? hfind hd', ?_⟩
  simp only [Token.mapSpans_id]
  rfl

/-- The end of a comment goes as it came. -/
theorem closingDropped {stop : Position} {trailing : List Lexeme}
    (h : Shows root (fun r => (Span.ofText stop [' ', '*', '/']).insert (f r)) n
      ((x.pushed (Span.ofText stop [' ', '*', '/']).insert).closeComment stop) tree)
    (hnodup : (root.descendants.map Node.id).Nodup) (hn : n ∈ root.descendants)
    (hid : x.id = n.id) (hx : x.Formed) (hd : x.declaration? = some d) (hnone : d.closing = none)
    (hclosing : d'.closing = some { Token.commentEnd stop with trailing }) :
    Shows root f n x.unspanned (tree.closingDropped n.id d') := by
  let s := Span.ofText stop [' ', '*', '/']
  have hback : ∀ r, s.delete (s.insert r) = r := Span.delete_insert (Span.isValid_ofText _ _)
  have hnode : (((x.pushed s.insert).closeComment stop).pushed s.delete).dropClosing =
      x.unspanned := by
    have hpushed : (x.pushed s.insert).pushed s.delete = x.unspanned := by
      rw [Node.pushed_pushed, funext hback, Node.unspanned]
    rw [Node.closeComment_eq, Node.pushed, Node.moved_closedBy, ← Node.pushed, hpushed]
    exact Node.dropClosing_closedBy (hx.pushed _) (Node.declaration?_pushed hd _)
      (by simp [Declaration.map, hnone]) rfl
  have hgap := h.moved (tree.root_closeGap s)
  rw [funext fun r => hback (f r)] at hgap
  rw [Tree.closingDropped, hclosing, ← hnode]
  exact hgap.update hnodup hn (by simpa using hid) Node.unspanned_dropClosing

/-- The start of a comment goes as it came. -/
theorem openingDropped {p : Position}
    (h : Shows root (Span.ofText p ['/', '*', ' ']).insert n
      ((n.pushed (Span.ofText p ['/', '*', ' ']).insert).mapDeclaration (·.openComment p)).unspanned
      tree) (hnodup : (root.descendants.map Node.id).Nodup) (hn : n ∈ root.descendants)
    (hformed : n.Formed) (hd : n.declaration? = some d) (hnone : d.opening = none) {start : Token}
    (hstart : d'.opening = some start)
    (hregion : (⟨start.span.start, d'.name.span.start⟩ : Span) = .ofText p ['/', '*', ' ']) :
    Shows root (fun t => t) n n.unspanned (tree.openingDropped n.id d') := by
  let r := Span.ofText p ['/', '*', ' ']
  have hback : ∀ t, r.delete (r.insert t) = t := Span.delete_insert (Span.isValid_ofText _ _)
  have hpushed : (n.pushed r.insert).unspanned.pushed r.delete = n.unspanned := by
    rw [Node.unspanned, Node.pushed_pushed, Node.pushed_pushed]
    simp only [hback]
    rfl
  have hnode : ((((n.pushed r.insert).mapDeclaration (·.openComment p)).unspanned).pushed
      r.delete).mapDeclaration (·.dropOpening) = n.unspanned := by
    rw [Node.unspanned_openComment]
    simp only [Declaration.openComment_eq, Node.pushed_opened]
    rw [hpushed]
    exact (hformed.pushed _).dropOpening_opened (Node.declaration?_pushed hd _)
      (by simp [Declaration.map, hnone]) rfl _
  have hgap := h.moved (tree.root_closeGap r)
  rw [funext hback] at hgap
  rw [Tree.openingDropped, hstart, ← hnode]
  dsimp only
  rw [hregion]
  exact hgap.update hnodup hn (by simp [Node.unspanned]) Node.unspanned_dropOpening

end Tree.Shows

namespace Tree.Sound

variable {tree : Tree} {n : Node} {d : Declaration}

/-- A declaration that is disabled. -/
theorem shows_wrapped (h : tree.Sound []) (hn : n ∈ tree.root.descendants) :
    let r := Span.ofText d.name.span.start ['/', '*', ' ']
    ∃ stop, let s := Span.ofText stop [' ', '*', '/']
      Shows tree.root (fun t => s.insert (r.insert t)) n
        ((((n.pushed r.insert).mapDeclaration (·.openComment d.name.span.start)).pushed
          s.insert).closeComment stop) (tree.wrapped n.id d) := by
  intro r
  unfold Tree.wrapped
  extract_lets start opened last stop
  refine ⟨stop, ?_⟩
  obtain ⟨onNode, hroom⟩ := tree.root_makeRoom n.id r
  have hmoved := (Shows.refl h.nodup hn).moved hroom
  rw [Node.unspanned, Node.pushed_pushed] at hmoved
  have hopened := hmoved.update h.nodup hn (by simp)
    (Node.unspanned_openComment d.name.span.start)
  obtain ⟨onNode, hroom⟩ := opened.root_makeRoom n.id (.ofText stop [' ', '*', '/'])
  exact (hopened.moved hroom).update h.nodup hn (by simp) (Node.unspanned_closeComment stop)

/-- A declaration that is disabled says what it said, and it is what it was once it is enabled. -/
theorem wrapped_unwrapped (h : tree.Sound []) (hn : n ∈ tree.root.descendants)
    (hd : n.declaration? = some d) (hopening : d.opening = none) (hclosing : d.closing = none)
    (hname : d.name.span.IsValid) :
    let t := (tree.wrapped n.id d).respan n.id
    ∃ d₁, t.declaration n.id = .ok d₁ ∧ d₁.opening ≠ none ∧ d₁.name.content = d.name.content ∧
      d₁.value.tokens.map Token.content = d.value.tokens.map Token.content ∧
      ∀ d₂, (t.closingDropped n.id d₁).declaration n.id = .ok d₂ →
        ((t.closingDropped n.id d₁).openingDropped n.id d₂).root.unspanned =
          tree.root.unspanned := by
  intro t
  have hformed := h.formed n hn
  let p := d.name.span.start
  let r := Span.ofText p ['/', '*', ' ']
  obtain ⟨stop, hwrapped⟩ := h.shows_wrapped (d := d) hn
  let s := Span.ofText stop [' ', '*', '/']
  let m := n.pushed r.insert
  let x := m.mapDeclaration (·.openComment p)
  have hm : m.declaration? = some (d.map (·.pushed r.insert) (·.mapSpans r.insert)) :=
    Node.declaration?_pushed hd _
  let opening : Token := .place .openComment ['/', '*'] p
  obtain ⟨-, hx, hxd⟩ := (hformed.pushed r.insert).opened hm
    (show opening.kind = .openComment from rfl) (blankTrivia [' '] (p.advance ['/', '*']))
  obtain ⟨c, hc, hcclosing, hcopening, hcname, hcvalue⟩ :=
    Node.declaration?_closedBy (hx.pushed s.insert) (Node.declaration?_pushed hxd s.insert)
      (by simp [Declaration.map, Declaration.opened, hclosing])
      (show (Token.commentEnd stop).kind = .closeComment from rfl)
  have hshows : t.Shows tree.root _ n _ := hwrapped.respan n.id
  obtain ⟨d₁, hd₁, rfl⟩ := hshows.declaration h.nodup hn (by simp) hc
  have hopen : d₁.opening.isSome = true := by
    simpa [Declaration.map, Declaration.opened] using hcopening
  have hend : d₁.closing = some { Token.commentEnd stop with
      trailing := ((m.mapDeclaration (·.opened (.place .openComment ['/', '*'] p)
        (blankTrivia [' '] (p.advance ['/', '*'])))).pushed s.insert).trailing } := by
    simpa [Declaration.map] using hcclosing
  refine ⟨d₁, hd₁, by simpa [← Option.isSome_iff_ne_none] using hopen, hcname, ?_, fun d₂ hd₂ => ?_⟩
  · simp only [Declaration.map, Declaration.opened, Node.tokens_pushed, Node.tokens_unspanned,
      Token.map_content_mapSpans] at hcvalue
    exact hcvalue
  · have hdropped := hshows.closingDropped h.nodup hn (by simp) hx hxd
      (by simp [Declaration.map, Declaration.opened, hclosing]) hend
    obtain ⟨d₂', hd₂', hsame⟩ := hdropped.declaration h.nodup hn (by simp [Node.unspanned])
      (Node.declaration?_pushed hxd _)
    obtain rfl : d₂ = d₂' := Except.ok.inj (hd₂.symm.trans hd₂')
    have hspan : d₂.name.span = r.insert d.name.span := congrArg (·.name.span) hsame
    obtain ⟨start, hstart, hstartSpan⟩ : ∃ start, d₂.opening = some start ∧
        start.span = (Token.place .openComment ['/', '*'] p).span := by
      simpa [Declaration.map, Declaration.opened] using congrArg (·.opening.map (·.span)) hsame
    have hregion : (⟨start.span.start, d₂.name.span.start⟩ : Span) = .ofText p ['/', '*', ' '] := by
      rw [hstartSpan, hspan, Span.insert_start (Span.isValid_ofText _ _) hname rfl]
      rfl
    exact (hdropped.openingDropped h.nodup hn hformed hd hopening hstart hregion).restored
      (fun _ => rfl) h.nodup hn

end Tree.Sound

/-- A declaration with another mark, or with none. -/
def Declaration.setMark (mark : Option Node) (d : Declaration) : Declaration :=
  { d with important := mark }

namespace Node

variable {n mark : Node} {d : Declaration}

theorem unspanned_setImportant (mark : Option Node) (n : Node) :
    (n.mapDeclaration (·.setMark mark)).unspanned =
      n.unspanned.mapDeclaration (·.setMark (mark.map unspanned)) :=
  moved_mapDeclaration (F := (·.setMark mark))
    (G := (·.setMark (mark.map unspanned))) (fun _ => rfl) n

theorem ahead?_value (h : n.Formed) (hd : n.declaration? = some d)
    (hnodup : (n.descendants.map Node.id).Nodup) :
    n.ahead? d.value.id = some (d.opening.toList ++ [d.name, d.colon]) := by
  have helements := h.elements_declaration hd
  have hvalue : d.value ∈ n.children := by
    rw [h.children_declaration hd]
    exact List.mem_cons_self
  have hne : n.id ≠ d.value.id := by
    rw [descendants_children, List.map_cons, List.nodup_cons] at hnodup
    refine fun heq => hnodup.1 ?_
    rw [heq]
    exact List.mem_map_of_mem (List.mem_flatMap.mpr ⟨_, hvalue, mem_descendants_self _⟩)
  obtain ⟨id, kind, span, es⟩ := n
  obtain rfl : es = d.elements := helements
  rw [ahead?, if_neg hne, Declaration.elements,
    Element.aheadIn?_append (by cases d.opening <;> simp [Element.ofToken?])]
  cases d.opening <;> simp [Element.ofToken?, Element.aheadIn?, ahead?_self]

/-- The mark of an important declaration stands behind its value. -/
theorem tokens_setMark (h : n.Formed) (hd : n.declaration? = some d) (hnone : d.important = none)
    (mark : Node) :
    n.tokens = d.opening.toList ++ [d.name, d.colon] ++ d.value.tokens ++
        (d.semicolon.toList ++ d.closing.toList) ∧
      (n.mapDeclaration (·.setMark (some mark))).tokens =
        d.opening.toList ++ [d.name, d.colon] ++ d.value.tokens ++ mark.tokens ++
          (d.semicolon.toList ++ d.closing.toList) := by
  have helements := h.elements_declaration hd
  rw [mapDeclaration_of hd, ← n.tokens_eq, helements, tokens_mk, Declaration.tokensOf_elements,
    Declaration.tokensOf_elements, hnone]
  exact ⟨by simp, by simp [Declaration.setMark]⟩

theorem render_setMark (h : n.Formed) (hd : n.declaration? = some d) (hnone : d.important = none)
    (f : Span → Span) (mark : Node) : ∃ post,
      n.render = Token.renderAll (d.opening.toList ++ [d.name, d.colon]) ++ d.value.render ++ post ∧
      ((n.pushed f).mapDeclaration (·.setMark (some mark))).render =
        Token.renderAll (d.opening.toList ++ [d.name, d.colon]) ++ d.value.render ++ mark.render ++
          post := by
  obtain ⟨htokens, -⟩ := tokens_setMark h hd hnone mark
  obtain ⟨-, hmarked⟩ := tokens_setMark (h.pushed f) (declaration?_pushed hd f)
    (by simp [Declaration.map, hnone]) mark
  refine ⟨Token.renderAll (d.semicolon.toList ++ d.closing.toList), ?_, ?_⟩
  · rw [render, htokens, Token.renderAll_append, Token.renderAll_append]
    rfl
  · rw [render, hmarked]
    simp [Declaration.map, Option.toList_map, tokens_pushed, Token.render_mapSpans, render]

theorem elements_of_unspanned {ts : List Token} (h : n.unspanned.elements = ts.map .token) :
    n.elements = ts.map .token := by
  rw [unspanned, pushed, elements_moved] at h
  generalize n.elements = es at h
  induction es generalizing ts with
  | nil => exact h
  | cons e es ih =>
    cases ts with
    | nil => cases h
    | cons t ts =>
      obtain ⟨he, hes⟩ := List.cons_eq_cons.mp h
      cases e with
      | token u =>
        obtain rfl : u = t := by simpa [Element.map] using he
        rw [ih hes, List.map_cons]
      | node m => cases he

theorem spanOf?_importantNode (id : NodeId) (p : Position) :
    Element.spanOf? (importantNode id p).elements = some (.ofText p " !important".toList) := by
  simp [importantNode, Element.spanOf?, Element.span, Token.fullSpan, Token.place, Token.ofLexeme,
    Lexeme.place, Span.ofText, Span.join, Position.advance, blankTrivia, Position.min_def,
    Position.max_def, Position.le_def]
  omega

end Node

namespace Tree.Sound

variable {tree : Tree} {n : Node} {d : Declaration}

/-- A declaration that is made important. -/
theorem shows_marked (h : tree.Sound []) (hn : n ∈ tree.root.descendants) :
    let r := Span.ofText d.value.span.stop " !important".toList
    ∃ id, Shows tree.root r.insert n ((n.pushed r.insert).mapDeclaration
      (·.setMark (some (importantNode id d.value.span.stop).unspanned)))
        (tree.marked n.id d.value) := by
  intro r
  unfold Tree.marked
  extract_lets p moved
  obtain ⟨onNode, hroom⟩ := tree.root_makeRoom n.id r
  have hmoved : Shows tree.root r.insert n (n.unspanned.pushed r.insert)
      { moved with arena := (moved.arena.insert (some n.id)).2 } :=
    (Shows.refl h.nodup hn).moved hroom
  rw [Node.unspanned, Node.pushed_pushed] at hmoved
  exact ⟨_, hmoved.update h.nodup hn (by simp) (Node.unspanned_setImportant _)⟩

/-- A declaration that is made important says what it said, and it is what it was once it is not
important any more. -/
theorem marked_unmarked (h : tree.Sound []) (hn : n ∈ tree.root.descendants)
    (hd : n.declaration? = some d) (hnone : d.important = none) :
    let t := (tree.marked n.id d.value).respan n.id
    ∃ d₁ mark, t.declaration n.id = .ok d₁ ∧ d₁.important = some mark ∧
      d₁.name.content = d.name.content ∧
      d₁.value.tokens.map Token.content = d.value.tokens.map Token.content ∧
      (t.unmarked n.id mark).root.unspanned = tree.root.unspanned := by
  intro t
  have hformed := h.formed n hn
  let p := d.value.span.stop
  let r := Span.ofText p " !important".toList
  obtain ⟨id, hmarked⟩ := h.shows_marked (d := d) hn
  let m := n.pushed r.insert
  let x := m.mapDeclaration (·.setMark (some (importantNode id p).unspanned))
  have hm : m.declaration? = some (d.map (·.pushed r.insert) (·.mapSpans r.insert)) :=
    Node.declaration?_pushed hd _
  have hxformed := (((hformed.pushed r.insert).of_declaration? hm).2.1).setImportant
    (some (importantNode id p).unspanned)
  have hx := Node.declaration?_mapDeclaration hm
    (F := (·.setMark (some (importantNode id p).unspanned))) hxformed
  have hshows : t.Shows tree.root _ n x := hmarked.respan n.id
  obtain ⟨d₁, hd₁, hsame⟩ := hshows.declaration h.nodup hn (by simp [x, m]) hx
  obtain ⟨mark, hmark, hmarkSame⟩ : ∃ mark, d₁.important = some mark ∧
      mark.unspanned = (importantNode id p).unspanned := by
    simpa [Declaration.map, Declaration.setMark] using congrArg Declaration.important hsame
  have hspan : mark.span = r := by
    obtain ⟨m', hfind, -⟩ := hmarked.find? h.nodup hn (by simp)
    have hsound : t.Sound [] := (h.marked hn hd hnone).alike (.respan _ _)
    obtain ⟨k, hk, hid, hkd⟩ := Tree.mem_of_declaration hd₁
    obtain rfl : k = m'.respan := by
      have hfound := hsound.find?_of_mem hk
      rw [hid, find?_respan hfind] at hfound
      exact (Option.some.inj hfound).symm
    have hchild : mark ∈ m'.respan.children := by
      rw [(hsound.formed _ hk).children_declaration hkd, Declaration.nodes, hmark]
      simp
    have hmarkTokens : mark.unspanned.elements =
        (Element.tokensOf (importantNode id p).elements).map .token := by
      rw [hmarkSame]
      rfl
    have helements : mark.elements = (importantNode id p).elements :=
      Node.elements_of_unspanned hmarkTokens
    exact Node.span_child_respan hchild (helements ▸ Node.spanOf?_importantNode id p)
  refine ⟨d₁, mark, hd₁, hmark, congrArg (·.name.content) hsame, ?_, ?_⟩
  · have hvalue := congrArg (·.value.tokens.map Token.content) hsame
    simp only [Declaration.map, Declaration.setMark, Node.tokens_pushed, Node.tokens_unspanned,
      Token.map_content_mapSpans] at hvalue
    exact hvalue
  · have hdropped := hshows.update h.nodup hn (by simp [x, m]) (Node.unspanned_setImportant none)
    have hgap : Shows tree.root _ n _ (t.unmarked n.id mark) :=
      hdropped.moved (Tree.root_closeGap mark.span _)
    rw [hspan] at hgap
    have hback : ∀ u, r.delete (r.insert u) = u := Span.delete_insert (Span.isValid_ofText _ _)
    have hnode : (x.mapDeclaration (·.setMark none)).pushed r.delete =
        n.unspanned := by
      have hm' : x.mapDeclaration (·.setMark none) = m := by
        rw [Node.mapDeclaration_mapDeclaration hm hxformed]
        refine (hformed.pushed r.insert).mapDeclaration_eq_self hm ?_
        rw [Declaration.map, hnone]
        rfl
      rw [hm', Node.pushed_pushed, funext hback, Node.unspanned]
    rw [Option.map_none, hnode] at hgap
    exact hgap.restored hback h.nodup hn

/-- The text of a tree with a comment around a declaration. -/
theorem render_wrapped (h : tree.Sound []) (hn : n ∈ tree.root.descendants)
    (hd : n.declaration? = some d) (hopening : d.opening = none) (hclosing : d.closing = none) :
    ∃ front core post, tree.root.ahead? n.id = some front ∧
      n.render = n.leadingText ++ core ++ n.trailingText ∧
      tree.render = Token.renderAll front ++ (n.leadingText ++ core ++ n.trailingText) ++ post ∧
      ((tree.wrapped n.id d).respan n.id).render = Token.renderAll front ++
        (n.leadingText ++ ("/* ".toList ++ core ++ " */".toList) ++ n.trailingText) ++ post := by
  obtain ⟨stop, hshows⟩ := h.shows_wrapped (d := d) hn
  obtain ⟨front, back, hahead, htokens, htokens'⟩ := hshows.tokens h.nodup hn
  obtain ⟨core, hcore, hrender⟩ := Node.render_commented (h.formed n hn) hd hopening hclosing
    (Span.ofText d.name.span.start ['/', '*', ' ']).insert (Span.ofText stop [' ', '*', '/']).insert
    d.name.span.start stop
  refine ⟨front, core, Token.renderAll back, hahead, hcore, ?_, ?_⟩
  · rw [← hcore, Tree.render, Node.render, htokens, Token.renderAll_append, Token.renderAll_append,
      Node.render]
  · rw [← hrender, Tree.render_respan, Tree.render, Node.render, htokens', Token.renderAll_append,
      Token.renderAll_append, Token.renderAll_mapSpans, Token.renderAll_mapSpans, Node.render]

/-- The text of a tree with a declaration that is made important. -/
theorem render_marked (h : tree.Sound []) (hn : n ∈ tree.root.descendants)
    (hd : n.declaration? = some d) (hnone : d.important = none) :
    ∃ front post, tree.root.ahead? d.value.id = some front ∧
      tree.render = Token.renderAll front ++ d.value.render ++ post ∧
      ((tree.marked n.id d.value).respan n.id).render =
        Token.renderAll front ++ d.value.render ++ " !important".toList ++ post := by
  have hformed := h.formed n hn
  obtain ⟨id, hshows⟩ := h.shows_marked (d := d) hn
  obtain ⟨front, back, hahead, htokens, htokens'⟩ := hshows.tokens h.nodup hn
  let mark := (importantNode id d.value.span.stop).unspanned
  have hmark : mark.render = " !important".toList := rfl
  obtain ⟨post, hrender, hrender'⟩ := Node.render_setMark hformed hd hnone
    (Span.ofText d.value.span.stop " !important".toList).insert mark
  rw [hmark] at hrender'
  refine ⟨front ++ (d.opening.toList ++ [d.name, d.colon]), post ++ Token.renderAll back, ?_, ?_, ?_⟩
  · exact Node.ahead?_trans h.nodup hn hahead
      (Node.ahead?_value hformed hd (Node.nodup_below h.nodup hn))
  · rw [Tree.render, Node.render, htokens, Token.renderAll_append, Token.renderAll_append,
      show Token.renderAll n.tokens = _ from hrender]
    simp
  · rw [Tree.render_respan, Tree.render, Node.render, htokens', Token.renderAll_append,
      Token.renderAll_append, Token.renderAll_mapSpans, Token.renderAll_mapSpans,
      show Token.renderAll (Node.mapDeclaration _ _).tokens = _ from hrender']
    simp

end Tree.Sound

theorem Declaration.property_of_content {d d' : Declaration}
    (h : d'.name.content = d.name.content) : d'.property = d.property := by
  simp only [Token.content, Prod.mk.injEq] at h
  rw [property, property, Token.name?, Token.name?, h.2.1, h.2.2]

namespace Session

variable {s : Session} {n : Node} {d : Declaration} {text : Text}

/-- An edit whose run is known. -/
theorem apply_of_run {m : Mutation} {tree' : Tree} {c : Change}
    (h : m.steps.run.run ⟨s.tree, []⟩ = (.ok (), ⟨tree', [c]⟩)) :
    (s.apply m).1 = .ok (some c) ∧ (s.apply m).2.1.tree = tree' := by
  rw [apply, h]
  exact ⟨rfl, rfl⟩

/-- `edit` and then `back` succeed on the declaration called `id`. In between it has its name and
its value, and the document is `text`; afterwards everything is as it was. -/
structure Undone (s : Session) (id : NodeId) (d : Declaration) (edit back : Mutation) (text : Text) :
    Prop where
  made : (s.apply edit).1 = .ok (some (.modified id))
  between : ∃ d', (s.apply edit).2.1.tree.declaration id = .ok d' ∧ d'.property = d.property ∧
    d'.value.tokens.map Token.content = d.value.tokens.map Token.content
  text : (s.apply edit).2.1.tree.render = text
  unmade : ((s.apply edit).2.1.apply back).1 = .ok (some (.modified id))
  restored : s.tree.Restored ((s.apply edit).2.1.apply back).2.1.tree

theorem undone_setDisabled (h : s.tree.Sound []) (hn : n ∈ s.tree.root.descendants)
    (hd : n.declaration? = some d) (hopening : d.opening = none) (hclosing : d.closing = none)
    (hname : d.name.span.IsValid) (htext : ((s.tree.wrapped n.id d).respan n.id).render = text) :
    s.Undone n.id d (.setDisabled n.id true) (.setDisabled n.id false) text := by
  obtain ⟨d₁, hd₁, hopen, hname₁, hvalue₁, hback⟩ :=
    h.wrapped_unwrapped hn hd hopening hclosing hname
  obtain ⟨hmade, htree⟩ := apply_of_run (m := .setDisabled n.id true)
    (Edit.setDisabled_run_true h (h.declaration_of_mem hn hd) hopening)
  have hsound := sound_apply h (.setDisabled n.id true)
  rw [← htree] at hd₁ htext hback
  obtain ⟨d₂, hd₂, hrun⟩ := Edit.setDisabled_run_false hsound hd₁ hopen
  obtain ⟨hunmade, htree'⟩ := apply_of_run (m := .setDisabled n.id false) hrun
  refine ⟨hmade, ⟨d₁, hd₁, Declaration.property_of_content hname₁, hvalue₁⟩, htext, hunmade, ?_⟩
  refine h.restored (sound_apply hsound _) ?_
  rw [htree', ← hback d₂ hd₂]
  exact Node.unspanned_update Node.unspanned_respan _

theorem undone_setImportant (h : s.tree.Sound []) (hn : n ∈ s.tree.root.descendants)
    (hd : n.declaration? = some d) (hnone : d.important = none)
    (htext : ((s.tree.marked n.id d.value).respan n.id).render = text) :
    s.Undone n.id d (.setImportant n.id true) (.setImportant n.id false) text := by
  obtain ⟨d₁, mark, hd₁, hmark, hname₁, hvalue₁, hback⟩ := h.marked_unmarked hn hd hnone
  have hrun := Edit.setImportant_run h (h.declaration_of_mem hn hd)
    (show d.isImportant ≠ true by simp [Declaration.isImportant, hnone])
  rw [hnone] at hrun
  obtain ⟨hmade, htree⟩ := apply_of_run (m := .setImportant n.id true) hrun
  have hsound := sound_apply h (.setImportant n.id true)
  rw [← htree] at hd₁ htext hback
  have hrun' := Edit.setImportant_run hsound hd₁
    (show d₁.isImportant ≠ false by simp [Declaration.isImportant, hmark])
  rw [hmark] at hrun'
  obtain ⟨hunmade, htree'⟩ := apply_of_run (m := .setImportant n.id false) hrun'
  refine ⟨hmade, ⟨d₁, hd₁, Declaration.property_of_content hname₁, hvalue₁⟩, htext, hunmade, ?_⟩
  refine h.restored (sound_apply hsound _) ?_
  rw [htree', ← hback]
  exact Node.unspanned_update Node.unspanned_respan _

/-- In every session in which nothing is shifted to lines further up, and for every declaration of
the tree: if there is no comment around it, it can be disabled and enabled again, and if it is not
important, it can be made important and not, and all is as it was. In between, the comment stands
around the declaration but for what leads its first token and what trails its last one, and the mark
stands behind the value. Names past the last line that can be counted are left out. -/
theorem toggles_undone (p : Production) (config : Config) (t : Text) {calls : List Call}
    (hcalls : ∀ c ∈ calls, c.shiftsUp = false) {n : Node} {d : Declaration}
    (hn : n ∈ (Session.run ⟨Tree.parse p config t, false⟩ calls).tree.root.descendants)
    (hd : n.declaration? = some d) :
    let s := Session.run ⟨Tree.parse p config t, false⟩ calls
    (d.isDisabled = false → d.name.span.start.line < Position.limit →
      ∃ front core post, s.tree.root.ahead? n.id = some front ∧
        n.render = n.leadingText ++ core ++ n.trailingText ∧
        s.tree.render = Token.renderAll front ++ n.render ++ post ∧
        s.Undone n.id d (.setDisabled n.id true) (.setDisabled n.id false) (Token.renderAll front ++
          (n.leadingText ++ ("/* ".toList ++ core ++ " */".toList) ++ n.trailingText) ++ post)) ∧
    (d.isImportant = false →
      ∃ front post, s.tree.root.ahead? d.value.id = some front ∧
        s.tree.render = Token.renderAll front ++ d.value.render ++ post ∧
        s.Undone n.id d (.setImportant n.id true) (.setImportant n.id false)
          (Token.renderAll front ++ d.value.render ++ " !important".toList ++ post)) := by
  intro s
  have hparsed := Tree.sound_parse p config t
  have hsound : s.tree.Sound [] := sound_run hparsed calls
  refine ⟨fun henabled hline => ?_, fun hplain => ?_⟩
  · have hopening : d.opening = none := by simpa [Declaration.isDisabled] using henabled
    have hproper : n.Proper := proper_run hparsed (fun x hx => (orderly_parse p config t x hx).1)
      calls n hn
    have hclosing : d.closing = none := hproper.comment d hd hopening
    have hforward := Node.Obeys.descendant (forward_run p config t hcalls) hn
    have hname : d.name.span.Forward := (hforward.declaration? hd).name.span
    obtain ⟨front, core, post, hahead, hcore, hrender, htext⟩ :=
      hsound.render_wrapped hn hd hopening hclosing
    exact ⟨front, core, post, hahead, hcore, hcore ▸ hrender,
      undone_setDisabled hsound hn hd hopening hclosing (hname.isValid hline) htext⟩
  · have hnone : d.important = none := by simpa [Declaration.isImportant] using hplain
    obtain ⟨front, post, hahead, hrender, htext⟩ := hsound.render_marked hn hd hnone
    exact ⟨front, post, hahead, hrender, undone_setImportant hsound hn hd hnone htext⟩

/-- The declaration is followed by blanks; its last token is the semicolon. -/
theorem toggles_undone_trailing :
    let s := Session.run ⟨Tree.parse .styleSheet {} "a{ b: c; }".toList, false⟩ []
    (s.apply (.setDisabled 5 true)).2.1.tree.render = "a{ /* b: c; */ }".toList ∧
      (s.apply (.setImportant 5 true)).2.1.tree.render = "a{ b: c !important; }".toList ∧
      ∃ d text text', s.tree.declaration 5 = .ok d ∧
        s.Undone 5 d (.setDisabled 5 true) (.setDisabled 5 false) text ∧
        s.Undone 5 d (.setImportant 5 true) (.setImportant 5 false) text' := by
  intro s
  have hread : (s.tree.declaration 5).toOption.any (fun d => !d.isDisabled && !d.isImportant &&
      d.name.span.start.line < Position.limit) = true := by decide +kernel
  refine ⟨by decide +kernel, by decide +kernel, ?_⟩
  cases hget : s.tree.declaration 5 with
  | error e => simp [hget, Except.toOption] at hread
  | ok d =>
    obtain ⟨⟨henabled, hplain⟩, hline⟩ : (d.isDisabled = false ∧ d.isImportant = false) ∧
        d.name.span.start.line < Position.limit := by
      simpa [hget, Except.toOption] using hread
    obtain ⟨n, hn, hid, hd⟩ := Tree.mem_of_declaration hget
    have hcalls : ∀ c ∈ ([] : List Call), c.shiftsUp = false := by simp
    obtain ⟨hdisabled, himportant⟩ :=
      toggles_undone .styleSheet {} "a{ b: c; }".toList hcalls hn hd
    obtain ⟨_, _, _, _, _, _, hundone⟩ := hdisabled henabled hline
    obtain ⟨_, _, _, _, hundone'⟩ := himportant hplain
    exact ⟨d, _, _, rfl, hid ▸ hundone, hid ▸ hundone'⟩

/-- A bracket that is open at the end of a block hides the end of the comment. -/
theorem disabling_hides_end :
    let s : Session := ⟨Tree.parse .styleSheet {} "a{b: f(x}".toList, false⟩
    let s' := (s.apply (.setDisabled 7 true)).2.1
    let disabled (tree : Tree) := tree.root.descendants.filterMap fun n =>
      n.declaration?.map Declaration.isDisabled
    (s.apply (.setDisabled 7 true)).1.toOption.isSome = true ∧
      s'.tree.render = "a{/* b: f(x */}".toList ∧ disabled s'.tree = [true] ∧
      disabled (Tree.parse .styleSheet { comments := true } s'.tree.render) = [] := by
  decide +kernel

end Session

end CssTree
