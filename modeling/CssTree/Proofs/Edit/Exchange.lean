import CssTree.Proofs.Edit.Thread
import CssTree.Proofs.Toggle
import CssTree.Proofs.Tree.Faded

namespace CssTree

open CssTree.Frame

/-- A node is exchanged for one that says `y`, in a text without gaps. -/
structure Tree.Exchanged (n y : Node) (tree tree' : Tree) : Prop where
  strung : tree'.root.Strung .origin
  root : tree'.root.faded = tree.root.faded.update n.id fun _ => y

/-- Where the value of a declaration is written, and its mark behind the value. -/
theorem Node.Strung.declaration {p : Position} {n : Node} {d : Declaration} (h : n.Strung p)
    (hformed : n.Formed) (hd : n.declaration? = some d) :
    d.value.Strung (Token.after p (d.opening.toList ++ [d.name, d.colon])) ∧
      ∀ mark ∈ d.important, mark.Strung
        (Token.after p (d.opening.toList ++ [d.name, d.colon] ++ d.value.tokens)) := by
  have hes := h.elements
  have helements := hformed.elements_declaration hd
  obtain ⟨opening, name, colon, value, important, semicolon, closing⟩ := d
  rw [helements] at hes
  have hopening : Element.tokensOf (Element.ofToken? opening) = opening.toList := by
    cases opening <;> rfl
  have hfirst : ∀ q, Token.after q [name, colon] = Token.after (Token.after q [name]) [colon] :=
    fun q => Token.after_append q [name] [colon]
  simp only [Declaration.elements, Element.strungAll_append, Element.strungAll_token,
    Element.strungAll_node, hopening] at hes
  obtain ⟨-, -, -, hvalue, hrest⟩ := hes
  refine ⟨?_, ?_⟩
  · rw [Token.after_append, hfirst]
    exact hvalue
  · rintro mark ⟨rfl⟩
    rw [Token.after_append, Token.after_append, hfirst]
    exact hrest.1.1.1

theorem Node.Strung.value_stop {p : Position} {n : Node} {d : Declaration} (h : n.Strung p)
    (hformed : n.Formed) (hd : n.declaration? = some d) : d.value.span.stop =
      Token.after p (d.opening.toList ++ [d.name, d.colon] ++ d.value.tokens) := by
  rw [(h.declaration hformed hd).1.span]
  exact (Token.after_append _ _ _).symm

namespace Tree

variable {tree tree' : Tree} {C C' : List Frame} {n x : Node} {d : Declaration}

/-- At last the spans inside the node are computed. -/
theorem Threads.exchanged (h : tree'.Threads C' x) (hroot : tree.root = plug C n)
    (hnodup : (tree.root.descendants.map Node.id).Nodup)
    (hnodup' : (tree'.root.descendants.map Node.id).Nodup)
    (hC : C'.map faded = C.map faded) (hid : x.id = n.id) (hne : x.tokens ≠ []) :
    Exchanged n x.faded tree (tree'.respan n.id) := by
  obtain ⟨hrespan, hstrung⟩ := h.respan (apart_of_nodup (h.root ▸ hnodup')) fun hnil => absurd hnil hne
  rw [hid] at hrespan hstrung
  refine ⟨hstrung, ?_⟩
  have hapart : Frame.Apart (C.map faded) n.faded := by
    refine Frame.apart_of_nodup ?_
    rw [← faded_plug, ← hroot, Node.ids_faded]
    exact hnodup
  rw [hrespan, faded_plug, Node.faded_respan, hC, hroot, faded_plug, ← n.id_faded,
    update_plug hapart]

end Tree

namespace Node

theorem faded_setMark (mark : Option Node) (n : Node) : (n.mapDeclaration (·.setMark mark)).faded =
    n.faded.mapDeclaration (·.setMark (mark.map faded)) :=
  moved_mapDeclaration (F := (·.setMark mark)) (G := (·.setMark (mark.map faded))) (fun _ => rfl) n

theorem strung_importantNode (id : NodeId) (p : Position) :
    Token.Strung p (importantNode id p).tokens ∧
      Token.after p (importantNode id p).tokens = p.advance " !important".toList := by
  have htokens : Token.lexemesOf (importantNode id p).tokens =
      [.place .whitespace [' '] p, .place .delim ['!'] (p.advance [' ']),
        .place .ident "important".toList (p.advance [' ', '!'])] := rfl
  rw [Token.Strung, Token.after, htokens]
  exact ⟨⟨rfl, rfl, rfl, trivial⟩, rfl⟩

end Node

namespace Tree.Sound

variable {tree : Tree} {n : Node} {d : Declaration}

theorem exchanged_marked (h : tree.Sound []) (hstrung : tree.root.Strung .origin)
    (hn : n ∈ tree.root.descendants) (hd : n.declaration? = some d) (hnone : d.important = none)
    (hahead : ∀ l ∈ Token.lexemesOf (d.opening.toList ++ [d.name, d.colon] ++ d.value.tokens),
      l.span.start < d.value.span.stop) :
    Exchanged n (n.faded.mapDeclaration
        (·.setMark (some (importantNode tree.arena.next default).faded)))
      tree ((tree.marked n.id d.value).respan n.id) := by
  obtain ⟨C, hroot⟩ := Node.exists_plug hn
  have hthreads := threads_of_strung hstrung hroot
  have hformed := h.formed n hn
  let a := startIn .origin C
  let front := d.opening.toList ++ [d.name, d.colon] ++ d.value.tokens
  let back := d.semicolon.toList ++ d.closing.toList
  let p := d.value.span.stop
  let s := Span.ofText p " !important".toList
  let mark := importantNode tree.arena.next p
  have hcut : n.tokens = front ++ back := (Node.tokens_setMark hformed hd hnone mark).1
  have hp : p = Token.after a front := (strung_plug.mp (hroot ▸ hstrung)).2.value_stop hformed hd
  obtain ⟨hmark, hmarkEnd⟩ := Node.strung_importantNode tree.arena.next p
  have hfront : Token.lexemesOf front ≠ [] := by simp [front, Token.lexemesOf_append, Token.lexemes]
  let onNode := tree.grow n.id s
  let x := (n.moved onNode s.insert).mapDeclaration (·.setMark (some mark))
  have hmoved : (n.moved onNode s.insert).declaration? =
      some (d.map (·.moved onNode s.insert) (·.mapSpans s.insert)) := by
    rw [Node.declaration?_moved, hd]
    rfl
  have htokens : x.tokens = front.map (·.mapSpans s.insert) ++ mark.tokens ++
      back.map (·.mapSpans s.insert) := by
    have hset := (Node.tokens_setMark (hformed.of_skeleton (n.skeleton_moved onNode s.insert)) hmoved
      (by simp [Declaration.map, hnone]) mark).2
    simpa [front, back, Declaration.map, Option.toList_map, Node.tokens_moved] using hset
  have hsound : (tree.marked n.id d.value).Sound [] := h.marked hn hd hnone
  have hmarked : (tree.marked n.id d.value).root =
      plug (C.map (pushed (fun r => (s.insert r).join s) s.insert)) x :=
    h.root_makeRoom_update hroot s (·.mapDeclaration (·.setMark (some mark)))
  have hlexemes : Token.lexemesOf n.tokens = Token.lexemesOf front ++ Token.lexemesOf back := by
    rw [hcut, Token.lexemesOf_append]
  have hmarkTokens : Lexeme.Strung s.start (Token.lexemesOf mark.tokens) := hmark
  have hinserted := hthreads.inserted hmarked hlexemes hahead hp hmarkTokens hmarkEnd.symm
    (hthreads.clear_of_ahead hlexemes hfront hahead) (by
      rw [htokens, Token.lexemesOf_append, Token.lexemesOf_append, Token.lexemesOf_mapSpans,
        Token.lexemesOf_mapSpans, List.append_assoc])
  have hfaded : x.faded = n.faded.mapDeclaration
      (·.setMark (some (importantNode tree.arena.next default).faded)) := by
    rw [Node.faded_setMark, Node.faded_moved]
    rfl
  rw [← hfaded]
  exact hinserted.exchanged hroot h.nodup hsound.nodup (map_faded_pushed _ _ C) (by simp [x])
    (by simp [htokens, front])

theorem exchanged_unmarked {mark : Node} (h : tree.Sound []) (hstrung : tree.root.Strung .origin)
    (hn : n ∈ tree.root.descendants) (hd : n.declaration? = some d) (hmark : d.important = some mark) :
    Exchanged n (n.faded.mapDeclaration (·.setMark none)) tree
      ((tree.unmarked n.id mark).respan n.id) := by
  obtain ⟨C, hroot⟩ := Node.exists_plug hn
  have hthreads := threads_of_strung hstrung hroot
  have hformed := h.formed n hn
  let a := startIn .origin C
  let front := d.opening.toList ++ [d.name, d.colon] ++ d.value.tokens
  let back := d.semicolon.toList ++ d.closing.toList
  let m := n.mapDeclaration (·.setMark none)
  let s := mark.span
  let x := m.moved (fun _ => s.delete) s.delete
  have helements := hformed.elements_declaration hd
  have hcut : n.tokens = front ++ (mark.tokens ++ back) := by
    rw [← n.tokens_eq, helements, Declaration.tokensOf_elements, hmark]
    simp [front, back]
  have hrest : m.tokens = front ++ back := by
    show (n.mapDeclaration _).tokens = _
    rw [Node.mapDeclaration_of hd, Node.tokens_mk, Declaration.tokensOf_elements]
    simp [front, back, Declaration.setMark]
  have hspan : s = ⟨Token.after a front, Token.after (Token.after a front) mark.tokens⟩ :=
    (((strung_plug.mp (hroot ▸ hstrung)).2.declaration hformed hd).2 mark hmark).span
  have hset : ((tree.update n.id (·.mapDeclaration (·.setMark none))).free mark).root = plug C m :=
    root_update_plug hroot h.nodup _
  have hunmarked : (tree.unmarked n.id mark).root = plug (C.map (pushed s.delete s.delete)) x :=
    root_closeGap_plug hset s
  have hlexemes : Token.lexemesOf n.tokens =
      Token.lexemesOf front ++ (Token.lexemesOf mark.tokens ++ Token.lexemesOf back) := by
    simp only [hcut, Token.lexemesOf_append]
  have hdeleted := hthreads.deleted hunmarked hlexemes (by rw [hspan]; rfl) (by rw [hspan]; rfl)
    (by
      rw [Node.tokens_moved, hrest, List.map_append, Token.lexemesOf_append,
        Token.lexemesOf_mapSpans, Token.lexemesOf_mapSpans])
  have hfaded : x.faded = n.faded.mapDeclaration (·.setMark none) := by
    rw [Node.faded_moved, Node.faded_setMark]
    rfl
  rw [← hfaded]
  exact hdeleted.exchanged hroot h.nodup (h.unmarked hn hd hmark).nodup (map_faded_pushed _ _ C)
    (by simp [x, m]) (by simp [x, Node.tokens_moved, hrest, front])

end Tree.Sound

namespace Node

variable {n : Node} {d : Declaration} {c o : Token}

theorem lexemesOf_appendTrailing (trivia : List Lexeme) {ts : List Token} (h : ts ≠ []) :
    Token.lexemesOf (mapLast (fun t => { t with trailing := t.trailing ++ trivia }) ts) =
      Token.lexemesOf ts ++ trivia := by
  obtain ⟨us, t, rfl⟩ := (List.eq_nil_or_concat ts).resolve_left h
  rw [List.concat_eq_append, mapLast_concat, Token.lexemesOf_append, Token.lexemesOf_append]
  simp [Token.lexemes]

/-- A declaration without the end of the comment around it is one. -/
theorem Formed.dropClosing (h : n.Formed) (hd : n.declaration? = some d) :
    let m := n.mapDeclaration ({ · with closing := none })
    m.Formed ∧ m.declaration? = some { d with closing := none } ∧ n.dropClosing.Formed ∧
      n.dropClosing.skeleton = m.skeleton ∧
        ∃ d', n.dropClosing.declaration? = some d' ∧ d'.opening.isSome = d.opening.isSome := by
  intro m
  obtain ⟨hkind, hformed, -⟩ := h.of_declaration? hd
  have hopen : ({ d with closing := none } : Declaration).Formed := hformed.setClosing (by simp)
  have hm : m.Formed := by
    show (n.mapDeclaration _).Formed
    rw [mapDeclaration_of hd]
    exact formed_of_declaration hkind hopen rfl
  have hread : m.declaration? = some { d with closing := none } :=
    declaration?_mapDeclaration hd (F := ({ · with closing := none })) hopen
  have hskeleton : n.dropClosing.skeleton = m.skeleton := m.skeleton_appendTrailing _
  obtain ⟨d', hd', hsame, -⟩ := declaration?_of_skeleton hm hread hskeleton
  exact ⟨hm, hread, hm.of_skeleton hskeleton, hskeleton, d', hd', hsame.opening⟩

/-- What is left without the end of the comment around a declaration. -/
theorem tokens_dropClosing (hformed : n.Formed) (hd : n.declaration? = some d)
    (hclosing : d.closing = some c) : ∃ us, us ≠ [] ∧ n.tokens = us ++ [c] ∧
      Token.lexemesOf n.dropClosing.tokens = Token.lexemesOf us ++ c.trailing ∧
        ∃ d', n.dropClosing.declaration? = some d' ∧ d'.opening.isSome = d.opening.isSome := by
  have helements := hformed.elements_declaration hd
  obtain ⟨-, -, -, -, hread⟩ := hformed.dropClosing hd
  let us := d.opening.toList ++ d.name :: d.colon :: (d.value.tokens ++
    ((d.important.map Node.tokens).getD [] ++ d.semicolon.toList))
  let m := n.mapDeclaration ({ · with closing := none })
  have hus : us ≠ [] := by simp [us]
  have hm : m.tokens = us := by
    show (n.mapDeclaration _).tokens = _
    rw [mapDeclaration_of hd, tokens_mk, Declaration.tokensOf_elements]
    simp [us]
  have hdrop : n.dropClosing = m.appendTrailing c.trailing := by
    rw [dropClosing, hd, Option.bind_some, hclosing]
    rfl
  refine ⟨us, hus, ?_, ?_, hread⟩
  · rw [← n.tokens_eq, helements, Declaration.tokensOf_elements, hclosing]
    simp [us]
  · have hlength := length_mapLast (fun t : Token => { t with trailing := t.trailing ++ c.trailing })
      m.tokens
    rw [hdrop, appendTrailing, tokens_mapTokens hlength, hm, lexemesOf_appendTrailing _ hus]

/-- What is left without the start of the comment around a declaration. -/
theorem tokens_dropOpening (hformed : n.Formed) (hd : n.declaration? = some d)
    (hopening : d.opening = some o) : ∃ rest,
      Token.lexemesOf n.tokens = o.leading ++
        ((o.toLexeme :: (o.trailing ++ d.name.leading)) ++ d.name.toLexeme :: rest) ∧
      Token.lexemesOf (n.mapDeclaration (·.dropOpening)).tokens =
        o.leading ++ d.name.toLexeme :: rest := by
  have helements := hformed.elements_declaration hd
  let ts := d.value.tokens ++
    ((d.important.map Node.tokens).getD [] ++ d.semicolon.toList ++ d.closing.toList)
  refine ⟨d.name.trailing ++ Token.lexemesOf (d.colon :: ts), ?_, ?_⟩
  · rw [← n.tokens_eq, helements, Declaration.tokensOf_elements, hopening]
    simp [ts, Token.lexemes]
  · rw [mapDeclaration_of hd, tokens_mk, Declaration.tokensOf_elements]
    simp [ts, Token.lexemes, Declaration.dropOpening, hopening]

end Node

namespace Tree.Threads

variable {tree : Tree} {C : List Frame} {n : Node} {d : Declaration} {c o : Token}

theorem closingDropped (h : tree.Threads C n) (hnodup : (tree.root.descendants.map Node.id).Nodup)
    (hformed : n.Formed) (hd : n.declaration? = some d) (hclosing : d.closing = some c) :
    ∃ C' x, (tree.closingDropped n.id d).Threads C' x ∧ C'.map faded = C.map faded ∧
      x.id = n.id ∧ x.faded = n.faded.dropClosing ∧
        ∃ d', x.declaration? = some d' ∧ d'.opening.isSome = d.opening.isSome := by
  let a := startIn .origin C
  let s : Span := ⟨c.fullSpan.start, c.span.stop⟩
  let x := n.dropClosing.moved (fun _ => s.delete) s.delete
  obtain ⟨us, hus, htokens, hdropped, d', hd', hopening⟩ := Node.tokens_dropClosing hformed hd hclosing
  have hclosed : Token.Strung (Token.after a us) [c] :=
    (Token.strung_append.mp (htokens ▸ h.tokens)).2
  have hstart : s.start = Token.after a us := congrArg Span.start hclosed.fullSpan
  have hstop : s.stop = Lexeme.after s.start (c.leading ++ [c.toLexeme]) := by
    rw [Token.Strung, Token.lexemesOf_cons, Token.lexemesOf_nil, List.append_nil, Token.lexemes,
      Lexeme.strung_append, Lexeme.strung_cons] at hclosed
    show c.span.stop = _
    rw [hclosed.2.1, hstart, Lexeme.after_append]
    rfl
  have hroot : (tree.closingDropped n.id d).root = plug (C.map (pushed s.delete s.delete)) x := by
    have hupdate := root_closeGap_update h.root hnodup s Node.dropClosing
    rw [← Node.moved_dropClosing] at hupdate
    rw [Tree.closingDropped, hclosing]
    exact hupdate
  have hlexemes : Token.lexemesOf n.tokens =
      Token.lexemesOf us ++ ((c.leading ++ [c.toLexeme]) ++ c.trailing) := by
    rw [htokens, Token.lexemesOf_append]
    simp [Token.lexemes]
  refine ⟨_, x, h.deleted hroot hlexemes hstart hstop ?_, map_faded_pushed _ _ C, ?_, ?_, ?_⟩
  · rw [Node.tokens_moved, Token.lexemesOf_mapSpans, hdropped, List.map_append]
  · rw [Node.id_moved, Node.id_dropClosing]
  · rw [Node.faded_moved, Node.faded, Node.pushed, Node.moved_dropClosing]
    rfl
  · rw [Node.declaration?_moved, hd']
    exact ⟨_, rfl, by simpa [Declaration.map] using hopening⟩

theorem openingDropped (h : tree.Threads C n) (hnodup : (tree.root.descendants.map Node.id).Nodup)
    (hformed : n.Formed) (hd : n.declaration? = some d) (hopening : d.opening = some o) :
    ∃ C' x, (tree.openingDropped n.id d).Threads C' x ∧ C'.map faded = C.map faded ∧
      x.id = n.id ∧ x.tokens ≠ [] ∧ x.faded = n.faded.mapDeclaration (·.dropOpening) := by
  let a := startIn .origin C
  let s : Span := ⟨o.span.start, d.name.span.start⟩
  let m := n.mapDeclaration (·.dropOpening)
  let x := m.moved (fun _ => s.delete) s.delete
  obtain ⟨rest, hcut, hdropped⟩ := Node.tokens_dropOpening hformed hd hopening
  have hstrung := h.tokens
  rw [Token.Strung, hcut, Lexeme.strung_append, Lexeme.strung_append] at hstrung
  have hstart : s.start = Lexeme.after a o.leading := congrArg Span.start hstrung.2.1.1
  have hstop : s.stop = Lexeme.after s.start (o.toLexeme :: (o.trailing ++ d.name.leading)) := by
    rw [hstart]
    exact congrArg Span.start hstrung.2.2.1
  have hmoved : m.moved (fun _ => s.delete) s.delete =
      (n.moved (fun _ => s.delete) s.delete).mapDeclaration (·.dropOpening) :=
    Node.moved_mapDeclaration (fun d => d.map_dropOpening _ _) n
  have hroot : (tree.openingDropped n.id d).root = plug (C.map (pushed s.delete s.delete)) x := by
    have hupdate := root_closeGap_update h.root hnodup s (·.mapDeclaration (·.dropOpening))
    rw [← hmoved] at hupdate
    rw [Tree.openingDropped, hopening]
    exact hupdate
  refine ⟨_, x, h.deleted hroot hcut hstart hstop ?_, map_faded_pushed _ _ C, ?_, ?_, ?_⟩
  · rw [Node.tokens_moved, Token.lexemesOf_mapSpans, hdropped, List.map_append]
  · rw [Node.id_moved, Node.id_mapDeclaration]
  · intro hnone
    have hlexemes := congrArg Token.lexemesOf hnone
    rw [Node.tokens_moved, Token.lexemesOf_mapSpans, hdropped] at hlexemes
    simp at hlexemes
  · rw [Node.faded_moved]
    exact Node.moved_mapDeclaration (fun d => d.map_dropOpening _ _) n

end Tree.Threads

namespace Tree.Sound

variable {tree : Tree} {n : Node} {d d' : Declaration} {c : Token}

theorem exchanged_unwrapped (h : tree.Sound []) (hstrung : tree.root.Strung .origin)
    (hn : n ∈ tree.root.descendants) (hd : n.declaration? = some d) (hopening : d.opening ≠ none)
    (hclosing : d.closing = some c)
    (hd' : (tree.closingDropped n.id d).declaration n.id = .ok d') :
    Exchanged n (n.faded.dropClosing.mapDeclaration (·.dropOpening)) tree
      (((tree.closingDropped n.id d).openingDropped n.id d').respan n.id) := by
  obtain ⟨C, hroot⟩ := Node.exists_plug hn
  have hdropped := h.closingDropped n.id d
  obtain ⟨C₁, m, hthreads, hC₁, hid, hm, d₁, hd₁, hopening₁⟩ :=
    (threads_of_strung hstrung hroot).closingDropped h.nodup (h.formed n hn) hd hclosing
  have hmem : m ∈ (tree.closingDropped n.id d).root.descendants := hthreads.root ▸ mem_plug C₁ m
  obtain rfl : d' = d₁ := by
    have hfind := hdropped.find?_of_mem hmem
    rw [hid] at hfind
    exact Except.ok.inj (hd'.symm.trans (declaration_of_find? hfind hd₁))
  obtain ⟨o, ho⟩ : ∃ o, d'.opening = some o := by
    rw [← Option.isSome_iff_exists, hopening₁]
    exact Option.isSome_iff_ne_none.mpr hopening
  obtain ⟨C₂, x, hlast, hC₂, hid₂, hne, hx⟩ :=
    hthreads.openingDropped hdropped.nodup (hdropped.formed m hmem) hd₁ ho
  rw [hid] at hlast hid₂
  have hexchanged := hlast.exchanged hroot h.nodup (hdropped.openingDropped n.id d').nodup
    (hC₂.trans hC₁) hid₂ hne
  rwa [hx, hm] at hexchanged

end Tree.Sound

namespace Node

variable {n : Node} {d : Declaration}

theorem faded_openComment (p q : Position) (n : Node) :
    (n.mapDeclaration (·.openComment p)).faded =
      (n.faded.mapDeclaration (·.openComment q)).faded := by
  simp only [Declaration.openComment_eq, faded, pushed_opened, pushed_pushed]
  rfl

theorem faded_closeComment (p q : Position) (n : Node) :
    (n.closeComment p).faded = (n.faded.closeComment q).faded := by
  have hclosed : ∀ (p : Position) (n : Node),
      (n.closeComment p).faded = n.faded.closedBy (Token.commentEnd p).faded := by
    intro p n
    rw [closeComment_eq, faded, pushed, moved_closedBy]
    rfl
  rw [hclosed, hclosed, faded, faded, pushed_pushed]
  rfl

/-- A comment is opened between what leads a declaration and its name. -/
theorem lexemesOf_openComment (hformed : n.Formed) (hd : n.declaration? = some d)
    (hopening : d.opening = none) (p : Position) : ∃ rest,
      Token.lexemesOf n.tokens = d.name.leading ++ d.name.toLexeme :: rest ∧
      Token.lexemesOf (n.mapDeclaration (·.openComment p)).tokens = d.name.leading ++
        ([.place .openComment ['/', '*'] p, .place .whitespace [' '] (p.advance ['/', '*'])] ++
          d.name.toLexeme :: rest) := by
  have helements := hformed.elements_declaration hd
  let ts := d.value.tokens ++
    ((d.important.map Node.tokens).getD [] ++ d.semicolon.toList ++ d.closing.toList)
  refine ⟨d.name.trailing ++ Token.lexemesOf (d.colon :: ts), ?_, ?_⟩
  · rw [← n.tokens_eq, helements, Declaration.tokensOf_elements, hopening]
    simp [ts, Token.lexemes]
  · rw [mapDeclaration_of hd, tokens_mk, Declaration.tokensOf_elements]
    simp [ts, Token.lexemes, Declaration.openComment, Token.place, Token.ofLexeme, blankTrivia]

/-- A comment that is opened leaves the last token of a declaration. -/
theorem getLast?_openComment (hformed : n.Formed) (hd : n.declaration? = some d) (p : Position) :
    (n.mapDeclaration (·.openComment p)).tokens.getLast? = n.tokens.getLast? := by
  have helements := hformed.elements_declaration hd
  rw [← n.tokens_eq, helements, mapDeclaration_of hd, tokens_mk, Declaration.tokensOf_elements,
    Declaration.tokensOf_elements]
  cases d.opening <;> simp [Declaration.openComment, List.getLast?_cons_cons]

/-- A comment is closed between the last token of a declaration and what trails it. -/
theorem lexemesOf_closeComment (hformed : n.Formed) (hd : n.declaration? = some d)
    (hclosing : d.closing = none) (p : Position) : ∃ us t, n.tokens = us ++ [t] ∧
      Token.lexemesOf n.tokens = Token.lexemesOf us ++ t.leading ++ [t.toLexeme] ++ t.trailing ∧
      Token.lexemesOf (n.closeComment p).tokens =
        Token.lexemesOf us ++ t.leading ++ [t.toLexeme] ++
          ([.place .whitespace [' '] p, .place .closeComment ['*', '/'] (p.advance [' '])] ++
            t.trailing) := by
  have hne : n.tokens ≠ [] := by
    have helements := hformed.elements_declaration hd
    rw [← n.tokens_eq, helements, Declaration.tokensOf_elements]
    simp
  obtain ⟨us, t, htokens⟩ := (List.eq_nil_or_concat n.tokens).resolve_left hne
  rw [List.concat_eq_append] at htokens
  refine ⟨us, t, htokens, ?_, ?_⟩
  · rw [htokens, Token.lexemesOf_append]
    simp [Token.lexemes]
  · rw [closeComment_eq, tokens_closedBy hformed hd hclosing rfl, trailing, htokens, mapLast_concat,
      Token.lexemesOf_append, Token.lexemesOf_append]
    simp [Token.lexemes, Token.cutTrailing, Token.commentEnd, Token.place, Token.ofLexeme, blankTrivia]

end Node

namespace Tree.Threads

variable {tree : Tree} {C : List Frame} {n : Node} {d : Declaration}

theorem commentOpened (h : tree.Threads C n) (hsound : tree.Sound []) (hformed : n.Formed)
    (hd : n.declaration? = some d) (hopening : d.opening = none)
    (hahead : ∀ l ∈ d.name.leading, l.span.start < d.name.span.start)
    (hclear : ∀ F ∈ C, ∀ r ∈ Element.spansOf F.front, r.start < d.name.span.start) :
    ∃ C' x, ((tree.makeRoom n.id (some (.ofText d.name.span.start ['/', '*', ' ']))).update n.id
        (·.mapDeclaration (·.openComment d.name.span.start))).Threads C' x ∧
      C'.map faded = C.map faded ∧ x.id = n.id ∧
        x.tokens.getLast?.map (·.text) = n.tokens.getLast?.map (·.text) ∧
        x.faded = (n.faded.mapDeclaration (·.openComment default)).faded ∧
          ∃ d', x.declaration? = some d' ∧ (d.closing = none → d'.closing = none) := by
  let p := d.name.span.start
  let s := Span.ofText p ['/', '*', ' ']
  let onNode := tree.grow n.id s
  have hroot := hsound.root_makeRoom_update h.root s (·.mapDeclaration (·.openComment p))
  let m := n.moved onNode s.insert
  let x := m.mapDeclaration (·.openComment p)
  let comment : List Lexeme :=
    [.place .openComment ['/', '*'] p, .place .whitespace [' '] (p.advance ['/', '*'])]
  have hm : m.declaration? = some (d.map (·.moved onNode s.insert) (·.mapSpans s.insert)) := by
    rw [Node.declaration?_moved, hd]
    rfl
  have hmformed : m.Formed := hformed.of_skeleton (n.skeleton_moved onNode s.insert)
  obtain ⟨rest, hcut, -⟩ := Node.lexemesOf_openComment hformed hd hopening p
  obtain ⟨rest', hcut', hopened⟩ := Node.lexemesOf_openComment hmformed hm
    (by simp [Declaration.map, hopening]) p
  have hrest : rest' = rest.map (·.moved s.insert) := by
    rw [Node.tokens_moved, Token.lexemesOf_mapSpans, hcut, List.map_append] at hcut'
    exact (List.cons_eq_cons.mp (List.append_inj hcut' (by simp [Declaration.map])).2).2.symm
  have hstart : s.start = Lexeme.after (startIn .origin C) d.name.leading := by
    have hstrung := h.tokens
    rw [Token.Strung, hcut, Lexeme.strung_append] at hstrung
    exact congrArg Span.start hstrung.2.1
  have hcomment : Lexeme.Strung s.start comment := by
    show Lexeme.Strung p comment
    simp [comment, Lexeme.place, Span.ofText]
  have hx : Token.lexemesOf x.tokens = d.name.leading.map (·.moved s.insert) ++
      (comment ++ (d.name.toLexeme :: rest).map (·.moved s.insert)) := by
    rw [List.map_cons, ← hrest, ← Token.leading_mapSpans]
    exact hopened
  have hread := Node.declaration?_mapDeclaration hm
    ((hmformed.of_declaration? hm).2.1.openComment p)
  refine ⟨_, x, h.inserted hroot hcut hahead hstart hcomment rfl hclear hx,
    map_faded_pushed _ _ C, by simp [x, m], ?_, ?_, _, hread, ?_⟩
  · rw [Node.getLast?_openComment hmformed hm, Node.tokens_moved, List.getLast?_map, Option.map_map]
    rfl
  · rw [Node.faded_openComment p default, Node.faded_moved]
  · intro hclosing
    simp [Declaration.openComment, Declaration.map, hclosing]

theorem commentClosed (h : tree.Threads C n) (hsound : tree.Sound []) (hformed : n.Formed)
    (hd : n.declaration? = some d) (hclosing : d.closing = none) {t : Token}
    (hlast : n.tokens.getLast? = some t) (ht : t.text ≠ []) :
    ∃ C' x, ((tree.makeRoom n.id (some (.ofText t.span.stop [' ', '*', '/']))).update n.id
        (·.closeComment t.span.stop)).Threads C' x ∧
      C'.map faded = C.map faded ∧ x.id = n.id ∧ x.tokens ≠ [] ∧
        x.faded = (n.faded.closeComment default).faded := by
  let p := t.span.stop
  let s := Span.ofText p [' ', '*', '/']
  let onNode := tree.grow n.id s
  have hroot := hsound.root_makeRoom_update h.root s (·.closeComment p)
  let m := n.moved onNode s.insert
  let x := m.closeComment p
  let comment : List Lexeme :=
    [.place .whitespace [' '] p, .place .closeComment ['*', '/'] (p.advance [' '])]
  have hm : m.declaration? = some (d.map (·.moved onNode s.insert) (·.mapSpans s.insert)) := by
    rw [Node.declaration?_moved, hd]
    rfl
  have hmformed : m.Formed := hformed.of_skeleton (n.skeleton_moved onNode s.insert)
  obtain ⟨us, u, htokens, hcut, -⟩ := Node.lexemesOf_closeComment hformed hd hclosing p
  obtain rfl : u = t := by
    rw [htokens, List.getLast?_concat] at hlast
    exact Option.some.inj hlast
  obtain ⟨us', u', htokens', -, hclosed⟩ := Node.lexemesOf_closeComment hmformed hm
    (by simp [Declaration.map, hclosing]) p
  obtain ⟨rfl, hu⟩ : us' = us.map (·.mapSpans s.insert) ∧ u' = u.mapSpans s.insert := by
    rw [Node.tokens_moved, htokens, List.map_append] at htokens'
    obtain ⟨hfront, hback⟩ := List.append_inj' htokens' rfl
    exact ⟨hfront.symm, (List.cons_eq_cons.mp hback).1.symm⟩
  let front := Token.lexemesOf us ++ u.leading ++ [u.toLexeme]
  have hstart : s.start = Lexeme.after (startIn .origin C) front := by
    have hstrung := h.tokens
    rw [Token.Strung, hcut, Lexeme.strung_append, Lexeme.strung_append, Lexeme.strung_cons] at hstrung
    show u.span.stop = _
    rw [hstrung.1.2.1]
    exact (Lexeme.after_append _ (Token.lexemesOf us ++ u.leading) [u.toLexeme]).symm
  have hahead : ∀ l ∈ front, l.span.start < s.start := by
    have hstrung := h.tokens
    rw [Token.Strung, hcut, Lexeme.strung_append] at hstrung
    rw [hstart]
    exact hstrung.1.start_lt_after ht
  have hcomment : Lexeme.Strung s.start comment := by
    show Lexeme.Strung p comment
    simp [comment, Lexeme.place, Span.ofText]
  have hx : Token.lexemesOf x.tokens =
      front.map (·.moved s.insert) ++ (comment ++ u.trailing.map (·.moved s.insert)) := by
    refine hclosed.trans ?_
    rw [hu, Token.lexemesOf_mapSpans]
    simp [front, comment, Token.mapSpans, Lexeme.moved]
  refine ⟨_, x, h.inserted hroot hcut hahead hstart hcomment rfl
    (h.clear_of_ahead hcut (by simp) hahead) hx,
    map_faded_pushed _ _ C, by simp [x, m], ?_, ?_⟩
  · intro hnone
    rw [hnone] at hx
    simp [comment] at hx
  · rw [Node.faded_closeComment p default, Node.faded_moved]

end Tree.Threads

theorem Tree.Sound.exchanged_wrapped {tree : Tree} {C : List Frame} {n : Node} {d : Declaration}
    (h : tree.Sound []) (hstrung : tree.root.Strung .origin) (hroot : tree.root = plug C n)
    (hd : n.declaration? = some d) (hopening : d.opening = none) (hclosing : d.closing = none)
    (hahead : ∀ l ∈ d.name.leading, l.span.start < d.name.span.start)
    (hclear : ∀ F ∈ C, ∀ r ∈ Element.spansOf F.front, r.start < d.name.span.start)
    (hlast : ∀ t ∈ n.tokens.getLast?, t.text ≠ []) :
    Exchanged n ((n.faded.mapDeclaration (·.openComment default)).closeComment default).faded tree
      ((tree.wrapped n.id d).respan n.id) := by
  have hn : n ∈ tree.root.descendants := hroot ▸ mem_plug C n
  let start := d.name.span.start
  let opened := (tree.makeRoom n.id (some (.ofText start ['/', '*', ' ']))).update n.id
    (·.mapDeclaration (·.openComment start))
  have hopened : opened.Sound [] := (h.alike (.makeRoom _ _ tree)).refit n.id
    fun m => m.refits_openComment start
  obtain ⟨C₁, m, hthreads, hC₁, hid, htext, hm, d₁, hd₁, hclosing₁⟩ :=
    (threads_of_strung hstrung hroot).commentOpened h (h.formed n hn) hd hopening hahead hclear
  have hmem : m ∈ opened.root.descendants := hthreads.root ▸ mem_plug C₁ m
  have hmformed := hopened.formed m hmem
  have hfind : opened.find? n.id = some m := hid ▸ hopened.find?_of_mem hmem
  obtain ⟨us, t, htokens, -⟩ := Node.lexemesOf_closeComment hmformed hd₁ (hclosing₁ hclosing) default
  have ht : m.tokens.getLast? = some t := by rw [htokens, List.getLast?_concat]
  have hfilled : t.text ≠ [] := by
    rw [ht] at htext
    obtain ⟨u, hu, hsame⟩ := Option.map_eq_some_iff.mp htext.symm
    rw [← show u.text = t.text from hsame]
    exact hlast u hu
  obtain ⟨C₂, x, hclosed, hC₂, hid₂, hne, hx⟩ :=
    hthreads.commentClosed hopened hmformed hd₁ (hclosing₁ hclosing) ht hfilled
  have hwrapped : tree.wrapped n.id d = (opened.makeRoom n.id
      (some (.ofText t.span.stop [' ', '*', '/']))).update n.id (·.closeComment t.span.stop) := by
    let stop := (((opened.find? n.id).bind (·.tokens.getLast?)).map (·.span.stop)).getD start
    have hstop : stop = t.span.stop := by
      show (((opened.find? n.id).bind (·.tokens.getLast?)).map (·.span.stop)).getD start = _
      rw [hfind, Option.bind_some, ht]
      rfl
    rw [← hstop]
    rfl
  rw [hid] at hclosed hid₂
  rw [← hwrapped] at hclosed
  have hexchanged := hclosed.exchanged hroot h.nodup (h.wrapped n.id d).nodup (hC₂.trans hC₁) hid₂ hne
  rw [hx, hm] at hexchanged
  have hfaded : ((n.faded.mapDeclaration (·.openComment default)).faded.closeComment default).faded =
      ((n.faded.mapDeclaration (·.openComment default)).closeComment default).faded :=
    (Node.faded_closeComment default default _).symm
  rwa [hfaded] at hexchanged

end CssTree
