import CssTree.Proofs.Fragment
import CssTree.Proofs.Session
import CssTree.Proofs.Tree.Unspanned

namespace CssTree

/-- The text that a prelude gets: one space in front of it keeps it apart from the name of the
at-rule if there was no prelude. -/
def Node.preludeText (prelude : Node) (t : Text) : Text :=
  if prelude.tokens.isEmpty && !t.head?.any isBlank then ' ' :: t else t

/-- An edit that reads a node anew as something: from a text, between what is kept at the two ends
of the text of the node. -/
inductive Mutation.Respells (tree : Tree) :
    Mutation → Node → Production → Text → Text → Text → Prop
  | text {id : NodeId} {t : Text} {n : Node} {q : Production} :
      tree.get id = .ok n → tree.production? n = some q →
      Respells tree (.replaceText id t) n q [] t []
  | selectors {id : NodeId} {t : Text} {n list : Node} :
      tree.get id = .ok n → n.selectorList = .ok list →
      Respells tree (.setSelectors id t) list .selectorList list.leadingText t list.trailingText
  | value {id : NodeId} {t : Text} {d : Declaration} : tree.declaration id = .ok d →
      Respells tree (.setValue id t) d.value .values d.value.leadingText t d.value.trailingText
  | keyframes {id : NodeId} {t : Text} {n list : Node} :
      tree.get id = .ok n → n.keyframeSelectors? = some list →
      Respells tree (.setKeyframeSelectors id t) list .keyframeSelectors list.leadingText t
        list.trailingText
  | prelude {id : NodeId} {t : Text} {n prelude : Node} :
      tree.get id = .ok n → n.prelude? = some prelude →
      Respells tree (.setPrelude id t) prelude (preludeProduction n.kind).1 prelude.leadingText
        (prelude.preludeText t) prelude.trailingText

namespace Tree

variable {tree : Tree} {n : Node}

theorem root_closeGap_kept (r : Span) (hnodup : (tree.root.descendants.map Node.id).Nodup)
    (hn : n ∈ tree.root.descendants) : (tree.closeGap r (some n.id)).root =
      (tree.root.moved (fun _ => r.delete) r.delete).update n.id fun _ => n := by
  rw [closeGap]
  split
  next h =>
    have hmoved : tree.root.moved (fun _ => r.delete) r.delete = tree.root :=
      Node.moved_eq_self (fun _ _ => Span.delete_of_isEmpty h _) fun t _ =>
        Token.mapSpans_eq_self fun _ _ => Span.delete_of_isEmpty h _
    rw [hmoved, Node.update_congr (g := fun m => m) hnodup hn rfl, Node.update_id]
  next => exact Node.moveSpans_frozen hnodup hn fun i => by simp

theorem root_makeRoom_own {id : NodeId} (h : tree.find? id = some n) :
    ∃ onNode onToken, (tree.makeRoom id none).root =
      tree.root.moveSpans (fun i => decide (i = id)) onNode onToken := by
  rw [makeRoom, h]
  exact ⟨_, _, rfl⟩

/-- A node gets another span, and the spans around it are moved. -/
theorem Sound.root_resize {loose : List Entry} (h : tree.Sound loose)
    (hn : n ∈ tree.root.descendants) (span : Span) :
    ∃ onNode onToken, (tree.resize n.id span).root =
      (tree.root.moved onNode onToken).update n.id fun _ => { n with span := span } := by
  let σ : Node → Node := (·.moved (fun _ => n.span.delete) n.span.delete)
  let closed := tree.closeGap n.span (some n.id)
  let resized := closed.update n.id ({ · with span := span })
  let n' : Node := { n with span := span }
  have hspan : ∀ m : Node, ({ m with span := span } : Node).skeleton = m.skeleton := by
    rintro ⟨id, kind, old, es⟩
    rfl
  have hresized : resized.Sound loose :=
    (h.alike (.closeGap n.span (some n.id) tree)).alike (.update n.id hspan closed)
  have hnodup : ((σ tree.root).descendants.map Node.id).Nodup := by
    rw [Node.ids_moved]
    exact h.nodup
  have hmem : σ n ∈ (σ tree.root).descendants := Node.mem_moved _ _ hn
  have hid : (σ n).id = n.id := Node.id_moved _ _ n
  have hroot : resized.root = (σ tree.root).update (σ n).id fun _ => n' := by
    show closed.root.update n.id _ = _
    rw [root_closeGap_kept n.span h.nodup hn, ← hid]
    exact Node.update_const (x := n) hnodup hmem hid.symm ({ · with span := span })
  have hfind : resized.find? n.id = some n' := by
    have hin : n' ∈ resized.root.descendants := by
      rw [hroot]
      exact Node.mem_update_self (fun _ => n') hnodup hmem
    exact hresized.find?_of_mem hin
  obtain ⟨onNode, onToken, hroom⟩ := root_makeRoom_own hfind
  refine ⟨fun i r => onNode i (n.span.delete r), fun r => onToken (n.span.delete r), ?_⟩
  rw [resize, h.find?_of_mem hn]
  show (resized.makeRoom n.id none).root = _
  rw [hroom, hroot, Node.moveSpans_update (x := n') hnodup hmem hid.symm
    (by rw [← hroot]; exact hresized.nodup) (fun i => by rw [hid]), Node.moved_moved, hid]

/-- A node is read anew; around it only spans are moved. -/
theorem Sound.root_replacedWith {placed : Node} (h : tree.Sound (placed.entries none))
    (hn : n ∈ tree.root.descendants) (hplaced : ∀ x ∈ placed.descendants, x.Formed) :
    ∃ onNode onToken, (tree.replacedWith n.id placed).root.unspanned =
      ((tree.root.moved onNode onToken).update n.id fun m =>
        { placed with id := m.id }).unspanned := by
  let content : Node → Node := ({ · with kind := placed.kind, elements := placed.elements })
  have hput : (tree.putContent n.id placed).Sound [] := h.putContent hn hplaced
  have hmem : content n ∈ (tree.putContent n.id placed).root.descendants :=
    Node.mem_update_self content h.nodup hn
  obtain ⟨onNode, onToken, hresize⟩ := hput.root_resize hmem placed.span
  let elements := Element.moveSpansOf (fun _ => false) onNode onToken placed.elements
  let moved : Node → Node := ({ · with kind := placed.kind, elements })
  have hcontent : ∀ m, (content m).moved onNode onToken = moved (m.moved onNode onToken) := by
    intro m
    cases m
    rw [Node.moved_mk, Node.moved_mk]
  have hroot : ((tree.putContent n.id placed).resize n.id placed.span).root =
      (tree.root.moved onNode onToken).update n.id fun m => { placed with id := m.id } := by
    have hmoved := Node.mem_moved onNode onToken hn
    have hcongr := Node.update_congr (f := fun _ => { placed with id := n.id })
      (g := fun m => { placed with id := m.id }) (by rw [Node.ids_moved]; exact h.nodup) hmoved
      (by rw [Node.id_moved])
    have hupdate : (tree.putContent n.id placed).root = tree.root.update n.id content := rfl
    rw [Node.id_moved] at hcongr
    refine hresize.trans ?_
    rw [hupdate, Node.moved_update hcontent, ← hcongr]
    exact Node.update_update (f := moved) (fun _ => rfl) (fun _ => { placed with id := n.id }) _
  refine ⟨onNode, onToken, ?_⟩
  rw [← hroot]
  unfold Tree.replacedWith
  extract_lets resized
  split
  · exact Node.unspanned_update Node.unspanned_respan resized.root
  · rfl

/-- A node that is read anew keeps its id, and holds what was read. -/
theorem Sound.find?_replacedWith {placed : Node} (h : tree.Sound (placed.entries none))
    (hn : n ∈ tree.root.descendants) (hplaced : ∀ x ∈ placed.descendants, x.Formed) :
    ∃ n', (tree.replacedWith n.id placed).find? n.id = some n' ∧
      n'.unspanned = ({ placed with id := n.id } : Node).unspanned := by
  let content : Node → Node := fun m => { placed with id := m.id }
  obtain ⟨onNode, onToken, hroot⟩ := h.root_replacedWith hn hplaced
  have hfind : ((tree.root.moved onNode onToken).update n.id content).find? n.id =
      some (content (n.moved onNode onToken)) := by
    have hn' : tree.root.find? n.id = some n := h.find?_of_mem hn
    rw [Node.find?_update n.id (f := content) (fun _ => rfl), Node.find?_moved, hn']
    rfl
  have hfind' := congrArg (Node.find? n.id) hroot
  rw [Node.find?_unspanned, Node.find?_unspanned, hfind] at hfind'
  obtain ⟨n', hn', hsame⟩ := Option.map_eq_some_iff.mp hfind'
  have hid : (n.moved onNode onToken).id = n.id := n.id_moved _ _
  exact ⟨n', hn', hsame.trans (by rw [← hid])⟩

/-- The text around a node that is read anew stays, and the node keeps its id. -/
theorem Sound.render_replacedWith {placed : Node} (h : tree.Sound (placed.entries none))
    (hn : n ∈ tree.root.descendants) (hplaced : ∀ x ∈ placed.descendants, x.Formed) :
    ∃ front back n', tree.root.ahead? n.id = some front ∧
      tree.render = Token.renderAll front ++ n.render ++ Token.renderAll back ∧
      (tree.replacedWith n.id placed).find? n.id = some n' ∧ n'.render = placed.render ∧
      (tree.replacedWith n.id placed).render =
        Token.renderAll front ++ placed.render ++ Token.renderAll back := by
  have hcontent : ∀ id, ({ placed with id } : Node).tokens = placed.tokens := by
    intro id
    rw [← Node.tokens_eq, ← Node.tokens_eq]
  obtain ⟨n', hfind, hsame⟩ := h.find?_replacedWith hn hplaced
  obtain ⟨onNode, onToken, hroot⟩ := h.root_replacedWith hn hplaced
  obtain ⟨front, back, hahead, htokens, hupdate⟩ :=
    Node.ahead?_split_moved h.nodup hn onNode onToken
  refine ⟨front, back, n', hahead, ?_, hfind, ?_, ?_⟩
  · rw [Tree.render, Node.render, htokens]
    simp only [Token.renderAll_append, Node.render]
  · rw [Node.render, Node.tokens_of_unspanned hsame, hcontent, Node.render]
  · rw [Tree.render, Node.render, Node.tokens_of_unspanned hroot, hupdate, hcontent]
    simp only [Token.renderAll_append, Token.renderAll_mapSpans, Node.render]

/-- What a node is read anew from becomes its text, unless there are only comments. -/
theorem Sound.text_of_reads_iff {tree' : Tree} {q : Production} {t : Text} {fragment : Node}
    (h : tree.Sound []) (hreads : tree.reads q t = (fragment, tree')) :
    let lost := q.ReadsNothing ∧ (Stream.ofText tree.config t).OnlyComments
    lost ∧ fragment.render = [] ∨ ¬lost ∧ fragment.render = t := by
  intro lost
  obtain ⟨rfl, -⟩ := Prod.mk.inj hreads
  by_cases hsheet : q = .styleSheet
  · subst hsheet
    have hrender : (Production.styleSheet.parse tree.config tree.arena t).1.render = t :=
      (Grammar.complete_styleSheet tree.config h.fresh t).2.1
    exact Or.inr ⟨fun hlost => by simp [lost, Production.ReadsNothing] at hlost, hrender⟩
  · let config := if q = .declaration then { tree.config with comments := true } else tree.config
    have hparse : (q.parse config tree.arena t).1 =
        (q.fragment.run (.start config tree.arena t)).1 := by
      show (q.parser.run (.start config tree.arena t)).1 = _
      rw [Production.parser, if_neg hsheet]
    have hconfig : q.ReadsNothing → config = tree.config := by
      rintro hq
      have hne : q ≠ .declaration := by
        rintro rfl
        simp [Production.ReadsNothing] at hq
      exact if_neg hne
    have hiff := q.render_fragment hsheet config h.fresh t
    show lost ∧ (q.parse config tree.arena t).1.render = [] ∨
      ¬lost ∧ (q.parse config tree.arena t).1.render = t
    rw [hparse]
    by_cases hlost : lost
    · refine Or.inl ⟨hlost, ?_⟩
      have hnot : (q.fragment.run (.start config tree.arena t)).1.render ≠ t := fun hrender =>
        hiff.mp hrender (hconfig hlost.1 ▸ hlost)
      have hnone : (q.fragment.run (.start config tree.arena t)).1.tokens = [] := by
        by_contra hfilled
        exact hnot (q.render_fragment_of_tokens hsheet config h.fresh t hfilled)
      rw [Node.render, hnone, Token.renderAll_nil]
    · exact Or.inr ⟨hlost, hiff.mpr fun hcomments =>
        hlost ⟨hcomments.1, hconfig hcomments.1 ▸ hcomments.2⟩⟩

end Tree

namespace Edit

variable {tree : Tree} {n : Node} {q : Production} {t : Text}

/-- An edit that reads a node anew and does not fail. -/
theorem replaceCore_ok {expected : String} (hsound : tree.Sound [])
    (hn : n ∈ tree.root.descendants)
    (hok : ((replaceCore n t q expected).run.run ⟨tree, []⟩).1 = .ok ()) :
    ∃ fragment tree', tree.reads q (n.leadingText ++ t ++ n.trailingText) = (fragment, tree') ∧
      (replaceCore n t q expected).run.run ⟨tree, []⟩ =
        (.ok (), ⟨tree'.replacedWith n.id (fragment.place n.span.start), [.replaced n.id]⟩) := by
  obtain ⟨fragment, tree', hreads, -, hrun⟩ := validFragment_ok hok
  exact ⟨fragment, tree', hreads, hrun.trans (replaceWith_run hsound hn hreads)⟩

end Edit

namespace Mutation

variable {tree : Tree} {m : Mutation} {target : Node} {q : Production}
  {lead text trail : Text}

theorem Respells.exists_core (h : m.Respells tree target q lead text trail) :
    ∃ core, target.render = lead ++ core ++ trail := by
  cases h with
  | text => exact ⟨target.render, by simp⟩
  | value => exact Node.exists_core _
  | _ => exact target.exists_core

/-- An edit that reads a node anew reads a node of the tree, and puts what it reads there. -/
theorem Respells.steps (hsound : tree.Sound []) (h : m.Respells tree target q lead text trail)
    (hok : (m.steps.run.run ⟨tree, []⟩).1 = .ok ()) :
    target ∈ tree.root.descendants ∧ ∃ fragment tree',
      tree.reads q (lead ++ text ++ trail) = (fragment, tree') ∧
        m.steps.run.run ⟨tree, []⟩ =
          (.ok (), ⟨tree'.replacedWith target.id (fragment.place target.span.start),
            [.replaced target.id]⟩) := by
  cases h with
  | @text id _ _ _ hget hp =>
    obtain ⟨hn, rfl⟩ := Tree.mem_of_get hget
    obtain ⟨fragment, tree', hreads⟩ : ∃ fragment tree', tree.reads q text = (fragment, tree') :=
      ⟨_, _, rfl⟩
    refine ⟨hn, fragment, tree', by simpa using hreads, ?_⟩
    rw [Mutation.steps, Edit.replaceText, Edit.run_tree, hget, Edit.run_of (Edit.liftM_run target),
      hp]
    exact (Edit.run_of (Edit.fragment_run hreads) _).trans (Edit.replaceWith_run hsound hn hreads)
  | @selectors id _ n _ hget hlist =>
    have hn : target ∈ tree.root.descendants :=
      Node.mem_descendants_trans (Tree.mem_of_get hget).1 (Node.mem_of_selectorList hlist)
    have hsteps : (Mutation.setSelectors id text).steps.run.run ⟨tree, []⟩ =
        (Edit.replaceCore target text .selectorList "selector list").run.run ⟨tree, []⟩ := by
      rw [Mutation.steps, Edit.setSelectors, Edit.run_tree, hget, Edit.run_of (Edit.liftM_run n),
        hlist, Edit.run_of (Edit.liftM_run target)]
    rw [hsteps] at hok ⊢
    exact ⟨hn, Edit.replaceCore_ok hsound hn hok⟩
  | @value id _ d hget =>
    obtain ⟨n, hn, rfl, hd⟩ := Tree.mem_of_declaration hget
    have hvalue : d.value ∈ n.children := by
      rw [(hsound.formed n hn).children_declaration hd]
      exact List.mem_cons_self
    have hmem := Node.mem_descendants_trans hn (Node.mem_descendants_child hvalue)
    have hsteps : (Mutation.setValue n.id text).steps.run.run ⟨tree, []⟩ =
        (if lexesToAny [.semicolon] text then throw (.invalidFragment "declaration value" text)
          else Edit.replaceCore d.value text .values "declaration value" : Edit Unit).run.run
            ⟨tree, []⟩ := by
      rw [Mutation.steps, Edit.setValue, Edit.run_tree, hget, Edit.run_of (Edit.liftM_run d)]
      split <;> rfl
    rw [hsteps] at hok ⊢
    split at hok
    next => cases hok
    next hplain =>
      rw [if_neg hplain]
      exact ⟨hmem, Edit.replaceCore_ok hsound hmem hok⟩
  | @keyframes id _ n _ hget hlist =>
    have hn : target ∈ tree.root.descendants := Node.mem_descendants_trans (Tree.mem_of_get hget).1
      (Node.mem_of_head? (Node.head?_of_keyframeSelectors? hlist).2)
    have hsteps : (Mutation.setKeyframeSelectors id text).steps.run.run ⟨tree, []⟩ =
        (Edit.replaceCore target text .keyframeSelectors "keyframe selectors").run.run ⟨tree, []⟩ := by
      rw [Mutation.steps, Edit.setKeyframeSelectors, Edit.run_tree, hget,
        Edit.run_of (Edit.liftM_run n), hlist]
    rw [hsteps] at hok ⊢
    exact ⟨hn, Edit.replaceCore_ok hsound hn hok⟩
  | @prelude id t n _ hget hprelude =>
    have hn : target ∈ tree.root.descendants := Node.mem_descendants_trans
      (Tree.mem_of_get hget).1 (Node.mem_of_head? (Node.head?_of_prelude? hprelude))
    have hsteps : (Mutation.setPrelude id t).steps.run.run ⟨tree, []⟩ =
        (if lexesToAny [.openBrace, .closeBrace, .semicolon] t then
          throw (.invalidFragment (preludeProduction n.kind).2 t)
          else Edit.replaceCore target (target.preludeText t) (preludeProduction n.kind).1
            (preludeProduction n.kind).2 : Edit Unit).run.run ⟨tree, []⟩ := by
      rw [Mutation.steps, Edit.setPrelude, Edit.run_tree, hget, Edit.run_of (Edit.liftM_run n),
        hprelude]
      dsimp only
      split <;> rfl
    rw [hsteps] at hok ⊢
    split at hok
    next => cases hok
    next hplain =>
      rw [if_neg hplain]
      exact ⟨hn, Edit.replaceCore_ok hsound hn hok⟩

end Mutation

namespace Session

/-- In every session, an edit that reads a node anew and does not fail changes the text at the node
only, and there only between the trivia that it keeps at the ends. The node has its id afterwards
and the text that it was read from; but if a rule, a keyframe, values or media queries were to be
read and there are only comments, it has none. -/
theorem respelling_splices (p : Production) (config : Config) (t : Text) (calls : List Call)
    {m : Mutation} {n : Node} {q : Production} {lead text trail : Text} {change : Option Change}
    (hrespells : m.Respells (Session.run ⟨Tree.parse p config t, false⟩ calls).tree n q lead text
      trail)
    (hok : ((Session.run ⟨Tree.parse p config t, false⟩ calls).apply m).1 = .ok change) :
    let s := Session.run ⟨Tree.parse p config t, false⟩ calls
    let s' := (s.apply m).2.1
    let lost := q.ReadsNothing ∧
      (Stream.ofText s.tree.config (lead ++ text ++ trail)).OnlyComments
    change = some (.replaced n.id) ∧
      ∃ front core post n', s.tree.root.ahead? n.id = some front ∧
        n.render = lead ++ core ++ trail ∧
        s.tree.render = Token.renderAll front ++ (lead ++ core ++ trail) ++ post ∧
        s'.tree.find? n.id = some n' ∧
        s'.tree.render = Token.renderAll front ++ n'.render ++ post ∧
        (lost ∧ n'.render = [] ∨ ¬lost ∧ n'.render = lead ++ text ++ trail) := by
  intro s s' lost
  have hsound : s.tree.Sound [] := sound_run (Tree.sound_parse p config t) calls
  have hsteps : (m.steps.run.run ⟨s.tree, []⟩).1 = .ok () := by
    change Except.map _ (m.steps.run.run ⟨s.tree, []⟩).1 = .ok change at hok
    cases hresult : (m.steps.run.run ⟨s.tree, []⟩).1 with
    | ok => rfl
    | error e =>
      rw [hresult] at hok
      cases hok
  obtain ⟨hn, fragment, tree', hreads, hrun⟩ := hrespells.steps hsound hsteps
  obtain ⟨hread, hcomplete, hroot, -⟩ := hsound.reads hreads
  have hskeleton := fragment.skeleton_place n.span.start
  have hplaced : tree'.Sound ((fragment.place n.span.start).entries none) := by
    rwa [← Node.entries_skeleton, hskeleton, Node.entries_skeleton]
  obtain ⟨front, back, n', hahead, hrender, hfind, hn', hrender'⟩ := hplaced.render_replacedWith
    (hroot ▸ hn) (Node.formed_of_skeleton hcomplete.formed hskeleton)
  have htext : (fragment.place n.span.start).render = fragment.render := by
    obtain ⟨f, hplace⟩ := fragment.place_eq_moved n.span.start
    rw [hplace, Node.render_moved]
  obtain ⟨core, hcore⟩ := hrespells.exists_core
  have hafter : s'.tree = tree'.replacedWith n.id (fragment.place n.span.start) := by
    show (m.steps.run.run ⟨s.tree, []⟩).2.tree = _
    rw [hrun]
  refine ⟨?_, front, core, Token.renderAll back, n', hroot ▸ hahead, hcore, ?_, hafter ▸ hfind, ?_, ?_⟩
  · rw [apply, hrun] at hok
    exact (Except.ok.inj hok).symm
  · rw [← hcore, Tree.render, ← hroot]
    exact hrender
  · rw [hafter, hrender', hn']
  · rw [hn', htext]
    exact hsound.text_of_reads_iff hreads

/-- The value of a declaration is set; the blanks around it stay. -/
theorem respelling_splices_value :
    let s := Session.run ⟨Tree.parse .styleSheet {} "a{b: c }".toList, false⟩ []
    let m := Mutation.setValue 5 "d e".toList
    ∃ n change, m.Respells s.tree n .values [' '] "d e".toList [] ∧ (s.apply m).1 = .ok change ∧
      (∃ (front : List Token) (core post : Text) (n' : Node),
        s.tree.render = Token.renderAll front ++ ([' '] ++ core ++ []) ++ post ∧
          (s.apply m).2.1.tree.render = Token.renderAll front ++ n'.render ++ post) ∧
      (s.apply m).2.1.tree.render = "a{b: d e }".toList := by
  intro s m
  have hends : (s.tree.declaration 5).toOption.any (fun d =>
      d.value.leadingText = [' '] && d.value.trailingText = []) = true := by decide +kernel
  have hsuccess : (s.apply m).1.toOption.isSome = true := by decide +kernel
  cases hget : s.tree.declaration 5 with
  | error e => simp [hget, Except.toOption] at hends
  | ok d =>
    obtain ⟨hleading, htrailing⟩ : d.value.leadingText = [' '] ∧ d.value.trailingText = [] := by
      simpa [hget, Except.toOption] using hends
    have hrespells : m.Respells s.tree d.value .values [' '] "d e".toList [] := by
      rw [← hleading, ← htrailing]
      exact .value hget
    cases hresult : (s.apply m).1 with
    | error e => simp [hresult, Except.toOption] at hsuccess
    | ok change =>
      obtain ⟨-, front, core, post, n', -, -, hrender, -, hrender', -⟩ :=
        respelling_splices .styleSheet {} "a{b: c }".toList [] hrespells hresult
      exact ⟨d.value, change, hrespells, rfl, ⟨front, core, post, n', hrender, hrender'⟩,
        by decide +kernel⟩

/-- A value that is set to a comment gets lost where comments are read, with the blank in front of
it. -/
theorem respelling_loses_comment :
    let s : Session := ⟨Tree.parse .styleSheet { comments := true } "a{b: c}".toList, false⟩
    let m := Mutation.setValue 5 "/* x */".toList
    (s.apply m).1.toOption = some (some (.replaced 4)) ∧ s.tree.render = "a{b: c}".toList ∧
      (s.apply m).2.1.tree.render = "a{b:}".toList ∧
      (s.apply m).2.1.tree.render ≠ "a{b: /* x */}".toList := by
  decide +kernel

/-- A value with an open bracket is accepted, but what stands behind it in the text is read as part of
it: the declaration that follows is lost. -/
theorem respelling_leaks :
    let s : Session := ⟨Tree.parse .styleSheet {} "a{b:c;d:e}".toList, false⟩
    let s' := (s.apply (.setValue 5 "(".toList)).2.1
    let properties (tree : Tree) := tree.root.descendants.filterMap fun n =>
      n.declaration?.map Declaration.property
    s.tree.root.containsError = false ∧
      (s.apply (.setValue 5 "(".toList)).1.toOption = some (some (.replaced 4)) ∧
      properties s'.tree = ["b".toList, "d".toList] ∧
      properties (Tree.parse .styleSheet {} s'.tree.render) = ["b".toList] := by
  decide +kernel

/-- The rules of a keyframes rule are read as other rules when their block is read again. -/
theorem respelling_forgets_keyframes :
    let s : Session := ⟨Tree.parse .styleSheet {} "@keyframes k{from{a:b}}".toList, false⟩
    let m : Mutation := .replaceText 6 "{from{a:b}}".toList
    let s' := (s.apply m).2.1
    let kinds (tree : Tree) := (tree.find? 6).map fun n => (n.render, n.children.map Node.kind)
    (s.apply m).1.toOption = some (some (.replaced 6)) ∧
      kinds s.tree = some ("{from{a:b}}".toList, [.keyframeRule]) ∧
      kinds s'.tree = some ("{from{a:b}}".toList, [.rule]) := by
  decide +kernel

end Session

end CssTree
