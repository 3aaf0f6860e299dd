import CssTree.Proofs.Edit.Respell
import CssTree.Proofs.Tree.Placed
import CssTree.Proofs.Tree.Renumber
import CssTree.Proofs.Tree.Tailed
import CssTree.Proofs.Twin.Same

namespace CssTree

namespace Mutation

/-- The declaration that an edit changes in its place. -/
def target? : Mutation → Option NodeId
  | setValue id _ | setImportant id _ | setDisabled id _ => some id
  | _ => none

/-- What an edit answers, and what it makes of a declaration without places; nodes that are read
anew are numbered by the arena. -/
def remade (config : Config) (arena : Arena) (n : Node) (d : Declaration) :
    Mutation → Except EditError (Option Change) × Node
  | setValue _ t =>
    let text := d.value.leadingText ++ t ++ d.value.trailingText
    let value := (Production.values.parse config arena text).1
    if lexesToAny [.semicolon] t then (.error (.invalidFragment "declaration value" t), n)
    else if value.isError then (.error (.invalidFragment "declaration value" text), n)
    else (.ok (some (.replaced d.value.id)),
      n.mapDeclaration (·.setValue { value.faded with id := d.value.id }))
  | setImportant _ value =>
    if d.isImportant = value then (.ok none, n)
    else (.ok (some (.modified n.id)), n.mapDeclaration
      (·.setMark (if value then some (importantNode arena.next default).faded else none)))
  | setDisabled _ value =>
    if d.isDisabled = value then (.ok none, n)
    else (.ok (some (.modified n.id)),
      if value then ((n.mapDeclaration (·.openComment default)).closeComment default).faded
      else n.dropClosing.mapDeclaration (·.dropOpening))
  | _ => (.ok none, n)

end Mutation

theorem mapIds_importantNode (ρ : NodeId → NodeId) (id : NodeId) (p : Position) :
    (importantNode id p).mapIds ρ = importantNode (ρ id) p := by
  simp only [importantNode, Node.mapIds_mk, Element.mapIdsAll_token, Element.mapIdsAll_nil]

/-- Fragments read from one text with two arenas differ in their ids, which are all new. -/
theorem Production.parse_mapIds {p : Production} (hp : p ≠ .styleSheet) (config : Config)
    {arena arena' : Arena} {k : NodeId} (h : arena.Fresh) (h' : arena'.Fresh)
    (hk : k ≤ arena.next) (hk' : k ≤ arena'.next) (t : Text) :
    (p.parse config arena t).1.mapIds (min · k) = (p.parse config arena' t).1.mapIds (min · k) := by
  have hids : ∀ {a : Arena}, a.Fresh → k ≤ a.next →
      ∀ i ∈ (p.parse config a t).1.descendants.map Node.id, k ≤ i := by
    intro a ha hka i hi
    rw [← Node.ids_entries none, List.mem_map] at hi
    obtain ⟨e, he, rfl⟩ := hi
    exact Nat.le_trans hka ((p.complete_parse config ha t).1.grown.fresh e he).1
  exact Node.mapIds_min_of_anonymous (parse_anonymous hp config h h' t) (hids h hk) (hids h' hk')

namespace Mutation

/-- What an edit answers does not depend on the arena, and what it makes of a declaration does so
only in the ids of new nodes. -/
theorem remade_congr (m : Mutation) (config : Config) {arena arena' : Arena} {k : NodeId}
    (h : arena.Fresh) (h' : arena'.Fresh) (hk : k ≤ arena.next) (hk' : k ≤ arena'.next) (n : Node)
    (d : Declaration) :
    (m.remade config arena n d).1 = (m.remade config arena' n d).1 ∧
      (m.remade config arena n d).2.mapIds (min · k) =
        (m.remade config arena' n d).2.mapIds (min · k) := by
  cases m with
  | setValue id t =>
    let text := d.value.leadingText ++ t ++ d.value.trailingText
    let value := (Production.values.parse config arena text).1
    let value' := (Production.values.parse config arena' text).1
    have hvalue : value.mapIds (min · k) = value'.mapIds (min · k) :=
      Production.parse_mapIds (by decide) config h h' hk hk' text
    have herror : value.isError = value'.isError := by
      have hkind : ∀ x : Node, (x.mapIds (min · k)).kind = x.kind := fun x => by cases x; rfl
      rw [Node.isError, Node.isError, ← hkind value, hvalue, hkind]
    have hnamed : ({ value.faded with id := d.value.id } : Node).mapIds (min · k) =
        ({ value'.faded with id := d.value.id } : Node).mapIds (min · k) := by
      have hid : ∀ x : Node, ({ x with id := d.value.id } : Node).mapIds (min · k) =
          { x.mapIds (min · k) with id := min d.value.id k } := fun x => by cases x; rfl
      rw [hid, hid, ← Node.faded_mapIds, ← Node.faded_mapIds, hvalue]
    have hmade : (n.mapDeclaration (·.setValue { value.faded with id := d.value.id })).mapIds
        (min · k) = (n.mapDeclaration (·.setValue { value'.faded with id := d.value.id })).mapIds
          (min · k) := by
      refine Node.mapIds_mapDeclaration_congr fun d' _ => ?_
      exact congrArg (fun v => (d'.map (·.mapIds (min · k)) fun t => t).setValue v) hnamed
    rw [remade, remade]
    split
    next => exact ⟨rfl, rfl⟩
    next =>
      dsimp only
      rw [show (Production.values.parse config arena text).1.isError = value'.isError from herror]
      split
      next => exact ⟨rfl, rfl⟩
      next => exact ⟨rfl, hmade⟩
  | setImportant id value =>
    have hmark : ((importantNode arena.next default).faded).mapIds (min · k) =
        ((importantNode arena'.next default).faded).mapIds (min · k) := by
      rw [← Node.faded_mapIds, ← Node.faded_mapIds, mapIds_importantNode, mapIds_importantNode,
        Nat.min_eq_right hk, Nat.min_eq_right hk']
    rw [remade, remade]
    split
    next => exact ⟨rfl, rfl⟩
    next =>
      refine ⟨rfl, Node.mapIds_mapDeclaration_congr fun d' _ => ?_⟩
      cases value with
      | true =>
        exact congrArg (fun v => (d'.map (·.mapIds (min · k)) fun t => t).setMark (some v)) hmark
      | false => rfl
  | _ => exact ⟨rfl, rfl⟩

end Mutation

/-- How much longer than before an edit of a declaration makes the text at most. -/
def Mutation.growth : Mutation → Nat
  | setValue _ t => t.length
  | setImportant _ _ => " !important".length
  | setDisabled _ _ => "/*  */".length
  | _ => 0

def Declaration.faded (d : Declaration) : Declaration := d.map Node.faded Token.faded

namespace Node

variable {n : Node} {d : Declaration}

theorem declaration?_faded (hd : n.declaration? = some d) : n.faded.declaration? = some d.faded :=
  declaration?_pushed hd _

@[simp] theorem leadingText_faded (n : Node) : n.faded.leadingText = n.leadingText :=
  leadingText_pushed _ n

@[simp] theorem trailingText_faded (n : Node) : n.faded.trailingText = n.trailingText :=
  trailingText_pushed _ n

end Node

namespace Declaration

@[simp] theorem isImportant_faded (d : Declaration) : d.faded.isImportant = d.isImportant :=
  Option.isSome_map

@[simp] theorem isDisabled_faded (d : Declaration) : d.faded.isDisabled = d.isDisabled :=
  Option.isSome_map

theorem opening_faded (d : Declaration) : d.faded.opening = none ↔ d.opening = none :=
  Option.map_eq_none_iff

theorem semicolon_faded (d : Declaration) : d.faded.semicolon = none ↔ d.semicolon = none :=
  Option.map_eq_none_iff

theorem leading_faded (d : Declaration) : d.faded.name.leading = [] ↔ d.name.leading = [] :=
  List.map_eq_nil_iff

theorem needsSemicolon_faded (d : Declaration) : d.faded.needsSemicolon = d.needsSemicolon := by
  rw [needsSemicolon, needsSemicolon, isDisabled_faded]
  cases hsemicolon : d.semicolon <;> simp [faded, map, hsemicolon]

theorem tailed_faded (d : Declaration) :
    (d.faded.important.getD d.faded.value).tailed = (d.important.getD d.value).tailed := by
  cases himportant : d.important <;> simp [faded, map, himportant]

end Declaration

mutual

@[simp] theorem Node.next_free : ∀ (n : Node) (a : Arena), (n.free a).next = a.next
  | ⟨_, _, _, es⟩, a => by
    rw [Node.free]
    split
    · rw [Element.next_freeAll es, Arena.next_remove]
    · rfl

@[simp] theorem Element.next_freeAll : ∀ (es : List Element) (a : Arena),
    (Element.freeAll es a).next = a.next
  | [], _ => rfl
  | .token _ :: es, a => by rw [Element.freeAll, Element.next_freeAll es]
  | .node n :: es, a => by rw [Element.freeAll, Element.next_freeAll es, Node.next_free n]

end

namespace Arena

theorem next_adopt (parent : NodeId) (children : List Node) (a : Arena) :
    (a.adopt parent children).next = a.next := by
  rw [adopt]
  induction children generalizing a with
  | nil => rfl
  | cons c cs ih => rw [List.foldl_cons, ih, next_setParent]

theorem next_freeAll (nodes : List Node) (a : Arena) :
    (nodes.foldl (fun a c => c.free a) a).next = a.next := by
  induction nodes generalizing a with
  | nil => rfl
  | cons n ns ih => rw [List.foldl_cons, ih, Node.next_free]

end Arena

/-- A change of the spans and the nodes of a tree. -/
structure Tree.Steady (tree tree' : Tree) : Prop where
  config : tree'.config = tree.config
  next : tree'.arena.next = tree.arena.next

namespace Tree.Steady

variable {tree tree' tree'' : Tree}

theorem refl (tree : Tree) : tree.Steady tree := ⟨rfl, rfl⟩

theorem trans (h : tree.Steady tree') (h' : tree'.Steady tree'') : tree.Steady tree'' :=
  ⟨h'.config.trans h.config, h'.next.trans h.next⟩

theorem update (id : NodeId) (f : Node → Node) (tree : Tree) : tree.Steady (tree.update id f) :=
  ⟨rfl, rfl⟩

theorem makeRoom (id : NodeId) (inserted : Option Span) (tree : Tree) :
    tree.Steady (tree.makeRoom id inserted) := by
  unfold Tree.makeRoom
  split <;> exact ⟨rfl, rfl⟩

theorem closeGap (deleted : Span) (kept : Option NodeId) (tree : Tree) :
    tree.Steady (tree.closeGap deleted kept) := by
  unfold Tree.closeGap
  split <;> exact ⟨rfl, rfl⟩

theorem free (n : Node) (tree : Tree) : tree.Steady (tree.free n) := ⟨rfl, n.next_free _⟩

theorem unmarked (id : NodeId) (mark : Node) (tree : Tree) :
    tree.Steady (tree.unmarked id mark) :=
  ((update id _ tree).trans (free mark _)).trans (closeGap mark.span none _)

theorem closingDropped (id : NodeId) (d : Declaration) (tree : Tree) :
    tree.Steady (tree.closingDropped id d) := by
  unfold Tree.closingDropped
  split
  · exact (closeGap _ none tree).trans (update id _ _)
  · exact refl tree

theorem openingDropped (id : NodeId) (d : Declaration) (tree : Tree) :
    tree.Steady (tree.openingDropped id d) := by
  unfold Tree.openingDropped
  split
  · exact (closeGap _ none tree).trans (update id _ _)
  · exact refl tree

theorem replacedWith (id : NodeId) (placed : Node) (tree : Tree) :
    tree.Steady (tree.replacedWith id placed) := by
  have hput : tree.Steady (tree.putContent id placed) := by
    refine ⟨rfl, ?_⟩
    rw [putContent, Arena.next_freeAll, Arena.next_adopt, Arena.next_remove]
  have hresize : ∀ t : Tree, t.Steady (t.resize id placed.span) := by
    intro t
    unfold Tree.resize
    split
    · exact refl t
    · exact ((closeGap _ _ t).trans (update id _ _)).trans (makeRoom id none _)
  unfold Tree.replacedWith
  extract_lets resized
  split
  · exact (hput.trans (hresize _)).trans (update _ _ _)
  · exact hput.trans (hresize _)

end Tree.Steady

theorem Session.apply_run {s : Session} {m : Mutation} {r : Except EditError Unit} {draft : Draft}
    (h : m.steps.run.run ⟨s.tree, []⟩ = (r, draft)) :
    (s.apply m).1 = r.map (fun _ => draft.reported.getLast?) ∧
      (s.apply m).2.1.tree = draft.tree := by
  rw [Session.apply, h]
  exact ⟨rfl, rfl⟩

namespace Tree

open CssTree.Frame

variable {tree tree' : Tree} {n y : Node} {d : Declaration}

/-- A declaration in a tree whose text is written without gaps. -/
structure Site (n : Node) (d : Declaration) (tree : Tree) : Prop where
  sound : tree.Sound []
  strung : tree.root.Strung .origin
  mem : n ∈ tree.root.descendants
  declaration : n.declaration? = some d
  filled : Lexeme.Filled (Token.lexemesOf n.tokens)
  comment : d.closing.isSome = d.opening.isSome

/-- An edit answers, and makes of a declaration what it says. -/
structure Remade (n : Node) (made : Except EditError (Option Change) × Node)
    (answer : Except EditError (Option Change)) (tree tree' : Tree) : Prop where
  answer : answer = made.1
  config : tree'.config = tree.config
  next : tree.arena.next ≤ tree'.arena.next
  exchanged : Exchanged n made.2 tree tree'

namespace Site

theorem get (h : tree.Site n d) : tree.declaration n.id = .ok d :=
  h.sound.declaration_of_mem h.mem h.declaration

/-- Nothing is exchanged. -/
theorem kept (h : tree.Site n d) (hroot : tree'.root = tree.root) :
    Exchanged n n.faded tree tree' := by
  obtain ⟨C, hC⟩ := Node.exists_plug h.mem
  have hapart : Frame.Apart (C.map faded) n.faded := by
    refine Frame.apart_of_nodup ?_
    rw [← faded_plug, ← hC, Node.ids_faded]
    exact h.sound.nodup
  refine ⟨hroot ▸ h.strung, ?_⟩
  rw [hroot, hC, faded_plug, ← n.id_faded, update_plug hapart]

/-- The name of an enabled declaration stands behind what leads it. -/
theorem name_start (h : tree.Site n d) (hopening : d.opening = none) :
    Lexeme.Strung n.span.start d.name.leading ∧ Lexeme.Filled d.name.leading ∧
      d.name.span.start = Lexeme.after n.span.start d.name.leading := by
  obtain ⟨C, hroot⟩ := Node.exists_plug h.mem
  obtain ⟨rest, hlexemes, -⟩ :=
    Node.lexemesOf_openComment (h.sound.formed n h.mem) h.declaration hopening default
  have hstrung := (strung_plug.mp (hroot ▸ h.strung)).2
  have htokens := hstrung.tokens
  rw [Token.Strung, hlexemes, Lexeme.strung_append] at htokens
  have hfilled := h.filled
  rw [hlexemes, Lexeme.filled_append] at hfilled
  rw [hstrung.span]
  exact ⟨htokens.1, hfilled.1, congrArg Span.start htokens.2.1⟩

theorem ahead_name (h : tree.Site n d) (hopening : d.opening = none) :
    ∀ l ∈ d.name.leading, l.span.start < d.name.span.start := by
  obtain ⟨hstrung, hfilled, hstart⟩ := h.name_start hopening
  rw [hstart]
  exact hstrung.start_lt_of_filled hfilled

/-- Whatever stands in front of a mark takes room. -/
theorem ahead_mark (h : tree.Site n d) :
    ∀ l ∈ Token.lexemesOf (d.opening.toList ++ [d.name, d.colon] ++ d.value.tokens),
      l.span.start < d.value.span.stop := by
  obtain ⟨C, hroot⟩ := Node.exists_plug h.mem
  have hformed := h.sound.formed n h.mem
  have hstrung := (strung_plug.mp (hroot ▸ h.strung)).2
  let rest := (d.important.map Node.tokens).getD [] ++ d.semicolon.toList ++ d.closing.toList
  have hcut : n.tokens = (d.opening.toList ++ [d.name, d.colon] ++ d.value.tokens) ++ rest := by
    rw [← n.tokens_eq, hformed.elements_declaration h.declaration, Declaration.tokensOf_elements]
    simp [rest]
  have htokens := hstrung.tokens
  have hfilled := h.filled
  rw [hcut] at htokens hfilled
  rw [Token.lexemesOf_append, Lexeme.filled_append] at hfilled
  rw [hstrung.value_stop hformed h.declaration]
  exact (Token.strung_append.mp htokens).1.start_lt_of_filled hfilled.1

variable {s : Session} {C : List Frame}

theorem remade_setImportant {value : Bool} (h : s.tree.Site n d) :
    Remade n ((Mutation.setImportant n.id value).remade s.tree.config s.tree.arena n.faded d.faded)
      (s.apply (.setImportant n.id value)).1 s.tree
      (s.apply (.setImportant n.id value)).2.1.tree := by
  by_cases hvalue : d.isImportant = value
  · have hforce : (Mutation.setImportant n.id value).InForce s.tree := ⟨d, h.get, hvalue⟩
    obtain ⟨hanswer, htree⟩ := Session.apply_run (Mutation.steps_inForce hforce)
    rw [hanswer, htree, Mutation.remade, if_pos (by simpa using hvalue)]
    exact ⟨rfl, rfl, Nat.le_refl _, h.kept rfl⟩
  · obtain ⟨hanswer, htree⟩ := Session.apply_run (m := .setImportant n.id value)
      (Edit.setImportant_run h.sound h.get hvalue)
    rw [hanswer, htree, Mutation.remade, if_neg (by simpa using hvalue), n.id_faded]
    cases hmark : d.important with
    | none =>
      obtain rfl : value = true := by simpa [Declaration.isImportant, hmark] using hvalue
      refine ⟨rfl, rfl, Nat.le_succ _, ?_⟩
      exact h.sound.exchanged_marked h.strung h.mem h.declaration hmark h.ahead_mark
    | some mark =>
      obtain rfl : value = false := by simpa [Declaration.isImportant, hmark] using hvalue
      have hsteady : s.tree.Steady _ := .unmarked n.id mark s.tree
      refine ⟨rfl, hsteady.config, Nat.le_of_eq hsteady.next.symm, ?_⟩
      exact h.sound.exchanged_unmarked h.strung h.mem h.declaration hmark

theorem remade_setDisabled {value : Bool} (h : s.tree.Site n d)
    (hroot : s.tree.root = plug C n)
    (hclear : value = true → d.opening = none → ∀ F ∈ C, ∀ r ∈ Element.spansOf F.front,
      r.start < d.name.span.start) :
    Remade n ((Mutation.setDisabled n.id value).remade s.tree.config s.tree.arena n.faded d.faded)
      (s.apply (.setDisabled n.id value)).1 s.tree
      (s.apply (.setDisabled n.id value)).2.1.tree := by
  by_cases hvalue : d.isDisabled = value
  · have hforce : (Mutation.setDisabled n.id value).InForce s.tree := ⟨d, h.get, hvalue⟩
    obtain ⟨hanswer, htree⟩ := Session.apply_run (Mutation.steps_inForce hforce)
    rw [hanswer, htree, Mutation.remade, if_pos (by simpa using hvalue)]
    exact ⟨rfl, rfl, Nat.le_refl _, h.kept rfl⟩
  cases value with
  | true =>
    have hopening : d.opening = none := by simpa [Declaration.isDisabled] using hvalue
    have hclosing : d.closing = none := by simpa [hopening] using h.comment
    obtain ⟨hanswer, htree⟩ := Session.apply_run (m := .setDisabled n.id true)
      (Edit.setDisabled_run_true h.sound h.get hopening)
    rw [hanswer, htree, Mutation.remade, if_neg (by simpa using hvalue), n.id_faded]
    refine ⟨rfl, rfl, Nat.le_refl _, ?_⟩
    exact h.sound.exchanged_wrapped h.strung hroot h.declaration hopening hclosing
      (h.ahead_name hopening) (hclear rfl hopening) fun t ht => h.filled t.toLexeme
        (List.mem_flatMap.mpr ⟨t, List.mem_of_getLast? ht, by simp [Token.lexemes]⟩)
  | false =>
    have hopening : d.opening ≠ none := by
      simpa [Declaration.isDisabled, Option.isSome_iff_ne_none] using hvalue
    obtain ⟨c, hclosing⟩ : ∃ c, d.closing = some c :=
      Option.isSome_iff_exists.mp (h.comment.trans (Option.isSome_iff_ne_none.mpr hopening))
    obtain ⟨d', hd', hrun⟩ := Edit.setDisabled_run_false h.sound h.get hopening
    obtain ⟨hanswer, htree⟩ := Session.apply_run (m := .setDisabled n.id false) hrun
    rw [hanswer, htree, Mutation.remade, if_neg (by simpa using hvalue), n.id_faded]
    have hsteady : s.tree.Steady _ :=
      (Steady.closingDropped n.id d s.tree).trans (.openingDropped n.id d' _)
    refine ⟨rfl, hsteady.config, Nat.le_of_eq hsteady.next.symm, ?_⟩
    exact h.sound.exchanged_unwrapped h.strung h.mem h.declaration hopening hclosing hd'

theorem value_mem (h : s.tree.Site n d) : d.value ∈ s.tree.root.descendants := by
  refine Node.mem_descendants_trans h.mem (Node.mem_descendants_child ?_)
  rw [(h.sound.formed n h.mem).children_declaration h.declaration]
  exact List.mem_cons_self

/-- There is room for a value where the old one stands. -/
theorem room (h : s.tree.Site n d) {t : Text} {fragment : Node}
    (hroom : s.tree.render.length + t.length ≤ Position.limit)
    (hlength : fragment.render.length ≤
      (d.value.leadingText ++ t ++ d.value.trailingText).length) :
    d.value.span.start.HasRoom fragment.render.length := by
  obtain ⟨C, hroot⟩ := Node.exists_plug h.value_mem
  obtain ⟨core, hcore⟩ := d.value.exists_core
  have horigin : Position.origin.HasRoom ((plug C d.value).render.length + t.length) := by
    rw [← hroot]
    exact ⟨(Nat.zero_add _).trans_le hroom, (Nat.zero_add _).trans_le hroom⟩
  have hstart : d.value.span.start = startIn .origin C :=
    congrArg Span.start (strung_plug.mp (hroot ▸ h.strung)).2.span
  rw [hstart]
  refine (hasRoom_startIn horigin).mono (Nat.le_trans hlength ?_)
  rw [hcore]
  simp only [List.length_append]
  omega

/-- A value is read anew. -/
theorem remade_setValue {t : Text} (h : s.tree.Site n d)
    (hroom : s.tree.render.length + t.length ≤ Position.limit) :
    Remade n ((Mutation.setValue n.id t).remade s.tree.config s.tree.arena n.faded d.faded)
      (s.apply (.setValue n.id t)).1 s.tree (s.apply (.setValue n.id t)).2.1.tree := by
  let text := d.value.leadingText ++ t ++ d.value.trailingText
  obtain ⟨fragment, tree', hreads⟩ : ∃ fragment tree',
      s.tree.reads .values text = (fragment, tree') := ⟨_, _, rfl⟩
  have hparse : (Production.values.parse s.tree.config s.tree.arena text).1 = fragment :=
    congrArg Prod.fst hreads
  have hsteps : (Mutation.setValue n.id t).steps.run.run ⟨s.tree, []⟩ =
      (if lexesToAny [.semicolon] t then throw (.invalidFragment "declaration value" t)
        else Edit.replaceCore d.value t .values "declaration value" : Edit Unit).run.run
          ⟨s.tree, []⟩ := by
    rw [Mutation.steps, Edit.setValue, Edit.run_tree, h.get, Edit.run_of (Edit.liftM_run d)]
    split <;> rfl
  have hfaded : d.faded.value.leadingText ++ t ++ d.faded.value.trailingText = text := by
    show d.value.faded.leadingText ++ t ++ d.value.faded.trailingText = text
    rw [Node.leadingText_faded, Node.trailingText_faded]
  have hmade : (Mutation.setValue n.id t).remade s.tree.config s.tree.arena n.faded d.faded =
      if lexesToAny [.semicolon] t then (.error (.invalidFragment "declaration value" t), n.faded)
      else if fragment.isError then (.error (.invalidFragment "declaration value" text), n.faded)
      else (.ok (some (.replaced d.value.id)), n.faded.mapDeclaration
        (·.setValue { fragment.faded with id := d.value.id })) := by
    have hid : d.faded.value.id = d.value.id := d.value.id_faded
    rw [Mutation.remade, hfaded, hparse, hid]
  by_cases hlexes : lexesToAny [.semicolon] t = true
  · rw [if_pos hlexes] at hsteps hmade
    obtain ⟨hanswer, htree⟩ := Session.apply_run hsteps
    rw [hanswer, htree, hmade]
    exact ⟨rfl, rfl, Nat.le_refl _, h.kept rfl⟩
  rw [if_neg hlexes] at hsteps hmade
  cases herror : fragment.isError with
  | true =>
    have hundone := Edit.undone_reject h.sound hreads
    have hrun : (Edit.replaceCore d.value t .values "declaration value").run.run ⟨s.tree, []⟩ =
        (.error (.invalidFragment "declaration value" text), ⟨tree'.free fragment, []⟩) := by
      show (Edit.validFragment .values text "declaration value" >>=
        Edit.replaceWith d.value.id).run.run _ = _
      rw [Edit.validFragment, bind_assoc, Edit.run_of (Edit.fragment_run hreads), if_pos herror]
      rfl
    obtain ⟨hanswer, htree⟩ := Session.apply_run (hsteps.trans hrun)
    rw [hanswer, htree, hmade, if_pos herror]
    exact ⟨rfl, hundone.config, hundone.arena.next, h.kept hundone.root⟩
  | false =>
    obtain ⟨hread, hcomplete, hroot, hconfig⟩ := h.sound.reads hreads
    let placed := fragment.place d.value.span.start
    have hvalue : d.value ∈ s.tree.root.descendants := h.value_mem
    have hrun : (Edit.replaceCore d.value t .values "declaration value").run.run ⟨s.tree, []⟩ =
        (.ok (), ⟨tree'.replacedWith d.value.id placed, [.replaced d.value.id]⟩) :=
      (Edit.run_of (Edit.validFragment_run hreads herror) _).trans
        (Edit.replaceWith_run h.sound hvalue hreads)
    obtain ⟨hanswer, htree⟩ := Session.apply_run (hsteps.trans hrun)
    have hsteady := Steady.replacedWith d.value.id placed tree'
    have hskeleton : placed.skeleton = fragment.skeleton := fragment.skeleton_place _
    have hentries : placed.entries none = fragment.entries none := by
      rw [← Node.entries_skeleton, hskeleton, Node.entries_skeleton]
    have hlength : fragment.render.length ≤ text.length :=
      hparse ▸ Production.length_parse _ s.tree.config h.sound.fresh text
    have hplaced : placed.Strung d.value.span.start :=
      hcomplete.laid.strung_place hcomplete.whole (h.room hroom hlength)
    have hfaded : placed.faded = fragment.faded := Node.faded_moved _ _ fragment
    have hexchanged := Tree.Sound.exchanged_respelled (hentries ▸ hread) (hroot ▸ h.strung)
      (hroot ▸ h.mem) h.declaration h.filled (Node.formed_of_skeleton hcomplete.formed hskeleton)
      hplaced
    rw [hanswer, htree, hmade, if_neg (by simp [herror])]
    refine ⟨rfl, hsteady.config.trans hconfig, ?_, hexchanged.strung, ?_⟩
    · exact hsteady.next ▸ hcomplete.grown.next
    · rw [hexchanged.root, hroot, hfaded]

/-- A comment is opened behind all that stands in front of the declaration, unless an empty node
stands there. -/
theorem clear (h : tree.Site n d) (hroot : tree.root = plug C n) (hopening : d.opening = none)
    (hahead : d.name.leading = [] → ∀ F ∈ C, ∀ r ∈ Element.spansOf F.front,
      r.start < startIn .origin C) :
    ∀ F ∈ C, ∀ r ∈ Element.spansOf F.front, r.start < d.name.span.start := by
  have hthreads : tree.Threads C n := threads_of_strung h.strung hroot
  obtain ⟨-, hfilled, hstart⟩ := h.name_start hopening
  have hn : n.span.start = startIn .origin C :=
    congrArg Span.start (strung_plug.mp (hroot ▸ h.strung)).2.span
  by_cases hleading : d.name.leading = []
  · rw [hleading, Lexeme.after_nil, hn] at hstart
    rw [hstart]
    exact hahead hleading
  · refine hthreads.clear ?_
    rw [hstart, hn]
    exact Lexeme.lt_after hfilled hleading

/-- What an edit of a declaration answers, and what it makes of it. The text around it is written
without gaps afterwards, if no empty node in front of it is at the place where a comment is
opened. -/
theorem remade {m : Mutation} (h : s.tree.Site n d) (hroot : s.tree.root = plug C n)
    (hm : m.target? = some n.id) (hroom : s.tree.render.length + m.growth ≤ Position.limit)
    (hclear : m = .setDisabled n.id true → d.opening = none → ∀ F ∈ C,
      ∀ r ∈ Element.spansOf F.front, r.start < d.name.span.start) :
    Remade n (m.remade s.tree.config s.tree.arena n.faded d.faded) (s.apply m).1 s.tree
      (s.apply m).2.1.tree := by
  cases m with
  | setValue id t =>
    obtain rfl := Option.some.inj hm
    exact h.remade_setValue hroom
  | setImportant id value =>
    obtain rfl := Option.some.inj hm
    exact h.remade_setImportant
  | setDisabled id value =>
    obtain rfl := Option.some.inj hm
    exact h.remade_setDisabled hroot fun hvalue => hclear (hvalue ▸ rfl)
  | _ => cases hm

end Site

end Tree

end CssTree
