import CssTree.Proofs.Session
import CssTree.Proofs.Tree.Obeyed

namespace CssTree

variable {P : Span → Prop} {R : Text → Prop}

/-- Rules that edits keep: spans of new text and spans that are moved obey the one, gaps the other,
and whatever is read obeys both. -/
structure Lasting (P : Span → Prop) (R : Text → Prop) : Prop where
  ofText : ∀ p t, P (.ofText p t)
  insert : ∀ s r : Span, P r → P (s.insert r)
  delete : ∀ s r : Span, P r → P (s.delete r)
  shift : ∀ (line : Nat) (lines columns : Int) (r : Span), 0 ≤ lines → P r →
    P (r.shift line lines columns)
  blank : R [' ']
  newline : R ['\n']
  read : ∀ (p : Production) (config : Config) {arena : Arena} (t : Text), arena.Fresh →
    (p.parse config arena t).1.Obeys P R

namespace Lasting

variable (hR : Lasting P R) {n : Node}

include hR

theorem place (kind : TokenKind) (t : Text) (p : Position) : (Token.place kind t p).Obeys P R :=
  ⟨hR.ofText p t, by simp [Token.place, Token.ofLexeme], by simp [Token.place, Token.ofLexeme]⟩

theorem blankTrivia {t : Text} (ht : t = [' '] ∨ t = ['\n']) (p : Position) :
    ∀ l ∈ CssTree.blankTrivia t p, R l.text := by
  rcases ht with rfl | rfl
  · exact List.forall_mem_singleton.mpr hR.blank
  · exact List.forall_mem_singleton.mpr hR.newline

omit hR in
theorem copyTrivia {template : List Lexeme} (ht : ∀ l ∈ template, R l.text) (p : Position) :
    ∀ l ∈ CssTree.copyTrivia template p, R l.text := by
  intro l hl
  have hmem : l.text ∈ template.map Lexeme.text := by
    have htexts := Lexeme.texts_placeAll p (template.map fun l => (l.kind, l.text))
    rw [List.map_map] at htexts
    exact htexts ▸ List.mem_map_of_mem hl
  obtain ⟨m, hm, heq⟩ := List.mem_map.mp hmem
  exact heq ▸ ht m hm

theorem placed (h : n.Obeys P R) (p : Position) : (n.place p).Obeys P R :=
  h.moveSpans fun r => hR.shift _ _ _ r (Int.natCast_nonneg _)

theorem addSemicolon (h : n.Obeys P R) (p : Position) :
    (n.mapDeclaration (·.addSemicolon p)).Obeys P R :=
  h.mapDeclaration fun _ hd => { hd with semicolon := Token.obeys_some (hR.place _ _ _) }

theorem closed (h : n.Obeys P R) (needed : Bool) (p : Position) : (n.closed needed p).Obeys P R := by
  rw [Node.closed]
  split
  · exact hR.addSemicolon h p
  · exact h

theorem openComment (h : n.Obeys P R) (p : Position) :
    (n.mapDeclaration (·.openComment p)).Obeys P R :=
  h.mapDeclaration fun _ hd => { hd with
    opening := Token.obeys_some ((hR.place .openComment ['/', '*'] p).setLeading hd.name.leading)
    name := hd.name.setLeading (hR.blankTrivia (Or.inl rfl) _) }

theorem closeComment (h : n.Obeys P R) (p : Position) : (n.closeComment p).Obeys P R := by
  have hstripped : (n.mapTokens (mapLast ({ · with trailing := [] }))).Obeys P R := by
    rw [Node.Obeys, Node.tokens_mapTokens (length_mapLast _ _)]
    exact forall_mem_mapLast (fun t ht => ht.setTrailing (by simp)) h
  refine hstripped.mapDeclaration fun _ hd => { hd with closing := Token.obeys_some ?_ }
  have hclosing := hR.place .closeComment ['*', '/'] (p.advance [' '])
  exact (hclosing.setLeading (hR.blankTrivia (Or.inl rfl) p)).setTrailing h.trailing

theorem importantNode (id : NodeId) (p : Position) :
    (CssTree.importantNode id p).Obeys P R := by
  refine Node.obeys_iff.mpr ?_
  have hmark := (hR.place .delim ['!'] (p.advance [' '])).setLeading
    (hR.blankTrivia (Or.inl rfl) p)
  simpa [CssTree.importantNode] using ⟨hmark, hR.place .ident _ _⟩

theorem gapBefore {target : Node} (h : target.Obeys P R) (kind : ListKind) (p : Position) :
    ∀ l ∈ CssTree.gapBefore kind target p, R l.text := by
  unfold CssTree.gapBefore
  split
  · exact hR.blankTrivia (Or.inl rfl) p
  · split
    · exact hR.blankTrivia (Or.inr rfl) p
    · exact copyTrivia h.leading p
  · split
    · exact hR.blankTrivia (Or.inl rfl) p
    · exact copyTrivia h.leading p

theorem gapAfter {previous : Option Node} (h : ∀ n ∈ previous, n.Obeys P R) (list : Node)
    (kind : ListKind) (fragment : Node) (p : Position) :
    ∀ l ∈ CssTree.gapAfter list kind previous fragment p, R l.text := by
  have hlead : ∀ l ∈ (previous.map (·.leading)).getD [], R l.text := by
    cases previous with
    | none => simp
    | some n => exact (h n rfl).leading
  have hspace := hR.blankTrivia (t := [' ']) (Or.inl rfl) p
  have hline := hR.blankTrivia (t := ['\n']) (Or.inr rfl) p
  have hcopy := copyTrivia hlead p
  have hnone : ∀ l ∈ ([] : List Lexeme), R l.text := by simp
  unfold CssTree.gapAfter
  extract_lets lead atTop
  split
  · exact hnone
  · cases kind with
    | selectors =>
      dsimp only
      split
      · exact hspace
      · exact hnone
    | rules =>
      dsimp only
      split
      · exact hcopy
      · split
        · exact hnone
        · split
          · exact hline
          · exact hspace
    | declarations =>
      dsimp only
      split
      · exact hcopy
      · exact hspace

end Lasting

/-- All tokens of a tree obey the rules. -/
def Tree.Obeys (P : Span → Prop) (R : Text → Prop) (tree : Tree) : Prop := tree.root.Obeys P R

namespace Tree

variable {tree : Tree}

theorem Obeys.update (h : tree.Obeys P R) (id : NodeId) {f : Node → Node}
    (hf : ∀ m : Node, m.Obeys P R → (f m).Obeys P R) : (tree.update id f).Obeys P R :=
  Node.Obeys.update hf h

theorem Obeys.respan (h : tree.Obeys P R) (id : NodeId) : (tree.respan id).Obeys P R :=
  h.update id fun _ hm => hm.respan

theorem Obeys.find? (h : tree.Obeys P R) {id : NodeId} :
    ∀ n ∈ tree.find? id, n.Obeys P R := fun _ hn =>
  Node.Obeys.descendant h (List.mem_of_find?_eq_some hn)

theorem Obeys.insertInto (h : tree.Obeys P R) (list : NodeId) (index : Nat) {n : Node}
    {separator : Option Token} (hn : n.Obeys P R) (hseparator : ∀ t ∈ separator, t.Obeys P R) :
    (tree.insertInto list index n separator).Obeys P R :=
  h.update list fun _ hm => hm.mapListing fun _ hl => hl.insert index hn hseparator

theorem Obeys.shift (h : tree.Obeys P R) (id : NodeId) (lines columns : Int)
    (hshift : ∀ (line : Nat) (r : Span), P r → P (r.shift line lines columns)) :
    (tree.shift id lines columns).Obeys P R :=
  h.update id fun _ hm => hm.moveSpans (hshift _)

end Tree

namespace Lasting

variable (hR : Lasting P R) {tree : Tree}

include hR

theorem makeRoom (h : tree.Obeys P R) (id : NodeId) (inserted : Option Span) :
    (tree.makeRoom id inserted).Obeys P R := by
  rw [Tree.makeRoom]
  split
  · exact h
  · exact Node.Obeys.moveSpans (hR.insert _) h

theorem closeGap (h : tree.Obeys P R) (deleted : Span) (kept : Option NodeId) :
    (tree.closeGap deleted kept).Obeys P R := by
  rw [Tree.closeGap]
  split
  · exact h
  · exact Node.Obeys.moveSpans (hR.delete _) h

theorem resize (h : tree.Obeys P R) (id : NodeId) (span : Span) :
    (tree.resize id span).Obeys P R := by
  rw [Tree.resize]
  split
  · exact h
  · have hclosed := hR.closeGap h
    refine hR.makeRoom ((hclosed _ _).update id (f := ({ · with span := span })) fun m hm => ?_) _ _
    exact Node.obeys_iff.mpr (Node.obeys_iff (n := m).mp hm)

theorem insertedBefore (h : tree.Obeys P R) {target fragment : Node} (htarget : target.Obeys P R)
    (hfragment : fragment.Obeys P R) (list : Node) (kind : ListKind) (index : Nat) :
    (tree.insertedBefore list kind index target fragment).Obeys P R := by
  unfold Tree.insertedBefore
  extract_lets start lacksSemicolon separator separatorAt gap moved lead item comma
  have hmoved : moved.Obeys P R := hR.makeRoom h _ _
  have hgap : ∀ l ∈ gap, R l.text := hR.gapBefore htarget kind _
  have hlead : ∀ l ∈ lead, R l.text := by
    cases hfound : moved.find? target.id with
    | none => simp [lead, hfound]
    | some n => simpa [lead, hfound] using (hmoved.find? n hfound).leading
  have hitem : item.Obeys P R := hR.closed ((hR.placed hfragment start).prependLeading hlead) _ _
  refine (hmoved.update target.id fun _ hm => hm.setLeading hgap).insertInto list.id index hitem ?_
  dsimp only [comma]
  split
  · exact Token.obeys_some (hR.place _ _ _)
  · simp

theorem separatedLast (h : tree.Obeys P R) (list : Node) (listing : Listing) :
    (tree.separatedLast list listing).Obeys P R := by
  unfold Tree.separatedLast
  extract_lets p
  split
  · exact h.update list.id fun _ hm => hm.mapListing fun _ hl =>
      hl.setSeparator _ (Token.obeys_some (hR.place _ _ _))
  · split
    · split
      · exact h.update _ fun _ hm => hR.addSemicolon hm p
      · exact h
    · exact h

theorem insertedAfter (h : tree.Obeys P R) {fragment : Node} (hfragment : fragment.Obeys P R)
    (list : Node) {listing : Listing} (hlisting : listing.Obeys P R) :
    (tree.insertedAfter list listing fragment).Obeys P R := by
  unfold Tree.insertedAfter
  extract_lets start gapAt gap fragmentAt lacksSemicolon ending moved item
  have hmoved : moved.Obeys P R := hR.makeRoom h _ _
  have hgap : ∀ l ∈ gap, R l.text := hR.gapAfter hlisting.last? list listing.kind fragment gapAt
  have hitem : item.Obeys P R :=
    hR.closed ((hR.placed hfragment fragmentAt).prependLeading hgap) _ _
  exact (hR.separatedLast hmoved list listing).insertInto list.id _ hitem (by simp)

theorem removeBefore (h : tree.Obeys P R) {removed : Node} (hremoved : removed.Obeys P R)
    (list next : Node) (index : Nat) : (tree.removeBefore list index removed next).Obeys P R := by
  unfold Tree.removeBefore
  extract_lets listless closed
  have hlistless : listless.Obeys P R := h.update list.id fun _ hm =>
    hm.mapListing fun _ hl => hl.remove index
  have hclosed : closed.Obeys P R :=
    hR.closeGap (hlistless.update next.id fun _ hm => hm.setLeading (by simp)) _ _
  exact hclosed.update next.id fun _ hm => hm.prependLeading hremoved.leading

theorem removeLast (h : tree.Obeys P R) (list removed : Node) (listing : Listing) (index : Nat) :
    (tree.removeLast list listing index removed).Obeys P R := by
  unfold Tree.removeLast
  extract_lets region
  have hlistless :
      ((tree.update list.id (·.mapListing (·.removeLast index))).free removed).Obeys P R :=
    h.update list.id fun _ hm => hm.mapListing fun _ hl => hl.removeLast index
  exact hR.closeGap hlistless _ _

theorem replacedWith (h : tree.Obeys P R) (id : NodeId) {placed : Node} (hplaced : placed.Obeys P R) :
    (tree.replacedWith id placed).Obeys P R := by
  have hput : (tree.putContent id placed).Obeys P R :=
    h.update id fun _ _ => Node.obeys_iff.mpr (Node.obeys_iff (n := placed).mp hplaced)
  rw [Tree.replacedWith]
  split
  · exact (hR.resize hput _ _).respan _
  · exact hR.resize hput _ _

theorem marked (h : tree.Obeys P R) (id : NodeId) (value : Node) :
    (tree.marked id value).Obeys P R := by
  unfold Tree.marked
  extract_lets p moved
  have hmoved : moved.Obeys P R := hR.makeRoom h _ _
  exact hmoved.update id fun _ hm => hm.mapDeclaration fun _ hd => { hd with
    important := by
      rintro _ ⟨rfl⟩
      exact hR.importantNode _ _ }

theorem unmarked (h : tree.Obeys P R) (id : NodeId) (mark : Node) :
    (tree.unmarked id mark).Obeys P R := by
  have hdropped : ((tree.update id (·.mapDeclaration ({ · with important := none }))).free
      mark).Obeys P R := h.update id fun _ hm => hm.mapDeclaration fun _ hd => { hd with
    important := by simp }
  exact hR.closeGap hdropped _ _

theorem wrapped (h : tree.Obeys P R) (id : NodeId) (d : Declaration) :
    (tree.wrapped id d).Obeys P R := by
  unfold Tree.wrapped
  extract_lets start opened last stop
  have hopened : opened.Obeys P R := (hR.makeRoom h _ _).update id fun _ hm => hR.openComment hm _
  exact (hR.makeRoom hopened _ _).update id fun _ hm => hR.closeComment hm _

theorem closingDropped (h : tree.Obeys P R) (id : NodeId) (d : Declaration) :
    (tree.closingDropped id d).Obeys P R := by
  rw [Tree.closingDropped]
  split
  · exact (hR.closeGap h _ _).update id fun _ hm => hm.dropClosing
  · exact h

theorem openingDropped (h : tree.Obeys P R) (id : NodeId) (d : Declaration) :
    (tree.openingDropped id d).Obeys P R := by
  rw [Tree.openingDropped]
  split
  · exact (hR.closeGap h _ _).update id fun _ hm => hm.dropOpening
  · exact h

/-- After an edit the rules are obeyed as before. -/
theorem edited (h : tree.Obeys P R) (hsound : tree.Sound []) {tree' : Tree} {m : Mutation}
    {c : Change} (hedited : tree.Edited m tree' c) : tree'.Obeys P R := by
  have hreads : ∀ {p : Production} {t : Text} {n : Node} {tree' : Tree},
      tree.reads p t = (n, tree') → tree'.Obeys P R ∧ n.Obeys P R := by
    intro p t n tree' hreads
    obtain ⟨-, -, hroot, -⟩ := hsound.reads hreads
    rw [Tree.reads] at hreads
    rw [Tree.Obeys, hroot, ← (Prod.mk.inj hreads).1]
    exact ⟨h, hR.read _ _ _ hsound.fresh⟩
  have hlists : ∀ {list : Node} {listing : Listing}, list ∈ tree.root.descendants →
      list.listing? = some listing → listing.Obeys P R := fun hlist hlisting =>
    (Node.Obeys.descendant h hlist).listing? hlisting
  cases hedited with
  | insertedBefore hlist hlisting htarget _ hread _ =>
    have hitem := (hlists hlist hlisting).get? htarget
    exact (hR.insertedBefore (hreads hread).1 hitem (hreads hread).2 _ _ _).respan _
  | insertedAfter hlist hlisting _ hread _ =>
    exact (hR.insertedAfter (hreads hread).1 (hreads hread).2 _ (hlists hlist hlisting)).respan _
  | removedBefore hlist hlisting hget _ =>
    exact (hR.removeBefore h ((hlists hlist hlisting).get? hget) _ _ _).respan _
  | removedLast => exact (hR.removeLast h _ _ _ _).respan _
  | replaced _ _ hread => exact hR.replacedWith (hreads hread).1 _ (hR.placed (hreads hread).2 _)
  | marked => exact (hR.marked h _ _).respan _
  | unmarked => exact (hR.unmarked h _ _).respan _
  | wrapped => exact (hR.wrapped h _ _).respan _
  | unwrapped => exact (hR.openingDropped (hR.closingDropped h _ _) _ _).respan _
  | regrouped hf => exact (Node.Obeys.regrouped h hf).respan

/-- Calls keep the rules, and so does a shift if the one for spans allows it. -/
theorem call {s : Session} (h : s.tree.Obeys P R) (hsound : s.tree.Sound []) {c : Call}
    (hshift : ∀ node lines columns, c = .shift node lines columns →
      ∀ (line : Nat) (r : Span), P r → P (r.shift line lines columns)) :
    (s.call c).tree.Obeys P R := by
  cases c with
  | edit m =>
    rcases Session.root_apply hsound m with hroot | ⟨-, c, hedited⟩
    · rw [Tree.Obeys]
      exact hroot ▸ h
    · exact hR.edited h hsound hedited
  | shift node lines columns => exact h.shift node lines columns (hshift node lines columns rfl)
  | makeRoom node inserted => exact hR.makeRoom h _ _
  | closeGap deleted => exact hR.closeGap h _ _
  | resize node span => exact hR.resize h _ _
  | observe => exact h
  | release => exact h

/-- Whatever was read and whatever calls were made, all tokens of the tree obey the rules. -/
theorem run (p : Production) (config : Config) (t : Text) {calls : List Call}
    (hshift : ∀ node lines columns, Call.shift node lines columns ∈ calls →
      ∀ (line : Nat) (r : Span), P r → P (r.shift line lines columns)) :
    (Session.run ⟨Tree.parse p config t, false⟩ calls).tree.Obeys P R := by
  have hkeeps : ∀ (s : Session), s.tree.Obeys P R → s.tree.Sound [] →
      (s.run calls).tree.Obeys P R := by
    induction calls with
    | nil => exact fun s h _ => h
    | cons c calls ih =>
      intro s h hsound
      refine ih (fun node lines columns hc => ?_) _ (hR.call h hsound ?_)
        (Session.sound_call hsound c)
      · exact hshift node lines columns (List.mem_cons_of_mem _ hc)
      · rintro node lines columns rfl
        exact hshift node lines columns List.mem_cons_self
  exact hkeeps _ (hR.read p _ t Arena.fresh_empty) (Tree.sound_parse p config t)

end Lasting

theorem Lexeme.Laid.isValid {before : Text} {ls : List Lexeme} (h : Laid before ls) :
    ∀ l ∈ ls, l.span.IsValid := by
  induction ls generalizing before with
  | nil => simp
  | cons l ls ih =>
    obtain ⟨hspan, hrest⟩ := h
    exact List.forall_mem_cons.mpr ⟨hspan ▸ Span.isValid_behind _ _, ih hrest⟩

/-- What lies where the text says is not turned around. -/
theorem Node.Laid.forward {before : Text} {n : Node} (h : n.Laid before) :
    n.Obeys Span.Forward fun _ => True := by
  intro t ht
  have hall : Token.LaidAll before n.tokens := h.laidAll_tokens
  have hmem : t.toLexeme ∈ Token.lexemesOf n.tokens :=
    List.mem_flatMap.mpr ⟨t, ht, by simp [Token.lexemes]⟩
  exact ⟨Or.inl (Lexeme.Laid.isValid hall _ hmem), fun _ _ => trivial, fun _ _ => trivial⟩

/-- Edits turn no token around. -/
theorem lasting_forward : Lasting Span.Forward fun _ => True where
  ofText := fun p t => Or.inl (Span.isValid_ofText p t)
  insert := fun s _ hr => hr.insert s
  delete := fun s _ hr => hr.delete s
  shift := fun line _ columns _ hlines hr => hr.shift hlines line columns
  blank := trivial
  newline := trivial
  read := fun p config _ t harena => (p.complete_parse config harena t).1.laid.forward

/-- A call that shifts a subtree to lines further up. -/
def Call.shiftsUp : Call → Bool
  | .shift _ lines _ => lines < 0
  | _ => false

theorem Session.forward_run (p : Production) (config : Config) (t : Text) {calls : List Call}
    (hcalls : ∀ c ∈ calls, c.shiftsUp = false) :
    (Session.run ⟨Tree.parse p config t, false⟩ calls).tree.Obeys Span.Forward fun _ => True := by
  refine lasting_forward.run p config t fun node lines columns hmem line r hr => hr.shift ?_ _ _
  simpa [Call.shiftsUp] using hcalls _ hmem

end CssTree
