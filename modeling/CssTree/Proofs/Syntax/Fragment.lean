import CssTree.Proofs.Syntax.Rename
import CssTree.Proofs.Tree.Declared
import CssTree.Proofs.Tree.Unspanned
import CssTree.Proofs.Twin.Production

namespace CssTree

open Token Grammar

/-- The text starts with a comment that is read as a disabled declaration. -/
def Grammar.State.StartsDisabled (s : State) : Prop :=
  s.upcoming.head.kind = .openComment ∧ (disabledDeclaration.run.run s).1.isSome = true

instance (s : Grammar.State) : Decidable s.StartsDisabled :=
  inferInstanceAs (Decidable (_ ∧ _))

/-- Where trivia is put behind the last token, what stands between tokens stays. -/
theorem Token.joints_mapLast (trivia : List Lexeme) (ts : List Token) :
    joints (mapLast (fun t => { t with trailing := t.trailing ++ trivia }) ts) = joints ts := by
  induction ts with
  | nil => rfl
  | cons t ts ih =>
    match ts with
    | [] => rfl
    | [u] => rfl
    | u :: v :: ts => exact congrArg (List.cons _) ih

theorem Token.joints_mapSpans (f : Span → Span) (ts : List Token) :
    joints (ts.map (·.mapSpans f)) = joints ts := by
  have hpieces : ∀ ls : List Lexeme, piecesOf (ls.map (·.moved f)) = piecesOf ls := by
    intro ls
    rw [piecesOf, List.map_map]
    rfl
  induction ts with
  | nil => rfl
  | cons t ts ih =>
    cases ts with
    | nil => rfl
    | cons u ts =>
      refine congrArg₂ List.cons ?_ ih
      exact (congrArg piecesOf (List.map_append ..).symm).trans (hpieces _)

/-- A node spells a declaration: it has its shape, its tokens have the same texts, and the same
trivia stands between them. -/
structure Node.Spells (e : Declaration) (n : Node) : Prop where
  shape : n.skeleton.bare = (Node.mk 0 .declaration default e.elements).skeleton.bare
  texts : n.tokens.map (fun t => t.text) = (Element.tokensOf e.elements).map fun t => t.text
  joints : joints n.tokens = joints (Element.tokensOf e.elements)

/-- A node that spells a declaration is one with the same name and the same value. -/
theorem Node.Spells.renamed {name : Text} {n : Node} {d e : Declaration} (h : n.Spells e)
    (he : e.Formed) (hrenamed : d.Renamed name e) :
    ∃ f, n.declaration? = some f ∧ d.Renamed name f := by
  have hformed : (Node.mk 0 .declaration default e.elements).Formed :=
    formed_of_declaration rfl he rfl
  have hd : (Node.mk 0 .declaration default e.elements).declaration? = some e := by
    rw [Node.declaration?, if_pos rfl, he.ofElements?]
  obtain ⟨f, hf, hsame, himportant, hlength⟩ := declaration?_of_shape hformed hd h.shape
  refine ⟨f, hf, ?_⟩
  have helements : n.tokens = Element.tokensOf f.elements := by
    rw [← n.tokens_eq, ((hformed.of_shape h.shape).of_declaration? hf).2.2]
  have hopening : f.opening = none := by
    have hisSome := hsame.opening
    rw [hrenamed.opening] at hisSome
    simpa using hisSome
  have htexts := h.texts
  have hjoints := h.joints
  rw [helements, Declaration.tokensOf_elements, Declaration.tokensOf_elements, hopening,
    hrenamed.opening] at htexts hjoints
  simp only [Option.toList_none, List.nil_append, List.map_cons, List.cons.injEq,
    List.map_append] at htexts
  obtain ⟨hname, -, htexts⟩ := htexts
  have hlead : [f.name, f.colon].length = [e.name, e.colon].length := rfl
  obtain ⟨-, hvalues⟩ := joints_of_append hlead hjoints
  refine ⟨hopening, hname.trans hrenamed.name, ?_, himportant.trans hrenamed.important,
    hsame.semicolon.trans hrenamed.semicolon⟩
  rw [← hrenamed.value]
  exact render_stripEnds (List.append_inj htexts (by simpa using hlength)).1
    (joints_of_append hlength hvalues).1

/-- A node that is put in the place of another one spells what it spelled. -/
theorem Node.Spells.placed {n m : Node} {e : Declaration} {p : Position} {id : NodeId}
    (h : n.Spells e) (hm : m.unspanned = ({ n.place p with id } : Node).unspanned) :
    m.Spells e := by
  obtain ⟨f, hplace⟩ := n.place_eq_moved p
  have htokens : m.tokens = n.tokens.map (·.mapSpans f) := by
    rw [Node.tokens_of_unspanned hm, ← Node.tokens_eq, hplace, ← Node.tokens_moved,
      ← Node.tokens_eq]
  refine ⟨?_, ?_, ?_⟩
  · rw [Node.skeleton_of_unspanned hm, ← h.shape, ← n.skeleton_place p]
    cases n.place p
    rfl
  · rw [htokens, List.map_map, ← h.texts]
    rfl
  · rw [htokens, joints_mapSpans, h.joints]

namespace Syntax

variable {limit : Nat} {config : Config} {arena : Arena} {t : Text} {d e : Declaration}
  {name : Text}

/-- All tokens of a text are to come at its start. -/
theorem at_start (config : Config) (arena : Arena) (t : Text) :
    At 0 config.maxDepth (Stream.ofText config t).foldAll.toList (.start config arena t) := by
  have h : Clear (.start config arena t) (.start config arena t) := .refl _
  exact h.at_tokens (Stream.sound_ofText config t) (Stream.flat_ofText config t) (Nat.zero_le _)

/-- Tokens to which a text is cut spell what else has its lexemes. -/
theorem same_of_cut (config : Config) (ht : cut t = piecesOf (lexemesOf (behindOpening e)))
    (he : ∀ t ∈ behindOpening e, t.Canonical) :
    (behindOpening e).map bare = (Stream.ofText config t).foldAll.tokens.map bare ∧
      joints (behindOpening e) = joints (Stream.ofText config t).foldAll.tokens := by
  obtain ⟨-, ⟨back, hback, hpieces⟩, hcanonical⟩ := Stream.present_ofText config t
  rw [ht, piecesOf_nil, List.nil_append] at hpieces
  obtain ⟨hbare, hgaps⟩ := same_of_pieces he hcanonical .nil .nil .nil hback
    (by simpa using hpieces)
  exact ⟨hbare, joints_of_gaps hgaps⟩

/-- A comment at the start that is no declaration changes nothing. -/
theorem declaration_enabled (hstart : ¬(State.start config arena t).StartsDisabled) :
    ∃ s, At 0 config.maxDepth (Stream.ofText config t).foldAll.toList s ∧
      declaration.run.run (.start config arena t) = (declarationAfter none).run.run s := by
  have hat := at_start config arena t
  generalize State.start config arena t = s at hstart hat
  rw [declaration_run]
  by_cases hopen : s.upcoming.head.kind = .openComment
  · rw [if_pos hopen]
    have hnone : (disabledDeclaration.run.run s).1 = none := by
      rw [← Option.not_isSome_iff_eq_none]
      exact fun hsome => hstart ⟨hopen, hsome⟩
    have hmoved : Moved s (disabledDeclaration.run.run s).2 :=
      steady_moved.kept.declarationAfter _ s.take.2 ⟨_, .take s⟩
    obtain ⟨ts, hts⟩ := hmoved
    refine ⟨s.rewind (disabledDeclaration.run.run s).2, hat.rewind hts, ?_⟩
    rw [commentOrDeclaration_run, run_attempt, hnone]
    rfl
  · rw [if_neg hopen]
    exact ⟨s, hat, rfl⟩

/-- From the lexemes of a declaration it is read. -/
theorem declaration_again (h : Renaming config.maxDepth name d e)
    (ht : cut t = piecesOf (lexemesOf (behindOpening e)))
    (hstart : ¬(State.start config arena t).StartsDisabled) :
    ∃ m s, declaration.run.run (.start config arena t) = (some m, s) ∧
      At 0 config.maxDepth [(Stream.ofText config t).foldAll.last] s ∧ m.Spells e := by
  obtain ⟨hbare, hjoints⟩ := same_of_cut config ht h.canonical
  have hlast := (Stream.sound_ofText config t).foldAll.last_kind
  obtain ⟨r, hat, hrun⟩ := declaration_enabled hstart
  generalize (Stream.ofText config t).foldAll = whole at hbare hjoints hlast hat
  obtain ⟨ts, last⟩ := whole
  change At 0 config.maxDepth (ts ++ [last]) r at hat
  have hopening : (none : Option Token).map bare = e.opening.map bare := by rw [h.opening]
  have hrest : headKind [last] = .eof := hlast
  have hgives := declarationAfter_gives h.shape hopening (spells_of_joints hbare hjoints) h.nests
    hrest (List.cons_ne_nil _ _) r hat
  have hfinds := declarationAfter_finds none r hat
  rw [← hrun] at hgives hfinds
  cases hread : declaration.run.run (.start config arena t) with | mk result s => ?_
  rw [hread] at hgives hfinds
  cases result with
  | none => exact hgives.elim
  | some m =>
    obtain ⟨hend, hm⟩ := hgives
    obtain ⟨e', hkind, helements, hopening, us, hsplit, hrest, -⟩ := hfinds
    obtain rfl : us = [last] := by rw [← hrest.upcoming, hend.upcoming]
    obtain rfl := (List.append_inj' hsplit rfl).1
    have htokens : m.tokens = behindOpening e' := by
      rw [← m.tokens_eq, helements, Declaration.tokensOf_elements, hopening]
      simp [behindOpening, afterValue]
    have he : Element.tokensOf e.elements = behindOpening e := by
      rw [Declaration.tokensOf_elements, h.opening]
      simp [behindOpening, afterValue]
    refine ⟨m, s, rfl, hend, ?_, ?_, ?_⟩
    · rw [← Node.skeleton_bare, hm, ← Node.skeleton_bare]
      rfl
    · rw [htokens, he]
      have htexts := congrArg (List.map fun t : Token => t.text) hbare
      rw [List.map_map, List.map_map] at htexts
      exact htexts.symm
    · rw [htokens, he, hjoints]

/-- From the lexemes of a declaration it is read as a fragment. -/
theorem fragment_again (h : Renaming config.maxDepth name d e)
    (ht : cut t = piecesOf (lexemesOf (behindOpening e)))
    (hstart : ¬(State.start config arena t).StartsDisabled) :
    (Production.declaration.fragment.run (.start config arena t)).1.Spells e := by
  obtain ⟨m, s, hrun, hend, hm⟩ := declaration_again h ht hstart
  have hraw : (State.start config arena t).upcoming.head.kind ≠ .eof := by
    intro heof
    have hnone := (Stream.sound_ofText config t).tokens_eq_nil (by rwa [← Stream.head_eq_nth])
    obtain ⟨hbare, -⟩ := same_of_cut config ht h.canonical
    rw [Stream.eq_of_tokens hnone, Stream.foldAll_end] at hbare
    cases hbare
  have hlast : ((s.settle 0).upcoming.nth 0).kind = .eof := by
    rw [hend.nth_eq rfl]
    exact hend.eof_iff.mpr rfl
  have hall : Production.declaration.readAll.run.run (.start config arena t) =
      (some m, s.settle 0) := by
    have hread : Production.declaration.readAll.run.run (.start config arena t) =
        (declaration >>= fun n => do
          if (← peekKind) = .eof then return n else failure : Attempt Node).run.run
            (.start config arena t) := by
      change ((if (State.start config arena t).upcoming.head.kind = .eof then failure else _ :
        Attempt Node)).run.run _ = _
      rw [if_neg hraw]
      rfl
    rw [hread, run_bind_some hrun]
    change ((if ((s.settle 0).upcoming.nth 0).kind = .eof then pure m else failure :
      Attempt Node).run.run (s.settle 0)) = _
    rw [if_pos hlast]
    rfl
  have hattempt : (attempt Production.declaration.readAll).run (.start config arena t) =
      (some m, s.settle 0) := by
    rw [run_attempt, hall]
    rfl
  have htokens : (s.settle 0).upcoming.tokens = [] := (hend.settle 0).sound.tokens_eq_nil hlast
  rw [Production.fragment_read hattempt htokens]
  refine ⟨?_, ?_, ?_⟩
  · rw [Production.skeleton_trailed, hm.shape]
  · rw [Production.tokens_trailed, ← hm.texts]
    exact map_mapLast (f := fun t : Token => { t with trailing := t.trailing ++ _ })
      (g := fun t => t.text) (fun _ => rfl) _
  · rw [Production.tokens_trailed, joints_mapLast, hm.joints]

end Syntax

end CssTree
