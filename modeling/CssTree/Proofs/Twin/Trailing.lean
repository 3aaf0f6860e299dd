import CssTree.Proofs.Token.Lead
import CssTree.Proofs.Twin.Production
import CssTree.Proofs.Validity

namespace CssTree

namespace Token

variable {c : List Lexeme} {ts us vs ws : List Token} {t u t' u' : Token}

theorem bare_trailingToLeading (c : List Lexeme) (ts : List Token) :
    (trailingToLeading c ts).map bare = ts.map bare := by
  induction ts generalizing c with
  | nil => rfl
  | cons t ts ih =>
    cases ts with
    | nil => rfl
    | cons u us =>
      have hrest := ih t.trailing
      rw [trailingToLeading, List.map_cons, hrest]
      rfl

/-- Tokens touch if they do so after all trivia is attached to the token after it. -/
theorem touches_lead (h : us ++ t' :: u' :: ws = trailingToLeading c (ts ++ t :: u :: vs))
    (hlength : ts.length = us.length) : t.touches u = t'.touches u' := by
  rw [trailingToLeading_append (List.cons_ne_nil _ _), trailingToLeading] at h
  obtain ⟨-, htwo⟩ := List.append_inj h (by rw [length_lead, hlength])
  obtain ⟨rfl, hrest⟩ := List.cons.inj htwo
  have hleading : u'.leading = t.trailing ++ u.leading := by
    cases vs with
    | nil =>
      rw [trailingToLeading] at hrest
      rw [(List.cons.inj hrest).1]
    | cons v vs =>
      rw [trailingToLeading] at hrest
      rw [(List.cons.inj hrest).1]
  cases ht : t.trailing <;> simp [touches, hleading, ht]

end Token

open Token

/-- What follows tokens whose trivia was attached to the token after it is treated likewise. -/
theorem Stream.lead_of_append {ts us : List Token} {s s' : Stream}
    (h : us ++ s'.toList = trailingToLeading [] (ts ++ s.toList))
    (hlength : ts.length = us.length) :
    us = Token.lead [] ts ∧ s' = s.lead (carry [] ts) := by
  rw [trailingToLeading_append (by simp [toList]), ← toList_lead] at h
  obtain ⟨hfirst, hrest⟩ := List.append_inj h (by rw [length_lead, hlength])
  exact ⟨hfirst, eq_of_toList hrest⟩

namespace Grammar

/-- The first text attaches trivia to the token before it, the second one to that after it. -/
def Pairing.trailing : Pairing where
  folds b := b = some .colon
  comments := true
  Match ts us := us = trailingToLeading [] ts
  Lost := Never
  folds_colon := colon_folds
  folds_close := close_folds
  bare h := by rw [h, bare_trailingToLeading]
  touch h hlength := touches_lead h hlength
  settle n h hlength := by
    obtain ⟨rfl, rfl⟩ := Stream.lead_of_append h hlength
    rw [Stream.settle_lead, trailingToLeading_append (by simp [Stream.toList]), Stream.toList_lead]
  lost_child := @never_child

theorem readsDeclarations_trailing : Pairing.trailing.ReadsDeclarations :=
  readsDeclarations_of_folds fun b => by simp [Pairing.trailing]

/-- At the start of a text the runs stand at the same place. -/
theorem abreast_trailing (depth : Nat) (comments : Bool) (t : Text) :
    Abreast .trailing (.start ⟨depth, comments, true⟩ .empty t)
      (.start ⟨depth, comments, false⟩ .empty t) := by
  refine twins_start ⟨depth, comments, true⟩ ⟨depth, comments, false⟩ Arena.fresh_empty
    Arena.fresh_empty rfl (by simp [Pairing.trailing]) ?_
  change Stream.toList _ = trailingToLeading [] _
  rw [← Stream.toList_lead, ← Stream.foldBehind_lead, Stream.lead_ofText]

theorem ended_trailing {ts us : List Token} (h : Production.Ended .trailing ts us) :
    us = trailingToLeading [] ts := by
  rcases h with h | ⟨ts, t, us, u, h, rfl, rfl⟩
  · exact h
  · change us ++ [u] = trailingToLeading [] (ts ++ [t]) at h
    rw [trailingToLeading_append (by simp), trailingToLeading] at h
    obtain ⟨rfl, hlast⟩ := List.append_inj' h rfl
    obtain rfl := (List.cons.inj hlast).1
    rcases List.eq_nil_or_concat ts with rfl | ⟨vs, v, rfl⟩
    · rfl
    · rw [List.concat_eq_append, mapLast_concat, lead_append, carry_append,
        trailingToLeading_append (by simp), lead, lead, mapLast_concat]
      simp [trailingToLeading, carry]

end Grammar

namespace Tree

open Grammar

/-- Whatever a text is read as, where its trivia goes makes a difference to the trivia only. -/
theorem parse_trailing (p : Production) (config : Config) (t : Text) :
    let on := (Tree.parse p { config with trailing := true } t).root
    let off := (Tree.parse p { config with trailing := false } t).root
    on.skeleton.bare = off.skeleton.bare ∧ off.tokens = trailingToLeading [] on.tokens := by
  obtain ⟨depth, comments, trailing⟩ := config
  have hroot : ∀ trailing, (Tree.parse p ⟨depth, comments, trailing⟩ t).root =
      (p.parser.run (.start ⟨depth, if p = .declaration then true else comments, trailing⟩
        .empty t)).1 := by
    intro trailing
    unfold Tree.parse
    split <;> rfl
  dsimp only
  rw [hroot, hroot]
  generalize (if p = .declaration then true else comments) = comments
  have habreast := abreast_trailing depth comments t
  rw [Production.parser]
  split
  next =>
    obtain ⟨hbare, hmatch⟩ :=
      (styleSheet_twins readsDeclarations_trailing habreast rfl rfl).resolve_left id
    rw [← Node.skeleton_bare, hbare, Node.skeleton_bare]
    exact ⟨rfl, hmatch⟩
  next hp =>
    have hkind : (State.start ⟨depth, comments, true⟩ .empty t).upcoming.head.kind =
        (State.start ⟨depth, comments, false⟩ .empty t).upcoming.head.kind := by
      obtain ⟨m, m', htwins⟩ := habreast
      exact kind_head_ready (by simp [Pairing.trailing])
        ⟨htwins, Or.inl (by simp [State.behind, State.start])⟩
    obtain ⟨hshape, hended⟩ := Production.fragment_twins readsDeclarations_trailing
      (fun _ => id) hp habreast rfl rfl hkind
    exact ⟨hshape, ended_trailing hended⟩

theorem anonymous_moved (p : Production) (config : Config) (t : Text) :
    ((Tree.parse p { config with trailing := true } t).root.mapTokens
      (trailingToLeading [])).respan.anonymous id =
        (Tree.parse p { config with trailing := false } t).root.anonymous id := by
  obtain ⟨hshape, htokens⟩ := parse_trailing p config t
  obtain ⟨hlaid, hwhole⟩ := laid_parse p { config with trailing := true } t
  have hlexemes := (Node.tokens_respan _).symm ▸
    Node.lexemesOf_regrouped regroups_trailingToLeading
      (Tree.parse p { config with trailing := true } t).root
  have hplaced := (Node.laid_iff_of_whole (hlexemes.symm ▸ hwhole)).mpr
    (Node.strung_regrouped regroups_trailingToLeading ((Node.laid_iff_of_whole hwhole).mp hlaid))
  have hkinds := regroups_trailingToLeading.kinds
    (Tree.parse p { config with trailing := true } t).root.tokens
  refine Node.anonymous_eq (fun _ _ h => congrArg Token.render h) _ _ hplaced
    (laid_parse p { config with trailing := false } t).1 ?_ ?_
  · rw [Node.skeleton_respan, Node.skeleton_mapTokens hkinds, hshape]
  · have hlength : (trailingToLeading []
        (Tree.parse p { config with trailing := true } t).root.tokens).length =
          (Tree.parse p { config with trailing := true } t).root.tokens.length := by
      simpa using congrArg List.length hkinds
    rw [Node.tokens_respan, Node.tokens_mapTokens hlength, htokens]

/-- Whatever a text is read as and whatever the other settings: if trivia is attached to the token
before it and then all of it moved to the token after it, the tree is the one that comes without
the detour. The nodes, their kinds and spans, and the tokens with their places, values and trivia
are the same. Only the ids of the nodes, which tell them apart in either tree, may not be. -/
theorem trailing_refines_leading (p : Production) (config : Config) (t : Text) :
    let on : Session := ⟨Tree.parse p { config with trailing := true } t, false⟩
    let moved := (on.call (.edit .trailingToLeading)).tree
    let off := Tree.parse p { config with trailing := false } t
    moved.root.anonymous id = off.root.anonymous id ∧
      (moved.root.descendants.map Node.id).Nodup ∧ (off.root.descendants.map Node.id).Nodup := by
  intro on moved off
  have hmoved : moved.Sound [] := Session.sound_call (Tree.sound_parse p _ t) _
  have hoff : off.Sound [] := Tree.sound_parse p _ t
  exact ⟨anonymous_moved p config t, hmoved.linked.nodup, hoff.linked.nodup⟩

end Tree

end CssTree
