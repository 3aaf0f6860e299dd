import CssTree.Proofs.Twin.Production
import CssTree.Proofs.Validity

namespace CssTree

namespace Grammar

/-- Both texts are made of the same tokens. -/
def Pairing.same : Pairing where
  folds b := b = some .colon
  comments := true
  Match ts us := us = ts
  Lost := Never
  folds_colon := colon_folds
  folds_close := close_folds
  bare h := by rw [h]
  touch h hlength := by
    obtain ⟨-, htwo⟩ := List.append_inj h hlength.symm
    obtain ⟨hfirst, hrest⟩ := List.cons.inj htwo
    rw [hfirst, (List.cons.inj hrest).1]
  settle n h hlength := by
    obtain ⟨rfl, hrest⟩ := List.append_inj h hlength.symm
    rw [Stream.eq_of_toList hrest]
  lost_child := @never_child

theorem readsDeclarations_same : Pairing.same.ReadsDeclarations :=
  readsDeclarations_of_folds fun b => by simp [Pairing.same]

/-- At the start of a text the runs stand at the same place. -/
theorem abreast_same (config : Config) {arena arena' : Arena} (h : arena.Fresh) (h' : arena'.Fresh)
    (t : Text) : Abreast .same (.start config arena t) (.start config arena' t) :=
  twins_start config config h h' rfl (by simp [Pairing.same]) rfl

end Grammar

namespace Production

open Grammar

/-- What a fragment is read as does not depend on the nodes that are there already. -/
theorem parse_anonymous {p : Production} (hp : p ≠ .styleSheet) (config : Config)
    {arena arena' : Arena} (h : arena.Fresh) (h' : arena'.Fresh) (t : Text) :
    (p.parse config arena t).1.anonymous id = (p.parse config arena' t).1.anonymous id := by
  have hstart : ∀ arena, (p.parse config arena t).1 =
      (p.fragment.run (.start config arena t)).1 := by
    intro arena
    rw [parse, parser, if_neg hp]
    rfl
  obtain ⟨hshape, hended⟩ := fragment_twins readsDeclarations_same (fun _ => id) hp
    (abreast_same config h h' t) rfl rfl rfl
  refine Node.anonymous_eq (fun _ _ h => congrArg Token.render h) _ _
    (p.complete_parse config h t).1.laid (p.complete_parse config h' t).1.laid ?_ ?_
  · rw [hstart, hstart]
    exact hshape
  · rw [hstart, hstart]
    rcases hended with hsame | ⟨us, u, us', u', hsame, hfirst, hsecond⟩
    · rw [show _ = _ from hsame]
    · obtain ⟨rfl, hlast⟩ := List.append_inj' hsame rfl
      obtain rfl := (List.cons.inj hlast).1
      rw [hfirst, hsecond]

end Production

end CssTree
