import CssTree.Proofs.Twin.Basic

namespace CssTree

namespace Token

/-- At which places neighbouring tokens are run together. -/
def seams : List Token → List Bool
  | t :: u :: ts => t.touches u :: seams (u :: ts)
  | _ => []

/-- Two lists of tokens spell the same. -/
structure Spells (ts us : List Token) : Prop where
  bare : ts.map bare = us.map bare
  seams : seams ts = seams us

namespace Spells

variable {t u : Token} {ts us vs ws : List Token}

theorem refl (ts : List Token) : Spells ts ts := ⟨rfl, rfl⟩

theorem symm (h : Spells ts us) : Spells us ts := ⟨h.bare.symm, h.seams.symm⟩

theorem length_eq (h : Spells ts us) : ts.length = us.length := by
  simpa using congrArg List.length h.bare

theorem eq_nil (h : Spells [] us) : us = [] := List.eq_nil_of_length_eq_zero h.length_eq.symm

theorem of_cons (h : Spells (t :: ts) (u :: us)) : t.bare = u.bare ∧ Spells ts us := by
  obtain ⟨hbare, hseams⟩ := h
  rw [List.map_cons, List.map_cons, List.cons.injEq] at hbare
  refine ⟨hbare.1, hbare.2, ?_⟩
  cases ts with
  | nil =>
    obtain rfl : us = [] := by simpa using hbare.2.symm
    rfl
  | cons t' ts =>
    cases us with
    | nil => simp at hbare
    | cons u' us => exact (List.cons.inj hseams).2

theorem exists_cons (h : Spells (t :: ts) us) :
    ∃ u us', us = u :: us' ∧ t.bare = u.bare ∧ Spells ts us' := by
  cases us with
  | nil => exact absurd h.symm.eq_nil (List.cons_ne_nil t ts)
  | cons u us => exact ⟨u, us, rfl, h.of_cons⟩

theorem of_append (hlength : ts.length = us.length) (h : Spells (ts ++ vs) (us ++ ws)) :
    Spells ts us ∧ Spells vs ws := by
  induction ts generalizing us with
  | nil =>
    obtain rfl := List.eq_nil_of_length_eq_zero hlength.symm
    exact ⟨.refl _, h⟩
  | cons t ts ih =>
    cases us with
    | nil => simp at hlength
    | cons u us =>
      have hrest := ih (by simpa using hlength) h.of_cons.2
      refine ⟨⟨?_, ?_⟩, hrest.2⟩
      · rw [List.map_cons, List.map_cons, h.of_cons.1, hrest.1.bare]
      · cases ts with
        | nil =>
          obtain rfl := hrest.1.eq_nil
          rfl
        | cons t' ts =>
          obtain ⟨u', us, rfl, -, -⟩ := hrest.1.exists_cons
          exact congrArg₂ List.cons (List.cons.inj h.seams).1 hrest.1.seams

theorem exists_append (h : Spells (ts ++ vs) us) :
    ∃ us₁ us₂, us = us₁ ++ us₂ ∧ Spells ts us₁ ∧ Spells vs us₂ := by
  have hlength := h.length_eq
  rw [List.length_append] at hlength
  have hsplit : us = us.take ts.length ++ us.drop ts.length := (List.take_append_drop _ _).symm
  refine ⟨_, _, hsplit, ?_⟩
  rw [hsplit] at h
  exact h.of_append (by rw [List.length_take]; omega)

/-- The first two of some tokens. -/
theorem touches (h : Spells (t :: u :: ts) (v :: w :: us)) : t.touches u = v.touches w :=
  (List.cons.inj h.seams).1

end Spells

/-- The kind of the first of some tokens; none but the end of the text follows the last one. -/
def headKind (ts : List Token) : TokenKind := (ts.head?.map fun t => t.kind).getD .eof

@[simp] theorem headKind_cons (t : Token) (ts : List Token) : headKind (t :: ts) = t.kind := rfl

theorem headKind_append {ts : List Token} (h : ts ≠ []) (us : List Token) :
    headKind (ts ++ us) = headKind ts := by
  cases ts with
  | nil => exact absurd rfl h
  | cons t ts => rfl

/-- The kind of the token after tokens that another kind follows. -/
def kindBefore (ts : List Token) (kind : TokenKind) : TokenKind :=
  (ts.head?.map fun t => t.kind).getD kind

theorem headKind_append_eq (ts us : List Token) :
    Token.headKind (ts ++ us) = kindBefore ts (Token.headKind us) := by
  cases ts <;> rfl

theorem Spells.kindBefore {ts us : List Token} (h : Spells ts us) (kind : TokenKind) :
    Token.kindBefore ts kind = Token.kindBefore us kind := by
  cases ts with
  | nil => rw [h.eq_nil]
  | cons t ts =>
    obtain ⟨u, us, rfl, hbare, -⟩ := h.exists_cons
    exact kind_of_bare hbare

end Token

end CssTree
