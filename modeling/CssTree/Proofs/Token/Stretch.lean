import CssTree.Proofs.Token.Prompt.Bound
import CssTree.Proofs.Token.Structural

namespace CssTree

/-- A lexeme without its place. -/
abbrev Piece := TokenKind × Text

/-- The text of pieces one after another. -/
def textOf (ps : List Piece) : Text := ps.flatMap Prod.snd

@[simp] theorem textOf_nil : textOf [] = [] := rfl

@[simp] theorem textOf_cons (p : Piece) (ps : List Piece) : textOf (p :: ps) = p.2 ++ textOf ps :=
  rfl

@[simp] theorem textOf_append (ps qs : List Piece) : textOf (ps ++ qs) = textOf ps ++ textOf qs :=
  List.flatMap_append

/-- The text of the pieces is cut into these pieces. -/
def IsCut (ps : List Piece) : Prop := cut (textOf ps) = ps

theorem textOf_cut (t : Text) : textOf (cut t) = t := (faithful_cut t).texts

theorem isCut_cut (t : Text) : IsCut (cut t) := congrArg cut (textOf_cut t)

theorem isCut_nil : IsCut [] := by rw [IsCut, textOf_nil, cut]

/-- The first lexeme of a text is the piece `p`. -/
def FirstPiece (p : Piece) (t : Text) : Prop :=
  p.2 ≠ [] ∧ (firstLexeme t).1 = p.1 ∧ max 1 (firstLexeme t).2 = p.2.length ∧ p.2 <+: t

theorem FirstPiece.le {p : Piece} {t : Text} (h : FirstPiece p t) :
    (firstLexeme t).2 ≤ p.2.length := h.2.2.1 ▸ Nat.le_max_right _ _

theorem firstPiece_cons (c : Char) (cs : Text) : FirstPiece
    ((firstLexeme (c :: cs)).1, c :: cs.take ((firstLexeme (c :: cs)).2 - 1)) (c :: cs) := by
  have hle := firstLexeme_le (c :: cs)
  refine ⟨List.cons_ne_nil _ _, rfl, ?_, ?_⟩
  · rw [List.length_cons, List.length_take]
    rw [List.length_cons] at hle
    omega
  · exact (List.prefix_cons_inj c).mpr (List.take_prefix _ _)

theorem cut_of_firstPiece {p : Piece} {t : Text} (h : FirstPiece p (p.2 ++ t)) :
    cut (p.2 ++ t) = p :: cut t := by
  obtain ⟨kind, x⟩ := p
  obtain ⟨hne, hkind, hlength, -⟩ := h
  obtain ⟨c, cs, rfl⟩ := List.exists_cons_of_ne_nil hne
  have hcount : (firstLexeme (c :: (cs ++ t))).2 - 1 = cs.length := by
    simp only [List.cons_append, List.length_cons] at hlength
    omega
  simp only [List.cons_append] at hkind ⊢
  rw [cut_cons, hkind, hcount, List.take_left, List.drop_left]

theorem isCut_cons {p : Piece} {ps : List Piece} :
    IsCut (p :: ps) ↔ FirstPiece p (textOf (p :: ps)) ∧ IsCut ps := by
  constructor
  · intro h
    rw [IsCut] at h
    match htext : textOf (p :: ps) with
    | [] =>
      rw [htext, cut] at h
      cases h
    | c :: cs =>
      rw [htext, cut_cons, List.cons.injEq] at h
      have hfirst := firstPiece_cons c cs
      rw [h.1] at hfirst
      refine ⟨hfirst, ?_⟩
      -- What is left behind the first piece is the text of the others.
      have hrest : cs.drop ((firstLexeme (c :: cs)).2 - 1) = textOf ps := by
        have hp := congrArg Prod.snd h.1
        simp only at hp
        rw [textOf_cons, ← hp, List.cons_append, List.cons.injEq] at htext
        exact List.append_cancel_left ((List.take_append_drop _ cs).trans htext.2.symm)
      rw [IsCut, ← hrest]
      exact h.2
  · rintro ⟨hfirst, hps⟩
    rw [textOf_cons] at hfirst
    rw [IsCut, textOf_cons, cut_of_firstPiece hfirst]
    exact congrArg (p :: ·) hps

theorem IsCut.right {ps qs : List Piece} (h : IsCut (ps ++ qs)) : IsCut qs := by
  induction ps with
  | nil => exact h
  | cons p ps ih => exact ih (isCut_cons.mp h).2

/-- The same pieces, or with a bad string at the end that has become a string. -/
def Eased (ps qs : List Piece) : Prop :=
  qs = ps ∨ ∃ front x, ps = front ++ [(.badString, x)] ∧ qs = front ++ [(.string, x)]

theorem Eased.cons {ps qs : List Piece} (h : Eased ps qs) (p : Piece) :
    Eased (p :: ps) (p :: qs) := by
  rcases h with rfl | ⟨front, x, rfl, rfl⟩
  · exact Or.inl rfl
  · exact Or.inr ⟨p :: front, x, rfl, rfl⟩

theorem Eased.textOf_eq {ps qs : List Piece} (h : Eased ps qs) : textOf qs = textOf ps := by
  rcases h with rfl | ⟨front, x, rfl, rfl⟩
  · rfl
  · simp

theorem isCut_singleton {p : Piece} (hne : p.2 ≠ [])
    (h : firstLexeme p.2 = (p.1, p.2.length)) : IsCut [p] := by
  refine isCut_cons.mpr ⟨?_, isCut_nil⟩
  have htext : textOf [p] = p.2 := by simp
  have hpos := List.length_pos_iff.mpr hne
  rw [htext]
  exact ⟨hne, by rw [h], by rw [h]; omega, List.prefix_refl _⟩

theorem FirstPiece.congr {p : Piece} {t u : Text} (h : FirstPiece p t) (hpre : p.2 <+: u)
    (hsame : firstLexeme u = firstLexeme t) : FirstPiece p u :=
  ⟨h.1, by rw [hsame, h.2.1], by rw [hsame, h.2.2.1], hpre⟩

/-- The first pieces of a text are cut alike without the rest of it. A function at their end must
not stand in front of a quote, though. -/
theorem IsCut.left {ps qs : List Piece} (h : IsCut (ps ++ qs))
    (hquote : ∀ front x back, ps = front ++ (.function, x) :: back →
      (∀ c ∈ textOf back, isBlank c = true) → Unquoted (textOf qs)) :
    ∃ ps', Eased ps ps' ∧ IsCut ps' := by
  induction ps with
  | nil => exact ⟨[], Or.inl rfl, isCut_nil⟩
  | cons p ps ih =>
    rw [List.cons_append, isCut_cons] at h
    obtain ⟨hfirst, hrest⟩ := h
    obtain ⟨ps', heased, hps'⟩ := ih hrest fun front y back heq =>
      hquote (p :: front) y back (by rw [heq, List.cons_append])
    have htext : textOf (p :: (ps ++ qs)) = p.2 ++ textOf ps ++ textOf qs := by simp
    have hpre : p.2 <+: p.2 ++ textOf ps := List.prefix_append _ _
    rw [htext] at hfirst
    have hle := hfirst.le
    have hne : p.2 ++ textOf ps ≠ [] := List.append_ne_nil_of_left_ne_nil hfirst.1 _
    have hshort : (firstLexeme (p.2 ++ textOf ps ++ textOf qs)).2 ≤ (p.2 ++ textOf ps).length := by
      rw [List.length_append]
      omega
    have hend : (firstLexeme (p.2 ++ textOf ps ++ textOf qs)).1 = .function →
        (∀ c ∈ (p.2 ++ textOf ps).drop (firstLexeme (p.2 ++ textOf ps ++ textOf qs)).2,
          isBlank c = true) → Unquoted (textOf qs) := by
      intro hfunction hall
      have hkind : p.1 = .function := hfirst.2.1.symm.trans hfunction
      refine hquote [] p.2 ps (by rw [← hkind]; rfl) fun c hc => hall c ?_
      rw [List.drop_append_of_le_length hle]
      exact List.mem_append_right _ hc
    rcases firstLexeme_prompt hne hshort hend with hsame | ⟨hbad, hstring⟩
    · refine ⟨p :: ps', heased.cons p, isCut_cons.mpr ⟨?_, hps'⟩⟩
      rw [textOf_cons, heased.textOf_eq]
      exact hfirst.congr hpre hsame
    · -- A bad string that is cut off is the last piece.
      have hempty : textOf ps = [] := by
        rw [hbad, List.length_append] at hle
        exact List.eq_nil_of_length_eq_zero (by dsimp only at hle; omega)
      have hps : ps' = [] := by
        have hcut : cut (textOf ps') = ps' := hps'
        rw [heased.textOf_eq, hempty, cut] at hcut
        exact hcut.symm
      have hnil : ps = [] := by
        subst hps
        rcases heased with hsame | ⟨front, x, -, hback⟩
        · exact hsame.symm
        · simp at hback
      obtain ⟨kind, x⟩ := p
      subst hnil
      obtain rfl : kind = .badString := by
        have hkind := hfirst.2.1
        rw [hbad] at hkind
        exact hkind.symm
      refine ⟨[(.string, x)], Or.inr ⟨[], x, rfl, rfl⟩, isCut_singleton hfirst.1 ?_⟩
      simpa using hstring

theorem TokenKind.mem_unscanned_of_isTrivia {kind : TokenKind} (h : kind.isTrivia = true) :
    kind ∈ unscanned := by
  cases kind <;> simp only [isTrivia, Bool.false_eq_true] at h <;> decide

/-- The blanks at the start of a text, told by what stands behind them. -/
theorem blankLength_append_iff {t u : Text} : blankLength (t ++ u) = t.length ↔
    (∀ c ∈ t, isBlank c = true) ∧ u.head?.any isBlank = false := by
  rw [blankLength, runLength]
  induction t with
  | nil =>
    cases u with
    | nil => simp
    | cons c cs => by_cases hc : isBlank c = true <;> simp [hc]
  | cons c cs ih =>
    by_cases hc : isBlank c = true
    · simpa [hc] using ih
    · simp [hc]

/-- A comment that is closed within a text ends at the same place in front of other text. -/
theorem commentLength_append {cs t : Text} (ht : t ≠ [])
    (h : commentLength (cs ++ t) = cs.length) (u : Text) :
    commentLength (cs ++ u) = cs.length := by
  have hpos : commentLength t ≠ 0 := by
    obtain ⟨c, ds, rfl⟩ := List.exists_cons_of_ne_nil ht
    rw [commentLength_cons]
    split <;> simp
  induction cs with
  | nil => exact absurd h hpos
  | cons c cs ih =>
    rw [List.cons_append, commentLength_cons, List.length_cons] at h
    rw [List.cons_append, commentLength_cons, List.length_cons]
    split at h
    next hend =>
      match cs, h, hend with
      | [d], _, hend => rw [if_pos (by simpa using hend)]; rfl
    next hend =>
      have hrest : commentLength (cs ++ t) = cs.length := Nat.succ.inj h
      cases cs with
      | nil => exact absurd hrest hpos
      | cons d ds => rw [if_neg (by simpa using hend), ih hrest]

/-- Blanks at the start of a text are its first lexeme, all of them. -/
theorem FirstPiece.blanks {kind : TokenKind} {c : Char} {cs t : Text}
    (h : FirstPiece (kind, c :: cs) (c :: (cs ++ t))) (hblank : isBlank c = true) :
    kind = .whitespace ∧ (∀ d ∈ c :: cs, isBlank d = true) ∧ t.head?.any isBlank = false := by
  obtain ⟨-, hkind, hlength, -⟩ := h
  have hpos : 0 < blankLength (c :: (cs ++ t)) := blankLength_pos hblank _
  rw [first_blank hblank] at hkind hlength
  refine ⟨hkind.symm, blankLength_append_iff.mp ?_⟩
  rw [List.cons_append, ← hlength]
  dsimp only
  omega

/-- A lexeme of trivia is the same in front of other text, unless blanks meet blanks or the end of
a comment is missing. -/
theorem FirstPiece.trivia {p : Piece} {t u : Text} (h : FirstPiece p (p.2 ++ t))
    (hp : p.1.isTrivia = true) (ht : t ≠ [])
    (hu : u.head?.any isBlank = true → t.head?.any isBlank = true) : FirstPiece p (p.2 ++ u) := by
  obtain ⟨kind, x⟩ := p
  obtain ⟨hne, hkind, hlength, hpre⟩ := h
  obtain ⟨c, cs, rfl⟩ := List.exists_cons_of_ne_nil hne
  dsimp only at hp hkind hlength hpre ⊢
  rw [List.cons_append] at hkind hlength hpre ⊢
  have hunscanned : (firstLexeme (c :: (cs ++ t))).1 ∈ TokenKind.unscanned := by
    rw [hkind]
    exact TokenKind.mem_unscanned_of_isTrivia hp
  suffices hsame : firstLexeme (c :: (cs ++ u)) = (kind, (c :: cs).length) by
    refine ⟨hne, by rw [hsame], ?_, List.prefix_append _ u⟩
    rw [hsame, List.length_cons]
    omega
  rcases first_unscanned hunscanned with hblank | ⟨ds, hds, rfl⟩ | rfl
  · obtain ⟨rfl, hall, hhead⟩ := FirstPiece.blanks ⟨hne, hkind, hlength, hpre⟩ hblank
    have hrun : blankLength ((c :: cs) ++ u) = (c :: cs).length := by
      refine blankLength_append_iff.mpr ⟨hall, ?_⟩
      rw [Bool.eq_false_iff]
      exact fun h => by simp [hu h] at hhead
    rw [first_blank hblank, ← hrun]
    rfl
  · have hfirst : ∀ es, firstLexeme ('/' :: '*' :: es) = (.comment, 2 + commentLength es) := by
      intro es
      rw [firstLexeme_cons_cons, if_pos ⟨rfl, rfl⟩]
    rw [hds, hfirst] at hkind hlength
    cases cs with
    | nil =>
      simp only [List.length_singleton] at hlength
      omega
    | cons d cs =>
      rw [List.cons_append, List.cons.injEq] at hds
      obtain ⟨rfl, rfl⟩ := hds
      have hclosed : commentLength (cs ++ t) = cs.length := by
        simp only [List.length_cons] at hlength
        omega
      rw [List.cons_append, hfirst, commentLength_append ht hclosed, ← hkind]
      simp only [List.length_cons, Prod.mk.injEq, true_and]
      omega
  · cases hc : (cs ++ t) <;> simp [hc, firstLexeme, punctuation?] at hkind <;> subst hkind <;> cases hp

/-- Trivia is cut alike in front of other lexemes. -/
theorem IsCut.trivia {us ps qs : List Piece} (h : IsCut (us ++ ps)) (hps : ps ≠ [])
    (hus : ∀ p ∈ us, p.1.isTrivia = true) (hqs : IsCut qs)
    (hblank : (textOf qs).head?.any isBlank = false) : IsCut (us ++ qs) := by
  induction us with
  | nil => exact hqs
  | cons p us ih =>
    rw [List.forall_mem_cons] at hus
    rw [List.cons_append, isCut_cons] at h ⊢
    refine ⟨?_, ih h.2 hus.2⟩
    rw [textOf_cons] at h ⊢
    refine h.1.trivia hus.1 ?_ fun hu => ?_
    · obtain ⟨q, qs', hq⟩ := List.exists_cons_of_ne_nil (List.append_ne_nil_of_right_ne_nil us hps)
      have hrest := h.2
      rw [hq] at hrest ⊢
      exact List.append_ne_nil_of_left_ne_nil (isCut_cons.mp hrest).1.1 _
    · cases us with
      | nil => rw [List.nil_append, hblank] at hu; cases hu
      | cons q us =>
        have hq := (isCut_cons.mp h.2).1.1
        obtain ⟨c, cs, hc⟩ := List.exists_cons_of_ne_nil hq
        simpa [hc] using hu

theorem unquoted_cons {c : Char} (hblank : ¬isBlank c = true) (hdouble : c ≠ '"')
    (hsingle : c ≠ '\'') (cs : Text) : Unquoted (c :: cs) := by
  have hlength : blankLength (c :: cs) = 0 := by simp [blankLength, runLength, hblank]
  rw [Unquoted, hlength]
  simp [hdouble, hsingle]

/-- Behind trivia, a text that ends or goes on with a closing brace does not go on with a quote. -/
theorem IsCut.unquoted {us qs : List Piece} (h : IsCut (us ++ qs))
    (hus : ∀ p ∈ us, p.1.isTrivia = true) (hqs : ∀ q ∈ qs.head?, q.1 = .closeBrace) :
    Unquoted (textOf (us ++ qs)) := by
  -- The first lexeme is a run of blanks, or it starts with a slash or a brace.
  have hstart : ∀ (p : Piece) (ps : List Piece), p.1 ∈ TokenKind.unscanned → IsCut (p :: ps) →
      ((∀ c ∈ p.2, isBlank c = true) → Unquoted (textOf ps)) → Unquoted (textOf (p :: ps)) := by
    rintro ⟨kind, x⟩ ps hkind hcut hrest
    obtain ⟨hfirst, -⟩ := isCut_cons.mp hcut
    obtain ⟨c, cs, rfl⟩ := List.exists_cons_of_ne_nil hfirst.1
    rw [textOf_cons, List.cons_append] at hfirst ⊢
    have hunscanned : (firstLexeme (c :: (cs ++ textOf ps))).1 ∈ TokenKind.unscanned := by
      rw [hfirst.2.1]
      exact hkind
    by_cases hblank : isBlank c = true
    · obtain ⟨-, hall, -⟩ := hfirst.blanks hblank
      exact (unquoted_append_of_all hall _).mpr (hrest hall)
    · rcases first_unscanned hunscanned with h | ⟨-, -, rfl⟩ | rfl
      · exact absurd h hblank
      · exact unquoted_cons hblank (by decide) (by decide) _
      · exact unquoted_cons hblank (by decide) (by decide) _
  induction us with
  | nil =>
    cases qs with
    | nil => exact unquoted_of_all (by simp)
    | cons q qs =>
      refine hstart q qs (by rw [hqs q rfl]; decide) h fun hall => ?_
      have hfirst := (isCut_cons.mp h).1
      obtain ⟨kind, x⟩ := q
      obtain ⟨c, cs, rfl⟩ := List.exists_cons_of_ne_nil hfirst.1
      have hkind := (hfirst.blanks (hall c List.mem_cons_self)).1
      have hbrace : kind = .closeBrace := hqs _ rfl
      rw [hbrace] at hkind
      cases hkind
  | cons p us ih =>
    rw [List.forall_mem_cons] at hus
    refine hstart p (us ++ qs) ?_ h fun _ => ih (isCut_cons.mp h).2 hus.2
    exact TokenKind.mem_unscanned_of_isTrivia hus.1

end CssTree
