import CssTree.Proofs.Grammar.Origin
import CssTree.Proofs.Syntax.Declaration
import CssTree.Proofs.Syntax.Ease
import CssTree.Proofs.Token.Pieces

namespace CssTree.Grammar

open Token

variable {base s : State} {t : Text}

/-- Behind the start of a text, outside comments, it is known which tokens come. -/
theorem Clear.at_tokens (h : Clear base s) (hsound : base.upcoming.Sound base.taken.reverse)
    (hflat : FlatFrom false base.upcoming.tokens) (hroom : base.guard.depth ≤ base.limit) :
    At s.guard.depth (s.limit - s.guard.depth) s.upcoming.foldAll.toList s := by
  obtain ⟨ts, hts, hout⟩ := h
  have hroom' := hts.depth hroom
  obtain ⟨-, hflat'⟩ := hts.folded.foldAll_eq hflat
  have hbehind := (flatFrom_append.mp hflat').2
  rw [hout] at hbehind
  exact ⟨hts.sound hsound, hbehind, rfl, rfl, by omega⟩

/-- The lexemes of the tokens to come are the last ones of the text. -/
theorem Clear.pieces (h : Clear base s) (hflat : FlatFrom false base.upcoming.tokens)
    {ps : List Piece} (hps : Present [] base.upcoming.foldAll.tokens ps) :
    ∃ front back, AllTrivia back ∧
      ps = front ++ (piecesOf (lexemesOf s.upcoming.foldAll.tokens) ++ back) ∧
        ∀ t ∈ s.upcoming.foldAll.tokens, t.Canonical := by
  obtain ⟨ts, hts, hout⟩ := h
  obtain ⟨-, ⟨back, hback, rfl⟩, hcanonical⟩ := hps
  obtain ⟨hfold, -⟩ := hts.folded.foldAll_eq hflat
  obtain ⟨ts', trivia, hbehind⟩ := Stream.foldAll_behind hout s.upcoming
  have htokens : base.upcoming.foldAll.tokens =
      ts' ++ (s.upcoming.foldAll.prependLeading trivia).tokens := by
    rw [← hfold, hbehind]
    rfl
  rw [htokens] at hcanonical ⊢
  replace hcanonical := (List.forall_mem_append.mp hcanonical).2
  rw [piecesOf_nil, List.nil_append, lexemesOf_append, piecesOf_append, List.append_assoc]
  generalize s.upcoming.foldAll = r at hcanonical ⊢
  obtain ⟨tokens, last⟩ := r
  cases tokens with
  | nil => exact ⟨_, back, hback, rfl, by simp⟩
  | cons u us =>
    rw [Stream.prependLeading, List.forall_mem_cons] at hcanonical
    refine ⟨piecesOf (lexemesOf ts') ++ piecesOf trivia, back, hback, ?_, ?_⟩
    · simp [Stream.prependLeading, lexemes]
    · refine List.forall_mem_cons.mpr ⟨?_, hcanonical.2⟩
      have hleading := hcanonical.1.leading
      rw [piecesOf_append, AllTrivia.append] at hleading
      exact { hcanonical.1 with leading := hleading.2 }

end CssTree.Grammar

namespace CssTree.Syntax

open Token Grammar

/-- A declaration in a text: it has the shape of one in front of `next`, its tokens are such as the
text is cut into, and `behind` are the lexemes that follow. -/
structure Stands (limit : Nat) (d : Declaration) (next : TokenKind) (behind : List Piece) :
    Prop where
  shape : IsDeclaration next d
  nests : d.value.NestsWithin limit
  canonical : ∀ t ∈ behindOpening d, t.Canonical
  pieces : IsCut (piecesOf (lexemesOf (behindOpening d)) ++ behind)
  unquoted : next = .eof ∨ next = .closeBrace → Unquoted (textOf behind)

variable {base : State} {n : Node} {d : Declaration} {ps : List Piece}

/-- A declaration that is not disabled and holds no error stands in the text as it was read. -/
theorem stands_of_written (hsound : base.upcoming.Sound base.taken.reverse)
    (hflat : FlatFrom false base.upcoming.tokens) (hroom : base.guard.depth ≤ base.limit)
    (hps : Present [] base.upcoming.foldAll.tokens ps) (hcut : IsCut ps) (hn : Written base n)
    (hd : n.declaration? = some d) (hopening : d.opening = none) (herror : n.containsError = false) :
    ∃ next behind, Stands base.limit d next behind := by
  obtain ⟨s, hs, hrun⟩ := hn d hd hopening
  have hat := hs.at_tokens hsound hflat hroom
  obtain ⟨front, back, hback, hpieces, hcanonical⟩ := hs.pieces hflat hps
  have hfound := declarationAfter_finds none s hat
  rw [hrun] at hfound
  obtain ⟨e, hkind, helements, he, us, hsplit, hrest, hshape⟩ := hfound
  have hshape := hshape herror
  have hformed : e.Formed := hshape.formed he
  obtain rfl : d = e := by
    rw [Node.declaration?, if_pos hkind, helements, hformed.ofElements?] at hd
    exact (Option.some.inj hd).symm
  -- The end of the text is behind the declaration.
  obtain ⟨us', u, rfl⟩ : ∃ us' u, us = us' ++ [u] :=
    ⟨us.dropLast, us.getLast hrest.ne_nil, (List.dropLast_append_getLast _).symm⟩
  rw [Stream.toList, ← List.append_assoc] at hsplit
  obtain ⟨htokens, hlast⟩ := List.append_inj' hsplit rfl
  rw [htokens] at hcanonical hpieces
  replace hcut : IsCut (piecesOf (lexemesOf (behindOpening d)) ++ (piecesOf (lexemesOf us') ++ back)) := by
    rw [hpieces, lexemesOf_append, piecesOf_append, List.append_assoc] at hcut
    exact hcut.right
  refine ⟨_, piecesOf (lexemesOf us') ++ back, hshape, ?_, ?_, ?_, fun hnext => ?_⟩
  · have hnests : n.NestsWithin (s.limit - s.guard.depth) :=
      (declarationAfter_levels none s rfl rfl).result n hrun
    obtain ⟨ts, hts, -⟩ := hs
    have hlimit := hts.limit
    have hvalue : .node d.value ∈ n.elements := by simp [helements, Declaration.elements]
    exact (hnests.below d.value hvalue).mono (by omega)
  · exact fun t ht => hcanonical t (List.mem_append_left _ ht)
  · exact hcut
  · have hbehind := hcut.right
    cases us' with
    | nil =>
      have hempty : IsCut (back ++ []) := by simpa using hbehind
      simpa using hempty.unquoted hback (by simp)
    | cons t us' =>
      have hbrace : t.kind = .closeBrace :=
        hnext.resolve_left (hat.sound.foldAll.kinds t (by simp [htokens]))
      have hleading := (hcanonical t (by simp)).leading
      have hpieces : piecesOf (lexemesOf (t :: us')) ++ back = piecesOf t.leading ++
          ((t.kind, t.text) :: (piecesOf t.trailing ++ (piecesOf (lexemesOf us') ++ back))) := by
        simp [lexemes]
      rw [hpieces] at hbehind ⊢
      exact hbehind.unquoted hleading (by simp [hbrace])

end CssTree.Syntax

namespace CssTree

/-- A declaration that is not disabled and differs from another one in its name only, as far as
queries show. -/
structure Declaration.Renamed (name : Text) (d e : Declaration) : Prop where
  opening : e.opening = none
  name : e.name.text = name
  value : e.value.trimmedText = d.value.trimmedText
  important : e.important.isSome = d.important.isSome
  semicolon : e.semicolon.isSome = d.semicolon.isSome

namespace Syntax

open Token Grammar

/-- The text of a declaration behind its name. -/
def afterName (d : Declaration) : Text :=
  d.name.trailingText ++ renderAll (d.colon :: (d.value.tokens ++ afterValue d))

/-- A declaration that can be written with another name: the tokens are such as a text is cut into,
and nothing else shows a difference. -/
structure Renaming (limit : Nat) (name : Text) (d e : Declaration) : Prop
    extends d.Renamed name e where
  shape : IsDeclaration .eof e
  nests : e.value.NestsWithin limit
  canonical : ∀ t ∈ behindOpening e, t.Canonical

/-- Blanks are trivia. -/
theorem allTrivia_of_blank {ps qs : List Piece} (h : IsCut (ps ++ qs))
    (hblank : ∀ c ∈ textOf ps, isBlank c = true) : AllTrivia ps := by
  induction ps with
  | nil => exact .nil
  | cons p ps ih =>
    rw [List.cons_append, isCut_cons] at h
    rw [textOf_cons, List.forall_mem_append] at hblank
    obtain ⟨kind, x⟩ := p
    obtain ⟨hfirst, hrest⟩ := h
    obtain ⟨c, cs, rfl⟩ := List.exists_cons_of_ne_nil hfirst.1
    refine AllTrivia.cons.mpr ⟨?_, ih hrest hblank.2⟩
    rw [(hfirst.blanks (hblank.1 c List.mem_cons_self)).1]
    rfl

theorem firstPiece_of_head? {t : Text} {p : Piece} (h : (cut t).head? = some p) :
    FirstPiece p t := by
  obtain ⟨ps, hps⟩ := List.head?_eq_some_iff.mp h
  have hcut := isCut_cut t
  rw [hps, isCut_cons, ← hps, textOf_cut] at hcut
  exact hcut.1

variable {limit : Nat} {d : Declaration} {next : TokenKind} {behind : List Piece} {name : Text}

/-- The pieces of some tokens with another behind them. -/
theorem pieces_concat (ts : List Token) (t : Token) : piecesOf (lexemesOf (ts ++ [t])) =
    piecesOf (lexemesOf ts) ++ piecesOf t.leading ++ (t.kind, t.text) :: piecesOf t.trailing := by
  simp [lexemesOf_append, lexemes]

/-- The tokens behind the name. -/
def behindName (d : Declaration) : List Token := d.colon :: (d.value.tokens ++ afterValue d)

/-- The lexemes behind the name. -/
def piecesAfterName (d : Declaration) : List Piece :=
  piecesOf d.name.trailing ++ piecesOf (lexemesOf (behindName d))

theorem textOf_piecesAfterName (d : Declaration) : textOf (piecesAfterName d) = afterName d := by
  rw [piecesAfterName, textOf_append, textOf_piecesOf, textOf_piecesOf, render_lexemesOf]
  rfl

theorem pieces_behindOpening (d : Declaration) : piecesOf (lexemesOf (behindOpening d)) =
    piecesOf d.name.leading ++ (d.name.kind, d.name.text) :: piecesAfterName d := by
  simp [behindOpening, piecesAfterName, behindName, lexemes]

namespace Stands

/-- Behind its name a declaration is cut alike without what follows it. -/
theorem exists_eased (h : Stands limit d next behind) (hopening : d.opening = none) :
    ∃ ps, Eased (piecesAfterName d) ps ∧ IsCut ps := by
  have hcut := h.pieces
  rw [pieces_behindOpening, List.append_assoc, List.cons_append] at hcut
  replace hcut := (isCut_cons.mp hcut.right).2
  refine hcut.left fun front x back heq hblank => h.unquoted ?_
  rw [heq, List.append_assoc, List.cons_append] at hcut
  have hback : AllTrivia back := allTrivia_of_blank (isCut_cons.mp hcut.right).2 hblank
  -- The function is the last token, so that no semicolon ends the declaration.
  obtain ⟨ts, u, hu⟩ : ∃ ts u, behindName d = ts ++ [u] :=
    ⟨_, _, (List.dropLast_append_getLast (List.cons_ne_nil _ _)).symm⟩
  have hmem : u ∈ behindOpening d := by
    refine List.mem_cons_of_mem _ ?_
    show u ∈ behindName d
    simp [hu]
  have hcanonical := h.canonical u hmem
  rw [piecesAfterName, hu, pieces_concat, ← List.append_assoc] at heq
  obtain ⟨-, hpiece, -⟩ := AllTrivia.cancel_right hcanonical.trailing hback hcanonical.kind rfl heq
  have hkind : u.kind = .function := (Prod.mk.inj hpiece).1
  obtain ⟨hclosing, hend⟩ := h.shape.enabled hopening
  refine (hend ?_).symm
  cases hsemicolon : d.semicolon with
  | none => rfl
  | some c =>
    have hlast : behindName d = d.colon :: (d.value.tokens ++ (d.important.map Node.tokens).getD []) ++ [c] := by
      simp [behindName, afterValue, hsemicolon, hclosing]
    have hsame := (List.cons.inj (List.append_inj' (hu.symm.trans hlast) rfl).2).1
    have hc := h.shape.semicolon c hsemicolon
    rw [← hsame, hkind] at hc
    cases hc

/-- With another name in front, the lexemes are those of the declaration with that name. -/
theorem cut_renamed (h : Stands limit d next behind) {ps : List Piece}
    (heased : Eased (piecesAfterName d) ps) (hps : IsCut ps)
    (hname : (cut (name ++ afterName d)).head? = some (.ident, name)) :
    cut (d.name.leadingText ++ name ++ afterName d) =
      piecesOf d.name.leading ++ (.ident, name) :: ps := by
  have htext : textOf ps = afterName d := heased.textOf_eq.trans (textOf_piecesAfterName d)
  have hfirst := firstPiece_of_head? hname
  have hrest : IsCut ((.ident, name) :: ps) := by
    refine isCut_cons.mpr ⟨?_, hps⟩
    rwa [textOf_cons, htext]
  have hcut := h.pieces
  rw [pieces_behindOpening, List.append_assoc] at hcut
  have hleading : AllTrivia (piecesOf d.name.leading) :=
    (h.canonical d.name List.mem_cons_self).leading
  have hall : IsCut (piecesOf d.name.leading ++ (.ident, name) :: ps) := by
    refine hcut.trivia (List.cons_ne_nil _ _) hleading hrest ?_
    obtain ⟨c, cs, rfl⟩ := List.exists_cons_of_ne_nil hfirst.1
    rw [textOf_cons, List.cons_append, List.head?_cons, Option.any_some, Bool.eq_false_iff]
    intro hblank
    cases (hfirst.blanks hblank).1
  have hwhole : textOf (piecesOf d.name.leading ++ (.ident, name) :: ps) =
      d.name.leadingText ++ name ++ afterName d := by
    rw [textOf_append, textOf_cons, htext, textOf_piecesOf, List.append_assoc]
    rfl
  rw [← hwhole]
  exact hall

/-- In its text a declaration may be renamed. -/
theorem rename (h : Stands limit d next behind) (hopening : d.opening = none)
    (hname : (cut (name ++ afterName d)).head? = some (.ident, name)) : ∃ e,
    Renaming limit name d e ∧ cut (d.name.leadingText ++ name ++ afterName d) =
      piecesOf (lexemesOf (behindOpening e)) := by
  obtain ⟨ps, heased, hps⟩ := h.exists_eased hopening
  rw [h.cut_renamed heased hps hname]
  let name' : Token := { d.name with text := name, value := TokenValue.decode? .ident name }
  let d' : Declaration := { d with name := name' }
  have hkind : name'.kind = .ident := h.shape.name
  have hshape : IsDeclaration next d' := { h.shape with name := hkind }
  have hcanonical : name'.Canonical := by
    have hold := h.canonical d.name List.mem_cons_self
    exact { hold with value := by rw [hkind] }
  have hbehind : ∀ t ∈ behindName d, t.Canonical :=
    fun t ht => h.canonical t (List.mem_cons_of_mem _ ht)
  rcases heased with rfl | ⟨front, x, hfront, rfl⟩
  · refine ⟨d', ⟨⟨hopening, rfl, rfl, rfl, rfl⟩, hshape.at_end, h.nests, ?_⟩, ?_⟩
    · exact List.forall_mem_cons.mpr ⟨hcanonical, hbehind⟩
    · rw [pieces_behindOpening]
      show _ = piecesOf d.name.leading ++ (name'.kind, name) :: piecesAfterName d
      rw [hkind]
  · obtain ⟨ts, u, hu⟩ : ∃ ts u, behindName d = ts ++ [u] :=
      ⟨_, _, (List.dropLast_append_getLast (List.cons_ne_nil _ _)).symm⟩
    rw [hu, List.forall_mem_append, List.forall_mem_singleton] at hbehind
    rw [piecesAfterName, hu, pieces_concat, ← List.append_assoc] at hfront
    obtain ⟨rfl, hpiece, htrailing⟩ := AllTrivia.cancel_right hbehind.2.trailing .nil
      hbehind.2.kind rfl hfront
    obtain ⟨hbad, rfl⟩ := Prod.mk.inj hpiece
    let u' : Token := { u with kind := .string, value := TokenValue.decode? .string u.text }
    have hends : behindOpening d' = (name' :: ts) ++ [u] := congrArg (List.cons name') hu
    have hstring : u'.kind = .string := rfl
    obtain ⟨v, hv, htokens, ⟨front', hold, hnew⟩, hnests⟩ :=
      hshape.ease hopening hbad hstring hends
    refine ⟨{ d' with value := v }, ⟨⟨hopening, rfl, ?_, rfl, rfl⟩, hv.at_end, hnests limit h.nests, ?_⟩, ?_⟩
    · have hold : d.value.tokens = front' ++ [u] := hold
      show renderAll (stripEnds v.tokens) = renderAll (stripEnds d.value.tokens)
      rw [hold, hnew]
      exact render_stripEnds (by simp [u']) (joints_of_trivia (by simp [u']))
    · have hu' : u'.Canonical := { hbehind.2 with kind := rfl, value := rfl }
      rw [htokens, List.forall_mem_append, List.forall_mem_cons, List.forall_mem_singleton]
      exact ⟨⟨hcanonical, hbehind.1⟩, hu'⟩
    · have hnil : piecesOf u'.trailing = [] := htrailing
      rw [htokens, pieces_concat, hnil]
      simp [lexemes, name', u', h.shape.name]

end Stands

end Syntax

end CssTree
