import CssTree.Proofs.Syntax.Spelling
import CssTree.Proofs.Token.FoldAll
import CssTree.Proofs.Token.Stretch

namespace CssTree

/-- Lexemes without their places. -/
def piecesOf (ls : List Lexeme) : List Piece := ls.map fun l => (l.kind, l.text)

@[simp] theorem piecesOf_nil : piecesOf [] = [] := rfl

@[simp] theorem piecesOf_cons (l : Lexeme) (ls : List Lexeme) :
    piecesOf (l :: ls) = (l.kind, l.text) :: piecesOf ls := rfl

@[simp] theorem piecesOf_append (xs ys : List Lexeme) :
    piecesOf (xs ++ ys) = piecesOf xs ++ piecesOf ys := List.map_append

theorem textOf_piecesOf (ls : List Lexeme) : textOf (piecesOf ls) = Lexeme.render ls := by
  induction ls with
  | nil => rfl
  | cons l ls ih => rw [piecesOf_cons, textOf_cons, ih, Lexeme.render_cons]

theorem piecesOf_placeAll (p : Position) (ps : List Piece) :
    piecesOf (Lexeme.placeAll p ps) = ps := by
  induction ps generalizing p with
  | nil => rfl
  | cons x ps ih => rw [Lexeme.placeAll, piecesOf_cons, ih]; rfl

/-- Pieces of trivia only. -/
def AllTrivia (ps : List Piece) : Prop := ∀ p ∈ ps, p.1.isTrivia = true

namespace AllTrivia

theorem nil : AllTrivia [] := by simp [AllTrivia]

theorem append {ps qs : List Piece} : AllTrivia (ps ++ qs) ↔ AllTrivia ps ∧ AllTrivia qs :=
  List.forall_mem_append

theorem cons {p : Piece} {ps : List Piece} :
    AllTrivia (p :: ps) ↔ p.1.isTrivia = true ∧ AllTrivia ps := List.forall_mem_cons

/-- Trivia ends where another lexeme stands. -/
theorem cancel {ps qs xs ys : List Piece} {x y : Piece} (hps : AllTrivia ps) (hqs : AllTrivia qs)
    (hx : x.1.isTrivia = false) (hy : y.1.isTrivia = false)
    (h : ps ++ x :: xs = qs ++ y :: ys) : ps = qs ∧ x = y ∧ xs = ys := by
  induction ps generalizing qs with
  | nil =>
    cases qs with
    | nil => exact ⟨rfl, List.cons.inj h⟩
    | cons q qs =>
      obtain ⟨rfl, -⟩ := List.cons.inj h
      rw [(cons.mp hqs).1] at hx
      cases hx
  | cons p ps ih =>
    cases qs with
    | nil =>
      obtain ⟨rfl, -⟩ := List.cons.inj h
      rw [(cons.mp hps).1] at hy
      cases hy
    | cons q qs =>
      obtain ⟨rfl, hrest⟩ := List.cons.inj h
      obtain ⟨rfl, hsame⟩ := ih (cons.mp hps).2 (cons.mp hqs).2 hrest
      exact ⟨rfl, hsame⟩

/-- The same for trivia at the end. -/
theorem cancel_right {ps qs xs ys : List Piece} {x y : Piece} (hps : AllTrivia ps)
    (hqs : AllTrivia qs) (hx : x.1.isTrivia = false) (hy : y.1.isTrivia = false)
    (h : xs ++ x :: ps = ys ++ y :: qs) : xs = ys ∧ x = y ∧ ps = qs := by
  have hreverse : ∀ {zs : List Piece}, AllTrivia zs → AllTrivia zs.reverse := by
    intro zs hzs z hz
    exact hzs z (List.mem_reverse.mp hz)
  have hback : ps.reverse ++ x :: xs.reverse = qs.reverse ++ y :: ys.reverse := by
    have h' := congrArg List.reverse h
    simpa using h'
  obtain ⟨h₁, h₂, h₃⟩ := cancel (hreverse hps) (hreverse hqs) hx hy hback
  exact ⟨List.reverse_injective h₃, h₂, List.reverse_injective h₁⟩

end AllTrivia

namespace Token

/-- A token that is no trivia, with trivia around it and with the value that its text has. -/
structure Canonical (t : Token) : Prop where
  kind : t.kind.isTrivia = false
  value : t.value = TokenValue.decode? t.kind t.text
  leading : AllTrivia (piecesOf t.leading)
  trailing : AllTrivia (piecesOf t.trailing)

/-- Tokens behind the trivia `c` whose lexemes are `ps`, with nothing but trivia left over. -/
structure Present (c : List Lexeme) (ts : List Token) (ps : List Piece) : Prop where
  before : AllTrivia (piecesOf c)
  pieces : ∃ back, AllTrivia back ∧ ps = piecesOf c ++ (piecesOf (lexemesOf ts) ++ back)
  canonical : ∀ t ∈ ts, t.Canonical

end Token

open Token

namespace Stream

variable {c leading : List Lexeme} {l : Lexeme} {s s' : Stream} {ps : List Piece}

/-- The first token, whether or not its trivia is attached to the one after it. -/
theorem exists_cons_of_lead (h : s.lead c = s'.prepend [.ofLexeme leading l]) :
    ∃ t ts, s.tokens = t :: ts ∧ lead t.trailing ⟨ts, s.last⟩ = s' ∧ t.toLexeme = l ∧
      t.value = TokenValue.decode? l.kind l.text ∧ c ++ t.leading = leading := by
  obtain ⟨tokens, last⟩ := s
  cases tokens with
  | nil =>
    have htokens := congrArg Stream.tokens h
    cases htokens
  | cons t ts =>
    rw [lead_cons] at h
    have htokens := congrArg Stream.tokens h
    have hlast := congrArg Stream.last h
    obtain ⟨hfirst, hrest⟩ := List.cons.inj htokens
    have hlexeme := congrArg Token.toLexeme hfirst
    have hvalue := congrArg Token.value hfirst
    have hleading := congrArg Token.leading hfirst
    refine ⟨t, ts, rfl, ?_, hlexeme, hvalue, hleading⟩
    obtain ⟨tokens', last'⟩ := s'
    exact congrArg₂ Stream.mk hrest hlast

/-- A token that starts no comment is left as it is. -/
theorem present_keep (hl : l.kind.isTrivia = false) (hopen : l.kind ≠ .openComment)
    (hleading : AllTrivia (piecesOf leading)) (h : s.lead c = s'.prepend [.ofLexeme leading l])
    (ih : ∀ (t : Token) (ts : List Token), lead t.trailing ⟨ts, s.last⟩ = s' →
      Present t.trailing (foldAll ⟨ts, s.last⟩).tokens ps) :
    Present c s.foldAll.tokens (piecesOf leading ++ (l.kind, l.text) :: ps) := by
  obtain ⟨t, ts, htokens, hrest, rfl, hvalue, rfl⟩ := exists_cons_of_lead h
  obtain ⟨hbefore, ⟨back, hback, rfl⟩, hcanonical⟩ := ih t ts hrest
  rw [piecesOf_append, AllTrivia.append] at hleading
  have hfold : s.foldAll.tokens = t :: (foldAll ⟨ts, s.last⟩).tokens := by
    rw [eq_of_tokens htokens, foldAll_keep hopen]
    rfl
  rw [hfold]
  refine ⟨hleading.1, ⟨back, hback, ?_⟩, List.forall_mem_cons.mpr ⟨?_, hcanonical⟩⟩
  · simp [lexemes]
  · exact ⟨hl, hvalue, hleading.2, hbefore⟩

theorem allTrivia_nil : AllTrivia (piecesOf []) := .nil

theorem present_end {p : Position} (hleading : AllTrivia (piecesOf leading))
    (h : s.lead c = ofLexemes p leading []) : Present c s.foldAll.tokens (piecesOf leading) := by
  obtain ⟨tokens, last⟩ := s
  cases tokens with
  | cons t ts =>
    have htokens := congrArg Stream.tokens h
    cases htokens
  | nil =>
    have hlast := congrArg (fun s => s.last.leading) h
    have hleading' : c ++ last.leading = leading := hlast
    subst hleading'
    rw [piecesOf_append, AllTrivia.append] at hleading
    rw [foldAll_end]
    exact ⟨hleading.1, ⟨piecesOf last.leading, hleading.2, by simp⟩, by simp⟩

/-- Where no comment is cut into tokens, the lexemes are those of the text. -/
theorem present_whole {p q : Position} (hps : ∀ x ∈ ps, x.1 ≠ .openComment)
    (hleading : AllTrivia (piecesOf leading)) (h : s.lead c = ofLexemes p leading (Lexeme.placeAll q ps)) :
    Present c s.foldAll.tokens (piecesOf leading ++ ps) := by
  induction ps generalizing s c leading p q with
  | nil =>
    rw [List.append_nil]
    exact present_end hleading h
  | cons x ps ih =>
    obtain ⟨kind, text⟩ := x
    rw [List.forall_mem_cons] at hps
    rw [Lexeme.placeAll, ofLexemes] at h
    by_cases htrivia : kind.isTrivia = true
    · rw [if_pos (by exact htrivia)] at h
      have hmore : AllTrivia (piecesOf (leading ++ [.place kind text q])) := by
        rw [piecesOf_append, AllTrivia.append]
        exact ⟨hleading, AllTrivia.cons.mpr ⟨htrivia, .nil⟩⟩
      have hrest := ih hps.2 hmore h
      rw [piecesOf_append, List.append_assoc] at hrest
      exact hrest
    · rw [if_neg (by exact htrivia)] at h
      refine present_keep ((Bool.not_eq_true _).mp htrivia) hps.1 hleading h fun t ts hlead => ?_
      exact ih hps.2 allTrivia_nil hlead

/-- Trivia of a folded comment goes to the token after it. -/
theorem present_prependLeading {c' trivia : List Lexeme} (h : Present c' s.tokens ps)
    (hleading : AllTrivia (piecesOf leading)) (hsame : leading ++ c' = c ++ trivia) :
    Present c (s.prependLeading trivia).tokens (piecesOf leading ++ ps) := by
  obtain ⟨hbefore, ⟨back, hback, rfl⟩, hcanonical⟩ := h
  have hall : AllTrivia (piecesOf (c ++ trivia)) := by
    rw [← hsame, piecesOf_append, AllTrivia.append]
    exact ⟨hleading, hbefore⟩
  have hpieces := congrArg piecesOf hsame
  rw [piecesOf_append, piecesOf_append] at hpieces
  rw [piecesOf_append, AllTrivia.append] at hall
  rw [← List.append_assoc, hpieces, List.append_assoc]
  obtain ⟨tokens, last⟩ := s
  cases tokens with
  | nil =>
    refine ⟨hall.1, ⟨piecesOf trivia ++ back, AllTrivia.append.mpr ⟨hall.2, hback⟩, ?_⟩, by simp [prependLeading]⟩
    simp [prependLeading]
  | cons t ts =>
    rw [List.forall_mem_cons] at hcanonical
    refine ⟨hall.1, ⟨back, hback, ?_⟩, List.forall_mem_cons.mpr ⟨?_, hcanonical.2⟩⟩
    · simp [prependLeading, lexemes]
    · refine { hcanonical.1 with leading := ?_ }
      rw [piecesOf_append, AllTrivia.append]
      exact ⟨hall.2, hcanonical.1.leading⟩

/-- The tokens of a comment, whether or not trivia is attached to the token after it. -/
theorem lead_commentRun {ts xs : List Token} {last e : Token}
    (h : lead c ⟨ts, last⟩ = s'.prepend (xs ++ [e])) (hxs : ∀ t ∈ xs, t.kind ≠ .closeComment)
    (he : e.kind = .closeComment) : Token.lead c (commentRun ts).1 = xs ++ [e] ∧
      lead (carry c (commentRun ts).1) ⟨(commentRun ts).2, last⟩ = s' := by
  have htokens : Token.lead c ts = xs ++ e :: s'.tokens := by
    have htokens := congrArg Stream.tokens h
    simpa [lead, prepend] using htokens
  have hlast : { last with leading := carry c ts ++ last.leading } = s'.last :=
    congrArg Stream.last h
  have hrun := commentRun_lead c ts
  rw [htokens, commentRun_of_kinds s'.tokens hxs he, Prod.mk.injEq] at hrun
  refine ⟨hrun.1.symm, ?_⟩
  rw [← commentRun_append ts, carry_append] at hlast
  obtain ⟨tokens', last'⟩ := s'
  exact congrArg₂ Stream.mk hrun.2.symm hlast

theorem present_comment {p q : Position} {cs : Text} (hleading : AllTrivia (piecesOf leading))
    (h : s.lead c = ofLexemes p leading (Lexeme.placeAll q (cutThroughComments ('/' :: '*' :: cs))))
    (ih : ∀ {c' s' p' q'}, lead c' s' =
      ofLexemes p' [] (Lexeme.placeAll q' (cutThroughComments ((splitComment cs).2.drop 2))) →
        Present c' s'.foldAll.tokens (cut ((splitComment cs).2.drop 2))) :
    Present c s.foldAll.tokens (piecesOf leading ++ cut ('/' :: '*' :: cs)) := by
  obtain ⟨r, r', r'', hpieces⟩ := Lexeme.placeAll_comment q cs
  have hbody : ∀ l ∈ Lexeme.placeAll r (cut (splitComment cs).1), l.kind ∉ TokenKind.assigned :=
    Lexeme.kinds_of_placeAll (φ := (· ∉ TokenKind.assigned)) kinds_cut
  have hclose : ∀ t ∈ attach [] (Lexeme.placeAll r (cut (splitComment cs).1)),
      t.kind ≠ .closeComment :=
    kinds_attach (φ := (· ≠ .closeComment)) fun l hl => ne_close_of_assigned (hbody l hl)
  rw [hpieces] at h
  by_cases hrest : (splitComment cs).2 = []
  · rw [if_pos hrest, List.append_nil] at h
    obtain ⟨p', hp'⟩ := ofLexemes_comment_open p leading
      (Lexeme.placeAll r (cut (splitComment cs).1)) (.place .openComment ['/', '*'] q) rfl
    rw [hp'] at h
    obtain ⟨t, ts, htokens, hlead, hlexeme, -, rfl⟩ := @exists_cons_of_lead _ _ _ _ ⟨_, _⟩ h
    have hkind : t.kind = .openComment := congrArg Lexeme.kind hlexeme
    have hopen : ∀ u ∈ ts, u.kind ≠ .closeComment := by
      intro u hu hclosed
      have hkinds := kinds_lead t.trailing ts
      have htokens' : Token.lead t.trailing ts = _ := congrArg Stream.tokens hlead
      rw [htokens'] at hkinds
      have hmem := List.mem_map_of_mem (f := fun u : Token => u.kind) hu
      rw [← hkinds] at hmem
      obtain ⟨v, hv, hvkind⟩ := List.mem_map.mp hmem
      exact hclose v hv (hvkind.trans hclosed)
    have hfold : s.foldAll.tokens = [] := by
      rw [eq_of_tokens htokens, foldAll_open hkind, commentRun_open hopen, foldAll_end]
      rfl
    rw [piecesOf_append, AllTrivia.append] at hleading
    rw [hfold]
    refine ⟨hleading.1, ⟨piecesOf t.leading ++ cut ('/' :: '*' :: cs), ?_, by simp⟩, by simp⟩
    rw [cut_comment, hrest, List.drop_nil, cut, AllTrivia.append, AllTrivia.cons]
    exact ⟨hleading.2, rfl, .nil⟩
  · rw [if_neg hrest] at h
    obtain ⟨p', hp'⟩ := ofLexemes_comment p leading (Lexeme.placeAll r (cut (splitComment cs).1))
      (Lexeme.placeAll r'' (cutThroughComments ((splitComment cs).2.drop 2)))
      (.place .openComment ['/', '*'] q) (.place .closeComment ['*', '/'] r') rfl rfl
    rw [hp'] at h
    obtain ⟨t, ts, htokens, hlead, hlexeme, hvalue, rfl⟩ :=
      @exists_cons_of_lead _ _ _ _ (prepend (_ ++ [_]) (ofLexemes p' [] _)) h
    have hkind : t.kind = .openComment := congrArg Lexeme.kind hlexeme
    obtain ⟨hrun, hbehind⟩ := lead_commentRun hlead hclose rfl
    obtain ⟨span, hcomment⟩ := foldRun_commentTokens (c ++ t.leading)
      (Lexeme.placeAll r (cut (splitComment cs).1)) (.place .openComment ['/', '*'] q)
      (.place .closeComment ['*', '/'] r')
    -- Whether the comment is folded before its trivia is attached or after.
    have hfirst : Token.lead c (t :: (commentRun ts).1) = commentTokens (c ++ t.leading)
        (.place .openComment ['/', '*'] q) (Lexeme.placeAll r (cut (splitComment cs).1))
        (.place .closeComment ['*', '/'] r') := by
      rw [Token.lead, hrun, hvalue, hlexeme]
      rfl
    have hsame := foldRun_lead (c := c) (List.cons_ne_nil t (commentRun ts).1)
    rw [hfirst, hcomment] at hsame
    have hmore : ∀ text, AllTrivia (piecesOf (c ++ t.leading ++ [⟨.comment, text, span⟩])) := by
      intro text
      rw [piecesOf_append, AllTrivia.append]
      exact ⟨hleading, AllTrivia.cons.mpr ⟨rfl, .nil⟩⟩
    have hpresent := present_prependLeading (ih hbehind) (hmore _) hsame
    rw [eq_of_tokens htokens, foldAll_open hkind]
    obtain ⟨es, hes⟩ := (splitComment_rest cs).resolve_left hrest
    rw [piecesOf_append, List.append_assoc] at hpresent
    rw [cut_comment]
    have htext : Lexeme.render (Lexeme.placeAll r (cut (splitComment cs).1)) =
        (splitComment cs).1 := by rw [Lexeme.render_placeAll, (faithful_cut _).texts]
    rw [htext] at hpresent
    simpa [hes, Lexeme.place] using hpresent

/-- Comments that were cut into tokens are lexemes of the text once they are folded. -/
theorem present_cutThroughComments (t : Text) {p q : Position}
    (hleading : AllTrivia (piecesOf leading))
    (h : s.lead c = ofLexemes p leading (Lexeme.placeAll q (cutThroughComments t))) :
    Present c s.foldAll.tokens (piecesOf leading ++ cut t) := by
  induction t using induction_cut generalizing s c leading p q with
  | hnil =>
    rw [cutThroughComments, Lexeme.placeAll] at h
    rw [cut, List.append_nil]
    exact present_end hleading h
  | hplain d ds hstart ih =>
    rw [cutThroughComments_plain hstart, Lexeme.placeAll, ofLexemes] at h
    rw [cut_cons]
    by_cases htrivia : (firstLexeme (d :: ds)).1.isTrivia = true
    · rw [if_pos (by exact htrivia)] at h
      have hmore : AllTrivia (piecesOf (leading ++
          [.place (firstLexeme (d :: ds)).1 (d :: ds.take ((firstLexeme (d :: ds)).2 - 1)) q])) := by
        rw [piecesOf_append, AllTrivia.append]
        exact ⟨hleading, AllTrivia.cons.mpr ⟨htrivia, .nil⟩⟩
      have hrest := ih hmore h
      rw [piecesOf_append, List.append_assoc] at hrest
      exact hrest
    · rw [if_neg (by exact htrivia)] at h
      refine present_keep ((Bool.not_eq_true _).mp htrivia) (ne_open_of_assigned (kind_first d ds))
        hleading h fun t ts hlead => ?_
      exact ih allTrivia_nil hlead
  | hcomment ds ih => exact present_comment hleading h fun hlead => ih allTrivia_nil hlead

/-- The lexemes of the tokens, all comments folded, are those that the text is cut into. -/
theorem present_ofText (config : Config) (t : Text) :
    Present [] (ofText config t).foldAll.tokens (cut t) := by
  obtain ⟨depth, comments, trailing⟩ := config
  have hlead : (ofText ⟨depth, comments, trailing⟩ t).lead [] =
      ofLexemes .origin [] (Lexeme.ofText comments t) := by
    cases trailing with
    | true => exact @lead_ofText depth depth comments t
    | false =>
      refine eq_of_toList ?_
      rw [toList_lead]
      exact trailingToLeading_eq_self fun u hu =>
        trailing_ofLexemes _ _ _ u (List.dropLast_subset _ hu)
  cases comments with
  | false =>
    exact present_whole (fun x hx => ne_open_of_assigned (kinds_cut x hx)) allTrivia_nil hlead
  | true => exact present_cutThroughComments t allTrivia_nil hlead

end Stream

namespace Token

/-- The trivia between neighbouring tokens. -/
def joints : List Token → List (List Piece)
  | t :: u :: ts => piecesOf (t.trailing ++ u.leading) :: joints (u :: ts)
  | _ => []

/-- The trivia around tokens: in front of each of them, and behind the last. -/
def gaps (before behind : List Piece) : List Token → List (List Piece)
  | [] => [before ++ behind]
  | t :: ts => (before ++ piecesOf t.leading) :: gaps (piecesOf t.trailing) behind ts

section Gaps

variable {ts us : List Token} {before before' behind behind' : List Piece}

theorem seams_eq (ts : List Token) : seams ts = (joints ts).map List.isEmpty := by
  match ts with
  | [] => rfl
  | [t] => rfl
  | t :: u :: ts =>
    rw [seams, joints, List.map_cons, seams_eq (u :: ts), touches]
    cases t.trailing <;> cases u.leading <;> rfl

/-- Tokens can be told from their lexemes, up to which of them the trivia between two belongs to. -/
theorem same_of_pieces (hts : ∀ t ∈ ts, t.Canonical) (hus : ∀ t ∈ us, t.Canonical)
    (hbefore : AllTrivia before) (hbefore' : AllTrivia before') (hbehind : AllTrivia behind)
    (hbehind' : AllTrivia behind') (h : before ++ (piecesOf (lexemesOf ts) ++ behind) =
      before' ++ (piecesOf (lexemesOf us) ++ behind')) :
    ts.map bare = us.map bare ∧ gaps before behind ts = gaps before' behind' us := by
  induction ts generalizing us before before' with
  | nil =>
    cases us with
    | nil => exact ⟨rfl, congrArg (fun x => [x]) h⟩
    | cons u us =>
      have hall : AllTrivia (before ++ (piecesOf (lexemesOf []) ++ behind)) :=
        AllTrivia.append.mpr ⟨hbefore, hbehind⟩
      have hkind := (hus u List.mem_cons_self).kind
      rw [h] at hall
      rw [hall (u.kind, u.text) (by simp [lexemes])] at hkind
      cases hkind
  | cons t ts ih =>
    rw [List.forall_mem_cons] at hts
    cases us with
    | nil =>
      have hall : AllTrivia (before' ++ (piecesOf (lexemesOf []) ++ behind')) :=
        AllTrivia.append.mpr ⟨hbefore', hbehind'⟩
      have hkind := hts.1.kind
      rw [← h] at hall
      rw [hall (t.kind, t.text) (by simp [lexemes])] at hkind
      cases hkind
    | cons u us =>
      rw [List.forall_mem_cons] at hus
      have hsplit : ∀ (b e : List Piece) (x : Token) (xs : List Token),
          b ++ (piecesOf (lexemesOf (x :: xs)) ++ e) = (b ++ piecesOf x.leading) ++
            (x.kind, x.text) :: (piecesOf x.trailing ++ (piecesOf (lexemesOf xs) ++ e)) := by
        intro b e x xs
        simp [lexemes]
      rw [hsplit, hsplit] at h
      obtain ⟨hfirst, hpiece, hrest⟩ := AllTrivia.cancel (AllTrivia.append.mpr ⟨hbefore, hts.1.leading⟩)
        (AllTrivia.append.mpr ⟨hbefore', hus.1.leading⟩) hts.1.kind hus.1.kind h
      obtain ⟨hkind, htext⟩ := Prod.mk.inj hpiece
      obtain ⟨hbare, hgaps⟩ := ih hts.2 hus.2 hts.1.trailing hus.1.trailing hrest
      have hvalue : t.value = u.value := by rw [hts.1.value, hus.1.value, hkind, htext]
      rw [List.map_cons, List.map_cons, hbare, gaps, gaps, hfirst, hgaps, bare, bare, hkind, htext,
        hvalue]
      exact ⟨rfl, rfl⟩

theorem joints_of_gaps (h : gaps before behind ts = gaps before' behind' us) :
    joints ts = joints us := by
  induction ts generalizing us before before' with
  | nil =>
    match us with
    | [] => rfl
    | [u] => rfl
    | u :: v :: us => simp [gaps] at h
  | cons t ts ih =>
    match ts, us with
    | [], [] => rfl
    | [], [u] => rfl
    | [], u :: v :: us => cases us <;> simp [gaps] at h
    | t' :: ts, [] => simp [gaps] at h
    | t' :: ts, [u] => cases ts <;> simp [gaps] at h
    | t' :: ts, u :: u' :: us =>
      have hrest : gaps (piecesOf t.trailing) behind (t' :: ts) =
          gaps (piecesOf u.trailing) behind' (u' :: us) := (List.cons.inj h).2
      have hfirst : piecesOf t.trailing ++ piecesOf t'.leading =
          piecesOf u.trailing ++ piecesOf u'.leading := (List.cons.inj hrest).1
      rw [joints, joints, ih hrest, piecesOf_append, piecesOf_append, hfirst]

/-- Lexemes with trivia between them. -/
def woven : List Piece → List (List Piece) → List Piece
  | p :: ps, js :: rest => p :: (js ++ woven ps rest)
  | ps, _ => ps

theorem pieces_stripEnds (ts : List Token) : piecesOf (lexemesOf (stripEnds ts)) =
    woven (ts.map fun t => (t.kind, t.text)) (joints ts) := by
  have hmap : ∀ (t : Token) (ts : List Token), piecesOf (lexemesOf
      (mapLast (fun t => { t with trailing := [] }) (t :: ts))) = piecesOf t.leading ++
        woven ((t :: ts).map fun t => (t.kind, t.text)) (joints (t :: ts)) := by
    intro t ts
    induction ts generalizing t with
    | nil => simp [mapLast, joints, woven, lexemes]
    | cons u us ih => simp [mapLast, joints, woven, lexemes, ih]
  cases ts with
  | nil => rfl
  | cons t ts =>
    rw [stripEnds, List.modifyHead_cons, hmap]
    cases ts <;> rfl

theorem textOf_woven {ps qs : List Piece} (h : ps.map Prod.snd = qs.map Prod.snd)
    (js : List (List Piece)) : textOf (woven ps js) = textOf (woven qs js) := by
  induction ps generalizing qs js with
  | nil =>
    obtain rfl : qs = [] := List.map_eq_nil_iff.mp h.symm
    rfl
  | cons p ps ih =>
    cases qs with
    | nil => cases h
    | cons q qs =>
      obtain ⟨hfirst, hrest⟩ := List.cons.inj h
      have hplain : ∀ xs : List Piece, woven xs [] = xs := by
        intro xs
        cases xs <;> rfl
      cases js with
      | nil =>
        have hnil := ih hrest []
        rw [hplain, hplain] at hnil
        rw [hplain, hplain, textOf_cons, textOf_cons, hfirst, hnil]
      | cons j js =>
        rw [woven, woven, textOf_cons, textOf_cons, textOf_append, textOf_append, hfirst,
          ih hrest js]

/-- The text between the ends of some tokens can be told from the texts of the tokens and the trivia
between them. -/
theorem render_stripEnds (htexts : ts.map (fun t => t.text) = us.map fun t => t.text)
    (hjoints : joints ts = joints us) : renderAll (stripEnds ts) = renderAll (stripEnds us) := by
  rw [← render_lexemesOf, ← render_lexemesOf, ← textOf_piecesOf, ← textOf_piecesOf,
    pieces_stripEnds, pieces_stripEnds, hjoints]
  refine textOf_woven ?_ _
  rw [List.map_map, List.map_map]
  exact htexts

theorem joints_of_trivia
    (h : ts.map (fun t => (t.leading, t.trailing)) = us.map fun t => (t.leading, t.trailing)) :
    joints ts = joints us := by
  induction ts generalizing us with
  | nil =>
    obtain rfl : us = [] := List.map_eq_nil_iff.mp h.symm
    rfl
  | cons t ts ih =>
    obtain ⟨u, us, rfl, hfirst, hrest⟩ := List.map_eq_cons_iff.mp h.symm
    have hjoints := ih hrest.symm
    obtain ⟨-, htrailing⟩ := Prod.mk.inj hfirst
    cases ts with
    | nil =>
      obtain rfl : us = [] := List.map_eq_nil_iff.mp hrest
      rfl
    | cons t' ts =>
      obtain ⟨u', us, rfl, hnext, -⟩ := List.map_eq_cons_iff.mp hrest
      rw [joints, joints, hjoints, htrailing, (Prod.mk.inj hnext).1]

theorem spells_of_joints (hbare : ts.map bare = us.map bare) (hjoints : joints ts = joints us) :
    Spells ts us := ⟨hbare, by rw [seams_eq, seams_eq, hjoints]⟩

theorem joints_of_append {vs ws : List Token} (hlength : ts.length = us.length)
    (h : joints (ts ++ vs) = joints (us ++ ws)) : joints ts = joints us ∧ joints vs = joints ws := by
  induction ts generalizing us with
  | nil =>
    obtain rfl := List.eq_nil_of_length_eq_zero hlength.symm
    exact ⟨rfl, h⟩
  | cons t ts ih =>
    match ts, us with
    | ts, [] => simp at hlength
    | [], u :: v :: us => simp at hlength
    | t' :: ts, [u] => simp at hlength
    | [], [u] =>
      match vs, ws with
      | [], [] => exact ⟨rfl, rfl⟩
      | [], w :: ws => simp [joints] at h
      | v :: vs, [] => simp [joints] at h
      | v :: vs, w :: ws => exact ⟨rfl, (List.cons.inj h).2⟩
    | t' :: ts, u :: u' :: us =>
      have hsame : (t' :: ts).length = (u' :: us).length := by simpa using hlength
      have hrest := ih hsame (List.cons.inj h).2
      exact ⟨congrArg₂ List.cons (List.cons.inj h).1 hrest.1, hrest.2⟩

end Gaps

end Token

end CssTree
