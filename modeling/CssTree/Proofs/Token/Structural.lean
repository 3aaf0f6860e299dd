import CssTree.Proofs.Token.Lead
import CssTree.Proofs.Token.Reader

namespace CssTree

theorem kinds_cut {t : Text} : ∀ piece ∈ cut t, piece.1 ∉ TokenKind.assigned := by
  induction t using cut.induct with
  | case1 => simp [cut]
  | case2 c cs kind n hfirst ih =>
    have hkind : kind ∉ TokenKind.assigned := by
      have hne := kind_first c cs
      rwa [hfirst] at hne
    rw [cut]
    simp only [hfirst]
    exact List.forall_mem_cons.mpr ⟨hkind, ih⟩

theorem ne_open_of_assigned {kind : TokenKind} (h : kind ∉ TokenKind.assigned) :
    kind ≠ .openComment := by
  rintro rfl
  simp [TokenKind.assigned] at h

theorem ne_close_of_assigned {kind : TokenKind} (h : kind ∉ TokenKind.assigned) :
    kind ≠ .closeComment := by
  rintro rfl
  simp [TokenKind.assigned] at h

theorem Lexeme.kinds_of_placeAll {p : Position} {pieces : List (TokenKind × Text)}
    {φ : TokenKind → Prop} (h : ∀ piece ∈ pieces, φ piece.1) :
    ∀ l ∈ placeAll p pieces, φ l.kind := by
  intro l hl
  have hmem := List.mem_map_of_mem (f := Lexeme.kind) hl
  rw [kinds_placeAll] at hmem
  obtain ⟨piece, hpiece, hkind⟩ := List.mem_map.mp hmem
  rw [← hkind]
  exact h piece hpiece

theorem Lexeme.placeAll_append (p : Position) (xs ys : List (TokenKind × Text)) :
    ∃ p', placeAll p (xs ++ ys) = placeAll p xs ++ placeAll p' ys := by
  induction xs generalizing p with
  | nil => exact ⟨p, rfl⟩
  | cons x xs ih =>
    obtain ⟨p', hp'⟩ := ih (p.advance x.2)
    exact ⟨p', by simp [placeAll, hp']⟩

namespace Token

/-- The trivia behind the last token among lexemes; `leading` was read before. -/
def pending (leading : List Lexeme) : List Lexeme → List Lexeme
  | [] => leading
  | l :: ls => if l.kind.isTrivia then pending (leading ++ [l]) ls else pending [] ls

theorem render_attach (leading ls : List Lexeme) :
    renderAll (attach leading ls) ++ Lexeme.render (pending leading ls) =
      Lexeme.render leading ++ Lexeme.render ls := by
  induction ls generalizing leading with
  | nil => simp [attach, pending]
  | cons l ls ih =>
    rw [attach, pending]
    split
    · simpa using ih (leading ++ [l])
    · have hrest := ih []
      simp only [Lexeme.render_nil, List.nil_append] at hrest
      simp [hrest, render, ofLexeme]

theorem mem_attach {leading ls : List Lexeme} {t : Token} (h : t ∈ attach leading ls) :
    (∃ l ∈ ls, t.kind = l.kind) ∧ t.trailing = [] := by
  induction ls generalizing leading with
  | nil => simp [attach] at h
  | cons l ls ih =>
    rw [attach] at h
    have hrest : ∀ {leading}, t ∈ attach leading ls →
        (∃ m ∈ l :: ls, t.kind = m.kind) ∧ t.trailing = [] := by
      intro leading ht
      obtain ⟨⟨m, hm, hkind⟩, htrailing⟩ := ih ht
      exact ⟨⟨m, List.mem_cons_of_mem l hm, hkind⟩, htrailing⟩
    split at h
    · exact hrest h
    · rcases List.mem_cons.mp h with rfl | h
      · exact ⟨⟨l, List.mem_cons_self, rfl⟩, rfl⟩
      · exact hrest h

end Token

open Token

theorem flatFrom_congr {ts us : List Token}
    (h : ts.map (fun t => t.kind) = us.map (fun t => t.kind)) (inside : Bool) :
    FlatFrom inside ts ↔ FlatFrom inside us := by
  induction ts generalizing us inside with
  | nil =>
    obtain rfl : us = [] := by simpa using h.symm
    rfl
  | cons t ts ih =>
    cases us with
    | nil => simp at h
    | cons u us =>
      rw [List.map_cons, List.map_cons, List.cons.injEq] at h
      rw [FlatFrom, FlatFrom, h.1, ih h.2, ih h.2]

theorem flatFrom_of_kinds {ts : List Token} (h : ∀ t ∈ ts, t.kind ≠ .openComment)
    (inside : Bool) : FlatFrom inside ts := by
  induction ts generalizing inside with
  | nil => trivial
  | cons t ts ih =>
    unfold FlatFrom
    rw [if_neg (h t List.mem_cons_self)]
    exact ih (fun u hu => h u (List.mem_cons_of_mem t hu)) _

theorem insideAfter_of_kinds {ts : List Token} (h : ∀ t ∈ ts, t.kind ≠ .closeComment) :
    insideAfter true ts = true := by
  induction ts with
  | nil => rfl
  | cons t ts ih =>
    have hstep : insideAfter true (t :: ts) = insideAfter (t.kind = .openComment ||
      true && t.kind ≠ .closeComment) ts := rfl
    have ht := h t List.mem_cons_self
    simpa [hstep, ht] using ih fun u hu => h u (List.mem_cons_of_mem t hu)

theorem commentRun_of_kinds {ts : List Token} {t : Token} (us : List Token)
    (h : ∀ u ∈ ts, u.kind ≠ .closeComment) (ht : t.kind = .closeComment) :
    commentRun (ts ++ t :: us) = (ts ++ [t], us) := by
  induction ts with
  | nil => rw [List.nil_append, commentRun, if_pos ht]; rfl
  | cons u ts ih =>
    rw [List.cons_append, commentRun, if_neg (h u List.mem_cons_self),
      ih fun v hv => h v (List.mem_cons_of_mem u hv)]
    rfl

theorem commentRun_open {ts : List Token} (h : ∀ u ∈ ts, u.kind ≠ .closeComment) :
    commentRun ts = (ts, []) := by
  induction ts with
  | nil => rfl
  | cons u ts ih =>
    rw [commentRun, if_neg (h u List.mem_cons_self), ih fun v hv => h v (List.mem_cons_of_mem u hv)]
    rfl

namespace Stream

theorem ofLexemes_append (p : Position) (leading xs ys : List Lexeme) :
    ∃ p', ofLexemes p leading (xs ++ ys) =
      (ofLexemes p' (pending leading xs) ys).prepend (attach leading xs) := by
  induction xs generalizing p leading with
  | nil => exact ⟨p, rfl⟩
  | cons x xs ih =>
    rw [List.cons_append, attach, pending, ofLexemes]
    split
    · exact ih _ _
    · obtain ⟨p', hp'⟩ := ih x.span.stop []
      exact ⟨p', by rw [hp']; rfl⟩

theorem ofLexemes_prependLeading (p : Position) (trivia leading ls : List Lexeme) :
    (ofLexemes p leading ls).prependLeading trivia = ofLexemes p (trivia ++ leading) ls := by
  induction ls generalizing p leading with
  | nil => rfl
  | cons l ls ih =>
    rw [ofLexemes, ofLexemes]
    split
    · rw [ih, List.append_assoc]
    · rfl

/-- The tokens of a comment from its start to its end. -/
def commentTokens (leading : List Lexeme) (start : Lexeme) (body : List Lexeme) (ending : Lexeme) :
    List Token :=
  .ofLexeme leading start :: (attach [] body ++ [.ofLexeme (pending [] body) ending])

section Comment

variable (p : Position) (leading body ls : List Lexeme) (start ending : Lexeme)

theorem ofLexemes_comment (hstart : start.kind = .openComment)
    (hending : ending.kind = .closeComment) :
    ∃ p', ofLexemes p leading (start :: (body ++ ending :: ls)) =
      (ofLexemes p' [] ls).prepend (commentTokens leading start body ending) := by
  have htrivia : start.kind.isTrivia = false := by rw [hstart]; rfl
  have htrivia' : ending.kind.isTrivia = false := by rw [hending]; rfl
  obtain ⟨p', hp'⟩ := ofLexemes_append start.span.stop [] body (ending :: ls)
  refine ⟨ending.span.stop, ?_⟩
  rw [ofLexemes, htrivia, if_neg (by simp), hp', ofLexemes, htrivia', if_neg (by simp)]
  simp [prepend, commentTokens]

theorem ofLexemes_comment_open (hstart : start.kind = .openComment) :
    ∃ p', ofLexemes p leading (start :: body) =
      ⟨.ofLexeme leading start :: attach [] body, endToken (pending [] body) p'⟩ := by
  have htrivia : start.kind.isTrivia = false := by rw [hstart]; rfl
  obtain ⟨p', hp'⟩ := ofLexemes_append start.span.stop [] body []
  rw [List.append_nil] at hp'
  refine ⟨p', ?_⟩
  rw [ofLexemes, htrivia, if_neg (by simp), hp']
  simp [prepend, ofLexemes]

/-- A folded comment is its text, behind the trivia in front of it. -/
theorem foldRun_comment (leading : List Lexeme) (start : Lexeme) {ts : List Token}
    (h : ∀ t ∈ ts, t.trailing = []) : ∃ span, foldRun (.ofLexeme leading start :: ts) =
      leading ++ [⟨.comment, start.text ++ renderAll ts, span⟩] := by
  have hlast : ((Token.ofLexeme leading start :: ts).getLastD default).trailing = [] := by
    rcases List.eq_nil_or_concat ts with rfl | ⟨us, u, rfl⟩
    · rfl
    · have hu := h u (by simp)
      simpa [List.getLast?_cons] using hu
  obtain ⟨hsplit, -, -⟩ := lexemesOf_stripEnds (List.cons_ne_nil (Token.ofLexeme leading start) ts)
  rw [hlast] at hsplit
  have htext := congrArg Lexeme.render hsplit
  rw [render_lexemesOf, Lexeme.render_append, Lexeme.render_append, render_lexemesOf] at htext
  have hstrip : renderAll (stripEnds (Token.ofLexeme leading start :: ts)) =
      start.text ++ renderAll ts := by
    simpa [Token.render, Token.ofLexeme, List.append_assoc] using htext.symm
  refine ⟨⟨start.span.start, ((Token.ofLexeme leading start :: ts).getLastD default).span.stop⟩, ?_⟩
  unfold foldRun
  dsimp only
  rw [hlast, hstrip]
  rfl

theorem kinds_attach {φ : TokenKind → Prop} {leading body : List Lexeme}
    (h : ∀ l ∈ body, φ l.kind) :
    ∀ t ∈ attach leading body, φ t.kind := by
  intro t ht
  obtain ⟨⟨l, hl, hkind⟩, -⟩ := mem_attach ht
  rw [hkind]
  exact h l hl

theorem foldRun_commentTokens : ∃ span, foldRun (commentTokens leading start body ending) =
    leading ++ [⟨.comment, start.text ++ Lexeme.render body ++ ending.text, span⟩] := by
  have htrailing : ∀ t ∈ attach [] body ++ [.ofLexeme (pending [] body) ending],
      t.trailing = [] := by
    intro t ht
    rcases List.mem_append.mp ht with ht | ht
    · exact (mem_attach ht).2
    · rw [List.mem_singleton.mp ht]
      rfl
  obtain ⟨span, hfold⟩ := foldRun_comment leading start htrailing
  have htext : renderAll (attach [] body ++ [.ofLexeme (pending [] body) ending]) =
      Lexeme.render body ++ ending.text := by
    have hbodyText := render_attach [] body
    rw [Lexeme.render_nil, List.nil_append] at hbodyText
    rw [← hbodyText]
    simp [Token.render, Token.ofLexeme]
  exact ⟨span, by rw [commentTokens, hfold, htext, List.append_assoc]⟩

/-- A comment that is folded is a piece of trivia of what follows it. -/
theorem foldFront_comment (hstart : start.kind = .openComment)
    (hending : ending.kind = .closeComment) (hbody : ∀ l ∈ body, l.kind ∉ TokenKind.assigned) :
    ∃ p' span, (ofLexemes p leading (start :: (body ++ ending :: ls))).foldFront =
      (ofLexemes p' (leading ++ [⟨.comment, start.text ++ Lexeme.render body ++ ending.text, span⟩])
        ls).foldFront := by
  obtain ⟨p', hp'⟩ := ofLexemes_comment p leading body ls start ending hstart hending
  have hclose : ∀ t ∈ attach [] body, t.kind ≠ .closeComment :=
    kinds_attach (φ := (· ≠ .closeComment)) fun l hl => ne_close_of_assigned (hbody l hl)
  have hrun := commentRun_of_kinds (ofLexemes p' [] ls).tokens hclose
    (t := .ofLexeme (pending [] body) ending) hending
  obtain ⟨span, hfold⟩ := foldRun_commentTokens leading body start ending
  refine ⟨p', span, ?_⟩
  rw [hp']
  change foldFront ⟨.ofLexeme leading start :: (attach [] body ++
    [.ofLexeme (pending [] body) ending] ++ (ofLexemes p' [] ls).tokens), _⟩ = _
  rw [foldFront, if_pos (by exact hstart), List.append_assoc, List.singleton_append, hrun]
  change (prependLeading (foldRun (commentTokens leading start body ending))
    (ofLexemes p' [] ls)).foldFront = _
  rw [hfold, ofLexemes_prependLeading, List.append_nil]

/-- A comment without an end is folded into the end of the text. -/
theorem foldFront_comment_open (hstart : start.kind = .openComment)
    (hbody : ∀ l ∈ body, l.kind ∉ TokenKind.assigned) :
    ∃ p' span text trivia, (ofLexemes p leading (start :: body)).foldFront =
      ⟨[], endToken (leading ++ ⟨.comment, text, span⟩ :: trivia) p'⟩ ∧
        text ++ Lexeme.render trivia = start.text ++ Lexeme.render body := by
  obtain ⟨p', hp'⟩ := ofLexemes_comment_open p leading body start hstart
  have hclose : ∀ t ∈ attach [] body, t.kind ≠ .closeComment :=
    kinds_attach (φ := (· ≠ .closeComment)) fun l hl => ne_close_of_assigned (hbody l hl)
  have htrailing : ∀ t ∈ attach [] body, t.trailing = [] := fun t ht => (mem_attach ht).2
  obtain ⟨span, hfold⟩ := foldRun_comment leading start htrailing
  have hbodyText := render_attach [] body
  rw [Lexeme.render_nil, List.nil_append] at hbodyText
  refine ⟨p', span, start.text ++ renderAll (attach [] body), pending [] body, ?_, ?_⟩
  · rw [hp', foldFront, if_pos (by exact hstart), commentRun_open hclose, hfold]
    change foldFront ⟨[], _⟩ = _
    rw [foldFront]
    simp [endToken, Token.ofLexeme]
  · rw [List.append_assoc, hbodyText]

end Comment

end Stream

/-- A comment as one lexeme. -/
theorem cut_comment (t : Text) : cut ('/' :: '*' :: t) =
    (.comment, '/' :: '*' :: ((splitComment t).1 ++ (splitComment t).2.take 2)) ::
      cut ((splitComment t).2.drop 2) := by
  have hfirst : firstLexeme ('/' :: '*' :: t) =
      (.comment, 2 + (splitComment t).1.length + min 2 (splitComment t).2.length) := by
    simp [firstLexeme]
  have hcount : 2 + (splitComment t).1.length + min 2 (splitComment t).2.length - 1 =
      ((splitComment t).1.length + ((splitComment t).2.take 2).length) + 1 := by
    rw [List.length_take]
    omega
  have htake : t.take ((splitComment t).1.length + ((splitComment t).2.take 2).length) =
      (splitComment t).1 ++ (splitComment t).2.take 2 := by
    have happend := splitComment_append t
    rcases splitComment_rest t with hrest | ⟨es, hrest⟩
    · rw [hrest, List.append_nil] at happend
      simp [hrest, happend]
    · have hlength : (splitComment t).1.length + ((splitComment t).2.take 2).length =
          ((splitComment t).1 ++ (splitComment t).2.take 2).length := by rw [List.length_append]
      rw [hlength, ← List.prefix_iff_eq_take.mp]
      exact ⟨es, by simpa [hrest] using happend⟩
  rw [cut]
  simp only [hfirst, hcount, List.take_succ_cons, List.drop_succ_cons, htake, splitComment_drop]

/-- The lexemes of a text that starts with a comment. -/
theorem Lexeme.placeAll_comment (p : Position) (t : Text) :
    ∃ q q' q'', placeAll p (cutThroughComments ('/' :: '*' :: t)) =
      place .openComment ['/', '*'] p :: (placeAll q (cut (splitComment t).1) ++
        (if (splitComment t).2 = [] then []
          else place .closeComment ['*', '/'] q' ::
            placeAll q'' (cutThroughComments ((splitComment t).2.drop 2)))) := by
  rw [cutThroughComments_comment]
  rcases splitComment_rest t with hrest | ⟨es, hrest⟩
  · exact ⟨_, p, p, by simp [hrest, cutThroughComments, placeAll]; rfl⟩
  · obtain ⟨q', hq'⟩ := placeAll_append (p.advance ['/', '*']) (cut (splitComment t).1)
      ((.closeComment, ['*', '/']) :: cutThroughComments es)
    refine ⟨p.advance ['/', '*'], q', q'.advance ['*', '/'], ?_⟩
    simpa [hrest, placeAll] using hq'

/-- A text by its first lexeme: none, one that starts no comment, or a comment. -/
theorem induction_cut {φ : Text → Prop} (hnil : φ [])
    (hplain : ∀ c cs, ¬(c = '/' ∧ cs.head? = some '*') →
      φ (cs.drop ((firstLexeme (c :: cs)).2 - 1)) → φ (c :: cs))
    (hcomment : ∀ cs, φ ((splitComment cs).2.drop 2) → φ ('/' :: '*' :: cs)) (t : Text) : φ t := by
  induction hn : t.length using Nat.strongRecOn generalizing t with
  | ind n ih =>
    cases t with
    | nil => exact hnil
    | cons c cs =>
      by_cases h : c = '/' ∧ cs.head? = some '*'
      · obtain ⟨rfl, hstar⟩ := h
        obtain ⟨ds, rfl⟩ := List.head?_eq_some_iff.mp hstar
        have hlength := congrArg List.length (splitComment_append ds)
        rw [List.length_append] at hlength
        refine hcomment ds (ih ((splitComment ds).2.drop 2).length ?_ _ rfl)
        rw [List.length_drop, ← hn, List.length_cons, List.length_cons]
        omega
      · refine hplain c cs h (ih (cs.drop ((firstLexeme (c :: cs)).2 - 1)).length ?_ _ rfl)
        rw [List.length_drop, ← hn, List.length_cons]
        omega

theorem cut_cons (c : Char) (cs : Text) :
    cut (c :: cs) = ((firstLexeme (c :: cs)).1, c :: cs.take ((firstLexeme (c :: cs)).2 - 1)) ::
      cut (cs.drop ((firstLexeme (c :: cs)).2 - 1)) := by rw [cut]

/-- No comment starts inside a comment. -/
theorem flat_cutThroughComments (t : Text) (p p' : Position) (leading : List Lexeme) :
    FlatFrom false
      (Stream.ofLexemes p leading (Lexeme.placeAll p' (cutThroughComments t))).tokens := by
  induction t using induction_cut generalizing p p' leading with
  | hnil =>
    rw [cutThroughComments]
    trivial
  | hplain c cs h ih =>
    have hopen := ne_open_of_assigned (kind_first c cs)
    rw [cutThroughComments_plain h, Lexeme.placeAll, Stream.ofLexemes]
    split
    · exact ih _ _ _
    · change FlatFrom false (_ :: _)
      rw [FlatFrom, if_neg (by exact hopen)]
      exact ih _ _ _
  | hcomment cs ih =>
    obtain ⟨q, q', q'', hpieces⟩ := Lexeme.placeAll_comment p' cs
    have hbody : ∀ l ∈ Lexeme.placeAll q (cut (splitComment cs).1), l.kind ∉ TokenKind.assigned :=
      Lexeme.kinds_of_placeAll (φ := (· ∉ TokenKind.assigned)) kinds_cut
    have hopen : ∀ t ∈ Token.attach [] (Lexeme.placeAll q (cut (splitComment cs).1)),
        t.kind ≠ .openComment :=
      Stream.kinds_attach (φ := (· ≠ .openComment)) fun l hl => ne_open_of_assigned (hbody l hl)
    have hclose : ∀ t ∈ Token.attach [] (Lexeme.placeAll q (cut (splitComment cs).1)),
        t.kind ≠ .closeComment :=
      Stream.kinds_attach (φ := (· ≠ .closeComment)) fun l hl => ne_close_of_assigned (hbody l hl)
    rw [hpieces]
    by_cases hrest : (splitComment cs).2 = []
    · rw [if_pos hrest, List.append_nil]
      obtain ⟨p'', hp''⟩ := Stream.ofLexemes_comment_open p leading
        (Lexeme.placeAll q (cut (splitComment cs).1)) (.place .openComment ['/', '*'] p') rfl
      rw [hp'']
      change FlatFrom false (_ :: _)
      rw [FlatFrom, if_pos (by rfl)]
      exact ⟨rfl, flatFrom_of_kinds hopen true⟩
    · rw [if_neg hrest]
      obtain ⟨p'', hp''⟩ := Stream.ofLexemes_comment p leading
        (Lexeme.placeAll q (cut (splitComment cs).1))
        (Lexeme.placeAll q'' (cutThroughComments ((splitComment cs).2.drop 2)))
        (.place .openComment ['/', '*'] p') (.place .closeComment ['*', '/'] q') rfl rfl
      have hinside := insideAfter_of_kinds hclose
      rw [hp'']
      change FlatFrom false (_ :: ((_ ++ [_]) ++ _))
      rw [FlatFrom, if_pos (by rfl), List.append_assoc, flatFrom_append, hinside]
      refine ⟨rfl, flatFrom_of_kinds hopen true, ?_⟩
      change FlatFrom true (_ :: _)
      rw [FlatFrom, if_neg (by simp [Token.ofLexeme, Lexeme.place])]
      exact ih _ _ _

theorem open_not_mem_cut (t : Text) (p p' : Position) (leading : List Lexeme) :
    ∀ u ∈ (Stream.ofLexemes p leading (Lexeme.placeAll p' (cut t))).tokens,
      u.kind ≠ .openComment := by
  obtain ⟨p'', hp''⟩ := Stream.ofLexemes_append p leading (Lexeme.placeAll p' (cut t)) []
  rw [List.append_nil] at hp''
  rw [hp'', Stream.ofLexemes, Stream.prepend, List.append_nil]
  exact Stream.kinds_attach (φ := (· ≠ .openComment)) (Lexeme.kinds_of_placeAll
    (φ := (· ≠ .openComment)) fun piece hpiece => ne_open_of_assigned (kinds_cut piece hpiece))

namespace Stream

variable {depth depth' : Nat} {comments trailing : Bool} {t : Text}

/-- Trivia that was attached to the token before it comes back. -/
theorem lead_ofText :
    (ofText ⟨depth, comments, true⟩ t).lead [] = ofText ⟨depth', comments, false⟩ t :=
  lead_trail (trailing_ofLexemes _ _ _)

theorem kinds_ofText : (ofText ⟨depth, comments, true⟩ t).tokens.map (fun u => u.kind) =
    (ofText ⟨depth', comments, false⟩ t).tokens.map (fun u => u.kind) := by
  have hlead : (ofText ⟨depth, comments, true⟩ t).lead [] = ofText ⟨depth', comments, false⟩ t :=
    lead_ofText
  rw [← hlead, lead, Token.kinds_lead]

theorem flat_ofText (config : Config) (t : Text) : FlatFrom false (ofText config t).tokens := by
  obtain ⟨depth, comments, trailing⟩ := config
  have hleading : FlatFrom false (ofText ⟨depth, comments, false⟩ t).tokens := by
    cases comments with
    | true => exact flat_cutThroughComments t _ _ _
    | false => exact flatFrom_of_kinds (open_not_mem_cut t _ _ _) false
  cases trailing with
  | true => exact (flatFrom_congr kinds_ofText false).mpr hleading
  | false => exact hleading

/-- Without structural comments there is no start of one. -/
theorem open_not_mem_ofText :
    ∀ u ∈ (ofText ⟨depth, false, trailing⟩ t).tokens, u.kind ≠ .openComment := by
  have hleading : ∀ u ∈ (ofText ⟨depth, false, false⟩ t).tokens, u.kind ≠ .openComment :=
    open_not_mem_cut t _ _ _
  cases trailing with
  | false => exact hleading
  | true =>
    intro u hu hopen
    have hkinds : (ofText ⟨depth, false, true⟩ t).tokens.map (fun u => u.kind) =
        (ofText ⟨depth, false, false⟩ t).tokens.map (fun u => u.kind) := kinds_ofText
    have hkind := List.mem_map_of_mem (f := fun u : Token => u.kind) hu
    rw [hkinds] at hkind
    obtain ⟨v, hv, hvkind⟩ := List.mem_map.mp hkind
    exact hleading v hv (hvkind.trans hopen)

end Stream

end CssTree
