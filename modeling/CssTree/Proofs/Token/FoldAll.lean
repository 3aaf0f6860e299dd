import CssTree.Proofs.Token.Settle
import CssTree.Proofs.Token.Structural

namespace CssTree

theorem commentRun_of_mem {ts : List Token} (us : List Token)
    (h : ∃ t ∈ ts, t.kind = .closeComment) :
    commentRun (ts ++ us) = ((commentRun ts).1, (commentRun ts).2 ++ us) := by
  induction ts with
  | nil => simp at h
  | cons t ts ih =>
    rw [List.cons_append, commentRun, commentRun]
    by_cases hclose : t.kind = .closeComment
    · rw [if_pos hclose, if_pos hclose]
    · have hrest : ∃ u ∈ ts, u.kind = .closeComment := by
        obtain ⟨u, hu, hkind⟩ := h
        rcases List.mem_cons.mp hu with rfl | hu
        · exact absurd hkind hclose
        · exact ⟨u, hu, hkind⟩
      rw [if_neg hclose, if_neg hclose, ih hrest]
      rfl

/-- Tokens that start no comment leave none open. -/
theorem insideAfter_of_no_open {ts : List Token} (h : ∀ t ∈ ts, t.kind ≠ .openComment) :
    insideAfter false ts = false := by
  induction ts with
  | nil => rfl
  | cons t ts ih =>
    have hstep : insideAfter false (t :: ts) =
        insideAfter (t.kind = .openComment || false && t.kind ≠ .closeComment) ts := rfl
    have ht := h t List.mem_cons_self
    simpa [hstep, ht] using ih fun u hu => h u (List.mem_cons_of_mem t hu)

/-- Behind a comment that ends among some tokens, one is as far outside as behind all of them. -/
theorem outside_commentRun {ts : List Token} (h : insideAfter true ts = false) :
    (∃ t ∈ ts, t.kind = .closeComment) ∧ insideAfter false (commentRun ts).2 = false := by
  induction ts with
  | nil => exact Bool.noConfusion h
  | cons t ts ih =>
    rw [commentRun]
    by_cases hclose : t.kind = .closeComment
    · have hstep : insideAfter true (t :: ts) = insideAfter false ts := by
        simp [insideAfter, hclose]
      rw [if_pos hclose]
      exact ⟨⟨t, List.mem_cons_self, hclose⟩, hstep ▸ h⟩
    · have hstep : insideAfter true (t :: ts) = insideAfter true ts := by
        simp [insideAfter, hclose]
      obtain ⟨⟨u, hu, hkind⟩, hrest⟩ := ih (hstep ▸ h)
      rw [if_neg hclose]
      exact ⟨⟨u, List.mem_cons_of_mem t hu, hkind⟩, hrest⟩

/-- A comment that is open behind tokens ends among them if another one starts there. -/
theorem FlatFrom.close_mem {ts us : List Token} {u : Token} (h : FlatFrom true (ts ++ u :: us))
    (hu : u.kind = .openComment) : ∃ t ∈ ts, t.kind = .closeComment := by
  by_contra hnone
  have hinside := insideAfter_of_kinds fun t ht hkind => hnone ⟨t, ht, hkind⟩
  have hrest := (flatFrom_append.mp h).2
  rw [hinside, FlatFrom, if_pos hu] at hrest
  exact Bool.noConfusion hrest.1

namespace Stream

/-- A stream with all comments folded. -/
def foldAll (s : Stream) : Stream := s.foldBehind (fun _ => true) none

variable {ts : List Token} {s s' : Stream} {q : Option TokenKind → Bool} {b : Option TokenKind}

theorem foldAll_eq (b : Option TokenKind) (s : Stream) :
    s.foldBehind (fun _ => true) b = s.foldAll := by
  have h : (fun _ : Option TokenKind => true) b = (fun _ : Option TokenKind => true) none := rfl
  exact foldBehind_congr h s

theorem foldAll_congr (h : s.foldFront = s'.foldFront) : s.foldAll = s'.foldAll :=
  foldBehind_of_foldIf (by simpa [foldIf] using h)

theorem foldFront_end {last : Token} : foldFront ⟨[], last⟩ = ⟨[], last⟩ := by rw [foldFront]

theorem foldAll_end (last : Token) : foldAll ⟨[], last⟩ = ⟨[], last⟩ := foldBehind_end last

theorem foldAll_keep {t : Token} {last : Token} (h : t.kind ≠ .openComment) :
    foldAll ⟨t :: ts, last⟩ = (foldAll ⟨ts, last⟩).prepend [t] := by
  rw [foldAll, foldBehind_keep fun hfold => h hfold.1, foldAll_eq]

theorem foldAll_open {t : Token} {last : Token} (h : t.kind = .openComment) :
    foldAll ⟨t :: ts, last⟩ = (foldAll ⟨(commentRun ts).2, last⟩).prependLeading
      (foldRun (t :: (commentRun ts).1)) := by
  rw [foldAll, foldAll, ← foldBehind_prependLeading]
  refine foldAll_congr ?_
  rw [foldFront, if_pos h]

theorem foldAll_of_kinds (h : ∀ t ∈ s.tokens, t.kind ≠ .openComment) : s.foldAll = s := by
  have hprepend : s = (⟨[], s.last⟩ : Stream).prepend s.tokens := by simp [prepend]
  rw [hprepend, foldAll, foldBehind_prepend (stable_of_kinds h), foldBehind_end]

/-- A comment behind other tokens may be folded first. -/
theorem foldAll_prepend_congr (hflat : FlatFrom false (ts ++ s.tokens)) (hopen : ¬s.Settled 0)
    (hfold : s.foldFront = s'.foldFront) : (s.prepend ts).foldAll = (s'.prepend ts).foldAll := by
  induction hn : ts.length using Nat.strongRecOn generalizing ts with
  | ind n ih =>
    cases ts with
    | nil => exact foldAll_congr hfold
    | cons t ts =>
      change foldAll ⟨t :: (ts ++ s.tokens), s.last⟩ = foldAll ⟨t :: (ts ++ s'.tokens), s'.last⟩
      rw [List.cons_append, FlatFrom] at hflat
      by_cases ht : t.kind = .openComment
      · -- Comments do not nest, so the comment that starts at `t` ends before the one behind `ts`.
        rw [if_pos ht] at hflat
        obtain ⟨u, us, htokens⟩ := List.exists_cons_of_ne_nil (mt settled_nil hopen)
        have hu : u.kind = .openComment := by
          by_contra hkind
          exact hopen (by simpa [Settled, htokens] using hkind)
        have hclose := (htokens ▸ hflat.2).close_mem hu
        have hrest := hflat.2.commentRun.2
        rw [commentRun_of_mem _ hclose] at hrest
        have hlength := commentRun_length ts
        rw [foldAll_open ht, foldAll_open ht, commentRun_of_mem _ hclose,
          commentRun_of_mem _ hclose]
        refine congrArg _ (ih (commentRun ts).2.length ?_ hrest rfl)
        rw [← hn, List.length_cons]
        omega
      · rw [if_neg ht] at hflat
        rw [foldAll_keep ht, foldAll_keep ht]
        exact congrArg _ (ih ts.length (by simp [← hn]) hflat rfl)

theorem foldAll_prepend_foldFront (hflat : FlatFrom false (ts ++ s.tokens)) :
    (s.foldFront.prepend ts).foldAll = (s.prepend ts).foldAll := by
  by_cases hsettled : s.Settled 0
  · rw [hsettled.foldFront]
  · exact (foldAll_prepend_congr hflat hsettled (foldFront_foldFront s).symm).symm

theorem flat_prepend_foldFront (hflat : FlatFrom false (ts ++ s.tokens)) :
    FlatFrom false (ts ++ s.foldFront.tokens) := by
  rw [flatFrom_append] at hflat ⊢
  exact ⟨hflat.1, flatFrom_foldFront hflat.2⟩

/-- How far a parser has looked does not matter. -/
theorem foldAll_prepend_settle (n : Nat) (hflat : FlatFrom false (ts ++ s.tokens)) :
    ((s.settle n).prepend ts).foldAll = (s.prepend ts).foldAll := by
  induction n generalizing ts s with
  | zero => exact foldAll_prepend_foldFront hflat
  | succ n ih =>
    rw [← foldAll_prepend_foldFront hflat]
    have hfront := flat_prepend_foldFront hflat
    cases htokens : s.foldFront.tokens with
    | nil => rw [settle_succ_nil htokens]
    | cons t us =>
      rw [htokens] at hfront
      have hflat' : FlatFrom false (ts ++ [t] ++ us) := by simpa using hfront
      have hrest : ((settle n ⟨us, s.foldFront.last⟩).prepend (ts ++ [t])).foldAll =
          (prepend (ts ++ [t]) ⟨us, s.foldFront.last⟩).foldAll := ih hflat'
      rw [settle_succ_cons htokens, eq_of_tokens htokens]
      simpa [prepend] using hrest

/-- Comments behind certain tokens may be folded first. -/
theorem foldAll_prepend_foldBehind (hflat : FlatFrom false (ts ++ s.tokens)) :
    ((s.foldBehind q b).prepend ts).foldAll = (s.prepend ts).foldAll := by
  induction hn : s.tokens.length using Nat.strongRecOn generalizing b ts s with
  | ind n ih =>
    have hif : FlatFrom false (ts ++ (s.foldIf q b).tokens) ∧
        ((s.foldIf q b).prepend ts).foldAll = (s.prepend ts).foldAll := by
      unfold foldIf
      split
      · exact ⟨flat_prepend_foldFront hflat, foldAll_prepend_foldFront hflat⟩
      · exact ⟨hflat, rfl⟩
    have hlength := length_foldIf (q := q) (b := b) s
    rw [← hif.2]
    cases htokens : (s.foldIf q b).tokens with
    | nil => rw [foldBehind_nil htokens]
    | cons t us =>
      rw [htokens, List.length_cons] at hlength
      have hflat' : FlatFrom false (ts ++ [t] ++ us) := by simpa [htokens] using hif.1
      have hrest :
          ((foldBehind q (some t.kind) ⟨us, (s.foldIf q b).last⟩).prepend (ts ++ [t])).foldAll =
            (prepend (ts ++ [t]) ⟨us, (s.foldIf q b).last⟩).foldAll :=
        ih us.length (by omega) hflat' rfl
      rw [foldBehind_cons htokens, eq_of_tokens htokens]
      simpa [prepend] using hrest

theorem foldAll_foldBehind (hflat : FlatFrom false s.tokens) :
    (s.foldBehind q b).foldAll = s.foldAll := by
  have hflat' : FlatFrom false ([] ++ s.tokens) := hflat
  exact foldAll_prepend_foldBehind hflat'

theorem flat_foldBehind {inside : Bool} (hflat : FlatFrom inside s.tokens) :
    FlatFrom inside (s.foldBehind q b).tokens := by
  induction hn : s.tokens.length using Nat.strongRecOn generalizing b inside s with
  | ind n ih =>
    have hif : FlatFrom inside (s.foldIf q b).tokens := by
      unfold foldIf
      split
      · exact flatFrom_foldFront hflat
      · exact hflat
    have hlength := length_foldIf (q := q) (b := b) s
    cases htokens : (s.foldIf q b).tokens with
    | nil => rwa [foldBehind_nil htokens]
    | cons t us =>
      rw [htokens, List.length_cons] at hlength
      have hrest : ∀ inside, FlatFrom inside us →
          FlatFrom inside (foldBehind q (some t.kind) ⟨us, (s.foldIf q b).last⟩).tokens :=
        fun _ hus => ih us.length (by omega) hus rfl
      rw [htokens, FlatFrom] at hif
      rw [foldBehind_cons htokens]
      change FlatFrom inside (t :: _)
      rw [FlatFrom]
      split at hif
      next hopen => rw [if_pos hopen]; exact ⟨hif.1, hrest true hif.2⟩
      next hopen => rw [if_neg hopen]; exact hrest _ hif

/-- Folding all comments is looking as far as there are tokens. -/
theorem foldAll_eq_settle {s : Stream} {n : Nat} (h : s.tokens.length ≤ n) :
    s.foldAll = s.settle n := by
  induction n generalizing s with
  | zero =>
    have hnil : s.tokens = [] := List.length_eq_zero_iff.mp (Nat.le_zero.mp h)
    rw [(settled_nil hnil).settle_eq, eq_of_tokens hnil, foldAll_end]
  | succ n ih =>
    have hfold : s.foldAll = s.foldFront.foldAll := (foldAll_congr (foldFront_foldFront s)).symm
    have hlength : s.foldFront.tokens.length ≤ s.tokens.length := length_foldFront s
    rw [hfold]
    cases htokens : s.foldFront.tokens with
    | nil => rw [settle_succ_nil htokens, eq_of_tokens htokens, foldAll_end]
    | cons t ts =>
      have ht := settled_foldFront s
      rw [eq_of_tokens htokens, settled_zero_cons] at ht
      rw [htokens, List.length_cons] at hlength
      rw [settle_succ_cons htokens, eq_of_tokens htokens, foldAll_keep ht]
      exact congrArg (prepend [t]) (ih (s := ⟨ts, s.foldFront.last⟩) (by dsimp only; omega))

theorem Sound.foldAll {taken : List Token} {s : Stream} (h : Sound taken s) :
    Sound taken s.foldAll := by
  rw [foldAll_eq_settle (Nat.le_refl _)]
  exact h.settle _

theorem open_not_mem_foldAll (s : Stream) : ∀ t ∈ s.foldAll.tokens, t.kind ≠ .openComment := by
  intro t ht
  have hlength : s.foldAll.tokens.length ≤ s.tokens.length := by
    rw [foldAll_eq_settle (Nat.le_refl _)]
    exact length_settle _ s
  have hsettled := settled_settle s.tokens.length s
  rw [← foldAll_eq_settle (Nat.le_refl _)] at hsettled
  refine hsettled t ?_
  rwa [List.take_of_length_le (Nat.le_succ_of_le hlength)]

theorem foldAll_settle (n : Nat) (hflat : FlatFrom false s.tokens) :
    (s.settle n).foldAll = s.foldAll := by
  have hflat' : FlatFrom false ([] ++ s.tokens) := hflat
  exact foldAll_prepend_settle n hflat'

/-- However many comments were folded before, in the end the tokens are the same. -/
theorem Refolds.foldAll_eq (h : s.Refolds s') (hflat : FlatFrom false s.tokens) :
    s'.foldAll = s.foldAll ∧ FlatFrom false s'.tokens := by
  induction h with
  | refl => exact ⟨rfl, hflat⟩
  | @fold s' ts _ ih =>
    have hbefore : FlatFrom false (ts ++ s'.tokens) := ih.2
    exact ⟨(foldAll_prepend_foldFront hbefore).trans ih.1, flat_prepend_foldFront hbefore⟩

theorem prependLeading_nil (s : Stream) : s.prependLeading [] = s := by
  obtain ⟨tokens, last⟩ := s
  cases tokens <;> rfl

theorem prependLeading_prepend (trivia : List Lexeme) (ts : List Token) (s : Stream) :
    ∃ ts' trivia', (s.prepend ts).prependLeading trivia = (s.prependLeading trivia').prepend ts' := by
  cases ts with
  | nil => exact ⟨[], trivia, rfl⟩
  | cons t ts =>
    exact ⟨{ t with leading := trivia ++ t.leading } :: ts, [], by rw [prependLeading_nil]; rfl⟩

/-- Behind a place outside comments, other tokens come when all comments are folded, and comments in
front of the place may lead what follows it. -/
theorem foldAll_behind (houtside : insideAfter false ts = false) (s : Stream) :
    ∃ ts' trivia, (s.prepend ts).foldAll = (s.foldAll.prependLeading trivia).prepend ts' := by
  induction hn : ts.length using Nat.strongRecOn generalizing ts with
  | ind n ih =>
    cases ts with
    | nil => exact ⟨[], [], (prependLeading_nil _).symm⟩
    | cons t ts =>
      rw [List.length_cons] at hn
      have hstep : insideAfter false (t :: ts) = insideAfter (t.kind = .openComment || false) ts := rfl
      rw [hstep] at houtside
      by_cases hopen : t.kind = .openComment
      · rw [hopen] at houtside
        obtain ⟨hclose, hrest⟩ := outside_commentRun houtside
        obtain ⟨ts', trivia, hfold⟩ := ih (commentRun ts).2.length
          (by have := commentRun_length ts; omega) hrest rfl
        have hrun : (s.prepend (t :: ts)).foldAll = (foldAll ⟨(commentRun ts).2 ++ s.tokens, s.last⟩
            ).prependLeading (foldRun (t :: (commentRun ts).1)) := by
          have hopened := @foldAll_open (ts ++ s.tokens) t s.last hopen
          rw [commentRun_of_mem s.tokens hclose] at hopened
          exact hopened
        obtain ⟨ts'', trivia', hmore⟩ := prependLeading_prepend (foldRun (t :: (commentRun ts).1)) ts'
          (s.foldAll.prependLeading trivia)
        refine ⟨ts'', trivia' ++ trivia, ?_⟩
        rw [hrun, show foldAll ⟨(commentRun ts).2 ++ s.tokens, s.last⟩ =
          (s.prepend (commentRun ts).2).foldAll from rfl, hfold, hmore, prependLeading_append]
      · have houtside' : insideAfter false ts = false := by simpa [hopen] using houtside
        obtain ⟨ts', trivia, hfold⟩ := ih ts.length (by omega) houtside' rfl
        refine ⟨t :: ts', trivia, ?_⟩
        have hkeep := @foldAll_keep (ts ++ s.tokens) t s.last hopen
        refine hkeep.trans ?_
        rw [show foldAll ⟨ts ++ s.tokens, s.last⟩ = (s.prepend ts).foldAll from rfl, hfold]
        rfl

end Stream

namespace Token

/-- Trivia in one piece. -/
def melt (trivia : List Lexeme) : List Lexeme :=
  if trivia.isEmpty then [] else [⟨.comment, Lexeme.render trivia, default⟩]

theorem render_melt (trivia : List Lexeme) :
    Lexeme.render (melt trivia) = Lexeme.render trivia := by
  cases trivia <;> simp [melt]

theorem isEmpty_melt (trivia : List Lexeme) : (melt trivia).isEmpty = trivia.isEmpty := by
  cases trivia <;> rfl

theorem melt_append {xs ys xs' ys' : List Lexeme} (h : melt xs = melt ys)
    (h' : melt xs' = melt ys') : melt (xs ++ xs') = melt (ys ++ ys') := by
  have hrender : Lexeme.render xs = Lexeme.render ys := by rw [← render_melt, h, render_melt]
  have hrender' : Lexeme.render xs' = Lexeme.render ys' := by rw [← render_melt, h', render_melt]
  have hempty : xs.isEmpty = ys.isEmpty := by rw [← isEmpty_melt, h, isEmpty_melt]
  have hempty' : xs'.isEmpty = ys'.isEmpty := by rw [← isEmpty_melt, h', isEmpty_melt]
  have happend : (xs ++ xs').isEmpty = (ys ++ ys').isEmpty := by
    cases xs <;> cases ys <;> simp_all
  unfold melt
  rw [happend, Lexeme.render_append, Lexeme.render_append, hrender, hrender']

theorem melt_cons (l : Lexeme) (ls : List Lexeme) :
    melt (l :: ls) = [⟨.comment, l.text ++ Lexeme.render ls, default⟩] := by simp [melt]

/-- A token without places, and with its trivia in one piece. -/
def melted (t : Token) : Token :=
  ⟨⟨t.kind, t.text, default⟩, t.value, melt t.leading, melt t.trailing⟩

theorem melted_ofLexeme {xs ys : List Lexeme} (h : melt xs = melt ys) (kind : TokenKind)
    (text : Text) (p p' : Position) : (ofLexeme xs (.place kind text p)).melted =
      (ofLexeme ys (.place kind text p')).melted := by
  simp [melted, ofLexeme, Lexeme.place, h]

end Token

open Token

namespace Stream

theorem melted_endToken {leading leading' : List Lexeme} (h : melt leading = melt leading')
    (p p' : Position) : (endToken leading p).melted = (endToken leading' p').melted :=
  melted_ofLexeme h _ _ _ _

/-- The lexeme of a comment that is left whole. -/
def wholeComment (t : Text) (span : Span) : Lexeme :=
  ⟨.comment, '/' :: '*' :: ((splitComment t).1 ++ (splitComment t).2.take 2), span⟩

theorem ofLexemes_comment_whole (cs : Text) (p q : Position) (leading : List Lexeme) :
    ∃ p' span, ofLexemes p leading (Lexeme.placeAll q (cut ('/' :: '*' :: cs))) =
      ofLexemes p' (leading ++ [wholeComment cs span])
        (Lexeme.placeAll span.stop (cut ((splitComment cs).2.drop 2))) := by
  rw [cut_comment, Lexeme.placeAll, ofLexemes, if_pos (by rfl)]
  exact ⟨_, ⟨q, _⟩, rfl⟩

/-- A folded comment is trivia, which has the text of the comment left whole. -/
theorem foldAll_comment (cs : Text) (p q : Position) (leading : List Lexeme) :
    ∃ p' q' trivia,
      (ofLexemes p leading (Lexeme.placeAll q (cutThroughComments ('/' :: '*' :: cs)))).foldAll =
        (ofLexemes p' (leading ++ trivia)
          (Lexeme.placeAll q' (cutThroughComments ((splitComment cs).2.drop 2)))).foldAll ∧
      ∀ span, melt trivia = melt [wholeComment cs span] := by
  obtain ⟨r, r', r'', hpieces⟩ := Lexeme.placeAll_comment q cs
  have hbody : ∀ l ∈ Lexeme.placeAll r (cut (splitComment cs).1), l.kind ∉ TokenKind.assigned :=
    Lexeme.kinds_of_placeAll (φ := (· ∉ TokenKind.assigned)) kinds_cut
  have hbodyText : Lexeme.render (Lexeme.placeAll r (cut (splitComment cs).1)) =
      (splitComment cs).1 := by
    rw [Lexeme.render_placeAll, (faithful_cut _).texts]
  rw [hpieces]
  rcases splitComment_rest cs with hrest | ⟨es, hrest⟩
  · obtain ⟨p', span, text, trivia, hfold, htext⟩ := foldFront_comment_open p leading
      (Lexeme.placeAll r (cut (splitComment cs).1)) (.place .openComment ['/', '*'] q) rfl hbody
    refine ⟨p', q, ⟨.comment, text, span⟩ :: trivia, ?_, fun _ => ?_⟩
    · rw [if_pos hrest, List.append_nil, hrest, List.drop_nil, cutThroughComments,
        Lexeme.placeAll, ofLexemes]
      exact foldAll_congr (hfold.trans foldFront_end.symm)
    · rw [hbodyText] at htext
      rw [melt_cons, melt_cons, htext, wholeComment, hrest]
      simp [Lexeme.place]
  · obtain ⟨p', span, hfold⟩ := foldFront_comment p leading
      (Lexeme.placeAll r (cut (splitComment cs).1))
      (Lexeme.placeAll r'' (cutThroughComments ((splitComment cs).2.drop 2)))
      (.place .openComment ['/', '*'] q) (.place .closeComment ['*', '/'] r') rfl rfl hbody
    refine ⟨p', r'', [⟨.comment, ['/', '*'] ++ (splitComment cs).1 ++ ['*', '/'], span⟩], ?_,
      fun _ => ?_⟩
    · rw [if_neg (by simp [hrest])]
      rw [hbodyText] at hfold
      exact foldAll_congr hfold
    · simp [melt_cons, wholeComment, hrest]

/-- Once all comments are folded, the tokens are those of the text with its comments left whole. -/
theorem melted_cutThroughComments (t : Text) {leading leading' : List Lexeme}
    (h : melt leading = melt leading') (p q p' q' : Position) :
    (ofLexemes p leading (Lexeme.placeAll q (cutThroughComments t))).foldAll.toList.map melted =
      (ofLexemes p' leading' (Lexeme.placeAll q' (cut t))).toList.map melted := by
  induction t using induction_cut generalizing p q p' q' leading leading' with
  | hnil =>
    rw [cutThroughComments, cut, Lexeme.placeAll, Lexeme.placeAll, ofLexemes, ofLexemes,
      foldAll_end]
    simp [toList, melted_endToken h p p']
  | hplain c cs hstart ih =>
    have hopen := ne_open_of_assigned (kind_first c cs)
    rw [cutThroughComments_plain hstart, cut_cons, Lexeme.placeAll, Lexeme.placeAll, ofLexemes,
      ofLexemes]
    by_cases htrivia : (firstLexeme (c :: cs)).1.isTrivia = true
    · rw [if_pos (by exact htrivia), if_pos (by exact htrivia)]
      exact ih (melt_append h (by simp only [melt_cons]; rfl)) _ _ _ _
    · rw [if_neg (by exact htrivia), if_neg (by exact htrivia)]
      change ((foldAll ⟨_ :: _, _⟩).toList).map melted = _
      rw [foldAll_keep (by exact hopen)]
      exact congr_arg₂ (· :: ·) (melted_ofLexeme h _ _ q q') (ih rfl _ _ _ _)
  | hcomment cs ih =>
    obtain ⟨r, r', trivia, hfold, htrivia⟩ := foldAll_comment cs p q leading
    obtain ⟨p'', span, hwhole⟩ := ofLexemes_comment_whole cs p' q' leading'
    rw [hfold, hwhole]
    exact ih (melt_append h (htrivia span)) _ _ _ _

variable {depth : Nat} {t : Text}

theorem melted_ofText : (ofText ⟨depth, true, false⟩ t).foldAll.toList.map melted =
    (ofText ⟨depth, false, false⟩ t).toList.map melted :=
  melted_cutThroughComments t rfl _ _ _ _

end Stream

namespace Token

/-- A token with its trivia in one piece. -/
def gathered (t : Token) : Token := ⟨t.toLexeme, t.value, melt t.leading, melt t.trailing⟩

theorem render_of_gathered {t u : Token} (h : t.gathered = u.gathered) : t.render = u.render := by
  have hleading : Lexeme.render (melt t.leading) = Lexeme.render (melt u.leading) :=
    congrArg (fun x => Lexeme.render x.leading) h
  have htrailing : Lexeme.render (melt t.trailing) = Lexeme.render (melt u.trailing) :=
    congrArg (fun x => Lexeme.render x.trailing) h
  have htext : t.text = u.text := congrArg (fun x => x.text) h
  rw [render_melt, render_melt] at hleading htrailing
  rw [render, render, hleading, htext, htrailing]

theorem gathered_of_laid {before : Text} {t u : Token} (ht : t.Laid before) (hu : u.Laid before)
    (h : t.melted = u.melted) : t.gathered = u.gathered := by
  have hleading : melt t.leading = melt u.leading := congrArg (fun x => x.leading) h
  have htrailing : melt t.trailing = melt u.trailing := congrArg (fun x => x.trailing) h
  have hkind : t.kind = u.kind := congrArg (fun x => x.kind) h
  have htext : t.text = u.text := congrArg (fun x => x.text) h
  have hvalue : t.value = u.value := congrArg (fun x => x.value) h
  have hrender : Lexeme.render t.leading = Lexeme.render u.leading := by
    rw [← render_melt, hleading, render_melt]
  have hspan : t.span = u.span := by
    rw [(Lexeme.laid_append.mp ht).2.1, (Lexeme.laid_append.mp hu).2.1, hrender, htext]
  have hlexeme : t.toLexeme = u.toLexeme := by
    cases t
    cases u
    exact Lexeme.mk.injEq .. ▸ ⟨hkind, htext, hspan⟩
  rw [gathered, gathered, hlexeme, hvalue, hleading, htrailing]

/-- Tokens that lie in the same place are the same if they are so without their places. -/
theorem map_gathered {before : Text} {ts us : List Token} (hts : LaidAll before ts)
    (hus : LaidAll before us) (h : ts.map melted = us.map melted) :
    ts.map gathered = us.map gathered := by
  induction ts generalizing us before with
  | nil =>
    obtain rfl : us = [] := by simpa using h.symm
    rfl
  | cons t ts ih =>
    cases us with
    | nil => simp at h
    | cons u us =>
      rw [List.map_cons, List.map_cons, List.cons.injEq] at h
      rw [laidAll_cons] at hts hus
      have hfirst := gathered_of_laid hts.1 hus.1 h.1
      rw [render_of_gathered hfirst] at hts
      rw [List.map_cons, List.map_cons, hfirst, ih hts.2 hus.2 h.2]

end Token

end CssTree
