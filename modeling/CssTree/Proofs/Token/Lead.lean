import CssTree.Proofs.Token.Behind

namespace CssTree

namespace Token

/-- What trails the last of some tokens, `c` if there are none. -/
def carry (c : List Lexeme) : List Token → List Lexeme
  | [] => c
  | t :: ts => carry t.trailing ts

/-- Tokens in front of others with all trivia attached to the token after it; `c` comes from the
token before. -/
def lead (c : List Lexeme) : List Token → List Token
  | [] => []
  | t :: ts => { t with leading := c ++ t.leading, trailing := [] } :: lead t.trailing ts

variable {c : List Lexeme} {ts us : List Token} {t u : Token}

theorem carry_append : carry c (ts ++ us) = carry (carry c ts) us := by
  induction ts generalizing c with
  | nil => rfl
  | cons t ts ih => exact ih

theorem lead_append : lead c (ts ++ us) = lead c ts ++ lead (carry c ts) us := by
  induction ts generalizing c with
  | nil => rfl
  | cons t ts ih => simp [lead, carry, ih]

theorem length_lead (c : List Lexeme) (ts : List Token) : (lead c ts).length = ts.length := by
  induction ts generalizing c with
  | nil => rfl
  | cons t ts ih => simp [lead, ih]

theorem kinds_lead (c : List Lexeme) (ts : List Token) :
    (lead c ts).map (fun t => t.kind) = ts.map (fun t => t.kind) := by
  induction ts generalizing c with
  | nil => rfl
  | cons t ts ih => simp [lead, ih]

theorem trailingToLeading_append (h : us ≠ []) :
    trailingToLeading c (ts ++ us) = lead c ts ++ trailingToLeading (carry c ts) us := by
  induction ts generalizing c with
  | nil => rfl
  | cons t ts ih =>
    obtain ⟨v, vs, hvs⟩ := List.exists_cons_of_ne_nil (List.append_ne_nil_of_right_ne_nil ts h)
    have hrest := ih (c := t.trailing)
    rw [List.cons_append, hvs, trailingToLeading, ← hvs, hrest]
    rfl

theorem lexemesOf_lead (c : List Lexeme) (ts : List Token) :
    lexemesOf (lead c ts) ++ carry c ts = c ++ lexemesOf ts := by
  induction ts generalizing c with
  | nil => simp [lead, carry]
  | cons t ts ih =>
    have hrest := ih t.trailing
    simp only [lead, carry, lexemesOf_cons, lexemes, List.append_assoc, hrest]
    simp

theorem leadingToTrailing_ne_nil (t : Token) (ts : List Token) : t.leadingToTrailing ts ≠ [] := by
  cases ts <;> simp [leadingToTrailing]

/-- Trivia that was attached to the token before it comes back. -/
theorem trailingToLeading_leadingToTrailing (c : List Lexeme) (t : Token) (ts : List Token) :
    trailingToLeading c (t.leadingToTrailing ts) = trailingToLeading c (t :: ts) := by
  induction ts generalizing c t with
  | nil => rfl
  | cons u ts ih =>
    obtain ⟨v, vs, hvs⟩ := List.exists_cons_of_ne_nil (leadingToTrailing_ne_nil u.dropSameLine ts)
    have hrest := ih (t.trailing ++ u.sameLine) u.dropSameLine
    rw [leadingToTrailing, hvs, trailingToLeading, ← hvs, hrest, trailingToLeading]
    have hleading :
        t.trailing ++ u.sameLine ++ u.dropSameLine.leading = t.trailing ++ u.leading := by
      rw [List.append_assoc, sameLine, dropSameLine, List.takeWhile_append_dropWhile]
    cases ts with
    | nil => simpa [trailingToLeading, dropSameLine] using hleading
    | cons v vs => simpa [trailingToLeading, dropSameLine] using hleading

/-- Where nothing trails a token but the last, all trivia is attached to the token after it. -/
theorem trailingToLeading_eq_self (h : ∀ t ∈ ts.dropLast, t.trailing = []) :
    trailingToLeading [] ts = ts := by
  induction ts with
  | nil => rfl
  | cons t ts ih =>
    cases ts with
    | nil => rfl
    | cons u us =>
      rw [List.dropLast_cons_of_ne_nil (List.cons_ne_nil u us), List.forall_mem_cons] at h
      rw [trailingToLeading, h.1, ih h.2, List.nil_append, ← h.1]

end Token

open Token

variable {c : List Lexeme}

theorem foldRun_lead {run : List Token} (h : run ≠ []) :
    foldRun (lead c run) ++ carry c run = c ++ foldRun run := by
  obtain ⟨t, ts, rfl⟩ := List.exists_cons_of_ne_nil h
  have hne : lead c (t :: ts) ≠ [] := by simp [lead]
  obtain ⟨ms, u, hlast⟩ : ∃ ms u, t :: ts = ms ++ [u] :=
    ⟨_, _, (List.dropLast_append_getLast h).symm⟩
  have hlead : lead c (t :: ts) = lead c ms ++
      [{ u with leading := carry c ms ++ u.leading, trailing := [] }] := by
    rw [hlast, lead_append]
    rfl
  have hcarry : carry c (t :: ts) = u.trailing := by
    rw [hlast, carry_append]
    rfl
  have hlastD : (t :: ts).getLastD default = u := by simp [hlast]
  have hlastD' : (lead c (t :: ts)).getLastD default =
      { u with leading := carry c ms ++ u.leading, trailing := [] } := by simp [hlead]
  have hheadD : (lead c (t :: ts)).headD default =
      { t with leading := c ++ t.leading, trailing := [] } := rfl
  obtain ⟨hold, -, -⟩ := lexemesOf_stripEnds h
  obtain ⟨hnew, -, -⟩ := lexemesOf_stripEnds hne
  have hall := lexemesOf_lead c (t :: ts)
  rw [hold, hnew, hcarry, hlastD, hlastD', hheadD] at hall
  have hstrip : lexemesOf (stripEnds (lead c (t :: ts))) = lexemesOf (stripEnds (t :: ts)) := by
    simpa [List.append_assoc] using hall
  have htext := congrArg Lexeme.render hstrip
  rw [render_lexemesOf, render_lexemesOf] at htext
  unfold foldRun
  rw [htext, hcarry, hlastD, hlastD', hheadD]
  simp

theorem commentRun_lead (c : List Lexeme) (ts : List Token) : commentRun (lead c ts) =
    (lead c (commentRun ts).1, lead (carry c (commentRun ts).1) (commentRun ts).2) := by
  induction ts generalizing c with
  | nil => rfl
  | cons t ts ih =>
    unfold commentRun
    by_cases hclose : t.kind = .closeComment
    · rw [if_pos hclose]
      simp only [lead, hclose, if_true, carry]
    · rw [if_neg hclose]
      simp only [lead, hclose, if_false, ih, Prod.map, id_eq, carry]

namespace Stream

/-- A stream with all trivia attached to the token after it; `c` comes from the token before. -/
def lead (c : List Lexeme) (s : Stream) : Stream :=
  ⟨Token.lead c s.tokens, { s.last with leading := carry c s.tokens ++ s.last.leading }⟩

theorem toList_lead (c : List Lexeme) (s : Stream) :
    (s.lead c).toList = trailingToLeading c s.toList := by
  rw [toList, toList, trailingToLeading_append (List.cons_ne_nil _ [])]
  rfl

theorem eq_of_toList {s s' : Stream} (h : s.toList = s'.toList) : s = s' := by
  obtain ⟨htokens, hlast⟩ := List.append_inj' h rfl
  obtain ⟨tokens, last⟩ := s
  obtain rfl : tokens = s'.tokens := htokens
  obtain rfl : last = s'.last := by simpa using hlast
  rfl

theorem lead_prepend (c : List Lexeme) (ts : List Token) (s : Stream) :
    (s.prepend ts).lead c = (s.lead (carry c ts)).prepend (Token.lead c ts) := by
  simp [lead, prepend, lead_append, carry_append]

theorem lead_prependLeading (c trivia : List Lexeme) (s : Stream) :
    (s.prependLeading trivia).lead c = s.lead (c ++ trivia) := by
  obtain ⟨tokens, last⟩ := s
  cases tokens with
  | nil => simp [lead, prependLeading, Token.lead, carry]
  | cons t ts => simp [lead, prependLeading, Token.lead, carry]

theorem prependLeading_lead (c trivia : List Lexeme) (s : Stream) :
    (s.lead c).prependLeading trivia = s.lead (trivia ++ c) := by
  obtain ⟨tokens, last⟩ := s
  cases tokens with
  | nil => simp [lead, prependLeading, Token.lead, carry]
  | cons t ts => simp [lead, prependLeading, Token.lead, carry]

theorem foldFront_lead (c : List Lexeme) (s : Stream) :
    (s.lead c).foldFront = s.foldFront.lead c := by
  induction s using Stream.foldFront.induct generalizing c with
  | case1 last =>
    rw [foldFront]
    change foldFront ⟨[], _⟩ = _
    rw [foldFront]
    rfl
  | case2 t ts last hopen ih =>
    have hrun : lead c ⟨t :: ts, last⟩ = ⟨{ t with leading := c ++ t.leading, trailing := [] } ::
        Token.lead t.trailing ts,
        { last with leading := carry c (t :: ts) ++ last.leading }⟩ := rfl
    have hrest : (⟨Token.lead (carry t.trailing (commentRun ts).1) (commentRun ts).2,
        { last with leading := carry c (t :: ts) ++ last.leading }⟩ : Stream) =
          lead (carry c (t :: (commentRun ts).1)) ⟨(commentRun ts).2, last⟩ := by
      have hcarry : carry c (t :: ts) =
          carry (carry t.trailing (commentRun ts).1) (commentRun ts).2 := by
        rw [← carry_append, commentRun_append]
        rfl
      rw [hcarry]
      rfl
    have hfold := foldRun_lead (c := c) (List.cons_ne_nil t (commentRun ts).1)
    rw [hrun, foldFront, if_pos hopen, commentRun_lead, hrest, prependLeading_lead]
    change (lead (foldRun (Token.lead c (t :: (commentRun ts).1)) ++ _) _).foldFront = _
    rw [hfold, ← lead_prependLeading, ih, foldFront, if_pos hopen]
  | case3 t ts last hopen =>
    rw [foldFront, if_neg hopen]
    change foldFront ⟨{ t with leading := c ++ t.leading, trailing := [] } :: _, _⟩ = _
    rw [foldFront, if_neg (by exact hopen)]
    rfl

theorem lead_cons (c : List Lexeme) (t : Token) (ts : List Token) (last : Token) :
    lead c ⟨t :: ts, last⟩ = (lead t.trailing ⟨ts, last⟩).prepend
      [{ t with leading := c ++ t.leading, trailing := [] }] := rfl

theorem settle_lead (n : Nat) (c : List Lexeme) (s : Stream) :
    (s.lead c).settle n = (s.settle n).lead c := by
  induction n generalizing c s with
  | zero => exact foldFront_lead c s
  | succ n ih =>
    have hfront := foldFront_lead c s
    cases htokens : s.foldFront.tokens with
    | nil =>
      rw [settle_succ_nil htokens, settle_succ_nil (by rw [hfront, eq_of_tokens htokens]; rfl),
        hfront]
    | cons t ts =>
      rw [eq_of_tokens htokens, lead_cons] at hfront
      rw [settle_succ_cons htokens, settle_succ_cons (by rw [hfront]; rfl), hfront]
      change (settle n (lead t.trailing ⟨ts, s.foldFront.last⟩)).prepend _ = _
      rw [ih, lead_prepend]
      rfl

section Behind

variable {q : Option TokenKind → Bool} {b : Option TokenKind}

theorem foldIf_lead (c : List Lexeme) (s : Stream) :
    (s.lead c).foldIf q b = (s.foldIf q b).lead c := by
  unfold foldIf
  split
  · exact foldFront_lead c s
  · rfl

theorem foldBehind_lead (c : List Lexeme) (s : Stream) :
    (s.lead c).foldBehind q b = (s.foldBehind q b).lead c := by
  induction hn : s.tokens.length using Nat.strongRecOn generalizing b c s with
  | ind n ih =>
    have hif := foldIf_lead (q := q) (b := b) c s
    have hlength := length_foldIf (q := q) (b := b) s
    cases htokens : (s.foldIf q b).tokens with
    | nil =>
      rw [foldBehind_nil htokens, foldBehind_nil (by rw [hif, eq_of_tokens htokens]; rfl), hif]
    | cons t ts =>
      rw [eq_of_tokens htokens, lead_cons] at hif
      have hrest := ih ts.length (by rw [htokens, List.length_cons] at hlength; omega)
        (b := some t.kind) t.trailing ⟨ts, (s.foldIf q b).last⟩ rfl
      rw [foldBehind_cons htokens, foldBehind_cons (by rw [hif]; rfl), hif, lead_prepend]
      change (foldBehind q (some t.kind) (lead t.trailing ⟨ts, _⟩)).prepend _ = _
      rw [hrest]
      rfl

end Behind

/-- Trivia that was attached to the token before it comes back, if all of it was attached to the
token after it. -/
theorem lead_trail {s : Stream} (h : ∀ t ∈ s.toList, t.trailing = []) : s.trail.lead [] = s := by
  refine eq_of_toList ?_
  rw [toList_lead]
  unfold trail
  split
  next heq => simp [toList] at heq
  next t ts heq =>
    rw [toList_ofList (leadingToTrailing_ne_nil t ts), trailingToLeading_leadingToTrailing, ← heq,
      trailingToLeading_eq_self fun t ht => h t (List.dropLast_subset _ ht)]

theorem trailing_ofLexemes (p : Position) (leading ls : List Lexeme) :
    ∀ t ∈ (ofLexemes p leading ls).toList, t.trailing = [] := by
  induction ls generalizing p leading with
  | nil => simp [ofLexemes, toList, endToken, Token.ofLexeme]
  | cons l ls ih =>
    unfold ofLexemes
    split
    · exact ih _ _
    · intro t ht
      rcases List.mem_cons.mp ht with rfl | ht
      · rfl
      · exact ih _ _ t ht

end Stream

end CssTree
