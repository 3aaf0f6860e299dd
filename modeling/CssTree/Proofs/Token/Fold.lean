import CssTree.Proofs.Token.Stream

namespace CssTree

theorem mapLast_concat {α : Type} (f : α → α) (xs : List α) (x : α) :
    mapLast f (xs ++ [x]) = xs ++ [f x] := by
  induction xs with
  | nil => rfl
  | cons y ys ih => cases ys <;> simp_all [mapLast]

namespace Token

/-- A run of tokens is its first leading trivia, a middle that starts and ends with the tokens at
the ends, and its last trailing trivia. -/
theorem lexemesOf_stripEnds {run : List Token} (h : run ≠ []) :
    let first := run.headD default
    let last := run.getLastD default
    lexemesOf run = first.leading ++ lexemesOf (stripEnds run) ++ last.trailing ∧
      (lexemesOf (stripEnds run)).head? = some first.toLexeme ∧
      (lexemesOf (stripEnds run)).getLast? = some last.toLexeme := by
  obtain ⟨t, us, rfl⟩ := List.exists_cons_of_ne_nil h
  rcases List.eq_nil_or_concat us with rfl | ⟨ms, u, rfl⟩
  · simp [stripEnds, mapLast, lexemes]
  · have hstrip : stripEnds (t :: ms ++ [u]) =
        { t with leading := [] } :: ms ++ [{ u with trailing := [] }] :=
      mapLast_concat (fun t : Token => { t with trailing := [] }) ({ t with leading := [] } :: ms) u
    rw [List.concat_eq_append, ← List.cons_append, hstrip]
    simp [lexemes, List.getLast?_cons]

/-- A run folded to trivia lies where the run lay. -/
theorem laid_foldRun {before : Text} {run : List Token} (h : run ≠ []) {xs zs : List Lexeme}
    (hlaid : Lexeme.Laid before (xs ++ lexemesOf run ++ zs)) :
    Lexeme.Laid before (xs ++ foldRun run ++ zs) := by
  obtain ⟨happ, hhead, hlast⟩ := lexemesOf_stripEnds h
  obtain ⟨ms, hms⟩ := List.head?_eq_some_iff.mp hhead
  obtain ⟨ns, hns⟩ := List.getLast?_eq_some_iff.mp hlast
  have hsplit : Lexeme.Laid before ((xs ++ (run.headD default).leading) ++
      lexemesOf (stripEnds run) ++ ((run.getLastD default).trailing ++ zs)) := by
    rw [happ] at hlaid
    simpa using hlaid
  have hmid := (Lexeme.laid_append.mp (Lexeme.laid_append.mp hsplit).1).2
  have hstart := (hms ▸ hmid).start
  have hstop := (hns ▸ hmid).stop
  rw [← hns] at hstop
  have hmerge := hsplit.merge (l := ⟨.comment, renderAll (stripEnds run),
    ⟨(run.headD default).span.start, (run.getLastD default).span.stop⟩⟩)
    (render_lexemesOf _).symm (Span.ext hstart hstop)
  simpa [foldRun] using hmerge

theorem whole_foldRun {run : List Token} (h : run ≠ []) {xs zs : List Lexeme}
    (hwhole : Lexeme.Whole (xs ++ lexemesOf run ++ zs)) :
    Lexeme.Whole (xs ++ foldRun run ++ zs) := by
  obtain ⟨happ, -, -⟩ := lexemesOf_stripEnds h
  have hsplit : Lexeme.Whole ((xs ++ (run.headD default).leading) ++
      lexemesOf (stripEnds run) ++ ((run.getLastD default).trailing ++ zs)) := by
    rw [happ] at hwhole
    simpa using hwhole
  have hmerge := hsplit.merge (l := ⟨.comment, renderAll (stripEnds run),
    ⟨(run.headD default).span.start, (run.getLastD default).span.stop⟩⟩)
    (render_lexemesOf _).symm
  simpa [foldRun] using hmerge

theorem render_foldRun {run : List Token} (h : run ≠ []) :
    Lexeme.render (foldRun run) = renderAll run := by
  obtain ⟨happ, -, -⟩ := lexemesOf_stripEnds h
  rw [← render_lexemesOf, happ]
  simp [foldRun, render_lexemesOf]

end Token

namespace Stream

theorem lexemesOf_prependLeading (trivia : List Lexeme) (s : Stream) :
    Token.lexemesOf (s.prependLeading trivia).toList = trivia ++ Token.lexemesOf s.toList := by
  unfold prependLeading
  split <;> simp_all [toList, Token.lexemes]

theorem render_eq (s : Stream) : s.render = Lexeme.render (Token.lexemesOf s.toList) :=
  (Token.render_lexemesOf _).symm

/-- One comment folded. -/
theorem Sound.fold {taken run rest : List Token} {last : Token} (hrun : run ≠ [])
    (h : Sound taken ⟨run ++ rest, last⟩) :
    Sound taken (prependLeading (foldRun run) ⟨rest, last⟩) := by
  obtain ⟨laid, whole, kind, text, trailing, kinds⟩ := h
  have hlexemes : Token.lexemesOf (taken ++ (prependLeading (foldRun run) ⟨rest, last⟩).toList) =
      Token.lexemesOf taken ++ foldRun run ++ Token.lexemesOf (rest ++ [last]) := by
    rw [Token.lexemesOf_append, lexemesOf_prependLeading]
    simp [toList]
  refine ⟨?_, ?_, ?_, ?_, ?_, ?_⟩
  · rw [hlexemes]
    exact Token.laid_foldRun hrun (by simpa [toList] using laid)
  · rw [hlexemes]
    exact Token.whole_foldRun hrun (by simpa [toList] using whole)
  · cases rest <;> exact kind
  · cases rest <;> exact text
  · cases rest <;> exact trailing
  · intro t ht
    rcases List.mem_append.mp ht with ht | ht
    · exact kinds t (List.mem_append_left _ ht)
    · cases rest with
      | nil => simp [prependLeading] at ht
      | cons u us =>
        rcases List.mem_cons.mp ht with rfl | ht
        · exact kinds u (by simp)
        · exact kinds t (by simp [ht])

theorem render_fold {run rest : List Token} {last : Token} (hrun : run ≠ []) :
    (prependLeading (foldRun run) ⟨rest, last⟩).render = (⟨run ++ rest, last⟩ : Stream).render := by
  rw [render_eq, lexemesOf_prependLeading, Lexeme.render_append, Token.render_foldRun hrun,
    Token.render_lexemesOf]
  simp [render, toList]

theorem commentRun_cons (t : Token) (ts : List Token) :
    t :: ts = (t :: (commentRun ts).1) ++ (commentRun ts).2 := by
  rw [List.cons_append, commentRun_append]

theorem Sound.foldFront {taken : List Token} {s : Stream} (h : Sound taken s) :
    Sound taken s.foldFront := by
  induction s using Stream.foldFront.induct with
  | case1 last => rwa [Stream.foldFront]
  | case2 t ts last hopen ih =>
    rw [Stream.foldFront, if_pos hopen]
    rw [commentRun_cons] at h
    exact ih (h.fold (by simp))
  | case3 t ts last hopen => rwa [Stream.foldFront, if_neg hopen]

theorem render_foldFront (s : Stream) : s.foldFront.render = s.render := by
  induction s using Stream.foldFront.induct with
  | case1 last => rw [Stream.foldFront]
  | case2 t ts last hopen ih =>
    rw [Stream.foldFront, if_pos hopen, ih, render_fold (by simp), ← commentRun_cons]
  | case3 t ts last hopen => rw [Stream.foldFront, if_neg hopen]

theorem length_foldFront (s : Stream) : s.foldFront.length ≤ s.length := by
  induction s using Stream.foldFront.induct with
  | case1 last => rw [Stream.foldFront]
  | case2 t ts last hopen ih =>
    rw [Stream.foldFront, if_pos hopen]
    refine Nat.le_trans ih ?_
    have := commentRun_length ts
    simp only [length, prependLeading_length, List.length_cons]
    omega
  | case3 t ts last hopen => rw [Stream.foldFront, if_neg hopen]

/-- The next tokens are `ts`, and none of them starts a comment. -/
structure Starts (ts : List Token) (s : Stream) : Prop where
  next : ts <+: s.tokens
  settled : ∀ t ∈ ts, t.kind ≠ .openComment

theorem starts_nil (s : Stream) : Starts [] s := ⟨List.nil_prefix, by simp⟩

theorem Starts.of_cons {t : Token} {ts us : List Token} {last : Token}
    (h : Starts (t :: ts) ⟨t :: us, last⟩) : Starts ts ⟨us, last⟩ :=
  ⟨(List.prefix_cons_inj t).mp h.next, fun u hu => h.settled u (List.mem_cons_of_mem t hu)⟩

theorem Starts.cons {t : Token} {ts : List Token} {s : Stream} (hkind : t.kind ≠ .openComment)
    (h : Starts ts s) : Starts (t :: ts) (s.prepend [t]) :=
  ⟨(List.prefix_cons_inj t).mpr h.next, by simpa using ⟨hkind, h.settled⟩⟩

theorem Starts.foldFront {t : Token} {ts : List Token} {s : Stream} (h : Starts (t :: ts) s) :
    s.foldFront = s := by
  obtain ⟨⟨us, hus⟩, hkinds⟩ := h
  obtain ⟨tokens, last⟩ := s
  obtain rfl : t :: (ts ++ us) = tokens := hus
  rw [Stream.foldFront, if_neg (hkinds t List.mem_cons_self)]

/-- Behind the folded comments there is a token that starts none, or nothing. -/
theorem starts_foldFront (s : Stream) : s.foldFront.tokens = [] ∨
    ∃ t ts, s.foldFront.tokens = t :: ts ∧ t.kind ≠ .openComment := by
  induction s using Stream.foldFront.induct with
  | case1 last => exact Or.inl (by rw [Stream.foldFront])
  | case2 t ts last hopen ih => rwa [Stream.foldFront, if_pos hopen]
  | case3 t ts last hopen => exact Or.inr ⟨t, ts, by rw [Stream.foldFront, if_neg hopen], hopen⟩

theorem settle_zero (s : Stream) : s.settle 0 = s.foldFront := rfl

theorem settle_succ_nil {n : Nat} {s : Stream} (h : s.foldFront.tokens = []) :
    s.settle (n + 1) = s.foldFront := by
  simp only [settle, h]

theorem settle_succ_cons {n : Nat} {s : Stream} {t : Token} {ts : List Token}
    (h : s.foldFront.tokens = t :: ts) :
    s.settle (n + 1) = (settle n ⟨ts, s.foldFront.last⟩).prepend [t] := by
  simp only [settle, h]

theorem eq_of_tokens {s : Stream} {ts : List Token} (h : s.tokens = ts) : s = ⟨ts, s.last⟩ :=
  h ▸ rfl

theorem render_prepend (ts : List Token) (s : Stream) :
    (s.prepend ts).render = Token.renderAll ts ++ s.render := by
  simp [render, prepend, toList]

theorem Sound.settle {taken : List Token} {s : Stream} (h : Sound taken s) (n : Nat) :
    Sound taken (s.settle n) := by
  induction n generalizing taken s with
  | zero => exact h.foldFront
  | succ n ih =>
    have hfront := h.foldFront
    cases htokens : s.foldFront.tokens with
    | nil => rwa [settle_succ_nil htokens]
    | cons t ts =>
      rw [settle_succ_cons htokens]
      rw [eq_of_tokens htokens] at hfront
      exact (ih hfront.of_cons).prepend

theorem render_settle (n : Nat) (s : Stream) : (s.settle n).render = s.render := by
  induction n generalizing s with
  | zero => exact render_foldFront s
  | succ n ih =>
    cases htokens : s.foldFront.tokens with
    | nil => rw [settle_succ_nil htokens, render_foldFront]
    | cons t ts =>
      rw [settle_succ_cons htokens, render_prepend, ih, ← render_foldFront s,
        eq_of_tokens htokens]
      simp [render, toList]

theorem length_settle (n : Nat) (s : Stream) : (s.settle n).length ≤ s.length := by
  induction n generalizing s with
  | zero => exact length_foldFront s
  | succ n ih =>
    have hfront := length_foldFront s
    cases htokens : s.foldFront.tokens with
    | nil => rwa [settle_succ_nil htokens]
    | cons t ts =>
      have hrest := ih ⟨ts, s.foldFront.last⟩
      rw [settle_succ_cons htokens]
      simp only [length, htokens, prepend, List.singleton_append, List.length_cons] at *
      omega

theorem Starts.settle_eq {ts : List Token} {s : Stream} {n : Nat} (h : Starts ts s)
    (hn : n < ts.length) : s.settle n = s := by
  induction n generalizing ts s with
  | zero =>
    obtain ⟨t, us, rfl⟩ := List.exists_cons_of_length_pos hn
    exact h.foldFront
  | succ n ih =>
    obtain ⟨t, us, rfl⟩ := List.exists_cons_of_length_pos (Nat.lt_of_le_of_lt (Nat.zero_le _) hn)
    have hfront := h.foldFront
    obtain ⟨⟨vs, hvs⟩, -⟩ := id h
    have htokens : s.foldFront.tokens = t :: (us ++ vs) := by rw [hfront, ← hvs]; rfl
    rw [settle_succ_cons htokens, hfront]
    rw [hfront] at htokens
    rw [eq_of_tokens htokens] at h
    rw [ih h.of_cons (Nat.lt_of_succ_lt_succ hn), eq_of_tokens htokens]
    rfl

theorem Starts.settle {ts : List Token} {s : Stream} (h : Starts ts s) (n : Nat) :
    Starts ts (s.settle n) := by
  induction n generalizing ts s with
  | zero =>
    cases ts with
    | nil => exact starts_nil _
    | cons t ts => rwa [settle_zero, h.foldFront]
  | succ n ih =>
    cases ts with
    | nil => exact starts_nil _
    | cons t ts =>
      have hfront := h.foldFront
      obtain ⟨⟨vs, hvs⟩, hkinds⟩ := id h
      have htokens : s.foldFront.tokens = t :: (ts ++ vs) := by rw [hfront, ← hvs]; rfl
      rw [settle_succ_cons htokens, hfront]
      rw [hfront] at htokens
      rw [eq_of_tokens htokens] at h
      exact (ih h.of_cons).cons (hkinds t List.mem_cons_self)

theorem Starts.nth {ts : List Token} {s : Stream} {n : Nat} (h : Starts ts s)
    (hn : n < ts.length) : s.nth n = ts[n] := by
  obtain ⟨us, hus⟩ := h.next
  simp [Stream.nth, ← hus, List.getElem?_append_left hn, List.getElem?_eq_getElem hn]

/-- The token looked at behind others is the next one behind them, if it is not the end. -/
theorem Starts.settle_nth {ts : List Token} {s : Stream} (h : Starts ts s)
    (hlast : (s.settle ts.length).last.kind = .eof)
    (hkind : ((s.settle ts.length).nth ts.length).kind ≠ .eof) :
    Starts (ts ++ [(s.settle ts.length).nth ts.length]) (s.settle ts.length) := by
  induction ts generalizing s with
  | nil =>
    simp only [List.length_nil, settle_zero] at *
    rcases starts_foldFront s with hnil | ⟨t, ts, htokens, ht⟩
    · simp [Stream.nth, hnil, hlast] at hkind
    · have hnth : s.foldFront.nth 0 = t := by simp [Stream.nth, htokens]
      rw [hnth]
      exact ⟨by simp [htokens], by simpa using ht⟩
  | cons t ts ih =>
    have hfront := h.foldFront
    obtain ⟨⟨vs, hvs⟩, hkinds⟩ := id h
    have htokens : s.tokens = t :: (ts ++ vs) := hvs.symm
    rw [eq_of_tokens htokens] at h
    have hsettle : s.settle (ts.length + 1) =
        (Stream.settle ts.length ⟨ts ++ vs, s.last⟩).prepend [t] := by
      rw [settle_succ_cons (hfront ▸ htokens), hfront]
    simp only [List.length_cons, hsettle] at hlast hkind ⊢
    exact (ih h.of_cons hlast hkind).cons (hkinds t List.mem_cons_self)

/-- With the end of the text next there are no tokens left. -/
theorem Sound.tokens_eq_nil {taken : List Token} {s : Stream} (h : Sound taken s)
    (hkind : (s.nth 0).kind = .eof) : s.tokens = [] := by
  cases htokens : s.tokens with
  | nil => rfl
  | cons t ts =>
    have hnth : s.nth 0 = t := by simp [nth, htokens]
    exact absurd (hnth ▸ hkind) (h.kinds t (by simp [htokens]))

end Stream

end CssTree
