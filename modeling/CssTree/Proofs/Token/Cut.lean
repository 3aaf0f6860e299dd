import CssTree.Proofs.Token.Boundary

namespace CssTree

theorem clean_numeric {before t : Text} (hb : ¬Fuse before t) :
    Clean before t (numericLexeme t).2 := by
  unfold numericLexeme
  have hnumber := (noReturn_number t).clean hb
  simp only
  split
  next hpercent =>
    obtain ⟨ds, hds⟩ := List.head?_eq_some_iff.mp hpercent
    rw [clean_add, hds]
    exact clean_one (by simp)
  next =>
    split
    next => exact clean_add.mpr (clean_name (clean_zero.mpr hnumber))
    next => exact hnumber

theorem clean_nameLexeme {before t : Text} (hb : ¬Fuse before t) :
    Clean before t (nameLexeme t).2 := by
  unfold nameLexeme
  split
  next n hn => exact (noReturn_codePoints hn).clean hb
  next =>
    have hname : Clean before t (nameLength t) := clean_name (clean_zero.mpr hb)
    have hopen : ∀ body, t.drop (nameLength t) = '(' :: body →
        Clean before t (nameLength t + 1) := by
      intro body hbody
      rw [clean_add, hbody]
      exact clean_one (by simp)
    simp only
    split
    next body hbody =>
      split
      next =>
        have hbody' : t.drop (nameLength t + 1) = body := by rw [← List.drop_drop, hbody]; rfl
        rw [Prod.map_snd, Nat.add_comm, clean_add, hbody']
        exact clean_urlTail _ body
      next => exact hopen body hbody
    next => exact hname

theorem clean_scanned {c : Char} {cs : Text} (hc : c ≠ '\r' ∨ isBlank c = true) :
    Clean [] (c :: cs) (scannedLexeme c cs).2 := by
  unfold scannedLexeme
  split
  next => exact clean_blanks _ _
  next hblank =>
    replace hc : c ≠ '\r' := hc.resolve_right hblank
    have hb : ¬Fuse ([] ++ [c]) cs := not_fuse_of_ne [] hc
    have hname : Clean [] (c :: cs) (nameLength cs + 1) :=
      clean_cons.mpr (clean_name (clean_zero.mpr hb))
    split
    next => exact clean_cons.mpr (clean_string hc (clean_zero.mpr hb))
    next =>
      split
      next => exact clean_numeric (by simp)
      next =>
        split
        next => exact clean_nameLexeme (by simp)
        next =>
          split
          next => exact hname
          next =>
            split
            next => exact hname
            next => exact clean_one hc

theorem splitComment_append (t : Text) : (splitComment t).1 ++ (splitComment t).2 = t := by
  induction t with
  | nil => rfl
  | cons c cs ih =>
    unfold splitComment
    split
    · rfl
    · simpa using ih

/-- The end of a comment starts with an asterisk and a slash. -/
theorem splitComment_rest (t : Text) :
    (splitComment t).2 = [] ∨ ∃ cs, (splitComment t).2 = '*' :: '/' :: cs := by
  induction t with
  | nil => exact Or.inl rfl
  | cons c cs ih =>
    unfold splitComment
    split
    next h =>
      obtain ⟨rfl, hslash⟩ := h
      obtain ⟨ds, rfl⟩ := List.head?_eq_some_iff.mp hslash
      exact Or.inr ⟨ds, rfl⟩
    next => simpa using ih

theorem clean_comment (before t : Text) :
    Clean before t ((splitComment t).1.length + min 2 (splitComment t).2.length) := by
  have happend := splitComment_append t
  have hdrop : t.drop (splitComment t).1.length = (splitComment t).2 := by
    calc t.drop (splitComment t).1.length
      _ = ((splitComment t).1 ++ (splitComment t).2).drop (splitComment t).1.length := by
        rw [happend]
      _ = (splitComment t).2 := List.drop_left
  rw [clean_add, hdrop]
  rcases splitComment_rest t with h | ⟨cs, h⟩
  · rw [h]
    exact clean_nil
  · rw [h]
    exact clean_of_take (c := '/') (by simp) (by simp)

theorem ne_cr_of_punctuation {c : Char} {kind : TokenKind} (h : punctuation? c = some kind) :
    c ≠ '\r' := by
  rintro rfl
  simp [punctuation?] at h

theorem ne_cr_of_digraph {c d : Char} {kind : TokenKind} (h : digraph? c d = some kind) :
    d ≠ '\r' := by
  rintro rfl
  unfold digraph? at h
  split at h <;> simp_all

theorem clean_first (c : Char) (cs : Text) : Clean [] (c :: cs) (firstLexeme (c :: cs)).2 := by
  have hblank : c ≠ '\r' ∨ isBlank c = true := by
    by_cases h : c = '\r'
    · exact Or.inr (by simp [h, isBlank, isNewline])
    · exact Or.inl h
  unfold firstLexeme
  split
  next heq => simp at heq
  next d heq =>
    obtain ⟨rfl, rfl⟩ := List.cons.inj heq
    cases hp : punctuation? c with
    | some kind => exact clean_one (ne_cr_of_punctuation hp)
    | none => exact clean_scanned hblank
  next d e es heq =>
    obtain ⟨rfl, rfl⟩ := List.cons.inj heq
    split
    next => 
      simp only
      rw [Nat.add_assoc, clean_add]
      exact clean_comment _ es
    next =>
      split
      next hp => exact clean_one (ne_cr_of_punctuation hp)
      next hd =>
        exact clean_cons.mpr (clean_one (ne_cr_of_digraph hd))
      next => exact clean_scanned hblank

theorem first_return (cs : Text) : (firstLexeme ('\r' :: cs)).2 ≠ 0 := by
  have hblank : isBlank '\r' = true := by decide
  cases cs with
  | nil => simp [firstLexeme, punctuation?, scannedLexeme, hblank, blankLength, runLength]
  | cons d ds =>
    simp [firstLexeme, punctuation?, digraph?, scannedLexeme, hblank, blankLength, runLength]

/-- A text may be cut behind its first lexeme, which has at least one character. -/
theorem not_fuse_first (c : Char) (cs : Text) :
    ¬Fuse (c :: cs.take ((firstLexeme (c :: cs)).2 - 1))
      (cs.drop ((firstLexeme (c :: cs)).2 - 1)) := by
  have h := clean_first c cs
  cases hn : (firstLexeme (c :: cs)).2 with
  | succ n => simpa [hn, Clean] using h
  | zero =>
    have hc : c ≠ '\r' := by
      rintro rfl
      exact first_return cs hn
    simpa using not_fuse_of_ne [] hc

/-- Kinds that no lexeme has because of its characters alone. -/
def TokenKind.assigned : List TokenKind := [.eof, .openComment, .closeComment]

/-- Kinds of which no string, number, name or address is. -/
def TokenKind.unscanned : List TokenKind := [.whitespace, .comment, .closeBrace] ++ assigned

theorem kind_string {quote : Char} {skip : Nat} (t : Text) :
    (stringTailFrom quote skip t).1 ∉ TokenKind.unscanned := by
  induction t generalizing skip with
  | nil => simp [stringTailFrom, TokenKind.unscanned, TokenKind.assigned]
  | cons c cs ih =>
    cases skip with
    | succ skip => exact ih
    | zero =>
      unfold stringTailFrom
      split
      next => simp [TokenKind.unscanned, TokenKind.assigned]
      next =>
        split
        next => simp [TokenKind.unscanned, TokenKind.assigned]
        next => split <;> exact ih

theorem kind_urlEnd (t : Text) : (urlEnd t).1 ∉ TokenKind.unscanned := by
  unfold urlEnd
  split
  next => simp [TokenKind.unscanned, TokenKind.assigned]
  next => split <;> simp [TokenKind.unscanned, TokenKind.assigned]

theorem kind_url {skip : Nat} (t : Text) : (urlTailFrom skip t).1 ∉ TokenKind.unscanned := by
  induction t generalizing skip with
  | nil => simp [urlTailFrom, TokenKind.unscanned, TokenKind.assigned]
  | cons c cs ih =>
    cases skip with
    | succ skip => exact ih
    | zero =>
      unfold urlTailFrom
      split
      next => simp [TokenKind.unscanned, TokenKind.assigned]
      next =>
        split
        next => exact kind_urlEnd _
        next =>
          split
          next => simp [TokenKind.unscanned, TokenKind.assigned]
          next =>
            split
            next =>
              split
              next => exact ih
              next => simp [TokenKind.unscanned, TokenKind.assigned]
            next => exact ih

theorem kind_nameLexeme (t : Text) : (nameLexeme t).1 ∉ TokenKind.unscanned := by
  unfold nameLexeme
  split
  next => simp [TokenKind.unscanned, TokenKind.assigned]
  next =>
    simp only
    split
    next =>
      split
      next => exact kind_url _
      next => simp [TokenKind.unscanned, TokenKind.assigned]
    next => simp [TokenKind.unscanned, TokenKind.assigned]

theorem kind_scanned {c : Char} (cs : Text) (hblank : ¬isBlank c = true) :
    (scannedLexeme c cs).1 ∉ TokenKind.unscanned := by
  have hnumeric : (numericLexeme (c :: cs)).1 ∉ TokenKind.unscanned := by
    unfold numericLexeme
    simp only
    split
    next => simp [TokenKind.unscanned, TokenKind.assigned]
    next => split <;> simp [TokenKind.unscanned, TokenKind.assigned]
  have hquoted : (quotedLexeme c cs).1 ∉ TokenKind.unscanned := kind_string cs
  have hname := kind_nameLexeme (c :: cs)
  unfold scannedLexeme
  unfold TokenKind.unscanned TokenKind.assigned at *
  grind

/-- Blanks make up one lexeme. -/
theorem first_blank {c : Char} (h : isBlank c = true) (cs : Text) :
    firstLexeme (c :: cs) = (.whitespace, blankLength (c :: cs)) := by
  have hscanned : ∀ cs, scannedLexeme c cs = (.whitespace, blankLength (c :: cs)) :=
    fun cs => if_pos h
  have hpunctuation : punctuation? c = none := by
    unfold punctuation?
    split <;> first | rfl | exact absurd h (by decide)
  have hdigraph : ∀ d, digraph? c d = none := by
    intro d
    unfold digraph?
    split <;> first | rfl | exact absurd h (by decide)
  have hslash : c ≠ '/' := by
    rintro rfl
    exact absurd h (by decide)
  cases cs with
  | nil => simp [firstLexeme, hpunctuation, hscanned]
  | cons d ds => simp [firstLexeme, hpunctuation, hdigraph, hslash, hscanned]

/-- What the kind of a lexeme says about its start. -/
theorem first_unscanned {c : Char} {cs : Text}
    (h : (firstLexeme (c :: cs)).1 ∈ TokenKind.unscanned) :
    isBlank c = true ∨ (∃ ds, cs = '*' :: ds ∧ c = '/') ∨ c = '}' := by
  by_cases hblank : isBlank c = true
  · exact Or.inl hblank
  refine Or.inr ?_
  have hscanned := fun cs => kind_scanned cs hblank
  have hpunctuation : ∀ kind, punctuation? c = some kind → kind ∈ TokenKind.unscanned → c = '}' := by
    unfold punctuation? TokenKind.unscanned TokenKind.assigned
    grind
  have hdigraph : ∀ d kind, digraph? c d = some kind → kind ∉ TokenKind.unscanned := by
    unfold digraph? TokenKind.unscanned TokenKind.assigned
    grind
  unfold firstLexeme at h
  split at h
  next heq => simp at heq
  next d heq =>
    obtain ⟨rfl, rfl⟩ := List.cons.inj heq
    cases hp : punctuation? c with
    | some kind => exact Or.inr (hpunctuation kind hp (by simpa [hp] using h))
    | none => exact absurd (by simpa [hp] using h) (hscanned [])
  next d e es heq =>
    obtain ⟨rfl, rfl⟩ := List.cons.inj heq
    split at h
    next hcomment => exact Or.inl ⟨es, by rw [hcomment.2], hcomment.1⟩
    next =>
      split at h
      next hp => exact Or.inr (hpunctuation _ hp h)
      next hd => exact absurd h (hdigraph _ _ hd)
      next => exact absurd h (hscanned _)

theorem kind_first (c : Char) (cs : Text) : (firstLexeme (c :: cs)).1 ∉ TokenKind.assigned := by
  intro hkind
  have hstart := first_unscanned (List.mem_append_right [.whitespace, .comment, .closeBrace] hkind)
  rcases hstart with hblank | ⟨ds, rfl, rfl⟩ | rfl
  · rw [first_blank hblank] at hkind
    simp [TokenKind.assigned] at hkind
  · simp [firstLexeme, TokenKind.assigned] at hkind
  · cases cs <;> simp [firstLexeme, punctuation?, TokenKind.assigned] at hkind

theorem first_ne_eof (c : Char) (cs : Text) : (firstLexeme (c :: cs)).1 ≠ .eof := by
  intro hkind
  have hfirst := kind_first c cs
  simp [hkind, TokenKind.assigned] at hfirst

/-- Pieces that make up a text, with no line break cut and no end of a text among them. -/
structure Faithful (t : Text) (pieces : List (TokenKind × Text)) : Prop where
  texts : (pieces.map (·.2)).flatten = t
  unfused : Unfused (pieces.map (·.2))
  kinds : ∀ piece ∈ pieces, piece.1 ≠ .eof

theorem Faithful.nil : Faithful [] [] := ⟨rfl, unfused_nil, by simp⟩

theorem Faithful.single {kind : TokenKind} (t : Text) (h : kind ≠ .eof) :
    Faithful t [(kind, t)] := ⟨by simp, unfused_singleton t, by simpa using h⟩

theorem Faithful.append {s t : Text} {xs ys : List (TokenKind × Text)} (hx : Faithful s xs)
    (hy : Faithful t ys) (h : ¬Fuse s t) : Faithful (s ++ t) (xs ++ ys) where
  texts := by simp [hx.texts, hy.texts]
  unfused := by
    rw [List.map_append]
    exact hx.unfused.append hy.unfused (by rwa [hx.texts, hy.texts])
  kinds piece hp := (List.mem_append.mp hp).elim (hx.kinds piece) (hy.kinds piece)

theorem faithful_cut (t : Text) : Faithful t (cut t) := by
  induction hn : t.length using Nat.strongRecOn generalizing t with
  | ind n ih =>
    cases t with
    | nil =>
      rw [cut]
      exact .nil
    | cons c cs =>
      have hrest := ih (cs.drop ((firstLexeme (c :: cs)).2 - 1)).length
        (by simp only [List.length_drop, ← hn, List.length_cons]; omega) _ rfl
      have happ := (Faithful.single (c :: cs.take ((firstLexeme (c :: cs)).2 - 1))
        (first_ne_eof c cs)).append hrest (not_fuse_first c cs)
      rw [List.cons_append, List.take_append_drop] at happ
      rw [cut]
      exact happ

/-- A comment by its delimiters and its body. -/
theorem faithful_comment {body rest : Text} {pieces : List (TokenKind × Text)}
    (hbody : Faithful body pieces) (hrest : rest = [] ∨ ∃ cs, rest = '*' :: '/' :: cs)
    {after : List (TokenKind × Text)} (hafter : Faithful (rest.drop 2) after) :
    Faithful ('/' :: '*' :: (body ++ rest))
      ((.openComment, ['/', '*']) :: pieces ++
        (if (rest.take 2).isEmpty then [] else [(.closeComment, rest.take 2)]) ++ after) := by
  have hopen := (Faithful.single ['/', '*'] (show TokenKind.openComment ≠ .eof by simp)).append hbody
    (by simp [Fuse])
  rcases hrest with rfl | ⟨cs, rfl⟩
  · simpa using hopen.append hafter (by simp)
  · have hclose := (Faithful.single ['*', '/'] (show TokenKind.closeComment ≠ .eof by simp)).append hafter
      (by simp [Fuse])
    simpa using hopen.append hclose (by simp [Fuse])

/-- The text behind a comment. -/
theorem splitComment_drop (t : Text) :
    t.drop ((splitComment t).1.length + ((splitComment t).2.take 2).length) =
      (splitComment t).2.drop 2 := by
  calc t.drop ((splitComment t).1.length + ((splitComment t).2.take 2).length)
    _ = ((splitComment t).1 ++ (splitComment t).2).drop
        ((splitComment t).1.length + ((splitComment t).2.take 2).length) := by
      rw [splitComment_append]
    _ = (splitComment t).2.drop ((splitComment t).2.take 2).length := by
      rw [← List.drop_drop, List.drop_left]
    _ = (splitComment t).2.drop 2 := by
      rcases splitComment_rest t with h | ⟨es, h⟩ <;> simp [h]

theorem cutThroughComments_comment (t : Text) :
    cutThroughComments ('/' :: '*' :: t) = (.openComment, ['/', '*']) :: cut (splitComment t).1 ++
      (if ((splitComment t).2.take 2).isEmpty then []
        else [(.closeComment, (splitComment t).2.take 2)]) ++
      cutThroughComments ((splitComment t).2.drop 2) := by
  rw [cutThroughComments, if_pos ⟨rfl, rfl⟩]
  simp only [List.drop_one, List.tail_cons, splitComment_drop]

theorem cutThroughComments_plain {c : Char} {cs : Text} (h : ¬(c = '/' ∧ cs.head? = some '*')) :
    cutThroughComments (c :: cs) =
      ((firstLexeme (c :: cs)).1, c :: cs.take ((firstLexeme (c :: cs)).2 - 1)) ::
        cutThroughComments (cs.drop ((firstLexeme (c :: cs)).2 - 1)) := by
  rw [cutThroughComments, if_neg h]

theorem faithful_cutThroughComments (t : Text) : Faithful t (cutThroughComments t) := by
  induction hn : t.length using Nat.strongRecOn generalizing t with
  | ind n ih =>
    cases t with
    | nil =>
      rw [cutThroughComments]
      exact .nil
    | cons c cs =>
      by_cases h : c = '/' ∧ cs.head? = some '*'
      · obtain ⟨rfl, hstar⟩ := h
        obtain ⟨ds, rfl⟩ := List.head?_eq_some_iff.mp hstar
        have hlength := congrArg List.length (splitComment_append ds)
        rw [List.length_append] at hlength
        have hafter := ih ((splitComment ds).2.drop 2).length (by
          rw [List.length_drop, ← hn, List.length_cons, List.length_cons]; omega) _ rfl
        have hall := faithful_comment (faithful_cut (splitComment ds).1) (splitComment_rest ds) hafter
        rw [splitComment_append] at hall
        rw [cutThroughComments_comment]
        exact hall
      · have hrest := ih (cs.drop ((firstLexeme (c :: cs)).2 - 1)).length
          (by simp only [List.length_drop, ← hn, List.length_cons]; omega) _ rfl
        have happ := (Faithful.single (c :: cs.take ((firstLexeme (c :: cs)).2 - 1))
          (first_ne_eof c cs)).append hrest (not_fuse_first c cs)
        rw [List.cons_append, List.take_append_drop] at happ
        rw [cutThroughComments_plain h]
        exact happ

end CssTree
