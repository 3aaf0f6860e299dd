import CssTree.Proofs.Token.Prompt.Number

namespace CssTree

/-- The length of what a backslash in a string hides. -/
def hiddenLength (t : Text) : Nat :=
  if 0 < newlineLength t then newlineLength t else escapeLength t

theorem hiddenLength_le (t : Text) : hiddenLength t ≤ t.length := by
  unfold hiddenLength
  split
  · exact newlineLength_le t
  · exact escapeLength_le t

theorem hiddenLength_prompt : Prompt id hiddenLength := by
  intro t r hle
  simp only [hiddenLength, id] at hle ⊢
  have hbreak : newlineLength (t ++ r) ≤ t.length := by
    split at hle
    · exact hle
    · omega
  have hsame : newlineLength t = newlineLength (t ++ r) := newlineLength_prompt t r hbreak
  rw [hsame]
  split at hle
  next hpos => rw [if_pos hpos, if_pos hpos]
  next hzero =>
    have hescape : escapeLength t = escapeLength (t ++ r) := escapeLength_prompt t r hle
    rw [if_neg hzero, if_neg hzero, hescape]

theorem le_stringTailFrom (quote : Char) (skip : Nat) (t : Text) :
    min skip t.length ≤ (stringTailFrom quote skip t).2 := by
  induction t generalizing skip with
  | nil => simp
  | cons c cs ih =>
    cases skip with
    | zero => simp
    | succ skip =>
      have hrest := ih skip
      have hmap : (stringTailFrom quote (skip + 1) (c :: cs)).2 =
          (stringTailFrom quote skip cs).2 + 1 := rfl
      rw [hmap, List.length_cons]
      omega

/-- What ends within a text was ended there, except for a bad string that the text cuts off. -/
def StringPrompt (f : Text → TokenKind × Nat) : Prop :=
  ∀ t r, (f (t ++ r)).2 ≤ t.length → f t = f (t ++ r) ∨
    f (t ++ r) = (.badString, t.length) ∧ f t = (.string, t.length)

theorem stringTailFrom_prompt (quote : Char) (skip : Nat) :
    StringPrompt (stringTailFrom quote skip) := by
  intro t r hle
  induction t generalizing skip with
  | nil =>
    match skip, r with
    | _, [] => exact Or.inl (by simp)
    | skip + 1, c :: cs => exact absurd hle (Nat.not_succ_le_zero _)
    | 0, c :: cs =>
      simp only [List.nil_append, stringTailFrom] at hle ⊢
      split at hle
      · exact absurd hle (Nat.not_succ_le_zero _)
      next hquote =>
        rw [if_neg hquote]
        split at hle
        next hbreak =>
          rw [if_pos hbreak]
          exact Or.inr ⟨rfl, rfl⟩
        · split at hle <;> exact absurd hle (Nat.not_succ_le_zero _)
  | cons c cs ih =>
    have hstep : ∀ skip, (stringTailFrom quote skip (cs ++ r)).2 ≤ cs.length →
        (stringTailFrom quote skip cs).map id (· + 1) =
            (stringTailFrom quote skip (cs ++ r)).map id (· + 1) ∨
          (stringTailFrom quote skip (cs ++ r)).map id (· + 1) = (.badString, (c :: cs).length) ∧
            (stringTailFrom quote skip cs).map id (· + 1) = (.string, (c :: cs).length) := by
      intro skip hskip
      rcases ih skip hskip with hsame | ⟨hbad, hstring⟩
      · exact Or.inl (by rw [hsame])
      · exact Or.inr ⟨by rw [hbad]; rfl, by rw [hstring]; rfl⟩
    cases skip with
    | succ skip => exact hstep skip (Nat.le_of_succ_le_succ hle)
    | zero =>
      simp only [List.cons_append, stringTailFrom] at hle ⊢
      split at hle
      next hquote => exact Or.inl (by rw [if_pos hquote, if_pos hquote])
      next hquote =>
        rw [if_neg hquote, if_neg hquote]
        split at hle
        next hbreak => exact Or.inl (by rw [if_pos hbreak, if_pos hbreak])
        next hbreak =>
          rw [if_neg hbreak, if_neg hbreak]
          split at hle
          next hslash =>
            rw [if_pos hslash, if_pos hslash]
            -- What the backslash hides was passed, so that it lies within the text.
            have hrest := Nat.le_of_succ_le_succ hle
            have hpassed := le_stringTailFrom quote (hiddenLength (cs ++ r)) (cs ++ r)
            rw [Nat.min_eq_left (hiddenLength_le _)] at hpassed
            have hsame : hiddenLength cs = hiddenLength (cs ++ r) :=
              hiddenLength_prompt cs r (Nat.le_trans hpassed hrest)
            change (stringTailFrom quote (hiddenLength cs) cs).map id (· + 1) =
                (stringTailFrom quote (hiddenLength (cs ++ r)) (cs ++ r)).map id (· + 1) ∨
              (stringTailFrom quote (hiddenLength (cs ++ r)) (cs ++ r)).map id (· + 1) =
                  (.badString, (c :: cs).length) ∧
                (stringTailFrom quote (hiddenLength cs) cs).map id (· + 1) =
                  (.string, (c :: cs).length)
            rw [hsame]
            exact hstep _ hrest
          next hslash =>
            rw [if_neg hslash, if_neg hslash]
            exact hstep 0 (Nat.le_of_succ_le_succ hle)

theorem le_badUrlLengthFrom (skip : Nat) (t : Text) :
    min skip t.length ≤ badUrlLengthFrom skip t := by
  induction t generalizing skip with
  | nil => simp
  | cons c cs ih =>
    cases skip with
    | zero => simp
    | succ skip =>
      have hrest := ih skip
      simp only [badUrlLengthFrom, List.length_cons]
      omega

theorem badUrlLengthFrom_pos {c : Char} {cs : Text} : 0 < badUrlLengthFrom 0 (c :: cs) := by
  simp only [badUrlLengthFrom]
  split
  · exact Nat.one_pos
  · split <;> exact Nat.zero_lt_succ _

theorem badUrlLengthFrom_prompt (skip : Nat) : Prompt id (badUrlLengthFrom skip) := by
  intro t r hle
  induction t generalizing skip with
  | nil => simpa [badUrlLengthFrom] using (Nat.le_zero.mp hle).symm
  | cons c cs ih =>
    cases skip with
    | succ skip => exact congrArg (· + 1) (ih skip (Nat.le_of_succ_le_succ hle))
    | zero =>
      simp only [badUrlLengthFrom, List.cons_append, id] at hle ⊢
      split at hle
      next hclose => rw [if_pos hclose, if_pos hclose]
      next hclose =>
        rw [if_neg hclose, if_neg hclose]
        split at hle
        next hescape =>
          have hrest := Nat.le_of_succ_le_succ hle
          obtain ⟨hsame, hstarts⟩ := escapeLength_of_passed hescape (le_badUrlLengthFrom _ _) hrest
          rw [if_pos hescape, if_pos hstarts, hsame, ih _ hrest]
        next hescape =>
          rw [if_neg hescape, if_neg fun h => hescape (startsEscape_append h r),
            ih 0 (Nat.le_of_succ_le_succ hle)]

theorem urlEnd_prompt : Prompt Prod.snd urlEnd := by
  intro t r hle
  cases t with
  | nil =>
    cases r with
    | nil => rfl
    | cons c cs =>
      have hpos := @badUrlLengthFrom_pos c cs
      simp only [List.nil_append, urlEnd, badUrlLength] at hle
      split at hle
      · exact absurd hle (Nat.not_succ_le_zero _)
      · exact absurd hle (Nat.not_le.mpr hpos)
  | cons c cs =>
    simp only [List.cons_append, urlEnd, badUrlLength] at hle ⊢
    split at hle
    next hclose => rw [if_pos hclose, if_pos hclose]
    next hclose =>
      have hbad : badUrlLengthFrom 0 (c :: cs) = badUrlLengthFrom 0 (c :: (cs ++ r)) :=
        badUrlLengthFrom_prompt 0 (c :: cs) r hle
      rw [if_neg hclose, if_neg hclose, hbad]

theorem le_urlTailFrom (skip : Nat) (t : Text) : min skip t.length ≤ (urlTailFrom skip t).2 := by
  induction t generalizing skip with
  | nil => simp
  | cons c cs ih =>
    cases skip with
    | zero => simp
    | succ skip =>
      have hrest := ih skip
      have hmap : (urlTailFrom (skip + 1) (c :: cs)).2 = (urlTailFrom skip cs).2 + 1 := rfl
      rw [hmap, List.length_cons]
      omega

theorem blankLength_pos {c : Char} (h : isBlank c = true) (cs : Text) :
    0 < blankLength (c :: cs) := by simp [blankLength, runLength, h]

theorem urlTailFrom_pos {c : Char} {cs : Text} : 0 < (urlTailFrom 0 (c :: cs)).2 := by
  simp only [urlTailFrom]
  split
  · exact Nat.one_pos
  · split
    next hblank => exact Nat.lt_of_lt_of_le (blankLength_pos hblank cs) (Nat.le_add_left _ _)
    · split
      · exact badUrlLengthFrom_pos
      · split
        · split
          · exact Nat.zero_lt_succ _
          · exact badUrlLengthFrom_pos
        · exact Nat.zero_lt_succ _

theorem urlTailFrom_prompt (skip : Nat) : Prompt Prod.snd (urlTailFrom skip) := by
  intro t r hle
  induction t generalizing skip with
  | nil =>
    match skip, r with
    | _, [] => simp
    | skip + 1, c :: cs => exact absurd hle (Nat.not_succ_le_zero _)
    | 0, c :: cs => exact absurd hle (Nat.not_le.mpr urlTailFrom_pos)
  | cons c cs ih =>
    have hbad : badUrlLength (c :: (cs ++ r)) ≤ (c :: cs).length →
        badUrlLength (c :: cs) = badUrlLength (c :: (cs ++ r)) :=
      badUrlLengthFrom_prompt 0 (c :: cs) r
    cases skip with
    | succ skip => exact congrArg (Prod.map id (· + 1)) (ih skip (Nat.le_of_succ_le_succ hle))
    | zero =>
      simp only [urlTailFrom, List.cons_append] at hle ⊢
      by_cases hclose : c = ')'
      · rw [if_pos hclose, if_pos hclose]
      rw [if_neg hclose] at hle
      rw [if_neg hclose, if_neg hclose]
      by_cases hblank : isBlank c = true
      · rw [if_pos hblank] at hle
        rw [if_pos hblank, if_pos hblank]
        exact (runLength_prompt isBlank).shift urlEnd_prompt (c :: cs) r hle
      rw [if_neg hblank] at hle
      rw [if_neg hblank, if_neg hblank]
      split at hle
      next hstray => rw [if_pos hstray, if_pos hstray, hbad hle]
      next hstray =>
        rw [if_neg hstray, if_neg hstray]
        split at hle
        next hslash =>
          rw [if_pos hslash, if_pos hslash]
          split at hle
          next hescape =>
            have hrest := Nat.le_of_succ_le_succ hle
            obtain ⟨hsame, hstarts⟩ := escapeLength_of_passed hescape (le_urlTailFrom _ _) hrest
            rw [if_pos hescape, if_pos hstarts, hsame, ih _ hrest]
          next hescape =>
            rw [if_neg hescape, if_neg fun h => hescape (startsEscape_append h r), hbad hle]
        next hslash =>
          rw [if_neg hslash, if_neg hslash, ih 0 (Nat.le_of_succ_le_succ hle)]

theorem urlTail_prompt : Prompt Prod.snd urlTail :=
  (runLength_prompt isBlank).shift (urlTailFrom_prompt 0)

/-- The first character behind the blanks of a text is no quote. -/
def Unquoted (t : Text) : Prop :=
  ¬((t.drop (blankLength t)).head?.any fun c => c = '"' || c = '\'') = true

instance (t : Text) : Decidable (Unquoted t) := inferInstanceAs (Decidable (¬_))

theorem unquoted_append_of_any {t : Text} (h : ¬∀ c ∈ t, isBlank c = true) (r : Text) :
    Unquoted (t ++ r) ↔ Unquoted t := by
  have hhead : ((t ++ r).dropWhile isBlank).head? = (t.dropWhile isBlank).head? := by
    rw [List.dropWhile_append]
    split
    next hall => exact absurd (by simpa using hall) h
    next hany =>
      rw [List.head?_append]
      cases hdrop : t.dropWhile isBlank with
      | nil => simp [hdrop] at hany
      | cons c cs => rfl
  rw [Unquoted, Unquoted, blankLength, blankLength, drop_runLength, drop_runLength, hhead]

theorem unquoted_append_of_all {t : Text} (h : ∀ c ∈ t, isBlank c = true) (r : Text) :
    Unquoted (t ++ r) ↔ Unquoted r := by
  have hdrop : (t ++ r).dropWhile isBlank = r.dropWhile isBlank := by
    rw [List.dropWhile_append, if_pos (by simpa using h)]
  rw [Unquoted, Unquoted, blankLength, blankLength, drop_runLength, drop_runLength, hdrop]

theorem unquoted_of_all {t : Text} (h : ∀ c ∈ t, isBlank c = true) : Unquoted t := by
  have hdrop : t.dropWhile isBlank = [] := by simpa using h
  rw [Unquoted, blankLength, drop_runLength, hdrop]
  exact Bool.false_ne_true

/-- The kind and the length of what follows a name. -/
def openedLexeme (name : Text) : Text → TokenKind × Nat
  | '(' :: body =>
    if SameName (unescape name) ['u', 'r', 'l'] ∧ Unquoted body then
      (urlTail body).map id (· + 1)
    else (.function, 1)
  | _ => (.ident, 0)

theorem nameLexeme_of_none {t : Text} (h : codePointsLength? t = none) : nameLexeme t =
    (openedLexeme (t.take (nameLength t)) (t.drop (nameLength t))).map id (· + nameLength t) := by
  have hsum : ∀ (x : TokenKind × Nat) (n : Nat),
      x.map id (· + (n + 1)) = (x.map id (· + 1)).map id (· + n) := by
    rintro ⟨kind, m⟩ n
    simp [Nat.add_assoc, Nat.add_comm 1]
  unfold nameLexeme
  rw [h]
  simp only
  split
  next body hbody =>
    rw [hbody, openedLexeme]
    by_cases hurl : SameName (unescape (t.take (nameLength t))) ['u', 'r', 'l'] ∧ Unquoted body
    · rw [if_pos hurl]
      exact (if_pos hurl).trans (hsum _ _)
    · rw [if_neg hurl]
      exact (if_neg hurl).trans (by simp [Nat.add_comm 1])
  next hnot =>
    unfold openedLexeme
    split
    next body hbody => exact absurd hbody (hnot body)
    next => simp

theorem openedLexeme_prompt {name t r : Text} (hle : (openedLexeme name (t ++ r)).2 ≤ t.length)
    (hquote : (openedLexeme name (t ++ r)).1 = .function →
      (∀ c ∈ t.drop (openedLexeme name (t ++ r)).2, isBlank c = true) → Unquoted r) :
    openedLexeme name t = openedLexeme name (t ++ r) := by
  have hother : ∀ {c : Char} (cs : Text), c ≠ '(' → openedLexeme name (c :: cs) = (.ident, 0) := by
    intro c cs hc
    unfold openedLexeme
    split
    next body hbody => exact absurd (List.cons.inj hbody).1 hc
    next => rfl
  match t, r with
  | [], [] => rfl
  | [], c :: cs =>
    by_cases hc : c = '('
    · subst hc
      simp only [List.nil_append, openedLexeme] at hle
      split at hle <;> exact absurd hle (Nat.not_succ_le_zero _)
    · rw [List.nil_append, hother cs hc]
      rfl
  | c :: cs, r =>
    by_cases hc : c = '('
    · subst hc
      simp only [List.cons_append, openedLexeme] at hle hquote ⊢
      by_cases hname : SameName (unescape name) ['u', 'r', 'l']
      · by_cases hopen : Unquoted (cs ++ r)
        · rw [if_pos ⟨hname, hopen⟩] at hle
          have hshort : Unquoted cs := by
            by_cases hall : ∀ d ∈ cs, isBlank d = true
            · exact unquoted_of_all hall
            · exact (unquoted_append_of_any hall r).mp hopen
          have htail : urlTail cs = urlTail (cs ++ r) :=
            urlTail_prompt cs r (Nat.le_of_succ_le_succ hle)
          rw [if_pos ⟨hname, hshort⟩, if_pos ⟨hname, hopen⟩, htail]
        · rw [if_neg fun h => hopen h.2] at hquote
          have hshort : ¬Unquoted cs := by
            intro h
            by_cases hall : ∀ d ∈ cs, isBlank d = true
            · exact hopen ((unquoted_append_of_all hall r).mpr (hquote rfl hall))
            · exact hopen ((unquoted_append_of_any hall r).mpr h)
          rw [if_neg fun h => hshort h.2, if_neg fun h => hopen h.2]
      · rw [if_neg fun h => hname h.1, if_neg fun h => hname h.1]
    · rw [List.cons_append, hother cs hc, hother (cs ++ r) hc]

/-- A name that ends within a text starts the same lexeme there; an exception is a function in
front of a quote that blanks separate from it. -/
theorem nameLexeme_prompt {t r : Text} (hle : (nameLexeme (t ++ r)).2 ≤ t.length)
    (hquote : (nameLexeme (t ++ r)).1 = .function →
      (∀ c ∈ t.drop (nameLexeme (t ++ r)).2, isBlank c = true) → Unquoted r) :
    nameLexeme t = nameLexeme (t ++ r) := by
  have hrange : codePointsLength? t = codePointsLength? (t ++ r) := by
    refine codePointsLength?_prompt fun n hn => ?_
    rw [Option.mem_def] at hn
    simpa only [nameLexeme, hn] using hle
  cases hcode : codePointsLength? (t ++ r) with
  | some n =>
    rw [hcode] at hrange
    simp only [nameLexeme, hrange, hcode]
  | none =>
    rw [hcode] at hrange
    rw [nameLexeme_of_none hcode] at hle hquote ⊢
    rw [nameLexeme_of_none hrange]
    have hname : nameLength (t ++ r) ≤ t.length := Nat.le_trans (Nat.le_add_left _ _) hle
    have hsame : nameLength t = nameLength (t ++ r) := nameLength_prompt t r hname
    rw [← hsame] at hle hquote hname ⊢
    rw [List.take_append_of_le_length hname, List.drop_append_of_le_length hname] at hle hquote ⊢
    have hopened : openedLexeme (t.take (nameLength t)) (t.drop (nameLength t)) =
        openedLexeme (t.take (nameLength t)) (t.drop (nameLength t) ++ r) := by
      refine openedLexeme_prompt ?_ fun hkind hall => hquote hkind ?_
      · rw [List.length_drop]
        exact Nat.le_sub_of_add_le hle
      · rw [Prod.map_snd, Nat.add_comm, ← List.drop_drop]
        exact hall
    rw [hopened]

/-- A name has started within a text if the lexeme that it starts ends there. -/
theorem startsName_of_lexeme {t r : Text} (h : startsName (t ++ r) = true) (hne : t ≠ [])
    (hle : (nameLexeme (t ++ r)).2 ≤ t.length) : startsName t = true := by
  cases hcode : codePointsLength? (t ++ r) with
  | none =>
    rw [nameLexeme_of_none hcode] at hle
    exact startsName_of_append h (Nat.le_trans (Nat.le_add_left _ _) hle)
  | some n =>
    obtain ⟨c, cs, rfl⟩ := List.exists_cons_of_ne_nil hne
    have hletter : c = 'u' ∨ c = 'U' := by
      match hrest : cs ++ r with
      | [] => rw [List.cons_append, hrest] at hcode; cases hcode
      | d :: ds =>
        rw [List.cons_append, hrest, codePointsLength?_cons_cons] at hcode
        split at hcode
        next hstart => exact hstart.2.1
        next => cases hcode
    rcases hletter with rfl | rfl <;> rfl

/-- A hash sign is followed by a name. -/
def startsHash (t : Text) : Bool := t.head?.any isNameChar || startsEscape t

theorem startsHash_append {t : Text} (h : startsHash t = true) (r : Text) :
    startsHash (t ++ r) = true := by
  rw [startsHash, Bool.or_eq_true] at h ⊢
  rcases h with h | h
  · cases t with
    | nil => cases h
    | cons c cs => exact Or.inl h
  · exact Or.inr (startsEscape_append h r)

theorem startsHash_of_append {t r : Text} (h : startsHash (t ++ r) = true)
    (hle : nameLength (t ++ r) ≤ t.length) : startsHash t = true := by
  rw [startsHash, Bool.or_eq_true] at h ⊢
  cases t with
  | nil =>
    exfalso
    have hzero := Nat.le_zero.mp hle
    rcases h with h | h
    · cases r with
      | nil => cases h
      | cons c cs =>
        have hchar : isNameChar c = true := h
        rw [List.nil_append, nameLength_cons hchar] at hzero
        cases hzero
    · have htwo := nameLength_escape h
      omega
  | cons c cs =>
    rcases h with h | h
    · exact Or.inl h
    · have htwo := Nat.le_trans (nameLength_escape h) hle
      exact Or.inr (startsEscape_of_append (by rintro rfl; simp at htwo) h)

/-- The length of a comment after its start. -/
def commentLength (t : Text) : Nat := (splitComment t).1.length + min 2 (splitComment t).2.length

theorem commentLength_cons (c : Char) (cs : Text) : commentLength (c :: cs) =
    if c = '*' ∧ cs.head? = some '/' then 2 else commentLength cs + 1 := by
  unfold commentLength
  rw [splitComment]
  split
  next hend =>
    obtain ⟨ds, rfl⟩ := List.head?_eq_some_iff.mp hend.2
    simp
  next =>
    rw [Prod.map_fst, Prod.map_snd, List.length_cons]
    simp only [id]
    omega

theorem commentLength_prompt : Prompt id commentLength := by
  intro t r hle
  induction t with
  | nil => exact (Nat.le_zero.mp hle).symm
  | cons c cs ih =>
    rw [List.cons_append, commentLength_cons] at hle ⊢
    rw [commentLength_cons]
    by_cases hend : c = '*' ∧ (cs ++ r).head? = some '/'
    · rw [if_pos hend] at hle
      have hne : cs ≠ [] := by
        rintro rfl
        simp at hle
      obtain ⟨d, ds, rfl⟩ := List.exists_cons_of_ne_nil hne
      have hshort : c = '*' ∧ (d :: ds).head? = some '/' := hend
      rw [if_pos hend, if_pos hshort]
    · rw [if_neg hend] at hle
      have hshort : ¬(c = '*' ∧ cs.head? = some '/') := fun h =>
        hend ⟨h.1, by simp [List.head?_append, h.2]⟩
      rw [if_neg hend, if_neg hshort, ih (Nat.le_of_succ_le_succ hle)]

theorem scannedLexeme_prompt {c : Char} {cs r : Text}
    (hle : (scannedLexeme c (cs ++ r)).2 ≤ cs.length + 1)
    (hquote : (scannedLexeme c (cs ++ r)).1 = .function →
      (∀ d ∈ (c :: cs).drop (scannedLexeme c (cs ++ r)).2, isBlank d = true) → Unquoted r) :
    scannedLexeme c cs = scannedLexeme c (cs ++ r) ∨
      scannedLexeme c (cs ++ r) = (.badString, cs.length + 1) ∧
        scannedLexeme c cs = (.string, cs.length + 1) := by
  unfold scannedLexeme at hle hquote ⊢
  split at hle
  next hblank =>
    have hrun : blankLength (c :: cs) = blankLength (c :: (cs ++ r)) :=
      runLength_prompt isBlank (c :: cs) r hle
    exact Or.inl (by rw [if_pos hblank, if_pos hblank, hrun])
  next hblank =>
    rw [if_neg hblank] at hquote
    rw [if_neg hblank, if_neg hblank]
    split at hle
    next hstring =>
      rw [if_pos hstring, if_pos hstring]
      rcases stringTailFrom_prompt c 0 cs r (Nat.le_of_succ_le_succ hle) with hsame | ⟨hbad, hgood⟩
      · exact Or.inl (by rw [quotedLexeme, quotedLexeme, hsame])
      · exact Or.inr ⟨by rw [quotedLexeme, hbad]; rfl, by rw [quotedLexeme, hgood]; rfl⟩
    next hstring =>
      rw [if_neg hstring] at hquote
      rw [if_neg hstring, if_neg hstring]
      refine Or.inl ?_
      split at hle
      next hnumber =>
        have hsame : numericLexeme (c :: cs) = numericLexeme (c :: (cs ++ r)) :=
          numericLexeme_prompt (c :: cs) r hle
        have hlength : numberLength (c :: (cs ++ r)) ≤ (c :: cs).length :=
          Nat.le_trans (numberLength_le_numericLexeme _) hle
        rw [if_pos hnumber, if_pos (startsNumber_of_append (t := c :: cs) hnumber hlength), hsame]
      next hnumber =>
        rw [if_neg hnumber] at hquote
        rw [if_neg hnumber, if_neg fun h => hnumber (startsNumber_append h r)]
        split at hle
        next hname =>
          rw [if_pos hname] at hquote
          have hsame : nameLexeme (c :: cs) = nameLexeme (c :: (cs ++ r)) :=
            nameLexeme_prompt (t := c :: cs) hle hquote
          have hstarts : startsName (c :: cs) = true :=
            startsName_of_lexeme (t := c :: cs) hname (List.cons_ne_nil c cs) hle
          rw [if_pos hname, if_pos hstarts, hsame]
        next hname =>
          rw [if_neg hname, if_neg fun h => hname (startsName_append h r)]
          have hfold : ∀ u : Text, (u.head?.any isNameChar || startsEscape u) = startsHash u :=
            fun _ => rfl
          simp only [hfold] at hle ⊢
          split at hle
          next hhash =>
            rw [Bool.and_eq_true] at hhash
            have hlength := Nat.le_of_succ_le_succ hle
            have hshort := startsHash_of_append hhash.2 hlength
            have hsame : nameLength cs = nameLength (cs ++ r) := nameLength_prompt cs r hlength
            rw [if_pos (by simp [hhash.1, hshort]), if_pos (by simp [hhash.1, hhash.2]), hsame]
          next hhash =>
            have hshort : ¬(decide (c = '#') && startsHash cs) = true := by
              rw [Bool.and_eq_true] at hhash ⊢
              exact fun h => hhash ⟨h.1, startsHash_append h.2 r⟩
            rw [if_neg hshort, if_neg hhash]
            split at hle
            next hat =>
              rw [Bool.and_eq_true] at hat
              have hlength := Nat.le_of_succ_le_succ hle
              have hshort := startsName_of_append hat.2 hlength
              have hsame : nameLength cs = nameLength (cs ++ r) := nameLength_prompt cs r hlength
              rw [if_pos (by simp [hat.1, hshort]), if_pos (by simp [hat.1, hat.2]), hsame]
            next hat =>
              have hshort : ¬(decide (c = '@') && startsName cs) = true := by
                rw [Bool.and_eq_true] at hat ⊢
                exact fun h => hat ⟨h.1, startsName_append h.2 r⟩
              rw [if_neg hshort, if_neg hat]

theorem firstLexeme_cons_cons (c d : Char) (cs : Text) : firstLexeme (c :: d :: cs) =
    if c = '/' ∧ d = '*' then (.comment, 2 + commentLength cs)
    else match punctuation? c, digraph? c d with
      | some kind, _ => (kind, 1)
      | none, some kind => (kind, 2)
      | none, none => scannedLexeme c (d :: cs) := by
  have hlength : 2 + commentLength cs =
      2 + (splitComment cs).1.length + min 2 (splitComment cs).2.length := by
    rw [commentLength, Nat.add_assoc]
  rw [hlength]
  rfl

/-- A lexeme that ends within a text is the same there, but for a bad string that the text cuts
off, and for a function in front of a quote that blanks separate from it. -/
theorem firstLexeme_prompt {t r : Text} (hne : t ≠ []) (hle : (firstLexeme (t ++ r)).2 ≤ t.length)
    (hquote : (firstLexeme (t ++ r)).1 = .function →
      (∀ c ∈ t.drop (firstLexeme (t ++ r)).2, isBlank c = true) → Unquoted r) :
    firstLexeme t = firstLexeme (t ++ r) ∨
      firstLexeme (t ++ r) = (.badString, t.length) ∧ firstLexeme t = (.string, t.length) := by
  match t, r with
  | t, [] => exact Or.inl (by rw [List.append_nil])
  | [], c :: cs => exact absurd rfl hne
  | [c], d :: ds =>
    rw [List.cons_append, List.nil_append, firstLexeme_cons_cons] at hle hquote ⊢
    by_cases hcomment : c = '/' ∧ d = '*'
    · rw [if_pos hcomment, List.length_singleton] at hle
      omega
    rw [if_neg hcomment] at hle hquote ⊢
    simp only [firstLexeme]
    cases hpunctuation : punctuation? c with
    | some kind => exact Or.inl rfl
    | none =>
      rw [hpunctuation] at hle hquote
      cases hdigraph : digraph? c d with
      | some kind =>
        rw [hdigraph] at hle
        simp at hle
      | none =>
        rw [hdigraph] at hle hquote
        exact @scannedLexeme_prompt _ [] _ hle hquote
  | c :: d :: cs, r =>
    rw [List.cons_append, List.cons_append, firstLexeme_cons_cons] at hle hquote ⊢
    rw [firstLexeme_cons_cons]
    by_cases hcomment : c = '/' ∧ d = '*'
    · rw [if_pos hcomment] at hle
      have hsame : commentLength cs = commentLength (cs ++ r) := by
        refine commentLength_prompt cs r ?_
        simp only [List.length_cons] at hle
        simp only [id]
        omega
      rw [if_pos hcomment, if_pos hcomment, hsame]
      exact Or.inl rfl
    rw [if_neg hcomment] at hle hquote ⊢
    rw [if_neg hcomment]
    cases hpunctuation : punctuation? c with
    | some kind => exact Or.inl rfl
    | none =>
      rw [hpunctuation] at hle hquote
      cases hdigraph : digraph? c d with
      | some kind => exact Or.inl rfl
      | none =>
        rw [hdigraph] at hle hquote
        exact @scannedLexeme_prompt _ (d :: cs) _ hle hquote

end CssTree
