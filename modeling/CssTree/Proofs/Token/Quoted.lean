import CssTree.Proofs.Token.Found

namespace CssTree

/-- The kind of a string, and the text that the scanner has in front of it where it stops: the closing
quote with what follows it, a line break, or nothing. -/
def scanString (quote : Char) : (skip : Nat) → Text → TokenKind × Text
  | _, [] => (.string, [])
  | skip + 1, _ :: cs => scanString quote skip cs
  | 0, c :: cs =>
    if c = quote then (.string, c :: cs)
    else if isNewline c then (.badString, c :: cs)
    else if c = '\\' then scanString quote (hiddenLength cs) cs
    else scanString quote 0 cs

/-- What a string denotes, and the text that is left where decoding stops. -/
def readString (quote : Char) : (skip : Nat) → Text → Text × Text
  | _, [] => ([], [])
  | skip + 1, _ :: cs => readString quote skip cs
  | 0, c :: cs =>
    if quote = c then ([], c :: cs)
    else if c ≠ '\\' then (readString quote 0 cs).map (c :: ·) id
    else match cs with
      | [] => ([], [])
      | d :: _ =>
        if isNewline d then readString quote (newlineLength cs) cs
        else if isHex d then
          (readString quote (escapeLength cs) cs).map
            (charOfCodePoint (hexNumber (cs.take (hexLength cs))) :: ·) id
        else (readString quote 1 cs).map (d :: ·) id

theorem readString_fst (quote : Char) (skip : Nat) (t : Text) :
    (readString quote skip t).1 = unescapeFrom (some quote) skip t := by
  fun_induction readString quote skip t <;> simp_all [unescapeFrom]

/-- What the scanner measures of a string is what it has passed, and the closing quote. -/
theorem stringTailFrom_eq (quote : Char) (skip : Nat) (t : Text) :
    ∃ passed, t = passed ++ (scanString quote skip t).2 ∧
      stringTailFrom quote skip t = ((scanString quote skip t).1,
        passed.length + if (scanString quote skip t).2.head? = some quote then 1 else 0) := by
  induction t generalizing skip with
  | nil => exact ⟨[], by simp [scanString], by simp [scanString, stringTailFrom]⟩
  | cons c cs ih =>
    have hstep : ∀ skip, ∃ passed, c :: cs = passed ++ (scanString quote skip cs).2 ∧
        (stringTailFrom quote skip cs).map id (· + 1) = ((scanString quote skip cs).1,
          passed.length + if (scanString quote skip cs).2.head? = some quote then 1 else 0) := by
      intro skip
      obtain ⟨passed, hsplit, hlength⟩ := ih skip
      refine ⟨c :: passed, congrArg (c :: ·) hsplit, ?_⟩
      rw [hlength, Prod.map_apply, id, List.length_cons, Nat.add_right_comm]
    cases skip with
    | succ skip => exact hstep skip
    | zero =>
      rw [scanString, stringTailFrom]
      split
      next hquote => exact ⟨[], rfl, by simp [hquote]⟩
      next hquote =>
        split
        next => exact ⟨[], rfl, by simp [hquote]⟩
        next =>
          split
          next => exact hstep (hiddenLength cs)
          next => exact hstep 0

theorem scanString_closed {quote : Char} {skip : Nat} {t : Text}
    (h : (scanString quote skip t).1 = .string) :
    (scanString quote skip t).2 = [] ∨ (scanString quote skip t).2.head? = some quote := by
  fun_induction scanString quote skip t <;> simp_all

theorem scanString_skip (quote : Char) (n : Nat) (t : Text) :
    scanString quote n t = scanString quote 0 (t.drop n) := by
  induction t generalizing n with
  | nil => simp [scanString]
  | cons c cs ih =>
    cases n with
    | zero => rfl
    | succ n => exact ih n

theorem newlineLength_pos {c : Char} (h : isNewline c = true) (cs : Text) :
    0 < newlineLength (c :: cs) := by
  cases cs with
  | nil => simp [newlineLength, h]
  | cons d cs =>
    rw [newlineLength_cons_cons, if_pos h]
    split <;> omega

theorem newlineLength_eq_zero {c : Char} (h : isNewline c = false) (cs : Text) :
    newlineLength (c :: cs) = 0 := by
  have hc : c ≠ '\r' := by
    rintro rfl
    cases h
  cases cs with
  | nil => simp [newlineLength, h]
  | cons d cs => simp [newlineLength_cons_cons, h, hc]

theorem hiddenLength_cons (c : Char) (cs : Text) : hiddenLength (c :: cs) =
    if isNewline c then newlineLength (c :: cs) else escapeLength (c :: cs) := by
  cases h : isNewline c with
  | true => exact if_pos (newlineLength_pos h cs)
  | false =>
    apply if_neg
    rw [newlineLength_eq_zero h]
    omega

/-- Decoding passes the same characters as the scanner. -/
theorem readString_snd {quote : Char} {skip : Nat} {t : Text}
    (h : (scanString quote skip t).1 = .string) :
    (readString quote skip t).2 = (scanString quote skip t).2 := by
  induction t generalizing skip with
  | nil => simp [readString, scanString]
  | cons c cs ih =>
    cases skip with
    | succ skip => exact ih h
    | zero =>
      rw [scanString] at h ⊢
      rw [readString.eq_def]
      split at h
      next hquote => simp [hquote]
      next hquote =>
        have hother : quote ≠ c := fun heq => hquote heq.symm
        rw [if_neg hquote]
        simp only [if_neg hother]
        split at h
        next => cases h
        next hbreak =>
          rw [if_neg hbreak]
          split at h
          next hslash =>
            rw [if_pos hslash]
            simp only [hslash, ne_eq, not_true, if_false]
            cases cs with
            | nil => simp [scanString]
            | cons d ds =>
              simp only
              cases hnewline : isNewline d with
              | true =>
                rw [hiddenLength_cons, if_pos hnewline] at h ⊢
                exact ih h
              | false =>
                have hshown : ¬isNewline d = true := by simp [hnewline]
                rw [hiddenLength_cons, if_neg hshown] at h ⊢
                rw [if_neg (by simp)]
                by_cases hhex : isHex d = true
                · rw [if_pos hhex]
                  exact ih h
                · have hone : escapeLength (d :: ds) = 1 := by simp [escapeLength, hhex]
                  rw [hone] at h ⊢
                  rw [if_neg hhex]
                  exact ih h
          next hslash =>
            rw [if_neg hslash, if_pos hslash]
            exact ih h

theorem length_scanString_le (quote : Char) (skip : Nat) (t : Text) :
    (scanString quote skip t).2.length ≤ t.length - skip := by
  rw [scanString_skip]
  obtain ⟨passed, hsplit, -⟩ := stringTailFrom_eq quote 0 (t.drop skip)
  have hlength := congrArg List.length hsplit
  rw [List.length_append, List.length_drop] at hlength
  omega

/-- The closing quote is found in the text that ends with it. -/
theorem scanString_prompt {quote : Char} {skip : Nat} {t r u : Text} (hu : u ≠ [])
    (h : (scanString quote skip (t ++ r)).2 = u ++ r) :
    scanString quote skip t = ((scanString quote skip (t ++ r)).1, u) := by
  have hpos := List.length_pos_iff.mpr hu
  induction t generalizing skip with
  | nil =>
    have hle := length_scanString_le quote skip r
    rw [List.nil_append] at h
    rw [h, List.length_append] at hle
    omega
  | cons c cs ih =>
    cases skip with
    | succ skip => exact ih h
    | zero =>
      rw [List.cons_append, scanString] at h ⊢
      rw [scanString]
      split at h
      next hquote =>
        have hwhole : c :: cs = u := List.append_cancel_right h
        rw [if_pos hquote, if_pos hquote, hwhole]
      next hquote =>
        rw [if_neg hquote, if_neg hquote]
        split at h
        next hbreak =>
          have hwhole : c :: cs = u := List.append_cancel_right h
          rw [if_pos hbreak, if_pos hbreak, hwhole]
        next hbreak =>
          rw [if_neg hbreak, if_neg hbreak]
          split at h
          next hslash =>
            rw [if_pos hslash, if_pos hslash]
            -- What the backslash hides was passed, so that it stands in front of the quote.
            have hle := length_scanString_le quote (hiddenLength (cs ++ r)) (cs ++ r)
            rw [h, List.length_append, List.length_append] at hle
            have hsame : hiddenLength cs = hiddenLength (cs ++ r) := by
              apply hiddenLength_prompt
              simp only [id]
              omega
            rw [hsame]
            exact ih h
          next hslash =>
            rw [if_neg hslash, if_neg hslash]
            exact ih h

/-- The scanner has found the closing quote of a string, or the end of the text. Decoding stops there
as well. -/
theorem FirstPiece.quoted {x rest : Text} (h : FirstPiece (.string, x) (x ++ rest)) :
    ∃ quote body close, x = quote :: (body ++ close) ∧ (quote = '"' ∨ quote = '\'') ∧
      scanString quote 0 (body ++ (close ++ rest)) = (.string, close ++ rest) ∧
      (close = [quote] ∨ close = [] ∧ rest = []) ∧
      (readString quote 0 (body ++ close)).2 = close := by
  obtain ⟨quote, cs, rfl, hkind, hlength⟩ := h.scanned (by decide)
  obtain ⟨hquote, hscan⟩ := scannedLexeme_string hkind
  obtain ⟨passed, hsplit, htail⟩ := stringTailFrom_eq quote 0 (cs ++ rest)
  rw [hscan, quotedLexeme, htail] at hkind hlength
  change (scanString quote 0 (cs ++ rest)).1 = .string at hkind
  have hclosed := scanString_closed hkind
  obtain ⟨u, hu⟩ : ∃ u, (scanString quote 0 (cs ++ rest)).2 = u := ⟨_, rfl⟩
  rw [hu] at hsplit hlength hclosed
  have hscanned : scanString quote 0 (cs ++ rest) = (.string, u) := Prod.ext hkind hu
  have hsum := congrArg List.length hsplit
  simp only [List.length_append] at hsum
  rcases hclosed with rfl | hhead
  · have hrest : rest = [] := by
      simp only [List.head?_nil, Prod.map_snd, List.length_cons, List.length_nil, reduceCtorEq,
        if_false] at hlength hsum
      exact List.length_eq_zero_iff.mp (by omega)
    rw [hrest, List.append_nil] at hscanned
    have hread := @readString_snd quote 0 cs (by rw [hscanned])
    refine ⟨quote, cs, [], by simp, hquote, ?_, Or.inr ⟨rfl, hrest⟩, ?_⟩
    · simpa [hrest] using hscanned
    · rw [List.append_nil, hread, hscanned]
  · obtain ⟨us, rfl⟩ := List.head?_eq_some_iff.mp hhead
    simp only [List.head?_cons, if_true, Prod.map_snd, List.length_cons] at hlength hsum
    have hcut : passed ++ quote :: us = (passed ++ [quote]) ++ us := by simp
    obtain ⟨rfl, rfl⟩ := List.append_inj (hsplit.trans hcut) (by simp; omega)
    have hown : scanString quote 0 (passed ++ [quote]) = (.string, [quote]) := by
      have hprompt := scanString_prompt (t := passed ++ [quote]) (r := rest) (List.cons_ne_nil quote [])
        (by rw [hscanned]; rfl)
      rwa [hscanned] at hprompt
    have hread := @readString_snd quote 0 (passed ++ [quote]) (by rw [hown])
    refine ⟨quote, passed, [quote], rfl, hquote, ?_, Or.inl rfl, by rw [hread, hown]⟩
    rw [← List.append_assoc]
    exact hscanned

end CssTree
