import CssTree.Proofs.Token.Prompt.Name

namespace CssTree

theorem signLength_prompt : Prompt id signLength := by
  intro t r hle
  cases t with
  | nil => exact (Nat.le_zero.mp hle).symm
  | cons c cs => rfl

theorem digitsLength_prompt : Prompt id digitsLength := runLength_prompt _

theorem fractionLength_prompt : Prompt id fractionLength := by
  intro t r hle
  match t with
  | [] => exact (Nat.le_zero.mp hle).symm
  | c :: cs =>
    by_cases hc : c = '.'
    · subst hc
      simp only [fractionLength, List.cons_append, id] at hle ⊢
      split at hle
      next hpos =>
        have hsame : digitsLength cs = digitsLength (cs ++ r) :=
          digitsLength_prompt cs r (Nat.le_of_succ_le_succ hle)
        rw [hsame]
      next hzero =>
        have hmono : digitsLength cs ≤ digitsLength (cs ++ r) := runLength_append_le _ _ _
        rw [if_neg hzero, if_neg (by omega)]
    · simp [fractionLength, hc]

theorem exponentLength_prompt : Prompt id exponentLength := by
  intro t r hle
  cases t with
  | nil => exact (Nat.le_zero.mp hle).symm
  | cons c cs =>
    simp only [exponentLength, List.cons_append, id] at hle ⊢
    split at hle
    next hmark =>
      have hsum := signLength_prompt.add digitsLength_prompt cs r
        (Nat.le_of_succ_le_succ (by simpa using hle))
      have hsign : signLength cs = signLength (cs ++ r) :=
        signLength_prompt cs r (by simp at hle; simp; omega)
      simp only [hsign] at hsum ⊢
      have hdigits : digitsLength (cs.drop (signLength (cs ++ r))) =
          digitsLength ((cs ++ r).drop (signLength (cs ++ r))) := by omega
      rw [hdigits]
    next hnone =>
      rw [if_neg hnone, if_neg]
      intro hmark
      refine hnone ?_
      simp only [Bool.and_eq_true, decide_eq_true_eq] at hmark ⊢
      refine ⟨hmark.1, Nat.lt_of_lt_of_le hmark.2 ?_⟩
      cases cs with
      | nil => simp [digitsLength, runLength] at hmark
      | cons d ds =>
        have hsame : signLength (d :: ds) = signLength (d :: ds ++ r) := rfl
        have hlength : signLength (d :: ds) ≤ (d :: ds).length := by
          simp only [signLength]
          split <;> simp
        rw [← hsame, List.drop_append_of_le_length hlength]
        exact runLength_append_le _ _ _

theorem digitsLength_drop_le (t : Text) (n : Nat) : digitsLength (t.drop n) ≤ t.length - n := by
  rw [← List.length_drop]
  exact runLength_le _ _

theorem signLength_le (t : Text) : signLength t ≤ t.length := by
  cases t with
  | nil => exact Nat.le_refl _
  | cons c cs =>
    simp only [signLength]
    split <;> simp

theorem fractionLength_le (t : Text) : fractionLength t ≤ t.length := by
  unfold fractionLength
  split
  next cs =>
    split
    · exact Nat.succ_le_succ (runLength_le _ cs)
    · exact Nat.zero_le _
  next => exact Nat.zero_le _

theorem exponentLength_le (t : Text) : exponentLength t ≤ t.length := by
  cases t with
  | nil => exact Nat.le_refl _
  | cons c cs =>
    have hsign := signLength_le cs
    have hdigits := digitsLength_drop_le cs (signLength cs)
    simp only [exponentLength]
    split
    · rw [List.length_cons]
      omega
    · exact Nat.zero_le _

/-- The length of a sign and digits. -/
def wholeLength (t : Text) : Nat := signLength t + digitsLength (t.drop (signLength t))

/-- The length of a fraction and an exponent. -/
def partLength (t : Text) : Nat := fractionLength t + exponentLength (t.drop (fractionLength t))

theorem wholeLength_le (t : Text) : wholeLength t ≤ t.length := by
  have hsign := signLength_le t
  have hdigits := digitsLength_drop_le t (signLength t)
  unfold wholeLength
  omega

theorem numberLength_eq (t : Text) :
    numberLength t = wholeLength t + partLength (t.drop (wholeLength t)) := by
  have hwhole := wholeLength_le t
  have hfraction := fractionLength_le (t.drop (wholeLength t))
  have hexponent := exponentLength_le
    ((t.drop (wholeLength t)).drop (fractionLength (t.drop (wholeLength t))))
  have hlength : numberLength t = (t.take (wholeLength t)).length +
      ((t.drop (wholeLength t)).take (fractionLength (t.drop (wholeLength t)))).length +
      (((t.drop (wholeLength t)).drop (fractionLength (t.drop (wholeLength t)))).take
        (exponentLength ((t.drop (wholeLength t)).drop
          (fractionLength (t.drop (wholeLength t)))))).length := rfl
  rw [hlength, List.length_take_of_le hwhole, List.length_take_of_le hfraction,
    List.length_take_of_le hexponent, partLength, Nat.add_assoc]

theorem numberLength_prompt : Prompt id numberLength := by
  have hparts : numberLength = fun t => wholeLength t + partLength (t.drop (wholeLength t)) :=
    funext numberLength_eq
  rw [hparts]
  exact (signLength_prompt.add digitsLength_prompt).add
    (fractionLength_prompt.add exponentLength_prompt)

/-- Where a number starts behind its sign. -/
def startsDigits : Text → Bool
  | '.' :: c :: _ => c.isDigit
  | c :: _ => c.isDigit
  | [] => false

theorem startsNumber_eq (t : Text) : startsNumber t = startsDigits (t.drop (signLength t)) := rfl

theorem startsDigits_cons_cons (c d : Char) (cs : Text) :
    startsDigits (c :: d :: cs) = if c = '.' then d.isDigit else c.isDigit := by
  by_cases hc : c = '.'
  · subst hc
    rfl
  · simp [startsDigits, hc]

theorem startsDigits_append {t : Text} (h : startsDigits t = true) (r : Text) :
    startsDigits (t ++ r) = true := by
  match t, r with
  | [], _ => cases h
  | t, [] => simpa using h
  | [c], d :: ds =>
    have hdigit : c.isDigit = true := by simpa [startsDigits] using h
    have hc : c ≠ '.' := by rintro rfl; revert hdigit; decide
    rw [List.cons_append, List.nil_append, startsDigits_cons_cons, if_neg hc]
    exact hdigit
  | c :: d :: cs, r =>
    rw [startsDigits_cons_cons] at h
    rwa [List.cons_append, List.cons_append, startsDigits_cons_cons]

theorem startsNumber_append {t : Text} (h : startsNumber t = true) (r : Text) :
    startsNumber (t ++ r) = true := by
  cases t with
  | nil => cases h
  | cons c cs =>
    rw [startsNumber_eq] at h ⊢
    have hsign : signLength (c :: cs ++ r) = signLength (c :: cs) := rfl
    rw [hsign, List.drop_append_of_le_length (signLength_le _)]
    exact startsDigits_append h r

theorem digitsLength_pos {c : Char} (hc : c.isDigit = true) (cs : Text) :
    0 < digitsLength (c :: cs) := by
  simp [digitsLength, runLength, hc]

/-- A point that counts counts together with the digit behind it. -/
theorem ne_point_of_length_le {c d : Char} {ds : Text} (h : startsDigits (c :: d :: ds) = true)
    (hle : digitsLength (c :: d :: ds) +
      fractionLength ((c :: d :: ds).drop (digitsLength (c :: d :: ds))) ≤ 1) : c ≠ '.' := by
  rintro rfl
  have hpos := digitsLength_pos (c := d) h ds
  have hzero : digitsLength ('.' :: d :: ds) = 0 := rfl
  rw [hzero, List.drop_zero, fractionLength, if_pos hpos] at hle
  omega

/-- Digits, or a point and digits, count for as much as is needed to tell them. -/
theorem startsDigits_of_append {t r : Text} (h : startsDigits (t ++ r) = true)
    (hle : digitsLength (t ++ r) + fractionLength ((t ++ r).drop (digitsLength (t ++ r))) ≤
      t.length) : startsDigits t = true := by
  cases t with
  | nil =>
    rw [List.nil_append] at h hle
    cases r with
    | nil => exact h
    | cons c cs =>
      have hdigit : c.isDigit = true := by
        cases cs with
        | nil => simpa [startsDigits] using h
        | cons d ds =>
          have hpoint : c ≠ '.' := ne_point_of_length_le h (Nat.le_trans hle (Nat.zero_le 1))
          rwa [startsDigits_cons_cons, if_neg hpoint] at h
      have hpos := digitsLength_pos hdigit cs
      rw [List.length_nil] at hle
      omega
  | cons c cs =>
    cases cs with
    | nil =>
      cases r with
      | nil => exact h
      | cons d ds =>
        rw [List.singleton_append] at h hle
        have hpoint : c ≠ '.' := ne_point_of_length_le h hle
        rw [startsDigits_cons_cons, if_neg hpoint] at h
        simpa [startsDigits, hpoint] using h
    | cons d ds =>
      rw [List.cons_append, List.cons_append, startsDigits_cons_cons] at h
      rwa [startsDigits_cons_cons]

theorem startsNumber_of_append {t r : Text} (h : startsNumber (t ++ r) = true)
    (hle : numberLength (t ++ r) ≤ t.length) : startsNumber t = true := by
  rw [numberLength_eq, wholeLength, partLength] at hle
  have hsign : signLength t = signLength (t ++ r) := signLength_prompt t r (by simp only [id]; omega)
  rw [← hsign, ← List.drop_drop, List.drop_append_of_le_length (signLength_le t)] at hle
  rw [startsNumber_eq, ← hsign, List.drop_append_of_le_length (signLength_le t)] at h
  refine startsDigits_of_append h ?_
  rw [List.length_drop]
  omega

theorem numberLength_le_numericLexeme (t : Text) : numberLength t ≤ (numericLexeme t).2 := by
  simp only [numericLexeme]
  split
  · exact Nat.le_succ _
  · split
    · exact Nat.le_add_right _ _
    · exact Nat.le_refl _

theorem numericLexeme_prompt : Prompt Prod.snd numericLexeme := by
  intro t r hle
  have hwithin := Nat.le_trans (numberLength_le_numericLexeme (t ++ r)) hle
  have hsame : numberLength t = numberLength (t ++ r) := numberLength_prompt t r hwithin
  have hdrop : (t ++ r).drop (numberLength t) = t.drop (numberLength t) ++ r :=
    List.drop_append_of_le_length (hsame ▸ hwithin)
  simp only [numericLexeme, ← hsame, hdrop] at hle ⊢
  have hlength : (t.drop (numberLength t)).length = t.length - numberLength t := List.length_drop
  generalize t.drop (numberLength t) = u at hle hlength ⊢
  by_cases hpercent : (u ++ r).head? = some '%'
  · rw [if_pos hpercent] at hle
    have hu : u ≠ [] := by
      rintro rfl
      simp only [List.length_nil] at hlength
      simp only at hle
      omega
    obtain ⟨c, cs, rfl⟩ := List.exists_cons_of_ne_nil hu
    have hpercent' : (c :: cs).head? = some '%' := hpercent
    rw [if_pos hpercent, if_pos hpercent']
  rw [if_neg hpercent] at hle
  have hnone : u.head? ≠ some '%' := fun h => hpercent (by simp [List.head?_append, h])
  rw [if_neg hpercent, if_neg hnone]
  by_cases hunit : startsName (u ++ r) = true
  · rw [if_pos hunit] at hle
    have hname : nameLength (u ++ r) ≤ u.length := by
      simp only at hle
      omega
    have hlength' : nameLength u = nameLength (u ++ r) := nameLength_prompt u r hname
    rw [if_pos hunit, if_pos (startsName_of_append hunit hname), hlength']
  · rw [if_neg hunit, if_neg fun h => hunit (startsName_append h r)]

theorem wildcardLength_prompt (digits : Nat) : Prompt id (wildcardLength digits) := by
  intro t r hle
  change runLength _ ((t ++ r).take (6 - digits)) ≤ t.length at hle
  change runLength _ (t.take (6 - digits)) = runLength _ ((t ++ r).take (6 - digits))
  rw [List.take_append] at hle ⊢
  refine runLength_prompt _ _ _ ?_
  have hmost := runLength_le (· = '?') (t.take (6 - digits) ++ r.take (6 - digits - t.length))
  rw [List.length_append, List.length_take, List.length_take] at hmost
  rw [List.length_take]
  change runLength _ _ ≤ _
  omega

theorem upperEndLength_prompt : Prompt id upperEndLength := by
  intro t r hle
  match t with
  | [] => exact (Nat.le_zero.mp hle).symm
  | c :: cs =>
    by_cases hc : c = '-'
    · subst hc
      simp only [upperEndLength, List.cons_append, id] at hle ⊢
      split at hle
      next hpos =>
        have hsame : hexLength cs = hexLength (cs ++ r) :=
          hexLength_prompt cs r (Nat.le_of_succ_le_succ hle)
        rw [hsame]
      next hzero =>
        have hsame : hexLength cs = hexLength (cs ++ r) :=
          hexLength_prompt cs r (Nat.le_trans (Nat.le_of_not_lt hzero) (Nat.zero_le _))
        rw [hsame]
    · simp [upperEndLength, hc]

/-- The length of a range of code points after the plus sign. -/
def rangeLength (t : Text) : Nat :=
  let wildcards := wildcardLength (hexLength t) (t.drop (hexLength t))
  hexLength t + if 0 < wildcards then wildcards else upperEndLength (t.drop (hexLength t))

/-- A range of code points has started after the plus sign. -/
def startsRange (t : Text) : Bool :=
  0 < hexLength t + wildcardLength (hexLength t) (t.drop (hexLength t))

theorem codePointsLength?_cons_cons (c d : Char) (cs : Text) : codePointsLength? (c :: d :: cs) =
    if d = '+' ∧ (c = 'u' ∨ c = 'U') ∧ startsRange cs = true then some (2 + rangeLength cs)
    else none := by
  by_cases hd : d = '+'
  · subst hd
    simp [codePointsLength?, startsRange, rangeLength, Nat.add_assoc]
  · simp [codePointsLength?, hd]

theorem startsRange_prompt {t r : Text}
    (hle : startsRange (t ++ r) = true → rangeLength (t ++ r) ≤ t.length) :
    startsRange t = startsRange (t ++ r) ∧
      (startsRange (t ++ r) = true → rangeLength t = rangeLength (t ++ r)) := by
  have hdigits : hexLength (t ++ r) ≤ t.length := by
    by_cases hstarts : startsRange (t ++ r) = true
    · exact Nat.le_trans (Nat.le_add_right _ _) (hle hstarts)
    · simp only [startsRange, decide_eq_true_eq] at hstarts
      omega
  have hsame : hexLength t = hexLength (t ++ r) := hexLength_prompt t r hdigits
  have hdrop : (t ++ r).drop (hexLength t) = t.drop (hexLength t) ++ r :=
    List.drop_append_of_le_length (hsame ▸ hdigits)
  have hlength : (t.drop (hexLength t)).length = t.length - hexLength t := List.length_drop
  simp only [startsRange, rangeLength, ← hsame, hdrop, decide_eq_true_eq] at hle hdigits ⊢
  generalize t.drop (hexLength t) = u at hle hlength ⊢
  have hwild : wildcardLength (hexLength t) u = wildcardLength (hexLength t) (u ++ r) := by
    refine wildcardLength_prompt _ u r ?_
    change wildcardLength (hexLength t) (u ++ r) ≤ _
    by_cases hpos : 0 < wildcardLength (hexLength t) (u ++ r)
    · have hall := hle (by omega)
      rw [if_pos hpos] at hall
      omega
    · omega
  rw [hwild]
  refine ⟨rfl, fun hstarts => ?_⟩
  have hall := hle hstarts
  split at hall
  next hpos => rw [if_pos hpos, if_pos hpos]
  next hzero =>
    have hupper : upperEndLength u = upperEndLength (u ++ r) :=
      upperEndLength_prompt u r (by simp only [id]; omega)
    rw [if_neg hzero, if_neg hzero, hupper]

/-- A range of code points that ends within a text is all there; where there is none there is none
in less of the text. -/
theorem codePointsLength?_prompt {t r : Text}
    (hle : ∀ n ∈ codePointsLength? (t ++ r), n ≤ t.length) :
    codePointsLength? t = codePointsLength? (t ++ r) := by
  have hshort : t.length < 2 → codePointsLength? (t ++ r) = none := by
    intro hlt
    cases h : codePointsLength? (t ++ r) with
    | none => rfl
    | some n =>
      have hn := hle n h
      obtain ⟨c, d, cs, heq⟩ : ∃ c d cs, t ++ r = c :: d :: cs := by
        match htext : t ++ r with
        | [] => rw [htext] at h; cases h
        | [c] => rw [htext] at h; cases h
        | c :: d :: cs => exact ⟨c, d, cs, rfl⟩
      rw [heq, codePointsLength?_cons_cons] at h
      split at h
      · cases h
        omega
      · cases h
  match t with
  | [] => rw [hshort (by simp)]; rfl
  | [c] => rw [hshort (by simp)]; rfl
  | c :: d :: cs =>
    rw [List.cons_append, List.cons_append, codePointsLength?_cons_cons] at hle ⊢
    rw [codePointsLength?_cons_cons]
    by_cases hplus : d = '+' ∧ (c = 'u' ∨ c = 'U')
    · have hrange := startsRange_prompt (t := cs) (r := r) fun hstarts => by
        have hall := hle (2 + rangeLength (cs ++ r)) (by
          rw [if_pos ⟨hplus.1, hplus.2, hstarts⟩]
          rfl)
        simp only [List.length_cons] at hall
        omega
      rw [hrange.1]
      split
      next hstarts => rw [hrange.2 hstarts.2.2]
      next => rfl
    · rw [if_neg fun h => hplus ⟨h.1, h.2.1⟩, if_neg fun h => hplus ⟨h.1, h.2.1⟩]

end CssTree
