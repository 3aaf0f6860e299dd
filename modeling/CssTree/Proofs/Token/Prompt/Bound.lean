import CssTree.Proofs.Token.Prompt.Lexeme

namespace CssTree

theorem numberLength_le (t : Text) : numberLength t ≤ t.length := by
  have hwhole := wholeLength_le t
  have hfraction := fractionLength_le (t.drop (wholeLength t))
  have hexponent := exponentLength_le
    ((t.drop (wholeLength t)).drop (fractionLength (t.drop (wholeLength t))))
  rw [List.length_drop] at hfraction hexponent
  rw [List.length_drop] at hexponent
  rw [numberLength_eq, partLength]
  omega

theorem numericLexeme_le (t : Text) : (numericLexeme t).2 ≤ t.length := by
  have hnumber := numberLength_le t
  have hdrop : (t.drop (numberLength t)).length = t.length - numberLength t := List.length_drop
  simp only [numericLexeme]
  split
  next hpercent =>
    obtain ⟨cs, hcs⟩ := List.head?_eq_some_iff.mp hpercent
    rw [hcs, List.length_cons] at hdrop
    simp only
    omega
  next =>
    split
    next =>
      have hname : nameLength (t.drop (numberLength t)) ≤ _ := nameLengthFrom_le 0 _
      simp only
      omega
    next => exact hnumber

theorem hexLength_le_length (t : Text) : hexLength t ≤ t.length :=
  Nat.le_trans (runLength_le _ _) (List.length_take_le' 6 t)

theorem wildcardLength_le (digits : Nat) (t : Text) : wildcardLength digits t ≤ t.length :=
  Nat.le_trans (runLength_le _ _) (List.length_take_le' _ t)

theorem upperEndLength_le (t : Text) : upperEndLength t ≤ t.length := by
  unfold upperEndLength
  split
  next cs =>
    split
    · exact Nat.succ_le_succ (hexLength_le_length cs)
    · exact Nat.zero_le _
  next => exact Nat.zero_le _

theorem rangeLength_le (t : Text) : rangeLength t ≤ t.length := by
  have hdigits := hexLength_le_length t
  have hwild := wildcardLength_le (hexLength t) (t.drop (hexLength t))
  have hupper := upperEndLength_le (t.drop (hexLength t))
  rw [List.length_drop] at hwild hupper
  unfold rangeLength
  simp only
  split <;> omega

theorem codePointsLength?_le {t : Text} {n : Nat} (h : codePointsLength? t = some n) :
    n ≤ t.length := by
  match t with
  | [] => cases h
  | [c] => cases h
  | c :: d :: cs =>
    have hrange := rangeLength_le cs
    rw [codePointsLength?_cons_cons] at h
    split at h
    · obtain rfl := Option.some.inj h
      rw [List.length_cons, List.length_cons]
      omega
    · cases h

theorem stringTailFrom_le (quote : Char) (skip : Nat) (t : Text) :
    (stringTailFrom quote skip t).2 ≤ t.length := by
  induction t generalizing skip with
  | nil => simp [stringTailFrom]
  | cons c cs ih =>
    cases skip with
    | succ skip => exact Nat.succ_le_succ (ih skip)
    | zero =>
      simp only [stringTailFrom]
      split
      · exact Nat.succ_le_succ (Nat.zero_le _)
      · split
        · exact Nat.zero_le _
        · split
          · exact Nat.succ_le_succ (ih _)
          · exact Nat.succ_le_succ (ih 0)

theorem badUrlLengthFrom_le (skip : Nat) (t : Text) : badUrlLengthFrom skip t ≤ t.length := by
  induction t generalizing skip with
  | nil => simp [badUrlLengthFrom]
  | cons c cs ih =>
    cases skip with
    | succ skip => exact Nat.succ_le_succ (ih skip)
    | zero =>
      simp only [badUrlLengthFrom]
      split
      · exact Nat.succ_le_succ (Nat.zero_le _)
      · split
        · exact Nat.succ_le_succ (ih _)
        · exact Nat.succ_le_succ (ih 0)

theorem urlEnd_le (t : Text) : (urlEnd t).2 ≤ t.length := by
  unfold urlEnd
  split
  · exact Nat.le_refl _
  · split
    · exact Nat.succ_le_succ (Nat.zero_le _)
    · exact badUrlLengthFrom_le 0 _

theorem urlTailFrom_le (skip : Nat) (t : Text) : (urlTailFrom skip t).2 ≤ t.length := by
  induction t generalizing skip with
  | nil => simp [urlTailFrom]
  | cons c cs ih =>
    cases skip with
    | succ skip => exact Nat.succ_le_succ (ih skip)
    | zero =>
      have hbad : badUrlLength (c :: cs) ≤ (c :: cs).length := badUrlLengthFrom_le 0 _
      have hblanks : blankLength (c :: cs) ≤ (c :: cs).length := runLength_le _ _
      have hend := urlEnd_le ((c :: cs).drop (blankLength (c :: cs)))
      rw [List.length_drop] at hend
      simp only [urlTailFrom]
      split
      · exact Nat.succ_le_succ (Nat.zero_le _)
      · split
        · rw [Prod.map_snd]
          omega
        · split
          · exact hbad
          · split
            · split
              · exact Nat.succ_le_succ (ih _)
              · exact hbad
            · exact Nat.succ_le_succ (ih 0)

theorem urlTail_le (t : Text) : (urlTail t).2 ≤ t.length := by
  have hblanks : blankLength t ≤ t.length := runLength_le _ _
  have htail := urlTailFrom_le 0 (t.drop (blankLength t))
  rw [List.length_drop] at htail
  simp only [urlTail, Prod.map_snd]
  omega

theorem openedLexeme_le (name t : Text) : (openedLexeme name t).2 ≤ t.length := by
  unfold openedLexeme
  split
  next body =>
    split
    · exact Nat.succ_le_succ (urlTail_le body)
    · exact Nat.succ_le_succ (Nat.zero_le _)
  next => exact Nat.zero_le _

theorem nameLexeme_le (t : Text) : (nameLexeme t).2 ≤ t.length := by
  cases h : codePointsLength? t with
  | some n =>
    simp only [nameLexeme, h]
    exact codePointsLength?_le h
  | none =>
    have hname : nameLength t ≤ t.length := nameLengthFrom_le 0 t
    have hopened := openedLexeme_le (t.take (nameLength t)) (t.drop (nameLength t))
    rw [List.length_drop] at hopened
    rw [nameLexeme_of_none h, Prod.map_snd]
    omega

theorem commentLength_le (t : Text) : commentLength t ≤ t.length := by
  have hsplit := congrArg List.length (splitComment_append t)
  rw [List.length_append] at hsplit
  unfold commentLength
  omega

theorem scannedLexeme_le (c : Char) (cs : Text) : (scannedLexeme c cs).2 ≤ cs.length + 1 := by
  have hname : nameLength cs ≤ cs.length := nameLengthFrom_le 0 cs
  unfold scannedLexeme
  split
  · exact runLength_le _ (c :: cs)
  · split
    · exact Nat.succ_le_succ (stringTailFrom_le c 0 cs)
    · split
      · exact numericLexeme_le (c :: cs)
      · split
        · exact nameLexeme_le (c :: cs)
        · split
          · exact Nat.succ_le_succ hname
          · split
            · exact Nat.succ_le_succ hname
            · exact Nat.succ_le_succ (Nat.zero_le _)

theorem firstLexeme_le (t : Text) : (firstLexeme t).2 ≤ t.length := by
  match t with
  | [] => exact Nat.le_refl _
  | [c] =>
    simp only [firstLexeme]
    cases punctuation? c with
    | some kind => exact Nat.le_refl _
    | none => exact scannedLexeme_le c []
  | c :: d :: cs =>
    have hcomment := commentLength_le cs
    rw [firstLexeme_cons_cons]
    split
    · simp only [List.length_cons]
      omega
    · split
      · exact Nat.succ_le_succ (Nat.zero_le _)
      · exact Nat.succ_le_succ (Nat.succ_le_succ (Nat.zero_le _))
      · exact scannedLexeme_le c (d :: cs)

end CssTree
