import CssTree.Proofs.Token.Cut

namespace CssTree

/-- A scanner that stops within a text has not looked behind it; `size` is how far it went. -/
def Prompt {α : Type} (size : α → Nat) (f : Text → α) : Prop :=
  ∀ t r, size (f (t ++ r)) ≤ t.length → f t = f (t ++ r)

namespace Prompt

variable {α : Type} {size : α → Nat} {f : Text → Nat}

/-- A scanner that goes on where another one stopped. -/
theorem add {g : Text → Nat} (hf : Prompt id f) (hg : Prompt id g) :
    Prompt id fun t => f t + g (t.drop (f t)) := by
  intro t r hle
  change f (t ++ r) + g ((t ++ r).drop (f (t ++ r))) ≤ t.length at hle
  have hfirst : f t = f (t ++ r) := hf t r (by change f (t ++ r) ≤ _; omega)
  have hdrop : (t ++ r).drop (f (t ++ r)) = t.drop (f t) ++ r := by
    rw [hfirst, List.drop_append_of_le_length (by omega)]
  have hsecond : g (t.drop (f t)) = g (t.drop (f t) ++ r) := by
    refine hg _ r ?_
    rw [hdrop] at hle
    change g (t.drop (f t) ++ r) ≤ _
    rw [List.length_drop]
    omega
  change f t + g (t.drop (f t)) = f (t ++ r) + g ((t ++ r).drop (f (t ++ r)))
  rw [hdrop, ← hsecond, hfirst]

/-- The same for a scanner that tells a kind as well. -/
theorem shift {g : Text → TokenKind × Nat} (hf : Prompt id f) (hg : Prompt Prod.snd g) :
    Prompt Prod.snd fun t => (g (t.drop (f t))).map id (· + f t) := by
  intro t r hle
  change (g ((t ++ r).drop (f (t ++ r)))).2 + f (t ++ r) ≤ t.length at hle
  have hfirst : f t = f (t ++ r) := hf t r (by change f (t ++ r) ≤ _; omega)
  have hdrop : (t ++ r).drop (f (t ++ r)) = t.drop (f t) ++ r := by
    rw [hfirst, List.drop_append_of_le_length (by omega)]
  have hsecond : g (t.drop (f t)) = g (t.drop (f t) ++ r) := by
    refine hg _ r ?_
    rw [hdrop] at hle
    rw [List.length_drop]
    omega
  change (g (t.drop (f t))).map id (· + f t) = (g ((t ++ r).drop (f (t ++ r)))).map id _
  rw [hdrop, ← hsecond, hfirst]

end Prompt

theorem runLength_append_le (p : Char → Bool) (t r : Text) :
    runLength p t ≤ runLength p (t ++ r) := by
  induction t with
  | nil => simp [runLength]
  | cons c cs ih =>
    simp only [runLength, List.cons_append, List.takeWhile_cons] at ih ⊢
    split
    · simpa using ih
    · exact Nat.le_refl _

theorem runLength_prompt (p : Char → Bool) : Prompt id (runLength p) := by
  intro t r hle
  refine Nat.le_antisymm (runLength_append_le p t r) ?_
  induction t with
  | nil => exact hle
  | cons c cs ih =>
    simp only [runLength, List.cons_append, List.takeWhile_cons, id] at ih hle ⊢
    split at hle
    next hc =>
      rw [if_pos hc, if_pos hc]
      exact Nat.succ_le_succ (ih (Nat.le_of_succ_le_succ hle))
    next hc =>
      rw [if_neg hc, if_neg hc]

theorem hexLength_prompt : Prompt id hexLength := by
  intro t r hle
  change runLength isHex ((t ++ r).take 6) ≤ t.length at hle
  change runLength isHex (t.take 6) = runLength isHex ((t ++ r).take 6)
  rw [List.take_append] at hle ⊢
  refine runLength_prompt isHex _ _ ?_
  rw [List.length_take]
  have hsix := runLength_le isHex (t.take 6 ++ r.take (6 - t.length))
  rw [List.length_append, List.length_take, List.length_take] at hsix
  change runLength isHex _ ≤ _
  omega

theorem newlineLength_cons_cons (c d : Char) (cs : Text) : newlineLength (c :: d :: cs) =
    if c = '\r' ∧ d = '\n' then 2 else if isNewline c then 1 else 0 := by
  by_cases hbreak : c = '\r' ∧ d = '\n'
  · obtain ⟨rfl, rfl⟩ := hbreak
    rfl
  · rw [if_neg hbreak]
    unfold newlineLength
    split <;> simp_all

theorem newlineLength_prompt : Prompt id newlineLength := by
  intro t r hle
  match t, r with
  | [], _ => exact (Nat.le_zero.mp hle).symm
  | c :: d :: cs, r => simp [newlineLength_cons_cons]
  | [c], [] => rfl
  | [c], d :: ds =>
    simp only [List.cons_append, List.nil_append, id, newlineLength_cons_cons] at hle ⊢
    split at hle
    · simp at hle
    next hbreak =>
      rw [if_neg hbreak]
      simp [newlineLength]

theorem escapeBlankLength_prompt : Prompt id escapeBlankLength := by
  intro t r hle
  cases t with
  | nil => exact (Nat.le_zero.mp hle).symm
  | cons c cs =>
    simp only [escapeBlankLength, List.cons_append, id] at hle ⊢
    split at hle
    next hc =>
      rw [if_pos hc, if_pos hc]
      exact newlineLength_prompt (c :: cs) r hle
    next hc => rw [if_neg hc, if_neg hc]

theorem escapeLength_prompt : Prompt id escapeLength := by
  intro t r hle
  cases t with
  | nil => exact (Nat.le_zero.mp hle).symm
  | cons c cs =>
    simp only [escapeLength, List.cons_append, id] at hle ⊢
    split at hle
    next hc =>
      rw [if_pos hc, if_pos hc]
      exact hexLength_prompt.add escapeBlankLength_prompt (c :: cs) r hle
    next hc => rw [if_neg hc, if_neg hc]

theorem newlineLength_le (t : Text) : newlineLength t ≤ t.length := by
  unfold newlineLength
  split
  · simp
  · split <;> simp
  · simp

theorem escapeBlankLength_le (t : Text) : escapeBlankLength t ≤ t.length := by
  cases t with
  | nil => simp [escapeBlankLength]
  | cons c cs =>
    simp only [escapeBlankLength]
    split
    · exact newlineLength_le _
    · split <;> simp

theorem escapeLength_le (t : Text) : escapeLength t ≤ t.length := by
  cases t with
  | nil => simp [escapeLength]
  | cons c cs =>
    simp only [escapeLength]
    split
    · have hhex : hexLength (c :: cs) ≤ (c :: cs).length :=
        Nat.le_trans (runLength_le _ _) (List.length_take_le' 6 _)
      have hblank := escapeBlankLength_le ((c :: cs).drop (hexLength (c :: cs)))
      rw [List.length_drop] at hblank
      omega
    · simp

theorem startsEscape_cons_cons (c d : Char) (cs : Text) :
    startsEscape (c :: d :: cs) = (c = '\\' && !isNewline d) := by
  by_cases hc : c = '\\' <;> simp [startsEscape, hc]

theorem startsEscape_append {t : Text} (h : startsEscape t = true) (r : Text) :
    startsEscape (t ++ r) = true := by
  match t with
  | [] => cases h
  | [c] => simp [startsEscape] at h
  | c :: d :: cs =>
    rw [startsEscape_cons_cons] at h
    rwa [List.cons_append, List.cons_append, startsEscape_cons_cons]

/-- An escape is one as soon as its backslash and the character after it are there. -/
theorem startsEscape_of_append {c : Char} {cs r : Text} (hne : cs ≠ [])
    (h : startsEscape (c :: cs ++ r) = true) : startsEscape (c :: cs) = true := by
  obtain ⟨d, ds, rfl⟩ := List.exists_cons_of_ne_nil hne
  rw [List.cons_append, List.cons_append, startsEscape_cons_cons] at h
  rwa [startsEscape_cons_cons]

/-- An escape that a scanner passes lies within the text where the scanner stops. -/
theorem escapeLength_of_passed {c : Char} {cs r : Text} {n : Nat}
    (hstarts : startsEscape (c :: (cs ++ r)) = true)
    (hpassed : min (escapeLength (cs ++ r)) (cs ++ r).length ≤ n) (hn : n ≤ cs.length) :
    escapeLength cs = escapeLength (cs ++ r) ∧ startsEscape (c :: cs) = true := by
  rw [Nat.min_eq_left (escapeLength_le _)] at hpassed
  have hsame : escapeLength cs = escapeLength (cs ++ r) :=
    escapeLength_prompt cs r (Nat.le_trans hpassed hn)
  refine ⟨hsame, startsEscape_of_append ?_ hstarts⟩
  rintro rfl
  cases r with
  | nil => simp [startsEscape] at hstarts
  | cons d ds =>
    have hpos := @escapeLength_pos d ds
    rw [← List.nil_append (d :: ds), ← hsame] at hpos
    simp [escapeLength] at hpos

theorem le_nameLengthFrom (skip : Nat) (t : Text) : min skip t.length ≤ nameLengthFrom skip t := by
  induction t generalizing skip with
  | nil => simp
  | cons c cs ih =>
    cases skip with
    | zero => simp
    | succ skip =>
      have hrest := ih skip
      simp only [nameLengthFrom, List.length_cons]
      omega

theorem nameLengthFrom_prompt (skip : Nat) : Prompt id (nameLengthFrom skip) := by
  intro t r hle
  induction t generalizing skip with
  | nil => simpa [nameLengthFrom] using (Nat.le_zero.mp hle).symm
  | cons c cs ih =>
    cases skip with
    | succ skip => exact congrArg (· + 1) (ih skip (Nat.le_of_succ_le_succ hle))
    | zero =>
      simp only [nameLengthFrom, List.cons_append, id] at hle ⊢
      by_cases hc : isNameChar c = true
      · rw [if_pos hc] at hle
        rw [if_pos hc, if_pos hc, ih 0 (Nat.le_of_succ_le_succ hle)]
      rw [if_neg hc] at hle
      rw [if_neg hc, if_neg hc]
      by_cases hescape : startsEscape (c :: (cs ++ r)) = true
      · rw [if_pos hescape] at hle
        have hrest := Nat.le_of_succ_le_succ hle
        obtain ⟨hsame, hstarts⟩ := escapeLength_of_passed hescape (le_nameLengthFrom _ _) hrest
        rw [if_pos hescape, if_pos hstarts, hsame, ih _ hrest]
      · have hnone : startsEscape (c :: cs) ≠ true := fun h => hescape (startsEscape_append h r)
        rw [if_neg hescape, if_neg hnone]

theorem nameLength_prompt : Prompt id nameLength := nameLengthFrom_prompt 0

theorem startsName_append {t : Text} (h : startsName t = true) (r : Text) :
    startsName (t ++ r) = true := by
  match t with
  | [] => cases h
  | [c] =>
    by_cases hdash : c = '-'
    · subst hdash
      cases h
    · simp only [startsName, List.cons_append, List.nil_append] at h ⊢
      split at h
      · simp [startsEscape] at h
      next hc => rwa [if_neg hc]
  | c :: d :: cs =>
    by_cases hdash : c = '-'
    · subst hdash
      by_cases hd : d = '\\'
      · subst hd
        exact startsEscape_append (t := '\\' :: cs) h r
      · simpa [startsName, hd] using h
    · simpa [startsName, hdash, startsEscape_cons_cons] using h

theorem nameLength_escape {t : Text} (h : startsEscape t = true) : 2 ≤ nameLength t := by
  match t with
  | [] => cases h
  | [c] => simp [startsEscape] at h
  | c :: d :: cs =>
    have hslash : c = '\\' := by
      rw [startsEscape_cons_cons, Bool.and_eq_true] at h
      exact of_decide_eq_true h.1
    subst hslash
    have hpos := @escapeLength_pos d cs
    have hpassed := le_nameLengthFrom (escapeLength (d :: cs)) (d :: cs)
    rw [Nat.min_eq_left (escapeLength_le _)] at hpassed
    have hname : isNameChar '\\' = false := by decide
    rw [nameLength, nameLengthFrom, hname, if_neg Bool.false_ne_true, if_pos h]
    omega

theorem nameLength_cons {c : Char} (h : isNameChar c = true) (cs : Text) :
    nameLength (c :: cs) = nameLength cs + 1 := by
  rw [nameLength, nameLengthFrom, if_pos h, nameLength]

theorem isNameChar_of_start {c : Char} (h : isNameStart c = true) : isNameChar c = true := by
  simp [isNameChar, h]

theorem nameLength_pos {t : Text} (h : startsName t = true) : 0 < nameLength t := by
  match t with
  | [] => cases h
  | c :: cs =>
    by_cases hdash : c = '-'
    · subst hdash
      rw [nameLength_cons (by decide)]
      exact Nat.zero_lt_succ _
    by_cases hslash : c = '\\'
    · subst hslash
      exact Nat.le_of_succ_le (nameLength_escape h)
    · have hstart : isNameStart c = true := by simpa [startsName, hdash, hslash] using h
      rw [nameLength_cons (isNameChar_of_start hstart)]
      exact Nat.zero_lt_succ _

/-- A name has started within a text if it ends there. -/
theorem startsName_of_append {t r : Text} (h : startsName (t ++ r) = true)
    (hle : nameLength (t ++ r) ≤ t.length) : startsName t = true := by
  match t with
  | [] => exact absurd hle (Nat.not_le.mpr (nameLength_pos h))
  | c :: cs =>
    by_cases hslash : c = '\\'
    · subst hslash
      have htwo := Nat.le_trans (nameLength_escape h) hle
      exact startsEscape_of_append (by rintro rfl; simp at htwo) h
    by_cases hdash : c = '-'
    · subst hdash
      rw [List.cons_append, nameLength_cons (by decide), List.length_cons] at hle
      have hrest : nameLength (cs ++ r) ≤ cs.length := Nat.le_of_succ_le_succ hle
      -- Behind the hyphen stands an escape, another hyphen or the start of a name.
      match cs with
      | [] =>
        match r with
        | [] => exact h
        | d :: ds =>
          have hpos : 0 < nameLength (d :: ds) := by
            by_cases hd : d = '\\'
            · subst hd
              exact Nat.le_of_succ_le (nameLength_escape h)
            · have hchar : isNameChar d = true := by
                simp [startsName] at h
                rcases h with h | h
                · exact isNameChar_of_start h
                · simp [isNameChar, h]
              rw [nameLength_cons hchar]
              exact Nat.zero_lt_succ _
          exact absurd hrest (Nat.not_le.mpr hpos)
      | d :: ds =>
        by_cases hd : d = '\\'
        · subst hd
          have htwo := Nat.le_trans (nameLength_escape h) hrest
          exact startsEscape_of_append (c := '\\') (by rintro rfl; simp at htwo) h
        · simpa [startsName, hd] using h
    · simpa [startsName, hdash, hslash] using h

end CssTree
