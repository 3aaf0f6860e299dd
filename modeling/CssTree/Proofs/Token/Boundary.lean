import CssTree.Proofs.Text.Advance
import CssTree.Token.Lexeme
import Mathlib.Data.List.TakeWhile

namespace CssTree

/-- Behind `before`, a text may be cut after `n` characters. -/
def Clean (before t : Text) (n : Nat) : Prop := ¬Fuse (before ++ t.take n) (t.drop n)

instance (before t : Text) (n : Nat) : Decidable (Clean before t n) :=
  inferInstanceAs (Decidable ¬Fuse (before ++ t.take n) (t.drop n))

theorem clean_of_drop {before t : Text} {n : Nat} (h : (t.drop n).head? ≠ some '\n') :
    Clean before t n := fun hf => h hf.2

theorem clean_of_take {before t : Text} {n : Nat} {c : Char}
    (h : (before ++ t.take n).getLast? = some c) (hc : c ≠ '\r') : Clean before t n := by
  intro hf
  have := hf.1
  rw [h] at this
  exact hc (Option.some.inj this)

theorem clean_cons {before cs : Text} {c : Char} {n : Nat} :
    Clean before (c :: cs) (n + 1) ↔ Clean (before ++ [c]) cs n := by
  simp [Clean]

theorem clean_zero {before t : Text} : Clean before t 0 ↔ ¬Fuse before t := by simp [Clean]

theorem clean_nil {before : Text} {n : Nat} : Clean before [] n := by simp [Clean]

theorem clean_add {before t : Text} {m n : Nat} :
    Clean before t (m + n) ↔ Clean (before ++ t.take m) (t.drop m) n := by
  simp [Clean, List.take_add, List.append_assoc, List.drop_drop]

theorem not_fuse_of_ne {c : Char} {t : Text} (before : Text) (hc : c ≠ '\r') :
    ¬Fuse (before ++ [c]) t := fun hf => hc (by simpa using hf.1)

theorem ne_cr_of_not_newline {c : Char} (h : isNewline c = false) : c ≠ '\r' := by
  rintro rfl
  simp [isNewline] at h

theorem ne_cr_of_not_blank {c : Char} (h : isBlank c = false) : c ≠ '\r' :=
  ne_cr_of_not_newline (by simp only [isBlank, Bool.or_eq_false_iff] at h; exact h.2)

theorem drop_runLength (p : Char → Bool) (t : Text) : t.drop (runLength p t) = t.dropWhile p := by
  have h : t.drop (runLength p t) = (t.takeWhile p ++ t.dropWhile p).drop (runLength p t) := by
    rw [List.takeWhile_append_dropWhile]
  rw [h, runLength, List.drop_left]

theorem clean_blanks (before t : Text) : Clean before t (blankLength t) := by
  apply clean_of_drop
  rw [blankLength, drop_runLength]
  intro h
  have hblank := List.head?_dropWhile_not isBlank t
  rw [h] at hblank
  simp [isBlank, isNewline] at hblank

theorem clean_newline {before t : Text} (hb : ¬Fuse before t) :
    Clean before t (newlineLength t) := by
  unfold newlineLength
  split
  next cs => exact clean_of_take (c := '\n') (by simp) (by simp)
  next c cs hpair =>
    split
    next hc =>
      rw [clean_cons, clean_zero]
      intro hf
      obtain ⟨ds, rfl⟩ := List.head?_eq_some_iff.mp hf.2
      exact hpair ds (by simpa using hf.1) rfl
    next => exact clean_zero.mpr hb
  next => exact clean_nil

theorem clean_escapeBlank {before t : Text} (hb : ¬Fuse before t) :
    Clean before t (escapeBlankLength t) := by
  unfold escapeBlankLength
  split
  next c cs =>
    split
    next => exact clean_newline hb
    next hc =>
      split
      next => exact clean_cons.mpr (clean_zero.mpr (not_fuse_of_ne before
          (ne_cr_of_not_newline (by simpa using hc))))
      next => exact clean_zero.mpr hb
  next => exact clean_nil

/-- No carriage return stands among the first `n` characters. -/
def NoReturn (t : Text) (n : Nat) : Prop := ∀ c ∈ t.take n, c ≠ '\r'

theorem noReturn_zero (t : Text) : NoReturn t 0 := by simp [NoReturn]

theorem noReturn_succ {c : Char} {cs : Text} {n : Nat} (hc : c ≠ '\r') (h : NoReturn cs n) :
    NoReturn (c :: cs) (n + 1) := by
  intro d hd
  rcases List.mem_cons.mp hd with rfl | hd
  · exact hc
  · exact h d hd

theorem noReturn_add {t : Text} {m n : Nat} (hm : NoReturn t m) (hn : NoReturn (t.drop m) n) :
    NoReturn t (m + n) := by
  intro c hc
  rw [List.take_add] at hc
  rcases List.mem_append.mp hc with hc | hc
  · exact hm c hc
  · exact hn c hc

theorem noReturn_run {p : Char → Bool} (hp : p '\r' = false) (t : Text) :
    NoReturn t (runLength p t) := by
  intro c hc
  rw [take_runLength] at hc
  rintro rfl
  rw [List.mem_takeWhile_imp hc] at hp
  simp at hp

theorem noReturn_take {t : Text} {m n : Nat} (h : NoReturn (t.take m) n) (hn : n ≤ m) :
    NoReturn t n := by
  intro c hc
  exact h c (by rwa [List.take_take, Nat.min_eq_left hn])

theorem NoReturn.clean {before t : Text} {n : Nat} (h : NoReturn t n) (hb : ¬Fuse before t) :
    Clean before t n := by
  rcases List.eq_nil_or_concat (t.take n) with hnil | ⟨ts, c, hc⟩
  · rw [Clean, hnil, List.append_nil]
    rcases List.take_eq_nil_iff.mp hnil with rfl | rfl
    · simpa using hb
    · simp
  · rw [List.concat_eq_append] at hc
    exact clean_of_take (c := c) (by simp [hc]) (h c (by simp [hc]))

theorem noReturn_hex (t : Text) : NoReturn t (hexLength t) :=
  noReturn_take (noReturn_run (by decide) _) (hexLength_le t)

theorem clean_escape {before t : Text} (hb : ¬Fuse before t)
    (hd : ∀ d ds, t = d :: ds → isNewline d = false) : Clean before t (escapeLength t) := by
  unfold escapeLength
  split
  next => exact clean_nil
  next c cs =>
    split
    next =>
      rw [clean_add]
      exact clean_escapeBlank ((noReturn_hex _).clean hb)
    next => exact clean_cons.mpr (clean_zero.mpr (not_fuse_of_ne before
        (ne_cr_of_not_newline (hd c cs rfl))))

theorem startsEscape_cons {c : Char} {cs : Text} (h : startsEscape (c :: cs) = true) :
    c = '\\' ∧ ∀ d ds, cs = d :: ds → isNewline d = false := by
  unfold startsEscape at h
  split at h
  next d ds heq =>
    obtain ⟨rfl, rfl⟩ := List.cons.inj heq
    refine ⟨rfl, fun d' ds' heq' => ?_⟩
    obtain ⟨rfl, rfl⟩ := List.cons.inj heq'
    simpa using h
  next => simp at h

theorem clean_name {before t : Text} {skip : Nat} (h : Clean before t skip) :
    Clean before t (nameLengthFrom skip t) := by
  induction t generalizing before skip with
  | nil => exact clean_nil
  | cons c cs ih =>
    cases skip with
    | succ skip => exact clean_cons.mpr (ih (clean_cons.mp h))
    | zero =>
      unfold nameLengthFrom
      split
      next hc =>
        have hcr : c ≠ '\r' := by rintro rfl; simp [isNameChar, isNameStart] at hc
        exact clean_cons.mpr (ih (clean_zero.mpr (not_fuse_of_ne before hcr)))
      next =>
        split
        next hc =>
          obtain ⟨rfl, hd⟩ := startsEscape_cons hc
          exact clean_cons.mpr (ih (clean_escape (not_fuse_of_ne before (by simp)) hd))
        next => exact h

theorem clean_string {quote : Char} (hq : quote ≠ '\r') {before t : Text} {skip : Nat}
    (h : Clean before t skip) : Clean before t (stringTailFrom quote skip t).2 := by
  induction t generalizing before skip with
  | nil => exact clean_nil
  | cons c cs ih =>
    cases skip with
    | succ skip => exact clean_cons.mpr (ih (clean_cons.mp h))
    | zero =>
      unfold stringTailFrom
      split
      next hc => exact clean_cons.mpr (clean_zero.mpr (not_fuse_of_ne before (hc ▸ hq)))
      next =>
        split
        next => exact h
        next hn =>
          have hcr := ne_cr_of_not_newline (by simpa using hn)
          split
          next =>
            refine clean_cons.mpr (ih ?_)
            have hb : ¬Fuse (before ++ [c]) cs := not_fuse_of_ne before hcr
            split
            next => exact clean_newline hb
            next hz =>
              refine clean_escape hb fun d ds heq => ?_
              subst heq
              by_contra hd
              apply hz
              unfold newlineLength
              split <;> simp_all
          next => exact clean_cons.mpr (ih (clean_zero.mpr (not_fuse_of_ne before hcr)))

/-- A bad address stops behind its closing parenthesis or with the text. -/
theorem badUrl_stop (skip : Nat) (t : Text) :
    t.drop (badUrlLengthFrom skip t) = [] ∨
      (t.take (badUrlLengthFrom skip t)).getLast? = some ')' := by
  have more : ∀ {c : Char} {cs : Text} {n : Nat},
      (cs.drop n = [] ∨ (cs.take n).getLast? = some ')') →
      ((c :: cs).drop (n + 1) = [] ∨ ((c :: cs).take (n + 1)).getLast? = some ')') := by
    intro c cs n h
    rcases h with h | h
    · exact Or.inl h
    · refine Or.inr ?_
      rw [List.take_succ_cons, List.getLast?_cons, h]
      rfl
  induction t generalizing skip with
  | nil => simp
  | cons c cs ih =>
    cases skip with
    | succ skip => exact more (ih skip)
    | zero =>
      unfold badUrlLengthFrom
      split
      next hc => exact Or.inr (by simp [hc])
      next => split <;> exact more (ih _)

theorem clean_badUrl (before t : Text) : Clean before t (badUrlLength t) := by
  rcases badUrl_stop 0 t with h | h
  · exact clean_of_drop (by simp [badUrlLength, h])
  · exact clean_of_take (c := ')') (by simp [badUrlLength, List.getLast?_append, h]) (by simp)

theorem clean_urlEnd {before t : Text} (hb : ¬Fuse before t) : Clean before t (urlEnd t).2 := by
  unfold urlEnd
  split
  next => exact clean_nil
  next c cs =>
    split
    next hc => exact clean_cons.mpr (clean_zero.mpr (not_fuse_of_ne before (by simp [hc])))
    next => exact clean_badUrl before _

theorem clean_url {before t : Text} {skip : Nat} (h : Clean before t skip) :
    Clean before t (urlTailFrom skip t).2 := by
  induction t generalizing before skip with
  | nil => exact clean_nil
  | cons c cs ih =>
    cases skip with
    | succ skip => exact clean_cons.mpr (ih (clean_cons.mp h))
    | zero =>
      unfold urlTailFrom
      split
      next hc => exact clean_cons.mpr (clean_zero.mpr (not_fuse_of_ne before (by simp [hc])))
      next =>
        split
        next =>
          simp only [Prod.map_snd]
          rw [Nat.add_comm, clean_add]
          exact clean_urlEnd (clean_blanks before _)
        next hblank =>
          have hcr := ne_cr_of_not_blank (by simpa using hblank)
          split
          next => exact clean_badUrl before _
          next =>
            split
            next =>
              split
              next hesc =>
                obtain ⟨rfl, hd⟩ := startsEscape_cons hesc
                exact clean_cons.mpr (ih (clean_escape (not_fuse_of_ne before (by simp)) hd))
              next => exact clean_badUrl before _
            next => exact clean_cons.mpr (ih (clean_zero.mpr (not_fuse_of_ne before hcr)))

theorem clean_urlTail (before t : Text) : Clean before t (urlTail t).2 := by
  simp only [urlTail, Prod.map_snd]
  rw [Nat.add_comm, clean_add]
  exact clean_url (clean_zero.mpr (clean_blanks before t))

theorem NoReturn.mono {t : Text} {m n : Nat} (h : NoReturn t n) (hmn : m ≤ n) : NoReturn t m :=
  fun c hc => h c (List.take_subset_take_left t hmn hc)

theorem noReturn_length_take {t : Text} {m n : Nat} (hm : NoReturn t m)
    (hn : NoReturn (t.drop m) n) : NoReturn t ((t.take m).length + n) := by
  rcases Nat.le_total m t.length with hle | hle
  · rw [List.length_take_of_le hle]
    exact noReturn_add hm hn
  · intro c hc
    exact hm c (by simpa [List.take_of_length_le, hle, List.length_take] using List.mem_of_mem_take hc)

theorem noReturn_digits (t : Text) : NoReturn t (digitsLength t) := noReturn_run (by decide) t

theorem noReturn_sign (t : Text) : NoReturn t (signLength t) := by
  unfold signLength
  split
  next c cs =>
    split
    next hc =>
      refine noReturn_succ ?_ (noReturn_zero cs)
      rintro rfl
      simp at hc
    next => exact noReturn_zero _
  next => exact noReturn_zero _

theorem noReturn_fraction (t : Text) : NoReturn t (fractionLength t) := by
  unfold fractionLength
  split
  next cs =>
    split
    next => exact noReturn_succ (by simp) (noReturn_digits cs)
    next => exact noReturn_zero _
  next => exact noReturn_zero _

theorem noReturn_exponent (t : Text) : NoReturn t (exponentLength t) := by
  unfold exponentLength
  split
  next c cs =>
    simp only
    split
    next hc =>
      refine noReturn_succ ?_ (noReturn_add (noReturn_sign cs) (noReturn_digits _))
      rintro rfl
      simp at hc
    next => exact noReturn_zero _
  next => exact noReturn_zero _

theorem noReturn_number (t : Text) : NoReturn t (numberLength t) := by
  simp only [numberLength, numberParts, Nat.add_assoc]
  refine noReturn_length_take (noReturn_add (noReturn_sign t) (noReturn_digits _)) ?_
  refine noReturn_length_take (noReturn_fraction _) ?_
  exact (noReturn_exponent _).mono (List.length_take_le _ _)

theorem noReturn_upperEnd (t : Text) : NoReturn t (upperEndLength t) := by
  unfold upperEndLength
  split
  next cs =>
    split
    next => exact noReturn_succ (by simp) (noReturn_hex cs)
    next => exact noReturn_zero _
  next => exact noReturn_zero _

theorem noReturn_codePoints {t : Text} {n : Nat} (h : codePointsLength? t = some n) :
    NoReturn t n := by
  unfold codePointsLength? at h
  split at h
  next u cs =>
    simp only at h
    split at h
    next hu =>
      have hwild : NoReturn (cs.drop (hexLength cs))
          (wildcardLength (hexLength cs) (cs.drop (hexLength cs))) :=
        noReturn_take (noReturn_run (by decide) _)
          (Nat.le_trans (runLength_le _ _) (List.length_take_le _ _))
      obtain rfl := Option.some.inj h
      rw [Nat.add_assoc, Nat.add_comm]
      have hne : u ≠ '\r' := by
        rintro rfl
        simp at hu
      refine noReturn_succ hne (noReturn_succ (by simp) (noReturn_add (noReturn_hex cs) ?_))
      split
      next => exact hwild
      next => exact noReturn_upperEnd _
    next => simp at h
  next => simp at h

/-- Where the text in front of the cut ends with a character of its own. -/
theorem clean_one {before cs : Text} {c : Char} (hc : c ≠ '\r') : Clean before (c :: cs) 1 :=
  clean_cons.mpr (clean_zero.mpr (not_fuse_of_ne before hc))

end CssTree
