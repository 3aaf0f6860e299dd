import CssTree.Proofs.Token.Found
import Mathlib.Computability.Language

namespace CssTree

namespace Numeral

def sign : Language Char := {['+'], ['-']}

/-- One digit or more. -/
def digits : Language Char := {t : Text | t ≠ [] ∧ ∀ c ∈ t, c.isDigit = true}

def point : Language Char := {['.']}

def mark : Language Char := {['e'], ['E']}

/-- Digits with a fraction or without, or a fraction alone. -/
def mantissa : Language Char := digits * (1 + point * digits) + point * digits

def exponent : Language Char := mark * (1 + sign) * digits

end Numeral

open Numeral in
/-- A mantissa, with a sign in front of it or without and with an exponent behind it or without. -/
def Numeral : Language Char := (1 + sign) * mantissa * (1 + exponent)

namespace Numeral

theorem take_mem_digits {t : Text} (h : 0 < digitsLength t) : t.take (digitsLength t) ∈ digits := by
  have hle : digitsLength t ≤ t.length := runLength_le _ t
  refine ⟨?_, fun c hc => ?_⟩
  · rw [← List.length_pos_iff, List.length_take_of_le hle]
    exact h
  · rw [digitsLength, take_runLength] at hc
    exact List.mem_takeWhile_imp hc

theorem take_mem_sign (t : Text) : t.take (signLength t) ∈ 1 + sign := by
  cases t with
  | nil => exact Or.inl rfl
  | cons c cs =>
    rw [signLength]
    split
    next h =>
      right
      rcases (by simpa using h) with rfl | rfl
      · exact Or.inl rfl
      · exact Or.inr rfl
    next => exact Or.inl rfl

theorem take_mem_fraction {t : Text} (h : 0 < fractionLength t) :
    t.take (fractionLength t) ∈ point * digits := by
  unfold fractionLength at h ⊢
  split at h
  next cs =>
    split at h
    next hpos =>
      rw [if_pos hpos, List.take_succ_cons]
      exact Language.append_mem_mul (a := ['.']) rfl (take_mem_digits hpos)
    next => omega
  next => omega

theorem take_mem_exponent {t : Text} (h : 0 < exponentLength t) :
    t.take (exponentLength t) ∈ exponent := by
  cases t with
  | nil => exact absurd h (Nat.lt_irrefl 0)
  | cons c cs =>
    simp only [exponentLength] at h ⊢
    split at h
    next hmark =>
      rw [if_pos hmark, List.take_succ_cons, List.take_add]
      rw [Bool.and_eq_true, decide_eq_true_eq] at hmark
      have hc : [c] ∈ mark := by
        rcases (by simpa using hmark.1) with rfl | rfl
        · exact Or.inl rfl
        · exact Or.inr rfl
      exact Language.append_mem_mul (Language.append_mem_mul hc (take_mem_sign cs))
        (take_mem_digits hmark.2)
    next => omega

/-- Where no digit starts a number, a fraction does. -/
theorem fractionLength_pos {t : Text} (h : startsDigits t = true) (hnone : digitsLength t = 0) :
    0 < fractionLength t := by
  have hfirst : ∀ c cs, t = c :: cs → c.isDigit = false := by
    rintro c cs rfl
    by_contra hc
    have hpos := digitsLength_pos (by simpa using hc) cs
    omega
  match t with
  | [] => cases h
  | [c] =>
    have hc := hfirst c [] rfl
    have hdigit : c.isDigit = true := by simpa [startsDigits] using h
    rw [hc] at hdigit
    cases hdigit
  | c :: d :: ds =>
    rw [startsDigits_cons_cons] at h
    split at h
    next hpoint =>
      have hpos := digitsLength_pos h ds
      rw [hpoint, fractionLength, if_pos hpos]
      omega
    next =>
      rw [hfirst c _ rfl] at h
      cases h

theorem take_mem_mantissa {t : Text} (h : startsDigits t = true) :
    t.take (digitsLength t) ++ (t.drop (digitsLength t)).take (fractionLength (t.drop (digitsLength t)))
      ∈ mantissa := by
  by_cases hdigits : 0 < digitsLength t
  · left
    refine Language.append_mem_mul (take_mem_digits hdigits) ?_
    by_cases hfraction : 0 < fractionLength (t.drop (digitsLength t))
    · exact Or.inr (take_mem_fraction hfraction)
    · rw [show fractionLength (t.drop (digitsLength t)) = 0 by omega]
      exact Or.inl rfl
  · right
    have hnone : digitsLength t = 0 := by omega
    rw [hnone, List.take_zero, List.nil_append, List.drop_zero]
    exact take_mem_fraction (fractionLength_pos h hnone)

/-- The number that is measured is one. -/
theorem take_mem {t : Text} (h : startsNumber t = true) : t.take (numberLength t) ∈ Numeral := by
  rw [startsNumber_eq] at h
  have hparts : t.take (numberLength t) = t.take (signLength t) ++
      ((t.drop (signLength t)).take (digitsLength (t.drop (signLength t))) ++
        ((t.drop (wholeLength t)).take (fractionLength (t.drop (wholeLength t))))) ++
      ((t.drop (wholeLength t)).drop (fractionLength (t.drop (wholeLength t)))).take
        (exponentLength ((t.drop (wholeLength t)).drop
          (fractionLength (t.drop (wholeLength t))))) := by
    have hwhole : t.take (wholeLength t) = t.take (signLength t) ++
        (t.drop (signLength t)).take (digitsLength (t.drop (signLength t))) := List.take_add
    rw [numberLength_eq, partLength, List.take_add, List.take_add, hwhole]
    simp only [List.append_assoc]
  have hmantissa := take_mem_mantissa h
  rw [List.drop_drop] at hmantissa
  rw [hparts]
  refine Language.append_mem_mul (Language.append_mem_mul (take_mem_sign t) hmantissa) ?_
  generalize (t.drop (wholeLength t)).drop (fractionLength (t.drop (wholeLength t))) = u
  by_cases hexponent : 0 < exponentLength u
  · exact Or.inr (take_mem_exponent hexponent)
  · rw [show exponentLength u = 0 by omega]
    exact Or.inl rfl

/-- A text that goes on with neither a digit nor a point. -/
def Quiet (r : Text) : Prop := ∀ c ∈ r.head?, c.isDigit = false ∧ c ≠ '.'

theorem exists_cons_of_digits {ds : Text} (h : ds ∈ digits) :
    ∃ d rest, ds = d :: rest ∧ d.isDigit = true := by
  obtain ⟨d, rest, rfl⟩ := List.exists_cons_of_ne_nil h.1
  exact ⟨d, rest, rfl, h.2 d List.mem_cons_self⟩

theorem digitsLength_append {ds r : Text} (hds : ds ∈ digits)
    (hr : ∀ c ∈ r.head?, c.isDigit = false) : digitsLength (ds ++ r) = ds.length := by
  have hnone : r.takeWhile Char.isDigit = [] := by
    cases r with
    | nil => rfl
    | cons c cs => rw [List.takeWhile_cons_of_neg (by simp [hr c rfl])]
  rw [digitsLength, runLength, List.takeWhile_append_of_pos hds.2, hnone, List.append_nil]

theorem fractionLength_quiet {r : Text} (h : Quiet r) : fractionLength r = 0 := by
  unfold fractionLength
  split
  next => exact absurd rfl (h '.' rfl).2
  next => rfl

theorem fractionLength_append {ds r : Text} (hds : ds ∈ digits) (hr : Quiet r) :
    fractionLength ('.' :: (ds ++ r)) = ds.length + 1 := by
  have hlength := digitsLength_append hds fun c hc => (hr c hc).1
  have hpos : 0 < ds.length := List.length_pos_iff.mpr hds.1
  rw [fractionLength, hlength, if_pos hpos]

/-- A mantissa starts a number, and its digits and its fraction are measured. -/
theorem mantissa_append {m r : Text} (hm : m ∈ mantissa) (hr : Quiet r) :
    startsDigits (m ++ r) = true ∧ digitsLength (m ++ r) +
      fractionLength ((m ++ r).drop (digitsLength (m ++ r))) = m.length := by
  have hdigit : ∀ c ∈ r.head?, c.isDigit = false := fun c hc => (hr c hc).1
  have hpoint : ∀ c : Char, c.isDigit = true → c ≠ '.' := by
    rintro c hc rfl
    exact absurd hc (by decide)
  rcases hm with hwhole | hfraction
  · obtain ⟨ds, hds, back, hback, rfl⟩ := Language.mem_mul.mp hwhole
    have hstarts : startsDigits (ds ++ (back ++ r)) = true := by
      obtain ⟨d, rest, rfl, hd⟩ := exists_cons_of_digits hds
      cases hrest : rest ++ (back ++ r) with
      | nil => simpa [hrest, startsDigits] using hd
      | cons e es =>
        rw [List.cons_append, hrest, startsDigits_cons_cons, if_neg (hpoint d hd)]
        exact hd
    rw [List.append_assoc]
    refine ⟨hstarts, ?_⟩
    rcases hback with rfl | hfraction
    · rw [List.nil_append, digitsLength_append hds hdigit, List.drop_left, fractionLength_quiet hr,
        List.append_nil, Nat.add_zero]
    · obtain ⟨_, rfl, places, hplaces, rfl⟩ := Language.mem_mul.mp hfraction
      have hquiet : ∀ c ∈ (['.'] ++ places ++ r).head?, c.isDigit = false := by
        intro c hc
        obtain rfl : '.' = c := by simpa using hc
        decide
      rw [digitsLength_append hds hquiet, List.drop_left, List.append_assoc, List.singleton_append,
        fractionLength_append hplaces hr]
      simp only [List.length_append, List.length_cons, List.length_nil]
      omega
  · obtain ⟨_, rfl, places, hplaces, rfl⟩ := Language.mem_mul.mp hfraction
    obtain ⟨d, rest, rfl, hd⟩ := exists_cons_of_digits hplaces
    have hzero : digitsLength ('.' :: (d :: rest ++ r)) = 0 := rfl
    refine ⟨hd, ?_⟩
    rw [List.append_assoc, List.singleton_append, hzero, List.drop_zero,
      fractionLength_append hplaces hr]
    simp

theorem signLength_digits {ds r : Text} (hds : ds ∈ digits) : signLength (ds ++ r) = 0 := by
  obtain ⟨d, rest, rfl, hd⟩ := exists_cons_of_digits hds
  rw [List.cons_append, signLength]
  apply if_neg
  rw [Bool.or_eq_true, decide_eq_true_eq, decide_eq_true_eq]
  rintro (rfl | rfl) <;> exact absurd hd (by decide)

theorem signLength_append {sg r : Text} (hsg : sg ∈ 1 + sign) (hr : signLength r = 0) :
    signLength (sg ++ r) = sg.length := by
  rcases hsg with rfl | rfl | rfl
  · exact hr
  · rfl
  · rfl

/-- An exponent or nothing is measured in whole, and it does not go on with what is measured before it. -/
theorem exponent_length {x : Text} (hx : x ∈ 1 + exponent) : Quiet x ∧ exponentLength x = x.length := by
  rcases hx with rfl | hx
  · exact ⟨by simp [Quiet], rfl⟩
  · obtain ⟨_, hfront, ds, hds, rfl⟩ := Language.mem_mul.mp hx
    obtain ⟨first, hmark, sg, hsg, rfl⟩ := Language.mem_mul.mp hfront
    obtain ⟨c, hc, rfl⟩ : ∃ c, (c = 'e' ∨ c = 'E') ∧ first = [c] := by
      rcases hmark with rfl | rfl
      · exact ⟨'e', Or.inl rfl, rfl⟩
      · exact ⟨'E', Or.inr rfl, rfl⟩
    have hsign : signLength (sg ++ ds) = sg.length := by
      have hnone := signLength_digits (r := []) hds
      rw [List.append_nil] at hnone
      exact signLength_append hsg hnone
    have hdigits : digitsLength ds = ds.length := by
      have hall := digitsLength_append (r := []) hds (by simp)
      rwa [List.append_nil] at hall
    have hpos : 0 < ds.length := List.length_pos_iff.mpr hds.1
    constructor
    · intro d hd
      obtain rfl : c = d := by simpa using hd
      rcases hc with rfl | rfl <;> decide
    · rw [List.append_assoc, List.singleton_append, exponentLength, hsign, List.drop_left, hdigits,
        if_pos (by simpa [hpos] using hc)]
      simp

theorem mantissa_sign {m r : Text} (hm : m ∈ mantissa) : signLength (m ++ r) = 0 := by
  rcases hm with hwhole | hfraction
  · obtain ⟨ds, hds, back, -, rfl⟩ := Language.mem_mul.mp hwhole
    rw [List.append_assoc]
    exact signLength_digits hds
  · obtain ⟨_, rfl, places, -, rfl⟩ := Language.mem_mul.mp hfraction
    rfl

/-- The texts that are numbers are those that start one and are measured in whole. -/
theorem mem_iff {t : Text} : t ∈ Numeral ↔ startsNumber t = true ∧ numberLength t = t.length := by
  constructor
  · intro ht
    obtain ⟨_, hfront, x, hx, rfl⟩ := Language.mem_mul.mp ht
    obtain ⟨sg, hsg, m, hm, rfl⟩ := Language.mem_mul.mp hfront
    obtain ⟨hquiet, hexponent⟩ := exponent_length hx
    obtain ⟨hstarts, hmeasured⟩ := mantissa_append hm hquiet
    have hsign : signLength (sg ++ (m ++ x)) = sg.length := signLength_append hsg (mantissa_sign hm)
    have hwhole : wholeLength (sg ++ (m ++ x)) = sg.length + digitsLength (m ++ x) := by
      rw [wholeLength, hsign, List.drop_left]
    have hbehind : (sg ++ (m ++ x)).drop (wholeLength (sg ++ (m ++ x))) =
        (m ++ x).drop (digitsLength (m ++ x)) := by
      rw [hwhole, ← List.drop_drop, List.drop_left]
    have htail : ((m ++ x).drop (digitsLength (m ++ x))).drop
        (fractionLength ((m ++ x).drop (digitsLength (m ++ x)))) = x := by
      rw [List.drop_drop, hmeasured, List.drop_left]
    rw [List.append_assoc, startsNumber_eq, hsign, List.drop_left, numberLength_eq, partLength,
      hbehind, htail, hexponent, hwhole]
    refine ⟨hstarts, ?_⟩
    simp only [List.length_append]
    omega
  · rintro ⟨hstarts, hlength⟩
    have hmem := take_mem hstarts
    rwa [hlength, List.take_length] at hmem

/-- A number at the start of a text is no longer than what is measured there. -/
theorem length_le {p r : Text} (h : p ∈ Numeral) : p.length ≤ numberLength (p ++ r) := by
  obtain ⟨-, hlength⟩ := mem_iff.mp h
  by_contra hshort
  have hsame : numberLength p = numberLength (p ++ r) :=
    numberLength_prompt p r (by simp only [id]; omega)
  omega

end Numeral

/-- The characters that a number starts with start nothing else. -/
theorem plain_of_number {c : Char} (hc : c.isDigit = true ∨ c = '+' ∨ c = '-' ∨ c = '.') :
    punctuation? c = none ∧ (∀ d, digraph? c d = none) ∧ c ≠ '/' ∧ isBlank c = false ∧
      c ≠ '"' ∧ c ≠ '\'' := by
  rcases hc with hdigit | rfl | rfl | rfl
  · have hne : ∀ d : Char, d.isDigit = false → c ≠ d := by
      rintro d hd rfl
      rw [hdigit] at hd
      cases hd
    have hpunctuation : punctuation? c = none := by
      unfold punctuation?
      split <;> first | rfl | exact absurd hdigit (by decide)
    have hdigraph : ∀ d, digraph? c d = none := by
      intro d
      unfold digraph?
      split <;> first | rfl | exact absurd hdigit (by decide)
    have hblank : isBlank c = false := by
      simp [isBlank, isNewline, hne ' ' rfl, hne '\t' rfl, hne '\n' rfl, hne '\r' rfl,
        hne '\x0c' rfl]
    exact ⟨hpunctuation, hdigraph, hne '/' rfl, hblank, hne '"' rfl, hne '\'' rfl⟩
  all_goals exact ⟨rfl, fun _ => rfl, by decide, rfl, by decide, by decide⟩

theorem startsNumber_head {c : Char} {cs : Text} (h : startsNumber (c :: cs) = true) :
    c.isDigit = true ∨ c = '+' ∨ c = '-' ∨ c = '.' := by
  by_contra hnone
  simp only [not_or] at hnone
  obtain ⟨hdigit, hplus, hminus, hpoint⟩ := hnone
  have hsign : signLength (c :: cs) = 0 := by simp [signLength, hplus, hminus]
  rw [startsNumber_eq, hsign, List.drop_zero] at h
  cases cs with
  | nil => exact hdigit (by simpa [startsDigits, hpoint] using h)
  | cons d ds =>
    rw [startsDigits_cons_cons, if_neg hpoint] at h
    exact hdigit h

/-- A number, with what belongs to it, is the first lexeme of a text that starts with one. -/
theorem firstLexeme_numeric {t : Text} (h : startsNumber t = true) :
    firstLexeme t = numericLexeme t := by
  cases t with
  | nil => cases h
  | cons c cs =>
    obtain ⟨hpunctuation, hdigraph, hslash, hblank, hdouble, hsingle⟩ :=
      plain_of_number (startsNumber_head h)
    rw [firstLexeme_of_plain hpunctuation hdigraph hslash, scannedLexeme]
    simp [hblank, hdouble, hsingle, h]

/-- The character behind a number, or the name, decides what the number is. -/
theorem numericLexeme_kind (t : Text) :
    ((numericLexeme t).1 = .percentage ↔ (t.drop (numberLength t)).head? = some '%') ∧
    ((numericLexeme t).1 = .dimension ↔ startsName (t.drop (numberLength t)) = true) ∧
    ((numericLexeme t).1 = .number ↔ (t.drop (numberLength t)).head? ≠ some '%' ∧
      startsName (t.drop (numberLength t)) = false) := by
  rw [numericLexeme]
  generalize t.drop (numberLength t) = rest
  have hapart : rest.head? = some '%' → startsName rest = false := by
    intro hhead
    obtain ⟨cs, rfl⟩ := List.head?_eq_some_iff.mp hhead
    rfl
  by_cases hpercent : rest.head? = some '%'
  · simp [hpercent, hapart hpercent]
  · by_cases hname : startsName rest = true <;> simp [hpercent, hname]

theorem numberParts_eq (t : Text) : numberParts t = (t.take (wholeLength t),
    (t.drop (wholeLength t)).take (fractionLength (t.drop (wholeLength t))),
    ((t.drop (wholeLength t)).drop (fractionLength (t.drop (wholeLength t)))).take
      (exponentLength ((t.drop (wholeLength t)).drop (fractionLength (t.drop (wholeLength t)))))) :=
  rfl

/-- The parts of a number are settled by the text of the number. -/
theorem numberParts_append {number rest : Text}
    (h : numberLength (number ++ rest) ≤ number.length) :
    numberParts (number ++ rest) = numberParts number := by
  rw [numberLength_eq, partLength] at h
  have hle := wholeLength_le number
  have hwhole : wholeLength number = wholeLength (number ++ rest) := by
    apply signLength_prompt.add digitsLength_prompt
    change wholeLength (number ++ rest) ≤ number.length
    omega
  rw [← hwhole, List.drop_append_of_le_length hle] at h
  rw [numberParts_eq, numberParts_eq, ← hwhole, List.drop_append_of_le_length hle,
    List.take_append_of_le_length hle]
  have hlength : (number.drop (wholeLength number)).length = number.length - wholeLength number :=
    List.length_drop
  generalize number.drop (wholeLength number) = u at h hlength ⊢
  have hle' := fractionLength_le u
  have hfraction : fractionLength u = fractionLength (u ++ rest) := by
    apply fractionLength_prompt
    simp only [id]
    omega
  rw [← hfraction, List.drop_append_of_le_length hle'] at h ⊢
  have hlength' : (u.drop (fractionLength u)).length = u.length - fractionLength u :=
    List.length_drop
  have hexponent : exponentLength (u.drop (fractionLength u)) =
      exponentLength (u.drop (fractionLength u) ++ rest) := by
    apply exponentLength_prompt
    simp only [id]
    omega
  rw [← hexponent, List.take_append_of_le_length hle',
    List.take_append_of_le_length (exponentLength_le _)]

theorem Decimal.ofText_append {number rest : Text}
    (h : numberLength (number ++ rest) ≤ number.length) :
    Decimal.ofText (number ++ rest) = Decimal.ofText number := by
  rw [Decimal.ofText, Decimal.ofText, numberParts_append h]

/-- The scanner has found the number of a dimension, and behind it the name of the unit. -/
theorem FirstPiece.dimension {x rest : Text} (h : FirstPiece (.dimension, x) (x ++ rest)) :
    ∃ number unit, x = number ++ unit ∧ number ∈ Numeral ∧
      numberLength (x ++ rest) = number.length ∧ numberLength x = number.length ∧
      startsName (unit ++ rest) = true ∧ nameLength (unit ++ rest) = unit.length := by
  obtain ⟨c, cs, hx, hkind, hlength⟩ := h.scanned (by decide)
  obtain ⟨hstarts, hnumeric⟩ := scannedLexeme_dimension hkind
  rw [hnumeric, ← List.cons_append, ← hx] at hkind hlength
  rw [← List.cons_append, ← hx] at hstarts
  have hname := (numericLexeme_kind (x ++ rest)).2.1.mp hkind
  have hpercent : (((x ++ rest).drop (numberLength (x ++ rest))).head? ≠ some '%') := by
    intro hhead
    have hkind' := (numericLexeme_kind (x ++ rest)).1.mpr hhead
    rw [hkind] at hkind'
    cases hkind'
  have hsize : (numericLexeme (x ++ rest)).2 = numberLength (x ++ rest) +
      nameLength ((x ++ rest).drop (numberLength (x ++ rest))) := by
    simp only [numericLexeme, if_neg hpercent, if_pos hname]
  have hpos := nameLength_pos hname
  have hsame : numberLength x = numberLength (x ++ rest) := by
    apply numberLength_prompt
    simp only [id]
    omega
  have hle := numberLength_le x
  have hunit : (x ++ rest).drop (numberLength x) = x.drop (numberLength x) ++ rest :=
    List.drop_append_of_le_length hle
  have hnumber : (x.take (numberLength x)).length = numberLength x := List.length_take_of_le hle
  have hlength' : (x.drop (numberLength x)).length = x.length - numberLength x := List.length_drop
  rw [← hsame, hunit] at hsize hname hpos
  refine ⟨x.take (numberLength x), x.drop (numberLength x), (List.take_append_drop _ _).symm, ?_,
    by omega, hnumber.symm, hname, by omega⟩
  exact Numeral.take_mem (startsNumber_of_append hstarts (by omega))

namespace Reader

/-- What the scanner measures where a number starts is the longest number there. The character behind
it tells a percentage, and a name behind it a dimension. Where the text of a dimension is measured
again to decode it, the number ends where it ended in the text that the token was cut from. -/
theorem numbers_scanned :
    (∀ s : Text, startsNumber s = true → ∃ number rest, s = number ++ rest ∧
      number.length = numberLength s ∧ number ∈ Numeral ∧
      (∀ p, p <+: s → p ∈ Numeral → p.length ≤ number.length) ∧
      firstLexeme s = numericLexeme s ∧
      ((numericLexeme s).1 = .percentage ↔ rest.head? = some '%') ∧
      ((numericLexeme s).1 = .dimension ↔ startsName rest = true) ∧
      ((numericLexeme s).1 = .number ↔ rest.head? ≠ some '%' ∧ startsName rest = false)) ∧
    ∀ (config : Config) (source : Text), ∀ t ∈ (Reader.ofText config source).drain,
      t.kind = .dimension → ∃ before rest after number unit,
        t.Found config.comments source before rest after ∧ t.text = number ++ unit ∧
        number ∈ Numeral ∧ numberLength (t.text ++ rest) = number.length ∧
        numberLength t.text = number.length ∧ startsName (unit ++ rest) = true ∧
        nameLength (unit ++ rest) = unit.length ∧
        t.value = some (.dimension (Decimal.ofText number) (unescape unit)) := by
  constructor
  · intro s hstarts
    obtain ⟨hpercentage, hdimension, hnumber⟩ := numericLexeme_kind s
    refine ⟨s.take (numberLength s), s.drop (numberLength s), (List.take_append_drop _ _).symm,
      List.length_take_of_le (numberLength_le s), Numeral.take_mem hstarts, ?_,
      firstLexeme_numeric hstarts, hpercentage, hdimension, hnumber⟩
    rintro p ⟨r, rfl⟩ hp
    rw [List.length_take_of_le (numberLength_le _)]
    exact Numeral.length_le hp
  · intro config source t ht hkind
    have hscanned : t.kind ∉ TokenKind.assigned := by simp [hkind, TokenKind.assigned]
    obtain ⟨before, rest, after, hfound⟩ := found ht hscanned
    have hfirst := hfound.first
    rw [hkind] at hfirst
    obtain ⟨number, unit, htext, hnumber, hwithin, halone, hname, hunit⟩ := hfirst.dimension
    have hvalue : t.value = some (.dimension (Decimal.ofText number) (unescape unit)) := by
      have hdecoded := hfound.decoded
      rw [Token.Decoded, hkind, TokenValue.decode?, halone, htext, List.drop_left] at hdecoded
      rw [htext] at halone
      rw [hdecoded, Decimal.ofText_append (Nat.le_of_eq halone)]
    exact ⟨before, rest, after, number, unit, hfound, htext, hnumber, hwithin, halone, hname, hunit,
      hvalue⟩

/-- An exponent without digits is a unit. -/
theorem numbers_scanned_unit :
    let t : Token := .ofLexeme [] (.place .dimension "+.5e-x".toList .origin)
    startsNumber "+.5e-x".toList = true ∧ t ∈ (Reader.ofText {} "+.5e-x".toList).drain ∧
      (∀ p, p <+: "+.5e-x".toList → p ∈ Numeral → p.length ≤ 3) ∧
      ∃ number unit, t.text = number ++ unit ∧ number.length = 3 ∧
        t.value = some (.dimension (Decimal.ofText number) (unescape unit)) := by
  intro t
  have hstarts : startsNumber "+.5e-x".toList = true := by decide
  have hlength : numberLength "+.5e-x".toList = 3 := by decide
  have ht : t ∈ (Reader.ofText {} "+.5e-x".toList).drain := by
    rw [drain_ofText]
    decide +kernel
  obtain ⟨number, rest, -, hnumber, -, hlongest, -⟩ := numbers_scanned.1 _ hstarts
  rw [hnumber, hlength] at hlongest
  obtain ⟨-, -, -, number, unit, -, htext, -, -, hsize, -, -, hvalue⟩ :=
    numbers_scanned.2 {} _ t ht rfl
  exact ⟨hstarts, ht, hlongest, number, unit, htext, hsize.symm.trans hlength, hvalue⟩

end Reader

end CssTree
