import CssTree.Proofs.Token.Found
import Mathlib.Data.List.Forall2
import Mathlib.Data.List.Induction
import Mathlib.Tactic.Ring

namespace CssTree

theorem hexValue?_lt {c : Char} {v : Nat} (h : hexValue? c = some v) : v < 16 := by
  unfold hexValue? at h
  split at h
  next hdigit =>
    obtain rfl := Option.some.inj h
    simp only [Char.isDigit, Bool.and_eq_true, decide_eq_true_eq] at hdigit
    have hle : c.toNat ≤ '9'.toNat := hdigit.2
    have hnine : '9'.toNat = 57 := rfl
    have hzero : '0'.toNat = 48 := rfl
    omega
  next =>
    split at h
    next hsmall =>
      obtain rfl := Option.some.inj h
      have hle : c.toNat ≤ 'f'.toNat := hsmall.2
      have hlast : 'f'.toNat = 102 := rfl
      have hfirst : 'a'.toNat = 97 := rfl
      omega
    next =>
      split at h
      next hcapital =>
        obtain rfl := Option.some.inj h
        have hle : c.toNat ≤ 'F'.toNat := hcapital.2
        have hlast : 'F'.toNat = 70 := rfl
        have hfirst : 'A'.toNat = 65 := rfl
        omega
      next => cases h

theorem hexNumber_concat (t : Text) (c : Char) :
    hexNumber (t ++ [c]) = 16 * hexNumber t + (hexValue? c).getD 0 := by
  simp [hexNumber, List.foldl_append]

theorem hexNumber_append (s t : Text) :
    hexNumber (s ++ t) = hexNumber s * 16 ^ t.length + hexNumber t := by
  induction t using List.reverseRecOn with
  | nil => simp [hexNumber]
  | append_singleton t c ih =>
    rw [← List.append_assoc, hexNumber_concat, hexNumber_concat, ih, List.length_append,
      List.length_singleton, pow_succ]
    ring

theorem hexNumber_lt (t : Text) : hexNumber t < 16 ^ t.length := by
  induction t using List.reverseRecOn with
  | nil => simp [hexNumber]
  | append_singleton t c ih =>
    have hdigit : (hexValue? c).getD 0 < 16 := by
      cases h : hexValue? c with
      | none => simp
      | some v => exact hexValue?_lt h
    rw [hexNumber_concat, List.length_append, List.length_singleton, pow_succ]
    omega

/-- Every digit can be written. -/
theorem hexValue?_digitChar {d : Nat} (h : d < 16) : hexValue? (Nat.digitChar d) = some d := by
  have hall : ∀ d < 16, hexValue? (Nat.digitChar d) = some d := by decide
  exact hall d h

/-- Every number can be written with as many digits as it has room in. -/
theorem exists_hexNumber {n k : Nat} (h : n < 16 ^ k) :
    ∃ word : Text, word.length = k ∧ (∀ c ∈ word, isHex c = true) ∧ hexNumber word = n := by
  induction k generalizing n with
  | zero => exact ⟨[], rfl, by simp, by simp [hexNumber] at h ⊢; omega⟩
  | succ k ih =>
    rw [pow_succ] at h
    obtain ⟨word, hlength, hhex, hnumber⟩ := ih (n := n / 16) (by omega)
    have hlast : hexValue? (Nat.digitChar (n % 16)) = some (n % 16) :=
      hexValue?_digitChar (Nat.mod_lt _ (by omega))
    refine ⟨word ++ [Nat.digitChar (n % 16)], by simp [hlength], ?_, ?_⟩
    · intro c hc
      rcases List.mem_append.mp hc with hc | hc
      · exact hhex c hc
      · rw [List.mem_singleton.mp hc, isHex, hlast]
        rfl
    · rw [hexNumber_concat, hnumber, hlast, Option.getD_some]
      omega

/-- Digits that fit a pattern: any digit in the place of a question mark, and the digits of the
pattern in their own places, be they small or capital. -/
def Fits (word pattern : Text) : Prop :=
  List.Forall₂ (fun c p => isHex c = true ∧ (p = '?' ∨ hexValue? c = hexValue? p)) word pattern

theorem Fits.refl {digits : Text} (h : ∀ c ∈ digits, isHex c = true) : Fits digits digits := by
  rw [Fits, List.forall₂_same]
  exact fun c hc => ⟨h c hc, Or.inr rfl⟩

theorem Fits.append {s t p q : Text} (hs : Fits s p) (ht : Fits t q) : Fits (s ++ t) (p ++ q) :=
  List.rel_append hs ht

theorem fits_wildcards {word : Text} {k : Nat} :
    Fits word (List.replicate k '?') ↔ word.length = k ∧ ∀ c ∈ word, isHex c = true := by
  induction k generalizing word with
  | zero =>
    rw [List.replicate_zero, Fits, List.forall₂_nil_right_iff, List.length_eq_zero_iff]
    constructor
    · rintro rfl
      simp
    · exact And.left
  | succ k ih =>
    cases word with
    | nil => simp [Fits, List.replicate_succ]
    | cons c cs =>
      have hrest := @ih cs
      rw [Fits] at hrest
      rw [List.replicate_succ, Fits, List.forall₂_cons, hrest]
      simp only [List.length_cons, List.forall_mem_cons, Nat.add_right_cancel_iff, true_or, and_true]
      tauto

/-- What fits digits denotes the same number. -/
theorem Fits.hexNumber_eq {word digits : Text} (h : Fits word digits)
    (hdigits : ∀ c ∈ digits, isHex c = true) : hexNumber word = hexNumber digits := by
  have hmap : word.map hexValue? = digits.map hexValue? := by
    induction h with
    | nil => rfl
    | @cons c p cs ps hc hrest ih =>
      rw [List.forall_mem_cons] at hdigits
      have hp : p ≠ '?' := by
        rintro rfl
        exact absurd hdigits.1 (by decide)
      rw [List.map_cons, List.map_cons, ih hdigits.2, hc.2.resolve_left hp]
  have hfold : ∀ t : Text, hexNumber t =
      (t.map hexValue?).foldl (fun n v => 16 * n + v.getD 0) 0 := by
    intro t
    rw [List.foldl_map, hexNumber]
  rw [hfold, hfold, hmap]

/-- The numbers whose digits fit digits with question marks behind them are an interval. -/
theorem exists_fits_iff {digits : Text} {k n : Nat} (hdigits : ∀ c ∈ digits, isHex c = true) :
    (∃ word, Fits word (digits ++ List.replicate k '?') ∧ hexNumber word = n) ↔
      hexNumber digits * 16 ^ k ≤ n ∧ n ≤ hexNumber digits * 16 ^ k + (16 ^ k - 1) := by
  have hpos : 0 < 16 ^ k := Nat.pow_pos (by omega)
  constructor
  · rintro ⟨word, hfits, rfl⟩
    obtain ⟨front, back, rfl, hfront, hback⟩ :
        ∃ front back, word = front ++ back ∧ Fits front digits ∧ Fits back (List.replicate k '?') :=
      ⟨word.take digits.length, word.drop digits.length, (List.take_append_drop _ _).symm,
        List.forall₂_take_append _ _ _ hfits, List.forall₂_drop_append _ _ _ hfits⟩
    have hlength := (fits_wildcards.mp hback).1
    have hlt := hexNumber_lt back
    rw [hlength] at hlt
    rw [hexNumber_append, hlength, hfront.hexNumber_eq hdigits]
    omega
  · rintro ⟨hle, hge⟩
    obtain ⟨word, hlength, hhex, hnumber⟩ :=
      exists_hexNumber (n := n - hexNumber digits * 16 ^ k) (k := k) (by omega)
    refine ⟨digits ++ word, (Fits.refl hdigits).append (fits_wildcards.mpr ⟨hlength, hhex⟩), ?_⟩
    rw [hexNumber_append, hlength, hnumber]
    omega

/-- One to six hexadecimal digits. -/
structure HexDigits (t : Text) : Prop where
  ne_nil : t ≠ []
  length_le : t.length ≤ 6
  hex : ∀ c ∈ t, isHex c = true

/-- The range that a text denotes behind the plus sign. -/
inductive CodePointRange.Written : Text → CodePointRange → Prop
  | wildcards {digits : Text} {k : Nat} : (∀ c ∈ digits, isHex c = true) → 1 ≤ k →
      digits.length + k ≤ 6 → Written (digits ++ List.replicate k '?')
        ⟨hexNumber digits * 16 ^ k, hexNumber digits * 16 ^ k + (16 ^ k - 1)⟩
  | ends {lower upper : Text} : HexDigits lower → HexDigits upper →
      Written (lower ++ '-' :: upper) ⟨hexNumber lower, hexNumber upper⟩
  | point {digits : Text} : HexDigits digits → Written digits ⟨hexNumber digits, hexNumber digits⟩

theorem HexDigits.le {t : Text} (h : HexDigits t) : hexNumber t ≤ 0xFFFFFF := by
  have hlt := hexNumber_lt t
  have hpow : 16 ^ t.length ≤ 16 ^ 6 := Nat.pow_le_pow_right (by omega) h.length_le
  omega

theorem CodePointRange.Written.le {body : Text} {range : CodePointRange}
    (h : Written body range) : range.first ≤ 0xFFFFFF ∧ range.last ≤ 0xFFFFFF := by
  cases h with
  | @wildcards digits k _ _ hlength =>
    have hlt := hexNumber_lt digits
    have hpow : 16 ^ (digits.length + k) ≤ 16 ^ 6 := Nat.pow_le_pow_right (by omega) hlength
    have hpos : 0 < 16 ^ k := Nat.pow_pos (by omega)
    have hmul : (hexNumber digits + 1) * 16 ^ k ≤ 16 ^ digits.length * 16 ^ k :=
      Nat.mul_le_mul_right _ hlt
    rw [← pow_add, Nat.add_mul, Nat.one_mul] at hmul
    simp only
    omega
  | ends hlower hupper => exact ⟨hlower.le, hupper.le⟩
  | point hdigits => exact ⟨hdigits.le, hdigits.le⟩

theorem hexLength_hex {t : Text} (h : hexLength t = t.length) (hpos : 0 < hexLength t) :
    HexDigits t where
  ne_nil := by
    rintro rfl
    simp at h
    omega
  length_le := h ▸ hexLength_le t
  hex := by
    have htake := isHex_of_mem_take (t := t)
    rwa [h, List.take_length] at htake

theorem wildcardLength_all {n : Nat} {t : Text} (h : wildcardLength n t = t.length) :
    t = List.replicate t.length '?' ∧ t.length ≤ 6 - n := by
  have hshort := runLength_le (· = '?') (t.take (6 - n))
  change wildcardLength n t ≤ _ at hshort
  rw [h, List.length_take] at hshort
  have htake : t.take (6 - n) = t := List.take_of_length_le (by omega)
  have hrun := take_runLength (· = '?') (t.take (6 - n))
  change (t.take (6 - n)).take (wildcardLength n t) = _ at hrun
  rw [h, htake, List.take_length] at hrun
  constructor
  · rw [List.eq_replicate_iff]
    refine ⟨rfl, fun c hc => ?_⟩
    rw [hrun] at hc
    simpa using List.mem_takeWhile_imp hc
  · omega

/-- What the scanner measures as a range is a range. -/
theorem exists_written {t : Text} (hstarts : startsRange t = true)
    (hlength : rangeLength t = t.length) : ∃ range, CodePointRange.Written t range := by
  obtain ⟨digits, tail, htext, hcount, hhex⟩ : ∃ digits tail, t = digits ++ tail ∧
      hexLength t = digits.length ∧ ∀ c ∈ digits, isHex c = true :=
    ⟨t.take (hexLength t), t.drop (hexLength t), (List.take_append_drop _ _).symm,
      (List.length_take_of_le (hexLength_le_length t)).symm, isHex_of_mem_take⟩
  have hsix := hexLength_le t
  have htail : t.drop (hexLength t) = tail := by rw [hcount, htext, List.drop_left]
  have hsum : t.length = digits.length + tail.length := by rw [htext, List.length_append]
  simp only [rangeLength, htail] at hlength
  simp only [startsRange, htail, decide_eq_true_eq] at hstarts
  by_cases hwild : 0 < wildcardLength (hexLength t) tail
  · rw [if_pos hwild] at hlength
    obtain ⟨hall, hroom⟩ := wildcardLength_all (n := hexLength t) (t := tail) (by omega)
    rw [htext, hall]
    exact ⟨_, .wildcards hhex (by omega) (by omega)⟩
  · have hdigits : HexDigits digits :=
      ⟨fun hnil => by simp [hnil] at hcount; omega, by omega, hhex⟩
    rw [if_neg hwild] at hlength
    cases tail with
    | nil =>
      rw [htext, List.append_nil]
      exact ⟨_, .point hdigits⟩
    | cons c cs =>
      rw [List.length_cons] at hsum
      have hupper : upperEndLength (c :: cs) = cs.length + 1 := by omega
      unfold upperEndLength at hupper
      split at hupper
      next ds hcons =>
        obtain ⟨rfl, rfl⟩ := List.cons.inj hcons
        split at hupper
        next hpos =>
          rw [htext]
          exact ⟨_, .ends hdigits (hexLength_hex (by omega) hpos)⟩
        next => omega
      next => omega

theorem HexDigits.parseHex? {t : Text} (h : HexDigits t) : parseHex? t = some (hexNumber t) := by
  have hplus : t.head? ≠ some '+' := by
    intro hhead
    exact absurd (h.hex _ (List.mem_of_head? hhead)) (by decide)
  have hle := h.le
  have hall : t.all isHex = true := List.all_eq_true.mpr h.hex
  rw [CssTree.parseHex?, if_neg hplus]
  exact if_pos ⟨h.ne_nil, hall, by omega⟩

theorem fillWildcards_append {digits : Text} {k : Nat} (d : Char)
    (hdigits : ∀ c ∈ digits, isHex c = true) :
    fillWildcards d (digits ++ List.replicate k '?') = digits ++ List.replicate k d := by
  have hkept : fillWildcards d digits = digits := by
    have hsame : ∀ c ∈ digits, (if c = '?' then d else c) = id c := by
      intro c hc
      apply if_neg
      rintro rfl
      exact absurd (hdigits _ hc) (by decide)
    rw [fillWildcards, List.map_congr_left hsame, List.map_id]
  rw [fillWildcards, List.map_append, List.map_replicate]
  exact congrArg (· ++ List.replicate k d) hkept

theorem hexNumber_zeros (k : Nat) : hexNumber (List.replicate k '0') = 0 := by
  induction k with
  | zero => rfl
  | succ k ih =>
    rw [List.replicate_succ', hexNumber_concat, ih]
    rfl

theorem hexNumber_fs (k : Nat) : hexNumber (List.replicate k 'F') = 16 ^ k - 1 := by
  induction k with
  | zero => rfl
  | succ k ih =>
    have hpos : 0 < 16 ^ k := Nat.pow_pos (by omega)
    have hdigit : hexValue? 'F' = some 15 := rfl
    rw [List.replicate_succ', hexNumber_concat, ih, hdigit, Option.getD_some, pow_succ]
    omega

/-- No digit and no question mark is a hyphen. -/
theorem takeWhile_hyphen {t : Text} (h : ∀ c ∈ t, isHex c = true ∨ c = '?') (back : Text) :
    (t ++ back).takeWhile (· ≠ '-') = t ++ back.takeWhile (· ≠ '-') := by
  apply List.takeWhile_append_of_pos
  intro c hc
  rw [decide_eq_true_eq]
  rintro rfl
  rcases h _ hc with hhex | hmark
  · exact absurd hhex (by decide)
  · exact absurd hmark (by decide)

theorem HexDigits.lower {t : Text} (h : HexDigits t) (back : Text) :
    (t ++ '-' :: back).takeWhile (· ≠ '-') = t ∧ '?' ∉ t := by
  constructor
  · rw [takeWhile_hyphen fun c hc => Or.inl (h.hex c hc)]
    simp
  · intro hmark
    exact absurd (h.hex _ hmark) (by decide)

theorem CodePointRange.Written.ofText? {body : Text} {range : CodePointRange}
    (h : Written body range) (u : Char) : ofText? (u :: '+' :: body) = some range := by
  cases h with
  | @wildcards digits k hdigits hk hlength =>
    have hlower : (digits ++ List.replicate k '?').takeWhile (· ≠ '-') =
        digits ++ List.replicate k '?' := by
      have hall : ∀ c ∈ digits ++ List.replicate k '?', isHex c = true ∨ c = '?' := by
        intro c hc
        rcases List.mem_append.mp hc with hc | hc
        · exact Or.inl (hdigits c hc)
        · exact Or.inr (List.eq_of_mem_replicate hc)
      have hwhole := takeWhile_hyphen hall []
      rwa [List.append_nil, List.takeWhile_nil, List.append_nil] at hwhole
    have hmark : '?' ∈ digits ++ List.replicate k '?' :=
      List.mem_append_right _ (List.mem_replicate.mpr ⟨by omega, rfl⟩)
    have hfilled : ∀ d, isHex d = true → HexDigits (digits ++ List.replicate k d) := by
      intro d hd
      refine ⟨?_, by simpa using hlength, ?_⟩
      · intro hnil
        have hnone := congrArg List.length hnil
        rw [List.length_append, List.length_replicate, List.length_nil] at hnone
        omega
      · intro c hc
        rcases List.mem_append.mp hc with hc | hc
        · exact hdigits c hc
        · rwa [List.eq_of_mem_replicate hc]
    have hfirst := (hfilled '0' (by decide)).parseHex?
    have hlast := (hfilled 'F' (by decide)).parseHex?
    rw [hexNumber_append, List.length_replicate, hexNumber_zeros, Nat.add_zero] at hfirst
    rw [hexNumber_append, List.length_replicate, hexNumber_fs] at hlast
    simp only [CodePointRange.ofText?, hlower, if_pos hmark, fillWildcards_append _ hdigits, hfirst,
      hlast]
    rfl
  | @ends lower upper hlower hupper =>
    obtain ⟨htake, hmark⟩ := hlower.lower upper
    simp only [CodePointRange.ofText?, htake, if_neg hmark, hlower.parseHex?, List.drop_left,
      hupper.parseHex?]
    rfl
  | point hdigits =>
    have hmark : '?' ∉ body := fun hmark => absurd (hdigits.hex _ hmark) (by decide)
    have htake : body.takeWhile (· ≠ '-') = body := by
      have hwhole := takeWhile_hyphen (fun c hc => Or.inl (hdigits.hex c hc)) []
      rwa [List.append_nil, List.takeWhile_nil, List.append_nil] at hwhole
    simp only [CodePointRange.ofText?, htake, if_neg hmark, hdigits.parseHex?, List.drop_length]
    rfl

/-- Without a hyphen a range is the numbers whose digits fit its text. -/
theorem CodePointRange.Written.mem_iff {body : Text} {range : CodePointRange}
    (h : Written body range) (hhyphen : '-' ∉ body) (n : Nat) :
    range.first ≤ n ∧ n ≤ range.last ↔ ∃ word, Fits word body ∧ hexNumber word = n := by
  cases h with
  | wildcards hdigits => exact (exists_fits_iff hdigits).symm
  | ends => simp at hhyphen
  | point hdigits =>
    have hone := exists_fits_iff (k := 0) (n := n) hdigits.hex
    rw [List.replicate_zero, List.append_nil, pow_zero, Nat.mul_one] at hone
    exact hone.symm

/-- The scanner has measured a whole range. -/
theorem FirstPiece.range {x rest : Text} (h : FirstPiece (.codePoints, x) (x ++ rest)) :
    ∃ u body range, x = u :: '+' :: body ∧ (u = 'u' ∨ u = 'U') ∧
      CodePointRange.Written body range := by
  obtain ⟨c, cs, rfl, hkind, hlength⟩ := h.scanned (by decide)
  have hrange := scannedLexeme_codePoints hkind
  generalize (scannedLexeme c (cs ++ rest)).2 = n at hrange hlength
  rw [← List.cons_append] at hrange
  have hsame : codePointsLength? (c :: cs) = some n := by
    rw [← hrange]
    apply codePointsLength?_prompt
    intro m hm
    rw [hrange, Option.mem_some_iff] at hm
    omega
  cases cs with
  | nil => cases hsame
  | cons d ds =>
    rw [codePointsLength?_cons_cons] at hsame
    split at hsame
    next hstarts =>
      obtain ⟨rfl, hletter, hstarts⟩ := hstarts
      have hn := Option.some.inj hsame
      rw [List.length_cons, List.length_cons] at hlength
      obtain ⟨range, hwritten⟩ := exists_written hstarts (by omega)
      exact ⟨c, ds, range, rfl, hletter, hwritten⟩
    next => cases hsame

namespace Reader

/-- Every range of code points is decoded, and to the range that its text denotes. Where no hyphen
stands in the text, these are the numbers whose digits fit it. -/
theorem code_points_decoded (config : Config) (source : Text) {t : Token}
    (ht : t ∈ (Reader.ofText config source).drain) (hkind : t.kind = .codePoints) :
    ∃ (u : Char) (body : Text) (range : CodePointRange), t.text = u :: '+' :: body ∧
      (u = 'u' ∨ u = 'U') ∧ t.value = some (.codePoints range) ∧
      CodePointRange.Written body range ∧ range.first ≤ 0xFFFFFF ∧ range.last ≤ 0xFFFFFF ∧
      ('-' ∉ body →
        ∀ n, range.first ≤ n ∧ n ≤ range.last ↔ ∃ word, Fits word body ∧ hexNumber word = n) := by
  have hscanned : t.kind ∉ TokenKind.assigned := by simp [hkind, TokenKind.assigned]
  obtain ⟨before, rest, after, hfound⟩ := found ht hscanned
  have hfirst := hfound.first
  rw [hkind] at hfirst
  obtain ⟨u, body, range, htext, hletter, hwritten⟩ := hfirst.range
  have hvalue : t.value = some (.codePoints range) := by
    have hdecoded := hfound.decoded
    rw [Token.Decoded, hkind, htext] at hdecoded
    rw [hdecoded, TokenValue.decode?, hwritten.ofText?]
    rfl
  obtain ⟨hle, hle'⟩ := hwritten.le
  exact ⟨u, body, range, htext, hletter, hvalue, hwritten, hle, hle', hwritten.mem_iff⟩

/-- Two question marks stand for two hundred and fifty-six numbers. -/
theorem code_points_decoded_wildcards :
    let t : Token := .ofLexeme [] (.place .codePoints "U+4??".toList .origin)
    t ∈ (Reader.ofText {} "U+4??".toList).drain ∧ t.value = some (.codePoints ⟨0x400, 0x4FF⟩) ∧
      ∀ n, 0x400 ≤ n ∧ n ≤ 0x4FF ↔ ∃ word, Fits word "4??".toList ∧ hexNumber word = n := by
  intro t
  have ht : t ∈ (Reader.ofText {} "U+4??".toList).drain := by
    rw [drain_ofText]
    decide +kernel
  have hvalue : t.value = some (.codePoints ⟨0x400, 0x4FF⟩) := by decide +kernel
  obtain ⟨u, body, range, htext, -, hrange, -, -, -, hfits⟩ := code_points_decoded {} _ ht rfl
  obtain rfl : range = ⟨0x400, 0x4FF⟩ := by
    simpa using hrange.symm.trans hvalue
  have hbody : "4??".toList = body := (List.cons.inj (List.cons.inj htext).2).2
  subst hbody
  exact ⟨ht, hvalue, hfits (by decide)⟩

end Reader

end CssTree
