import CssTree.Proofs.Token.CodePoints
import CssTree.Proofs.Token.Quoted

namespace CssTree

theorem isHex_toDigits (n : Nat) : ∀ c ∈ Nat.toDigits 16 n, isHex c = true := by
  have hdigit : ∀ d < 16, isHex (Nat.digitChar d) = true := by
    intro d hd
    rw [isHex, hexValue?_digitChar hd]
    rfl
  induction n using Nat.strongRecOn with
  | ind n ih =>
    rw [Nat.toDigits_eq_if (by omega)]
    split
    next hlt => simpa using hdigit n hlt
    next =>
      intro c hc
      rcases List.mem_append.mp hc with hc | hc
      · exact ih (n / 16) (by omega) c hc
      · rw [List.mem_singleton.mp hc]
        exact hdigit _ (Nat.mod_lt _ (by omega))

theorem hexNumber_toDigits (n : Nat) : hexNumber (Nat.toDigits 16 n) = n := by
  induction n using Nat.strongRecOn with
  | ind n ih =>
    rw [Nat.toDigits_eq_if (by omega)]
    split
    next hlt => simp [hexNumber, hexValue?_digitChar hlt]
    next =>
      have hlast : n % 16 < 16 := Nat.mod_lt _ (by omega)
      rw [hexNumber_concat, ih (n / 16) (by omega), hexValue?_digitChar hlast, Option.getD_some]
      omega

theorem length_toDigits_le (c : Char) : (Nat.toDigits 16 c.toNat).length ≤ 6 := by
  rw [Nat.length_toDigits_le_iff (by omega) (by omega)]
  have hvalid : c.toNat.isValidChar := c.valid
  simp only [Nat.isValidChar] at hvalid
  omega

theorem hexLength_append {digits r : Text} (hdigits : ∀ c ∈ digits, isHex c = true)
    (hlength : digits.length ≤ 6) (hr : ∀ c ∈ r.head?, isHex c = false) :
    hexLength (digits ++ r) = digits.length := by
  have hnone : (r.take (6 - digits.length)).takeWhile isHex = [] := by
    cases hrest : r.take (6 - digits.length) with
    | nil => rfl
    | cons c cs =>
      have hhead : c ∈ r.head? := by
        have hmem := congrArg List.head? hrest
        rw [List.head?_take] at hmem
        split at hmem
        · cases hmem
        · simpa using hmem
      rw [List.takeWhile_cons_of_neg (by simp [hr c hhead])]
  rw [hexLength, runLength, List.take_append, List.take_of_length_le hlength,
    List.takeWhile_append_of_pos hdigits, hnone, List.append_nil]

/-- The escape of a character, behind its backslash. -/
def escapeOf (c : Char) : Text := Nat.toDigits 16 c.toNat ++ [' ']

/-- Characters as escapes. -/
def escaped (s : Text) : Text := s.flatMap fun c => '\\' :: escapeOf c

theorem exists_cons_escapeOf (c : Char) (r : Text) :
    ∃ d ds, escapeOf c ++ r = d :: ds ∧ isHex d = true ∧ isNewline d = false := by
  obtain ⟨d, ds, hcons⟩ := List.exists_cons_of_ne_nil (Nat.toDigits_ne_nil (n := c.toNat) (b := 16))
  have hhex : isHex d = true := isHex_toDigits c.toNat d (by simp [hcons])
  refine ⟨d, ds ++ [' '] ++ r, by simp [escapeOf, hcons], hhex, ?_⟩
  by_contra hnewline
  have hblank := not_isHex_of_isBlank (c := d) (by simp [isBlank, hnewline])
  rw [hhex] at hblank
  cases hblank

theorem hexLength_escapeOf (c : Char) (r : Text) :
    hexLength (escapeOf c ++ r) = (Nat.toDigits 16 c.toNat).length := by
  rw [escapeOf, List.append_assoc]
  apply hexLength_append (isHex_toDigits _) (length_toDigits_le c)
  intro d hd
  obtain rfl : ' ' = d := by simpa using hd
  decide

theorem escapeLength_escapeOf (c : Char) (r : Text) :
    escapeLength (escapeOf c ++ r) = (escapeOf c).length := by
  obtain ⟨d, ds, hcons, hhex, -⟩ := exists_cons_escapeOf c r
  have hblank : escapeBlankLength ((escapeOf c ++ r).drop (hexLength (escapeOf c ++ r))) = 1 := by
    rw [hexLength_escapeOf, escapeOf, List.append_assoc, List.drop_left]
    rfl
  have hlength : escapeLength (escapeOf c ++ r) = hexLength (escapeOf c ++ r) +
      escapeBlankLength ((escapeOf c ++ r).drop (hexLength (escapeOf c ++ r))) := by
    rw [hcons, escapeLength, if_pos hhex]
  rw [hlength, hblank, hexLength_escapeOf, escapeOf, List.length_append]
  rfl

theorem startsEscape_escapeOf (c : Char) (r : Text) :
    startsEscape ('\\' :: (escapeOf c ++ r)) = true := by
  obtain ⟨d, ds, hcons, -, hnewline⟩ := exists_cons_escapeOf c r
  rw [hcons, startsEscape_cons_cons]
  simp [hnewline]

theorem charOfCodePoint_toNat {c : Char} (hc : c ≠ '\x00') : charOfCodePoint c.toNat = c := by
  have hvalid : c.toNat.isValidChar := c.valid
  have hne : c.toNat ≠ 0 := by
    intro hzero
    have hchar := congrArg Char.ofNat hzero
    rw [Char.ofNat_toNat] at hchar
    exact hc hchar
  rw [charOfCodePoint, if_pos ⟨hvalid, hne⟩, Char.ofNat_toNat]

/-- An escape denotes its character, in a string as elsewhere. -/
theorem unescapeFrom_escapeOf {quote : Option Char} {c : Char} (hquote : quote ≠ some '\\')
    (hc : c ≠ '\x00') (r : Text) :
    unescapeFrom quote 0 ('\\' :: (escapeOf c ++ r)) = c :: unescapeFrom quote 0 r := by
  have hnumber : charOfCodePoint
      (hexNumber ((escapeOf c ++ r).take (hexLength (escapeOf c ++ r)))) = c := by
    rw [hexLength_escapeOf, escapeOf, List.append_assoc, List.take_left, hexNumber_toDigits,
      charOfCodePoint_toNat hc]
  have hrest : unescapeFrom quote (escapeLength (escapeOf c ++ r)) (escapeOf c ++ r) =
      unescapeFrom quote 0 r := by
    rw [unescapeFrom_skip, escapeLength_escapeOf, List.drop_left]
  obtain ⟨d, ds, hcons, hhex, hnewline⟩ := exists_cons_escapeOf c r
  rw [hcons] at hnumber hrest ⊢
  rw [unescapeFrom.eq_def]
  simp only [if_neg hquote, hnewline, hhex, Bool.and_false, Bool.false_eq_true, if_false, if_true,
    hnumber, hrest, ne_eq, not_true]

theorem escaped_cons (c : Char) (s : Text) : escaped (c :: s) = '\\' :: (escapeOf c ++ escaped s) := by
  simp [escaped]

theorem unescapeFrom_escaped {quote : Option Char} {s : Text} (hquote : quote ≠ some '\\')
    (hs : '\x00' ∉ s) (r : Text) :
    unescapeFrom quote 0 (escaped s ++ r) = s ++ unescapeFrom quote 0 r := by
  induction s with
  | nil => rfl
  | cons c s ih =>
    rw [List.mem_cons, not_or] at hs
    rw [escaped_cons, List.cons_append, List.append_assoc,
      unescapeFrom_escapeOf hquote (Ne.symm hs.1), ih hs.2, List.cons_append]

theorem nameLength_escaped (s : Text) : nameLength (escaped s) = (escaped s).length := by
  induction s with
  | nil => rfl
  | cons c s ih =>
    have hstarts := startsEscape_escapeOf c (escaped s)
    have hle := escapeLength_le (escapeOf c ++ escaped s)
    rw [escaped_cons, nameLength, nameLengthFrom, if_neg (by decide), if_pos hstarts,
      nameLengthFrom_skip hle, escapeLength_escapeOf, List.drop_left, ih, List.length_cons,
      List.length_append]

theorem scanString_escaped {quote : Char} (hquote : quote ≠ '\\') (s r : Text) :
    scanString quote 0 (escaped s ++ r) = scanString quote 0 r := by
  induction s with
  | nil => rfl
  | cons c s ih =>
    have hhidden : hiddenLength (escapeOf c ++ (escaped s ++ r)) = (escapeOf c).length := by
      have hlength := escapeLength_escapeOf c (escaped s ++ r)
      obtain ⟨d, ds, hcons, -, hnewline⟩ := exists_cons_escapeOf c (escaped s ++ r)
      rw [hcons] at hlength ⊢
      rw [hiddenLength_cons, hnewline, ← hlength]
      rfl
    rw [escaped_cons, List.cons_append, List.append_assoc, scanString, if_neg (Ne.symm hquote),
      if_neg (by decide), if_pos rfl, hhidden, scanString_skip, List.drop_left, ih]

theorem exists_cons_escaped {s : Text} (h : s ≠ []) :
    ∃ cs, escaped s = '\\' :: cs ∧ startsEscape ('\\' :: cs) = true := by
  obtain ⟨c, s, rfl⟩ := List.exists_cons_of_ne_nil h
  exact ⟨escapeOf c ++ escaped s, escaped_cons c s, startsEscape_escapeOf c (escaped s)⟩

theorem firstLexeme_escaped {s : Text} (h : s ≠ []) :
    firstLexeme (escaped s) = (.ident, (escaped s).length) := by
  have hlength := nameLength_escaped s
  obtain ⟨cs, hcons, hstarts⟩ := exists_cons_escaped h
  have hrange : codePointsLength? (escaped s) = none := by
    rw [hcons]
    cases cs with
    | nil => rfl
    | cons d ds =>
      rw [codePointsLength?_cons_cons]
      apply if_neg
      simp
  have hname : nameLexeme (escaped s) = (.ident, (escaped s).length) := by
    rw [nameLexeme_of_none hrange, hlength, List.drop_length]
    simp [openedLexeme]
  have hnumber : startsNumber (escaped s) = false := by rw [hcons]; rfl
  rw [hcons] at hname hnumber ⊢
  rw [firstLexeme_of_plain rfl (fun _ => rfl) (by decide), ← hname]
  simp [scannedLexeme, isBlank, isNewline, hnumber, startsName, hstarts]

theorem firstLexeme_hash {s : Text} (h : s ≠ []) :
    firstLexeme ('#' :: escaped s) = (.hash, ('#' :: escaped s).length) := by
  obtain ⟨cs, hcons, hstarts⟩ := exists_cons_escaped h
  have hnumber : startsNumber ('#' :: escaped s) = false := rfl
  have hname : startsName ('#' :: escaped s) = false := rfl
  have hescape : startsEscape (escaped s) = true := by rw [hcons, hstarts]
  rw [firstLexeme_of_plain rfl (fun _ => rfl) (by decide)]
  simp [scannedLexeme, isBlank, isNewline, hnumber, hname, hescape, nameLength_escaped]

theorem firstLexeme_at {s : Text} (h : s ≠ []) :
    firstLexeme ('@' :: escaped s) = (.atKeyword, ('@' :: escaped s).length) := by
  obtain ⟨cs, hcons, hstarts⟩ := exists_cons_escaped h
  have hnumber : startsNumber ('@' :: escaped s) = false := rfl
  have hname : startsName ('@' :: escaped s) = false := rfl
  have hbehind : startsName (escaped s) = true := by
    rw [hcons]
    exact hstarts
  rw [firstLexeme_of_plain rfl (fun _ => rfl) (by decide)]
  simp [scannedLexeme, isBlank, isNewline, hnumber, hname, hbehind, nameLength_escaped]

theorem firstLexeme_quoted (s : Text) :
    firstLexeme ('"' :: (escaped s ++ ['"'])) = (.string, ('"' :: (escaped s ++ ['"'])).length) := by
  have hscan : scanString '"' 0 (escaped s ++ ['"']) = (.string, ['"']) := by
    rw [scanString_escaped (by decide)]
    rfl
  obtain ⟨passed, hsplit, htail⟩ := stringTailFrom_eq '"' 0 (escaped s ++ ['"'])
  rw [hscan] at hsplit htail
  rw [firstLexeme_of_plain rfl (fun _ => rfl) (by decide), scannedLexeme, if_neg (by decide),
    if_pos (by decide), quotedLexeme, htail, ← List.append_cancel_right hsplit]
  simp

namespace Reader

/-- With the settings that are set if none are, a text is one token of a kind that denotes `s`, and
the token behind it ends the text. -/
def Single (kind : TokenKind) (x s : Text) : Prop :=
  ∃ t e, (Reader.ofText {} x).drain = [t, e] ∧ t.kind = kind ∧ t.text = x ∧
    t.value = some (.text s) ∧ e.kind = .eof ∧ e.text = []

theorem single_of_firstLexeme {kind : TokenKind} {x s : Text} (hx : x ≠ [])
    (hfirst : firstLexeme x = (kind, x.length)) (htrivia : kind.isTrivia = false)
    (hvalue : TokenValue.decode? kind x = some (.text s)) : Single kind x s := by
  have hcut : cut x = [(kind, x)] := by
    have hwhole := isCut_singleton (p := (kind, x)) hx hfirst
    rwa [IsCut, textOf_cons, textOf_nil, List.append_nil] at hwhole
  refine ⟨.ofLexeme [] (.place kind x .origin),
    Stream.endToken [] (Lexeme.place kind x .origin).span.stop, ?_, rfl, rfl, hvalue, rfl, rfl⟩
  rw [drain_ofText]
  simp [Stream.ofText, Lexeme.ofText, hcut, Lexeme.placeAll, Stream.ofLexemes, htrivia, Stream.toList,
    Stream.prepend, Lexeme.place]

/-- Characters written as escapes are read back, as a name, behind a hash or an at sign and between
quotes. Every string is decoded as far as the scanner has gone: from behind its opening quote up to
the closing quote that the scanner has found, or to the end of the text if there is none. -/
theorem escapes_decoded :
    (∀ s : Text, s ≠ [] → '\x00' ∉ s →
      Single .ident (escaped s) s ∧ Single .hash ('#' :: escaped s) s ∧
      Single .atKeyword ('@' :: escaped s) s ∧
      Single .string ('"' :: (escaped s ++ ['"'])) s) ∧
    ∀ (config : Config) (source : Text), ∀ t ∈ (Reader.ofText config source).drain,
      t.kind = .string → ∃ before rest after quote body close value,
        t.Found config.comments source before rest after ∧ t.text = quote :: (body ++ close) ∧
        scanString quote 0 (body ++ (close ++ rest)) = (.string, close ++ rest) ∧
        (close = [quote] ∨ close = [] ∧ rest = []) ∧
        readString quote 0 (body ++ close) = (value, close) ∧ t.value = some (.text value) := by
  constructor
  · intro s hs hnull
    have hname : unescape (escaped s) = s := by
      have hall := @unescapeFrom_escaped none s (by simp) hnull []
      rwa [List.append_nil, unescapeFrom, List.append_nil] at hall
    have hstring : unescapeString '"' (escaped s ++ ['"']) = s := by
      have hall := @unescapeFrom_escaped (some '"') s (by simp) hnull ['"']
      rw [unescapeString, hall]
      simp [unescapeFrom.eq_def]
    have hnamed := congrArg (fun x => some (TokenValue.text x)) hname
    have hquoted := congrArg (fun x => some (TokenValue.text x)) hstring
    obtain ⟨cs, hcons, -⟩ := exists_cons_escaped hs
    refine ⟨single_of_firstLexeme (by simp [hcons]) (firstLexeme_escaped hs) rfl hnamed,
      single_of_firstLexeme (by simp) (firstLexeme_hash hs) rfl hnamed,
      single_of_firstLexeme (by simp) (firstLexeme_at hs) rfl hnamed,
      single_of_firstLexeme (by simp) (firstLexeme_quoted s) rfl hquoted⟩
  · intro config source t ht hkind
    have hscanned : t.kind ∉ TokenKind.assigned := by simp [hkind, TokenKind.assigned]
    obtain ⟨before, rest, after, hfound⟩ := found ht hscanned
    have hfirst := hfound.first
    rw [hkind] at hfirst
    obtain ⟨quote, body, close, htext, -, hscan, hclose, hread⟩ := hfirst.quoted
    have hvalue : t.value = some (.text (readString quote 0 (body ++ close)).1) := by
      have hdecoded := hfound.decoded
      rw [Token.Decoded, hkind, htext] at hdecoded
      rw [hdecoded, readString_fst]
      rfl
    exact ⟨before, rest, after, quote, body, close, _, hfound, htext, hscan, hclose,
      Prod.ext rfl hread, hvalue⟩

/-- A line break between quotes is read back from its escape, and a string that ends with the text is
decoded to its end. -/
theorem escapes_decoded_unclosed :
    let t : Token := .ofLexeme [] (.place .string "'a\\'".toList .origin)
    Single .string ('"' :: (escaped ['\n', '"'] ++ ['"'])) ['\n', '"'] ∧
      t ∈ (Reader.ofText {} "'a\\'".toList).drain ∧
      ∃ quote body close, t.text = quote :: (body ++ close) ∧
        readString quote 0 (body ++ close) = ("a'".toList, close) := by
  intro t
  have ht : t ∈ (Reader.ofText {} "'a\\'".toList).drain := by
    rw [drain_ofText]
    decide +kernel
  obtain ⟨-, -, -, hquoted⟩ := escapes_decoded.1 ['\n', '"'] (by simp) (by decide)
  obtain ⟨-, -, -, quote, body, close, value, -, htext, -, -, hread, hvalue⟩ :=
    escapes_decoded.2 {} _ t ht rfl
  obtain rfl : value = "a'".toList := by
    have hown : t.value = some (.text "a'".toList) := by decide +kernel
    simpa using hvalue.symm.trans hown
  exact ⟨hquoted, ht, quote, body, close, htext, hread⟩

end Reader

end CssTree
