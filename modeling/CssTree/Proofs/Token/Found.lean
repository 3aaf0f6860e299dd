import CssTree.Proofs.Token.Decoded

namespace CssTree

/-- The scanner finds the token behind `before` and in front of `rest`, and `after` is what follows
the comment that the token stands in. -/
structure Token.Found (comments : Bool) (source : Text) (t : Token) (before rest after : Text) :
    Prop where
  source_eq : source = before ++ t.text ++ (rest ++ after)
  span : t.span = .behind before t.text
  first : FirstPiece (t.kind, t.text) (t.text ++ rest)
  after : after = [] ∨ comments = true ∧ ['*', '/'] <+: after
  decoded : t.Decoded

theorem Reader.found {config : Config} {source : Text} {t : Token}
    (ht : t ∈ (Reader.ofText config source).drain) (hkind : t.kind ∉ TokenKind.assigned) :
    ∃ before rest after, t.Found config.comments source before rest after := by
  rw [drain_ofText] at ht
  have hfront : t ∈ (Stream.ofText config source).tokens := by
    rcases List.mem_append.mp ht with ht | hlast
    · exact ht
    · rw [List.mem_singleton.mp hlast, (Stream.sound_ofText config source).last_kind] at hkind
      simp [TokenKind.assigned] at hkind
  obtain ⟨xs, ys, hsplit⟩ := Stream.lexeme_of_mem hfront
  obtain ⟨rest, after, hrest, hfirst, hafter⟩ := Lexeme.firstPiece_ofText hsplit hkind
  obtain ⟨hlaid, -, hrender, -⟩ := Lexeme.laid_ofText config.comments source
  rw [hsplit] at hlaid hrender
  have hsource : source = Lexeme.render xs ++ t.text ++ (rest ++ after) := by
    rw [← hrender, ← hrest]
    simp
  exact ⟨Lexeme.render xs, rest, after, hsource, (Lexeme.laid_append.mp hlaid).2.1, hfirst, hafter,
    Stream.decoded_ofText config source t ht⟩

/-- Kinds of lexemes that are neither a fixed text nor a comment. -/
def TokenKind.spelled : List TokenKind := [.ident, .function, .atKeyword, .hash, .string, .badString,
  .url, .badUrl, .number, .dimension, .percentage, .codePoints]

theorem not_spelled_punctuation {c : Char} {kind : TokenKind} (h : punctuation? c = some kind) :
    kind ∉ TokenKind.spelled := by
  unfold punctuation? at h
  split at h <;> cases h <;> decide

theorem not_spelled_digraph {c d : Char} {kind : TokenKind} (h : digraph? c d = some kind) :
    kind ∉ TokenKind.spelled := by
  unfold digraph? at h
  split at h <;> cases h <;> decide

theorem firstLexeme_spelled {c : Char} {cs : Text}
    (h : (firstLexeme (c :: cs)).1 ∈ TokenKind.spelled) :
    firstLexeme (c :: cs) = scannedLexeme c cs := by
  cases cs with
  | nil =>
    rw [firstLexeme] at h ⊢
    cases hc : punctuation? c with
    | none => rfl
    | some kind =>
      rw [hc] at h
      exact absurd h (not_spelled_punctuation hc)
  | cons d cs =>
    rw [firstLexeme_cons_cons] at h ⊢
    split at h
    next => simp [TokenKind.spelled] at h
    next hcomment =>
      rw [if_neg hcomment]
      split at h
      next kind hc => exact absurd h (not_spelled_punctuation hc)
      next kind _ hd => exact absurd h (not_spelled_digraph hd)
      next => rfl

/-- A character that starts no fixed text and no comment starts what the scanners measure. -/
theorem firstLexeme_of_plain {c : Char} (hpunctuation : punctuation? c = none)
    (hdigraph : ∀ d, digraph? c d = none) (hslash : c ≠ '/') (cs : Text) :
    firstLexeme (c :: cs) = scannedLexeme c cs := by
  cases cs with
  | nil =>
    rw [firstLexeme, hpunctuation]
    rfl
  | cons d cs => simp [firstLexeme_cons_cons, hslash, hpunctuation, hdigraph]

/-- A piece that is neither a fixed text nor a comment is as long as it was measured. -/
theorem FirstPiece.scanned {kind : TokenKind} {x rest : Text}
    (h : FirstPiece (kind, x) (x ++ rest)) (hkind : kind ∈ TokenKind.spelled) :
    ∃ c cs, x = c :: cs ∧ (scannedLexeme c (cs ++ rest)).1 = kind ∧
      max 1 (scannedLexeme c (cs ++ rest)).2 = x.length := by
  obtain ⟨hne, hfirst, hlength, -⟩ := h
  obtain ⟨c, cs, rfl⟩ := List.exists_cons_of_ne_nil hne
  have hspelled : (firstLexeme (c :: (cs ++ rest))).1 ∈ TokenKind.spelled := hfirst ▸ hkind
  rw [List.cons_append, firstLexeme_spelled hspelled] at hfirst hlength
  exact ⟨c, cs, rfl, hfirst, hlength⟩

/-- What can start with `c`, blanks apart. -/
theorem scannedLexeme_cases {c : Char} {cs : Text} (hblank : (scannedLexeme c cs).1 ≠ .whitespace) :
    ((c = '"' ∨ c = '\'') ∧ scannedLexeme c cs = quotedLexeme c cs) ∨
    (startsNumber (c :: cs) = true ∧ scannedLexeme c cs = numericLexeme (c :: cs)) ∨
    (startsName (c :: cs) = true ∧ scannedLexeme c cs = nameLexeme (c :: cs)) ∨
    (c = '#' ∧ scannedLexeme c cs = (.hash, nameLength cs + 1)) ∨
    (c = '@' ∧ scannedLexeme c cs = (.atKeyword, nameLength cs + 1)) ∨
    scannedLexeme c cs = (.delim, 1) := by
  unfold scannedLexeme at hblank ⊢
  split at hblank
  next => exact absurd rfl hblank
  next hnot =>
    rw [if_neg hnot]
    split
    next hquote => exact Or.inl ⟨by simpa using hquote, rfl⟩
    next =>
      right
      split
      next hnumber => exact Or.inl ⟨hnumber, rfl⟩
      next =>
        right
        split
        next hname => exact Or.inl ⟨hname, rfl⟩
        next =>
          right
          split
          next hhash =>
            rw [Bool.and_eq_true, decide_eq_true_eq] at hhash
            exact Or.inl ⟨hhash.1, rfl⟩
          next =>
            right
            split
            next hat =>
              rw [Bool.and_eq_true, decide_eq_true_eq] at hat
              exact Or.inl ⟨hat.1, rfl⟩
            next => exact Or.inr rfl

theorem kind_quoted (quote : Char) (t : Text) : (quotedLexeme quote t).1 ∈ [.string, .badString] := by
  change (stringTailFrom quote 0 t).1 ∈ [.string, .badString]
  generalize 0 = skip
  fun_induction stringTailFrom quote skip t <;> simp_all

theorem kind_numeric (t : Text) : (numericLexeme t).1 ∈ [.percentage, .dimension, .number] := by
  simp only [numericLexeme]
  split
  · simp
  · split <;> simp

theorem kind_urlTail (t : Text) : (urlTail t).1 ∈ [.url, .badUrl] := by
  have hend : ∀ u, (urlEnd u).1 ∈ [.url, .badUrl] := by
    intro u
    unfold urlEnd
    split
    · simp
    · split <;> simp
  have htail : ∀ skip u, (urlTailFrom skip u).1 ∈ [.url, .badUrl] := by
    intro skip u
    fun_induction urlTailFrom skip u <;> simp_all
  exact htail 0 _

theorem kind_opened (name t : Text) : (openedLexeme name t).1 ∈ [.url, .badUrl, .function, .ident] := by
  unfold openedLexeme
  split
  next body =>
    split
    next =>
      have hurl := kind_urlTail body
      simp only [List.mem_cons, Prod.map_fst, id] at hurl ⊢
      tauto
    next => simp
  next => simp

/-- A range of code points is measured before a name is. -/
theorem codePointsLength?_nameLexeme {t : Text} (h : (nameLexeme t).1 = .codePoints) :
    codePointsLength? t = some (nameLexeme t).2 := by
  cases hrange : codePointsLength? t with
  | some n =>
    rw [nameLexeme, hrange]
  | none =>
    have hopened := kind_opened (t.take (nameLength t)) (t.drop (nameLength t))
    rw [nameLexeme_of_none hrange] at h
    simp only [Prod.map_fst, id] at h
    simp [h] at hopened

theorem kind_name (t : Text) :
    (nameLexeme t).1 ∈ [.codePoints, .url, .badUrl, .function, .ident] := by
  cases hrange : codePointsLength? t with
  | some n => simp [nameLexeme, hrange]
  | none =>
    rw [nameLexeme_of_none hrange]
    exact List.mem_cons_of_mem _ (kind_opened _ _)

/-- A string is measured from its quote on. -/
theorem scannedLexeme_string {c : Char} {cs : Text} (h : (scannedLexeme c cs).1 = .string) :
    (c = '"' ∨ c = '\'') ∧ scannedLexeme c cs = quotedLexeme c cs := by
  have hblank : (scannedLexeme c cs).1 ≠ .whitespace := by simp [h]
  have hnumeric := kind_numeric (c :: cs)
  have hname := kind_name (c :: cs)
  rcases scannedLexeme_cases hblank with hquoted | ⟨-, heq⟩ | ⟨-, heq⟩ | ⟨-, heq⟩ | ⟨-, heq⟩ | heq
  · exact hquoted
  · simp [← heq, h] at hnumeric
  · simp [← heq, h] at hname
  all_goals simp [heq] at h

/-- A number with a unit is measured by its digits first. -/
theorem scannedLexeme_dimension {c : Char} {cs : Text} (h : (scannedLexeme c cs).1 = .dimension) :
    startsNumber (c :: cs) = true ∧ scannedLexeme c cs = numericLexeme (c :: cs) := by
  have hblank : (scannedLexeme c cs).1 ≠ .whitespace := by simp [h]
  have hquoted := kind_quoted c cs
  have hname := kind_name (c :: cs)
  rcases scannedLexeme_cases hblank with ⟨-, heq⟩ | hnumber | ⟨-, heq⟩ | ⟨-, heq⟩ | ⟨-, heq⟩ | heq
  · simp [← heq, h] at hquoted
  · exact hnumber
  · simp [← heq, h] at hname
  all_goals simp [heq] at h

/-- A range of code points is measured where a name starts. -/
theorem scannedLexeme_codePoints {c : Char} {cs : Text} (h : (scannedLexeme c cs).1 = .codePoints) :
    codePointsLength? (c :: cs) = some (scannedLexeme c cs).2 := by
  have hblank : (scannedLexeme c cs).1 ≠ .whitespace := by simp [h]
  have hquoted := kind_quoted c cs
  have hnumeric := kind_numeric (c :: cs)
  rcases scannedLexeme_cases hblank with ⟨-, heq⟩ | ⟨-, heq⟩ | ⟨-, heq⟩ | ⟨-, heq⟩ | ⟨-, heq⟩ | heq
  · simp [← heq, h] at hquoted
  · simp [← heq, h] at hnumeric
  · rw [heq] at h ⊢
    exact codePointsLength?_nameLexeme h
  all_goals simp [heq] at h

end CssTree
