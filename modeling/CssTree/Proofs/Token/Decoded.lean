import CssTree.Proofs.Token.Address
import CssTree.Proofs.Token.Pieces

namespace CssTree

/-- A token has the value that its text has. -/
def Token.Decoded (t : Token) : Prop := t.value = TokenValue.decode? t.kind t.text

theorem Token.decoded_leadingToTrailing {t : Token} {ts : List Token}
    (h : ∀ u ∈ t :: ts, u.Decoded) : ∀ u ∈ leadingToTrailing t ts, u.Decoded := by
  induction ts generalizing t with
  | nil => exact h
  | cons v ts ih =>
    obtain ⟨ht, hv, hts⟩ : t.Decoded ∧ v.Decoded ∧ ∀ u ∈ ts, u.Decoded := by simpa using h
    exact List.forall_mem_cons.mpr ⟨ht, ih (List.forall_mem_cons.mpr ⟨hv, hts⟩)⟩

theorem Token.decoded_trailAll {ts : List Token} (h : ∀ u ∈ ts, u.Decoded) :
    ∀ u ∈ trailAll ts, u.Decoded := by
  cases ts with
  | nil => exact h
  | cons t ts => exact decoded_leadingToTrailing h

namespace Stream

theorem decoded_ofLexemes (p : Position) (leading ls : List Lexeme) :
    ∀ t ∈ (ofLexemes p leading ls).toList, t.Decoded := by
  induction ls generalizing p leading with
  | nil => exact fun t ht => List.mem_singleton.mp ht ▸ rfl
  | cons l ls ih =>
    rw [ofLexemes]
    split
    · exact ih _ _
    · exact List.forall_mem_cons.mpr ⟨rfl, ih _ _⟩

theorem decoded_ofText (config : Config) (t : Text) :
    ∀ u ∈ (ofText config t).toList, u.Decoded := by
  have hlexemes := decoded_ofLexemes .origin [] (Lexeme.ofText config.comments t)
  rw [ofText]
  split
  · rw [toList_trail]
    exact Token.decoded_trailAll hlexemes
  · exact hlexemes

end Stream

/-- An item of two lists one after the other stands in the first or in the second. -/
theorem split_append {α : Type} {xs ys ps qs : List α} {p : α} (h : xs ++ ys = ps ++ p :: qs) :
    (∃ us, xs = ps ++ p :: us ∧ qs = us ++ ys) ∨ ∃ us, ys = us ++ p :: qs := by
  rcases List.append_eq_append_iff.mp h with ⟨us, -, hus⟩ | ⟨us, hus, hrest⟩
  · exact Or.inr ⟨us, hus⟩
  · cases us with
    | nil => exact Or.inr ⟨[], hrest.symm⟩
    | cons u us =>
      obtain ⟨rfl, rfl⟩ := List.cons.inj hrest
      exact Or.inl ⟨us, hus, rfl⟩

theorem firstPiece_of_cut {t : Text} {ps qs : List Piece} {p : Piece} (h : cut t = ps ++ p :: qs) :
    FirstPiece p (p.2 ++ textOf qs) := by
  have hcut := isCut_cut t
  rw [h] at hcut
  exact (isCut_cons.mp hcut.right).1

theorem textOf_cutThroughComments (t : Text) : textOf (cutThroughComments t) = t :=
  (faithful_cutThroughComments t).texts

/-- A piece is found in front of the text that is left, or in front of what is left of the comment
that it stands in. -/
theorem firstPiece_of_cutThroughComments {t : Text} {ps qs : List Piece} {p : Piece}
    (h : cutThroughComments t = ps ++ p :: qs) (hp : p.1 ∉ TokenKind.assigned) :
    ∃ rest after, textOf qs = rest ++ after ∧ FirstPiece p (p.2 ++ rest) ∧
      (after = [] ∨ ['*', '/'] <+: after) := by
  induction t using induction_cut generalizing ps with
  | hnil =>
    rw [cutThroughComments] at h
    simp at h
  | hplain c cs hstart ih =>
    rw [cutThroughComments_plain hstart] at h
    cases ps with
    | nil =>
      obtain ⟨rfl, rfl⟩ := List.cons.inj h
      refine ⟨_, [], (List.append_nil _).symm, ?_, Or.inl rfl⟩
      rw [textOf_cutThroughComments, List.cons_append, List.take_append_drop]
      exact firstPiece_cons c cs
    | cons q ps => exact ih (List.cons.inj h).2
  | hcomment cs ih =>
    rw [cutThroughComments_comment] at h
    rcases split_append h with ⟨us, hus, rfl⟩ | ⟨us, hus⟩
    · rcases split_append hus with ⟨vs, hvs, rfl⟩ | ⟨vs, hvs⟩
      · cases ps with
        | nil =>
          obtain ⟨rfl, -⟩ := List.cons.inj hvs
          simp [TokenKind.assigned] at hp
        | cons q ps =>
          refine ⟨textOf vs, (splitComment cs).2, ?_, firstPiece_of_cut (List.cons.inj hvs).2, ?_⟩
          · rw [List.append_assoc, textOf_append]
            rcases splitComment_rest cs with hnone | ⟨ds, hrest⟩
            · simp [hnone, textOf_cutThroughComments]
            · simp [hrest, textOf_cutThroughComments]
          · rcases splitComment_rest cs with hnone | ⟨ds, hrest⟩
            · exact Or.inl hnone
            · exact Or.inr ⟨ds, hrest.symm⟩
      · have hmem : p ∈ vs ++ p :: us := by simp
        rw [← hvs] at hmem
        split at hmem
        · cases hmem
        · obtain rfl := List.mem_singleton.mp hmem
          simp [TokenKind.assigned] at hp
    · exact ih hus

/-- A lexeme is found in front of the text that is left, or of what is left of the comment that it
stands in. -/
theorem Lexeme.firstPiece_ofText {comments : Bool} {source : Text} {xs ys : List Lexeme} {l : Lexeme}
    (h : ofText comments source = xs ++ l :: ys) (hkind : l.kind ∉ TokenKind.assigned) :
    ∃ rest after : Text, render ys = rest ++ after ∧ FirstPiece (l.kind, l.text) (l.text ++ rest) ∧
      (after = [] ∨ comments = true ∧ ['*', '/'] <+: after) := by
  have hpieces := congrArg piecesOf h
  rw [ofText, piecesOf_placeAll, piecesOf_append, piecesOf_cons] at hpieces
  rw [← textOf_piecesOf]
  cases comments with
  | true =>
    obtain ⟨rest, after, hrest, hfirst, hafter⟩ := firstPiece_of_cutThroughComments hpieces hkind
    exact ⟨rest, after, hrest, hfirst, hafter.imp_right fun h => ⟨rfl, h⟩⟩
  | false =>
    exact ⟨_, [], (List.append_nil _).symm, firstPiece_of_cut hpieces, Or.inl rfl⟩

theorem Lexeme.address_ofText {comments : Bool} {source : Text} {xs ys : List Lexeme} {l : Lexeme}
    (h : ofText comments source = xs ++ l :: ys) (hkind : l.kind = .url) :
    ∃ (a : Address) (rest after : Text), l.text = a.text ∧ render ys = rest ++ after ∧
      a.Scanned rest ∧ (after = [] ∨ comments = true ∧ ['*', '/'] <+: after) := by
  have hscanned : l.kind ∉ TokenKind.assigned := by simp [hkind, TokenKind.assigned]
  obtain ⟨rest, after, hrest, hfirst, hafter⟩ := firstPiece_ofText h hscanned
  rw [hkind] at hfirst
  obtain ⟨a, htext, haddress⟩ := hfirst.address
  exact ⟨a, rest, after, htext, hrest, haddress, hafter⟩

namespace Stream

/-- Every token of a text but the last is a lexeme of it. -/
theorem lexeme_of_mem {config : Config} {source : Text} {t : Token}
    (ht : t ∈ (ofText config source).tokens) :
    ∃ xs ys, Lexeme.ofText config.comments source = xs ++ t.toLexeme :: ys := by
  have hlexemes := lexemesOf_ofText config source
  obtain ⟨ts, us, hsplit⟩ := List.append_of_mem ht
  have hall : Token.lexemesOf (ofText config source).toList = (Token.lexemesOf ts ++ t.leading) ++
      t.toLexeme :: (t.trailing ++ Token.lexemesOf (us ++ [(ofText config source).last])) := by
    rw [toList, hsplit]
    simp [Token.lexemes]
  rcases split_append (hlexemes.symm.trans hall) with ⟨ys, hys, -⟩ | ⟨ys, hys⟩
  · exact ⟨_, ys, hys⟩
  · have hmem : t.toLexeme ∈ [Lexeme.place .eof [] (Position.origin.advance source)] := by
      rw [hys]
      simp
    have heof := congrArg Lexeme.kind (List.mem_singleton.mp hmem)
    exact absurd heof ((sound_ofText config source).kinds t ht)

end Stream

namespace Reader

/-- The address of an address token is the one that the scanner found there, in front of the end of
the text or of a comment if it has no parenthesis of its own. The token denotes what the content of
the address denotes, unless an escape at the end of the content hides a blank, or a parenthesis with
which the token ends: of that escape the backslash alone is decoded. -/
theorem address_decoded (config : Config) (source : Text) {t : Token}
    (ht : t ∈ (Reader.ofText config source).drain) (hkind : t.kind = .url) :
    ∃ (a : Address) (before rest after : Text), source = before ++ t.text ++ (rest ++ after) ∧
      t.span = .behind before t.text ∧ t.text = a.text ∧ a.Scanned rest ∧
      (after = [] ∨ config.comments = true ∧ ['*', '/'] <+: after) ∧
      ((¬∃ front c, a.content = front ++ ['\\', c] ∧ a.Hides c) →
        t.value = some (.text (unescape a.content))) ∧
      ∀ front c, a.content = front ++ ['\\', c] → a.Hides c →
        t.value = some (.text (unescape front ++ [replacement])) ∧
          unescape a.content = unescape front ++ [c] := by
  rw [drain_ofText] at ht
  have hfront : t ∈ (Stream.ofText config source).tokens := by
    rcases List.mem_append.mp ht with ht | hlast
    · exact ht
    · rw [List.mem_singleton.mp hlast, (Stream.sound_ofText config source).last_kind] at hkind
      cases hkind
  obtain ⟨xs, ys, hsplit⟩ := Stream.lexeme_of_mem hfront
  obtain ⟨a, rest, after, htext, hrest, hscanned, hafter⟩ := Lexeme.address_ofText hsplit hkind
  obtain ⟨hlaid, -, hrender, -⟩ := Lexeme.laid_ofText config.comments source
  rw [hsplit] at hlaid hrender
  have hvalue : t.value = some (.text (unescapeUrl a.text)) := by
    have hdecoded := Stream.decoded_ofText config source t ht
    rw [Token.Decoded, hkind] at hdecoded
    rw [hdecoded, show t.text = a.text from htext]
    rfl
  refine ⟨a, Lexeme.render xs, rest, after, ?_, (Lexeme.laid_append.mp hlaid).2.1, htext, hscanned,
    hafter, fun hplain => ?_, fun front c hcontent hc => ?_⟩
  · rw [← hrender, ← hrest]
    simp
  · rw [hvalue, hscanned.decoded_plain hplain]
  · obtain ⟨hdecoded, hdenoted⟩ := hscanned.decoded_hidden hcontent hc
    exact ⟨by rw [hvalue, hdecoded], hdenoted⟩

/-- The blank behind the digits of an escape belongs to the content. -/
theorem address_decoded_digits :
    let t : Token := .ofLexeme [] (.place .url "url( x\\29 )".toList .origin)
    t ∈ (Reader.ofText {} "url( x\\29 )".toList).drain ∧ t.value = some (.text "x)".toList) ∧
      ∃ (a : Address) (rest : Text), t.text = a.text ∧ a.Scanned rest := by
  intro t
  have ht : t ∈ (Reader.ofText {} "url( x\\29 )".toList).drain := by
    rw [drain_ofText]
    decide +kernel
  obtain ⟨a, -, rest, -, -, -, htext, hscanned, -⟩ := address_decoded {} _ ht rfl
  exact ⟨ht, by decide +kernel, a, rest, htext, hscanned⟩

/-- A hidden parenthesis at the end of a text is no part of what its address denotes. -/
theorem address_loses_parenthesis :
    let t : Token := .ofLexeme [] (.place .url "url(a\\)".toList .origin)
    let a : Address := ⟨"url".toList, [], "a\\)".toList, [], []⟩
    t ∈ (Reader.ofText {} "url(a\\)".toList).drain ∧ t.text = a.text ∧ a.Scanned [] ∧
      t.value ≠ some (.text (unescape a.content)) := by
  intro t a
  refine ⟨?_, by decide +kernel, ⟨by decide +kernel, by decide +kernel, by simp [a], ?_, by simp [a],
    Or.inr ⟨rfl, rfl⟩⟩, by decide +kernel⟩
  · rw [drain_ofText]
    decide +kernel
  · exact .char (by decide) (by decide) (.escape (e := [')']) (s := []) (by decide) (by decide) .nil)

end Reader

end CssTree
