import CssTree.Proofs.Token.Cut
import CssTree.Proofs.Token.Laid

namespace CssTree

namespace Lexeme

theorem kinds_placeAll (p : Position) (pieces : List (TokenKind × Text)) :
    (placeAll p pieces).map Lexeme.kind = pieces.map (·.1) := by
  induction pieces generalizing p with
  | nil => rfl
  | cons piece pieces ih => simp [placeAll, place, ih]

/-- The lexemes of a text lie one after another and cut no line break. -/
theorem laid_ofText (comments : Bool) (t : Text) :
    Laid [] (ofText comments t) ∧ Whole (ofText comments t) ∧ render (ofText comments t) = t ∧
      ∀ l ∈ ofText comments t, l.kind ≠ .eof := by
  have hall : ∀ {pieces : List (TokenKind × Text)}, Faithful t pieces →
      Laid [] (placeAll .origin pieces) ∧ Whole (placeAll .origin pieces) ∧
        render (placeAll .origin pieces) = t ∧ ∀ l ∈ placeAll .origin pieces, l.kind ≠ .eof := by
    intro pieces h
    refine ⟨laid_placeAll ?_, ?_, ?_, ?_⟩
    · exact (unfused_singleton []).append h.unfused (by simp)
    · rw [Whole, texts_placeAll]
      exact h.unfused
    · rw [render_placeAll, h.texts]
    · intro l hl hkind
      have hmem := List.mem_map_of_mem (f := Lexeme.kind) hl
      rw [kinds_placeAll, hkind] at hmem
      obtain ⟨piece, hpiece, heq⟩ := List.mem_map.mp hmem
      exact h.kinds piece hpiece heq
  unfold ofText
  split
  · exact hall (faithful_cutThroughComments t)
  · exact hall (faithful_cut t)

/-- A list of lexemes with some in the middle made one. -/
theorem Laid.merge {before : Text} {xs ys zs : List Lexeme} {l : Lexeme}
    (h : Laid before (xs ++ ys ++ zs)) (htext : l.text = render ys)
    (hspan : l.span = .behind (before ++ render xs) (render ys)) : Laid before (xs ++ l :: zs) := by
  obtain ⟨hxy, hz⟩ := laid_append.mp h
  refine laid_append.mpr ⟨(laid_append.mp hxy).1, laid_cons.mpr ⟨by rw [hspan, htext], ?_⟩⟩
  rw [htext]
  simpa using hz

theorem Whole.merge {xs ys zs : List Lexeme} {l : Lexeme} (h : Whole (xs ++ ys ++ zs))
    (htext : l.text = render ys) : Whole (xs ++ l :: zs) := by
  have hm := Unfused.merge (xs.map Lexeme.text) (ys.map Lexeme.text) (zs.map Lexeme.text)
    (by simpa [Whole] using h)
  simpa [Whole, flatten_texts, htext] using hm

end Lexeme

namespace Token

theorem lexemesOf_leadingToTrailing (t : Token) (ts : List Token) :
    lexemesOf (t.leadingToTrailing ts) = lexemesOf (t :: ts) := by
  induction ts generalizing t with
  | nil => rfl
  | cons u ts ih =>
    rw [leadingToTrailing, lexemesOf_cons, ih]
    simp only [lexemes, sameLine, dropSameLine, lexemesOf_cons, List.append_assoc,
      List.cons_append]
    rw [← List.append_assoc (List.takeWhile _ _), List.takeWhile_append_dropWhile]

theorem toLexeme_leadingToTrailing (t : Token) (ts : List Token) :
    (t.leadingToTrailing ts).map Token.toLexeme = (t :: ts).map Token.toLexeme := by
  induction ts generalizing t with
  | nil => rfl
  | cons u ts ih => simp [leadingToTrailing, ih, dropSameLine]

theorem trailing_leadingToTrailing (t : Token) (ts : List Token) :
    (t.leadingToTrailing ts).getLast?.map (·.trailing) = (t :: ts).getLast?.map (·.trailing) := by
  induction ts generalizing t with
  | nil => rfl
  | cons u ts ih =>
    have hne : u.dropSameLine.leadingToTrailing ts ≠ [] := by cases ts <;> simp [leadingToTrailing]
    rw [leadingToTrailing, List.getLast?_cons_of_ne_nil hne, ih]
    cases ts <;> simp [dropSameLine]

theorem lexemesOf_trailingToLeading (carried : List Lexeme) {ts : List Token} (h : ts ≠ []) :
    lexemesOf (trailingToLeading carried ts) = carried ++ lexemesOf ts := by
  induction ts generalizing carried with
  | nil => exact absurd rfl h
  | cons t ts ih =>
    cases ts with
    | nil => simp [trailingToLeading, lexemes]
    | cons u ts =>
      rw [trailingToLeading, lexemesOf_cons, ih _ (by simp), lexemesOf_cons t]
      simp [lexemes]

theorem toLexeme_trailingToLeading (carried : List Lexeme) (ts : List Token) :
    (trailingToLeading carried ts).map Token.toLexeme = ts.map Token.toLexeme := by
  induction ts generalizing carried with
  | nil => rfl
  | cons t ts ih => cases ts <;> simp_all [trailingToLeading]

/-- Trivia moves between tokens; the tokens and the lexemes they stand among stay. -/
structure Regroups (f : List Token → List Token) : Prop where
  lexemes : ∀ ts, lexemesOf (f ts) = lexemesOf ts
  tokens : ∀ ts, (f ts).map Token.toLexeme = ts.map Token.toLexeme

theorem regroups_trailingToLeading : Regroups (trailingToLeading []) := by
  refine ⟨fun ts => ?_, toLexeme_trailingToLeading []⟩
  cases ts with
  | nil => rfl
  | cons t ts => exact lexemesOf_trailingToLeading [] (List.cons_ne_nil t ts)

theorem regroups_leadingToTrailing : Regroups fun
    | [] => []
    | t :: ts => t.leadingToTrailing ts := by
  constructor
  · rintro (_ | ⟨t, ts⟩)
    · rfl
    · exact lexemesOf_leadingToTrailing t ts
  · rintro (_ | ⟨t, ts⟩)
    · rfl
    · exact toLexeme_leadingToTrailing t ts

theorem Regroups.kinds {f : List Token → List Token} (h : Regroups f) (ts : List Token) :
    (f ts).map (fun t => t.kind) = ts.map (fun t => t.kind) := by
  have hkinds := congrArg (List.map Lexeme.kind) (h.tokens ts)
  simpa [Function.comp_def] using hkinds

end Token

namespace Stream

/-- Behind the tokens `taken` of a text, the tokens that are left of it. -/
structure Sound (taken : List Token) (s : Stream) : Prop where
  laid : Lexeme.Laid [] (Token.lexemesOf (taken ++ s.toList))
  whole : Lexeme.Whole (Token.lexemesOf (taken ++ s.toList))
  last_kind : s.last.kind = .eof
  last_text : s.last.text = []
  last_trailing : s.last.trailing = []
  kinds : ∀ t ∈ taken ++ s.tokens, t.kind ≠ .eof

theorem Sound.of_cons {taken ts : List Token} {t last : Token} (h : Sound taken ⟨t :: ts, last⟩) :
    Sound (taken ++ [t]) ⟨ts, last⟩ := by
  obtain ⟨laid, whole, kind, text, trailing, kinds⟩ := h
  refine ⟨?_, ?_, kind, text, trailing, ?_⟩
  · simpa [toList] using laid
  · simpa [toList] using whole
  · simpa using kinds

theorem Sound.prepend {taken back : List Token} {s : Stream} (h : Sound (taken ++ back) s) :
    Sound taken (s.prepend back) := by
  obtain ⟨laid, whole, kind, text, trailing, kinds⟩ := h
  refine ⟨?_, ?_, kind, text, trailing, ?_⟩
  · simpa [toList, Stream.prepend] using laid
  · simpa [toList, Stream.prepend] using whole
  · simpa [Stream.prepend] using kinds

theorem lexemesOf_ofLexemes {before : Text} (leading : List Lexeme) {ls : List Lexeme}
    (h : Lexeme.Laid before ls) :
    Token.lexemesOf (ofLexemes (Position.origin.advance before) leading ls).toList =
      leading ++ ls ++
        [.place .eof [] (Position.origin.advance (before ++ Lexeme.render ls))] := by
  induction ls generalizing before leading with
  | nil => simp [ofLexemes, endToken, toList, Token.ofLexeme, Token.lexemes]
  | cons l ls ih =>
    obtain ⟨hl, hls⟩ := h
    unfold ofLexemes
    rw [hl, Span.stop_behind]
    split
    · rw [ih _ hls]
      simp
    · have := ih [] hls
      simp only [toList, prepend, Token.lexemesOf_append, List.cons_append, List.nil_append,
        Token.lexemesOf_cons] at this ⊢
      rw [this]
      simp [Token.ofLexeme, Token.lexemes]

theorem last_ofLexemes (p : Position) (leading ls : List Lexeme) :
    let s := ofLexemes p leading ls
    s.last.kind = .eof ∧ s.last.text = [] ∧ s.last.trailing = [] := by
  induction ls generalizing p leading with
  | nil => exact ⟨rfl, rfl, rfl⟩
  | cons l ls ih =>
    unfold ofLexemes
    split
    · exact ih _ _
    · exact ih _ _

theorem kinds_ofLexemes {ls : List Lexeme} (h : ∀ l ∈ ls, l.kind ≠ .eof) (p : Position)
    (leading : List Lexeme) : ∀ t ∈ (ofLexemes p leading ls).tokens, t.kind ≠ .eof := by
  induction ls generalizing p leading with
  | nil => simp [ofLexemes]
  | cons l ls ih =>
    have hls := ih (fun m hm => h m (List.mem_cons_of_mem l hm))
    unfold ofLexemes
    split
    · exact hls _ _
    · intro t ht
      rcases List.mem_cons.mp ht with rfl | ht
      · exact h l List.mem_cons_self
      · exact hls _ _ t ht

theorem sound_ofLexemes {ls : List Lexeme} (hlaid : Lexeme.Laid [] ls) (hwhole : Lexeme.Whole ls)
    (hkinds : ∀ l ∈ ls, l.kind ≠ .eof) : Sound [] (ofLexemes .origin [] ls) := by
  have hlexemes := lexemesOf_ofLexemes [] hlaid
  simp only [List.nil_append, Position.advance_nil] at hlexemes
  obtain ⟨kind, text, trailing⟩ := last_ofLexemes .origin [] ls
  refine ⟨?_, ?_, kind, text, trailing, kinds_ofLexemes hkinds _ _⟩
  · rw [List.nil_append, hlexemes, Lexeme.laid_append]
    exact ⟨hlaid, by simp [Lexeme.laid_cons, Lexeme.place, Span.ofText, Span.point]⟩
  · rw [List.nil_append, hlexemes, Lexeme.Whole, List.map_append]
    exact hwhole.append (unfused_singleton _) (by simp [Lexeme.place])

theorem toList_ofList {ts : List Token} (h : ts ≠ []) : (ofList ts).toList = ts := by
  rw [toList, ofList, List.getLastD_eq_getLast?, List.getLast?_eq_some_getLast h]
  exact List.dropLast_append_getLast h

theorem lexemesOf_trail (s : Stream) :
    Token.lexemesOf s.trail.toList = Token.lexemesOf s.toList := by
  unfold trail
  split
  · rfl
  next t ts heq =>
    have hne : t.leadingToTrailing ts ≠ [] := by cases ts <;> simp [Token.leadingToTrailing]
    rw [toList_ofList hne, heq, Token.lexemesOf_leadingToTrailing]

theorem Sound.trail {s : Stream} (h : Sound [] s) : Sound [] s.trail := by
  obtain ⟨laid, whole, kind, text, trailing, kinds⟩ := h
  suffices hends : s.trail.last.kind = .eof ∧ s.trail.last.text = [] ∧
      s.trail.last.trailing = [] ∧ ∀ t ∈ s.trail.tokens, t.kind ≠ .eof by
    obtain ⟨kind, text, trailing, kinds⟩ := hends
    exact ⟨by simpa [lexemesOf_trail] using laid, by simpa [lexemesOf_trail] using whole, kind,
      text, trailing, kinds⟩
  unfold Stream.trail
  split
  next => exact ⟨kind, text, trailing, kinds⟩
  next t ts heq =>
    have hlast : (t :: ts).getLast? = some s.last := by rw [← heq]; simp [toList]
    have hfront : (t :: ts).dropLast = s.tokens := by rw [← heq]; simp [toList]
    have hmap := t.toLexeme_leadingToTrailing ts
    have htrailing := t.trailing_leadingToTrailing ts
    obtain ⟨u, hu⟩ : ∃ u, (t.leadingToTrailing ts).getLast? = some u := by
      cases hg : (t.leadingToTrailing ts).getLast? with
      | some u => exact ⟨u, rfl⟩
      | none => simp [hg, hlast] at htrailing
    have hcore : u.toLexeme = s.last.toLexeme := by
      have := congrArg List.getLast? hmap
      rw [List.getLast?_map, List.getLast?_map, hu, hlast] at this
      exact Option.some.inj this
    have hrest : (t.leadingToTrailing ts).dropLast.map Token.toLexeme =
        s.tokens.map Token.toLexeme := by
      rw [List.map_dropLast, hmap, ← List.map_dropLast, hfront]
    have hlast' : (ofList (t.leadingToTrailing ts)).last = u := by
      simp [ofList, List.getLastD_eq_getLast?, hu]
    refine ⟨?_, ?_, ?_, ?_⟩
    · rw [hlast', hcore, kind]
    · rw [hlast', hcore, text]
    · rw [hlast']
      simpa [hu, hlast, trailing] using htrailing
    · intro v hv
      have hmem := List.mem_map_of_mem (f := Token.toLexeme) hv
      rw [ofList, hrest] at hmem
      obtain ⟨w, hw, hwv⟩ := List.mem_map.mp hmem
      rw [← hwv]
      exact kinds w hw

theorem sound_ofText (config : Config) (t : Text) : Sound [] (ofText config t) := by
  obtain ⟨laid, whole, -, kinds⟩ := Lexeme.laid_ofText config.comments t
  have hs := sound_ofLexemes laid whole kinds
  unfold ofText
  split
  · exact hs.trail
  · exact hs

theorem render_ofText (config : Config) (t : Text) : (ofText config t).render = t := by
  obtain ⟨laid, -, text, -⟩ := Lexeme.laid_ofText config.comments t
  have hlexemes := lexemesOf_ofLexemes [] laid
  have hrender : Lexeme.render (Token.lexemesOf (ofText config t).toList) = t := by
    simp only [List.nil_append, Position.advance_nil, text] at hlexemes
    unfold ofText
    split
    · rw [lexemesOf_trail, hlexemes]
      simp [text, Lexeme.place]
    · rw [hlexemes]
      simp [text, Lexeme.place]
  rwa [Token.render_lexemesOf] at hrender

end Stream

end CssTree
