import CssTree.Proofs.Token.Stream
import CssTree.Token.Reader

namespace CssTree

theorem text_cut_ne_nil {t : Text} : ∀ piece ∈ cut t, piece.2 ≠ [] := by
  induction t using cut.induct with
  | case1 => simp [cut]
  | case2 c cs kind n hfirst ih =>
    rw [cut]
    simpa [hfirst] using ih

theorem text_cutThroughComments_ne_nil {t : Text} :
    ∀ piece ∈ cutThroughComments t, piece.2 ≠ [] := by
  induction t using cutThroughComments.induct with
  | case1 => simp [cutThroughComments]
  | case2 c cs hcomment body rest hsplit ending ih =>
    rw [cutThroughComments, if_pos hcomment]
    intro piece hpiece
    simp only [List.cons_append, List.mem_cons, List.mem_append] at hpiece
    rcases hpiece with rfl | (hbody | hending) | hafter
    · simp
    · exact text_cut_ne_nil piece hbody
    · split at hending
      · simp at hending
      next hne =>
        obtain rfl := List.mem_singleton.mp hending
        simpa using hne
    · rw [hsplit] at hafter
      exact ih piece hafter
  | case3 c cs hcomment n ih =>
    rw [cutThroughComments, if_neg hcomment]
    intro piece hpiece
    rcases List.mem_cons.mp hpiece with rfl | hrest
    · simp
    · exact ih piece hrest

theorem Lexeme.text_ofText_ne_nil (comments : Bool) {t : Text} :
    ∀ l ∈ Lexeme.ofText comments t, l.text ≠ [] := by
  intro l hl
  have hmem := List.mem_map_of_mem (f := Lexeme.text) hl
  rw [Lexeme.ofText, Lexeme.texts_placeAll] at hmem
  obtain ⟨piece, hpiece, htext⟩ := List.mem_map.mp hmem
  rw [← htext]
  cases comments with
  | false => exact text_cut_ne_nil piece hpiece
  | true => exact text_cutThroughComments_ne_nil piece hpiece

namespace Token

/-- The tokens among lexemes, each with the trivia in front of it; `leading` was read before. -/
def attach (leading : List Lexeme) : List Lexeme → List Token
  | [] => []
  | l :: ls =>
    if l.kind.isTrivia then attach (leading ++ [l]) ls else .ofLexeme leading l :: attach [] ls

theorem attach_of_dropWhile (leading : List Lexeme) {ls rest : List Lexeme} {l : Lexeme}
    (h : ls.dropWhile (·.kind.isTrivia) = l :: rest) :
    attach leading ls =
      .ofLexeme (leading ++ ls.takeWhile (·.kind.isTrivia)) l :: attach [] rest := by
  induction ls generalizing leading with
  | nil => simp at h
  | cons m ls ih =>
    rw [attach, List.takeWhile_cons]
    rw [List.dropWhile_cons] at h
    by_cases hm : m.kind.isTrivia = true
    · rw [if_pos hm] at h ⊢
      rw [if_pos hm, ih _ h, List.append_assoc, List.singleton_append]
    · rw [if_neg hm] at h ⊢
      obtain ⟨rfl, rfl⟩ := List.cons.inj h
      rw [if_neg hm, List.append_nil]

/-- Tokens with the trivia up to the end of a line attached to the token before it. -/
def trailAll : List Token → List Token
  | [] => []
  | t :: ts => t.leadingToTrailing ts

end Token

namespace Stream

theorem toList_ofLexemes (p : Position) (leading ls : List Lexeme) :
    (ofLexemes p leading ls).toList =
      Token.attach leading
        (ls ++ [.place .eof [] ((ls.getLast?.map (·.span.stop)).getD p)]) := by
  induction ls generalizing p leading with
  | nil => rfl
  | cons l ls ih =>
    have hlast : (((l :: ls).getLast?.map (·.span.stop)).getD p) =
        (ls.getLast?.map (·.span.stop)).getD l.span.stop := by
      cases ls <;> simp [List.getLast?_cons]
    unfold ofLexemes
    rw [List.cons_append, Token.attach, hlast]
    split
    · exact ih _ _
    · rw [← ih]
      rfl

theorem toList_trail (s : Stream) : s.trail.toList = Token.trailAll s.toList := by
  unfold trail
  split
  next h => rw [h, Token.trailAll]
  next t ts h =>
    have hne : t.leadingToTrailing ts ≠ [] := by cases ts <;> simp [Token.leadingToTrailing]
    rw [toList_ofList hne, h, Token.trailAll]

end Stream

namespace Reader

/-- The lexemes from the next one to the end of the text lie ahead of a reader. -/
structure Fed (r : Reader) : Prop where
  last : r.last.kind = .eof
  pending : ∀ l ∈ r.pending, l.kind.isTrivia = false
  ahead : ∃ ls, r.pending.toList ++ r.ahead = ls ++ [r.last] ∧ ∀ l ∈ ls, l.kind ≠ .eof

/-- The tokens among what a reader has not given out. -/
def tokens (r : Reader) : List Token :=
  let ts := Token.attach r.carried (r.pending.toList ++ r.ahead)
  if r.trailing then Token.trailAll ts else ts

variable {r : Reader}

/-- Behind blanks there is still a lexeme ahead of the end. -/
theorem dropWhile_ahead {ls ahead : List Lexeme} {last : Lexeme} (hlast : last.kind = .eof)
    (hahead : ahead = ls ++ [last]) (hls : ∀ l ∈ ls, l.kind ≠ .eof) :
    ∃ l rest, ahead.dropWhile (·.kind.isTrivia) = l :: rest ∧ l.kind.isTrivia = false ∧
      ∃ ms, l :: rest = ms ++ [last] ∧ ∀ m ∈ ms, m.kind ≠ .eof := by
  have hlast' : last.kind.isTrivia = false := by rw [hlast]; rfl
  cases hdrop : ahead.dropWhile (·.kind.isTrivia) with
  | nil =>
    have hall := List.dropWhile_eq_nil_iff.mp hdrop last (by simp [hahead])
    simp [hlast'] at hall
  | cons l rest =>
    have hl : l.kind.isTrivia = false := by
      have hne : ahead.dropWhile (·.kind.isTrivia) ≠ [] := by simp [hdrop]
      have hhead := List.head_dropWhile_not (fun m : Lexeme => m.kind.isTrivia) hne
      simpa [hdrop] using hhead
    have hsplit := List.takeWhile_append_dropWhile (p := (·.kind.isTrivia)) (l := ahead)
    obtain ⟨ms, m, hms⟩ : ∃ ms m, l :: rest = ms ++ [m] :=
      ⟨_, _, (List.dropLast_append_getLast (List.cons_ne_nil l rest)).symm⟩
    rw [hdrop, hms, hahead, ← List.append_assoc] at hsplit
    obtain ⟨hfront, hm⟩ := List.append_inj' hsplit rfl
    obtain rfl : m = last := by simpa using hm
    exact ⟨l, rest, rfl, hl, ms, hms, fun x hx =>
      hls x (hfront ▸ List.mem_append_right _ hx)⟩

/-- A token given out is the first of those that were left, and the others are left then. -/
theorem tokens_give (leading : List Lexeme) {ahead ls : List Lexeme} {l : Lexeme}
    (hlast : r.last.kind = .eof) (hahead : l :: ahead = ls ++ [r.last]) (hls : ∀ m ∈ ls, m.kind ≠ .eof) :
    let ts := Token.ofLexeme leading l :: Token.attach [] ahead
    let (t, next) := r.give leading l ahead
    (if r.trailing then Token.trailAll ts else ts) = t :: next.tokens ∧
      (next.Fed ∨ next.owed = 0) := by
  intro ts
  unfold give
  by_cases hend : l.kind = .eof
  · obtain ⟨rfl, rfl⟩ : ls = [] ∧ ahead = [] := by
      cases ls with
      | nil => simpa using (List.cons.inj hahead).2
      | cons m ls =>
        obtain ⟨rfl, -⟩ := List.cons.inj hahead
        exact absurd hend (hls l List.mem_cons_self)
    rw [if_neg (by simp [hend])]
    refine ⟨?_, Or.inr rfl⟩
    cases htrailing : r.trailing <;>
      simp [ts, tokens, Token.attach, Token.trailAll, Token.leadingToTrailing]
  · obtain ⟨ms, rfl, hms⟩ : ∃ ms, ahead = ms ++ [r.last] ∧ ∀ m ∈ ms, m.kind ≠ .eof := by
      cases ls with
      | nil =>
        obtain ⟨rfl, -⟩ : l = r.last ∧ ahead = [] := by simpa using hahead
        exact absurd hlast hend
      | cons m ms =>
        exact ⟨ms, (List.cons.inj hahead).2, fun x hx => hls x (List.mem_cons_of_mem m hx)⟩
    cases htrailing : r.trailing with
    | false =>
      exact ⟨by simp [ts, tokens], Or.inl ⟨hlast, by simp, ms, rfl, hms⟩⟩
    | true =>
      obtain ⟨m, rest, hdrop, hm, hrest⟩ := dropWhile_ahead hlast rfl hms
      have hattach := Token.attach_of_dropWhile [] hdrop
      have hpending : ∀ cs : List Lexeme,
          Token.attach cs (m :: rest) = .ofLexeme cs m :: Token.attach [] rest := fun cs => by
        rw [Token.attach, if_neg (by simp [hm])]
      rw [if_pos (by simpa using hend)]
      refine ⟨?_, Or.inl ⟨hlast, ?_, ?_⟩⟩
      · simp only [if_true, ts, hattach, hdrop, tokens, List.head?_cons, List.tail_cons,
          Option.toList_some, List.singleton_append, hpending]
        rfl
      · simpa [hdrop] using hm
      · simpa [hdrop] using hrest

theorem tokens_next (h : r.Fed) :
    r.tokens = r.next.1 :: r.next.2.tokens ∧ (r.next.2.Fed ∨ r.next.2.owed = 0) := by
  obtain ⟨hlast, hpending, ls, hahead, hls⟩ := h
  rw [tokens]
  unfold next
  cases hp : r.pending with
  | some l =>
    have hl := hpending l (by simp [hp])
    rw [hp, Option.toList_some, List.singleton_append] at hahead
    have hgive := tokens_give r.carried hlast hahead hls
    have hattach : Token.attach r.carried (l :: r.ahead) =
        .ofLexeme r.carried l :: Token.attach [] r.ahead := by
      rw [Token.attach, if_neg (by simp [hl])]
    simpa only [Option.toList_some, List.singleton_append, hattach] using hgive
  | none =>
    rw [hp, Option.toList_none, List.nil_append] at hahead
    obtain ⟨l, rest, hdrop, -, ms, hrest, hms⟩ := dropWhile_ahead hlast hahead hls
    have hgive := tokens_give (r.carried ++ r.ahead.takeWhile (·.kind.isTrivia)) hlast hrest hms
    have hattach := Token.attach_of_dropWhile r.carried hdrop
    simpa only [Option.toList_none, List.nil_append, hattach, hdrop] using hgive

theorem tokens_eq_nil (h : r.owed = 0) : r.tokens = [] := by
  have hahead : r.ahead = [] := List.length_eq_zero_iff.mp (by unfold owed at h; omega)
  have hpending : r.pending.toList = [] := List.length_eq_zero_iff.mp (by unfold owed at h; omega)
  simp [tokens, hahead, hpending, Token.attach, Token.trailAll]

theorem drain_eq_tokens (h : r.Fed ∨ r.owed = 0) : r.drain = r.tokens := by
  induction r using drain.induct with
  | case1 r hzero => rw [drain, if_pos hzero, tokens_eq_nil hzero]
  | case2 r hne ih =>
    have hfed := h.resolve_right hne
    obtain ⟨htokens, hnext⟩ := tokens_next hfed
    rw [drain, if_neg hne, ih hnext, htokens]

theorem fed_ofText (config : Config) (t : Text) : (ofText config t).Fed :=
  ⟨rfl, by simp [ofText], Lexeme.ofText config.comments t, rfl,
    (Lexeme.laid_ofText config.comments t).2.2.2⟩

/-- Token by token a text is read as a whole. -/
theorem drain_ofText (config : Config) (t : Text) :
    (ofText config t).drain = (Stream.ofText config t).toList := by
  rw [drain_eq_tokens (Or.inl (fed_ofText config t)), Stream.ofText]
  have hlexemes := Stream.toList_ofLexemes .origin [] (Lexeme.ofText config.comments t)
  cases htrailing : config.trailing with
  | false => simp [tokens, ofText, htrailing, hlexemes]
  | true => simp [tokens, ofText, htrailing, hlexemes, Stream.toList_trail]

/-- Asked for a token again and again, a reader gives out `ts` and then none. -/
inductive Yields : Reader → List Token → Prop
  | done {r : Reader} (h : r.next? = none) : Yields r []
  | more {r r' : Reader} {t : Token} {ts : List Token} (h : r.next? = some (t, r'))
      (hrest : Yields r' ts) : Yields r (t :: ts)

theorem yields_drain (r : Reader) : r.Yields r.drain := by
  induction r using drain.induct with
  | case1 r hzero =>
    rw [drain, if_pos hzero]
    exact .done (by rw [next?, if_pos hzero])
  | case2 r hne ih =>
    rw [drain, if_neg hne]
    exact .more (by rw [next?, if_neg hne]) ih

end Reader

/-- Spans one behind the other that lead from `p` to `q`. -/
def Span.Tile (p q : Position) : List Span → Prop
  | [] => p = q
  | s :: ss => s.start = p ∧ Tile s.stop q ss

theorem Token.LaidAll.tile {before : Text} {ts : List Token} (h : LaidAll before ts) :
    Span.Tile (Position.origin.advance before)
      (Position.origin.advance (before ++ renderAll ts)) (ts.map Token.fullSpan) := by
  induction ts generalizing before with
  | nil => simp [Span.Tile]
  | cons t ts ih =>
    obtain ⟨hfirst, hrest⟩ := laidAll_cons.mp h
    have htile := ih hrest
    rw [List.append_assoc] at htile
    rw [List.map_cons, Span.Tile, hfirst.fullSpan, renderAll_cons]
    exact ⟨rfl, htile⟩

/-- In a laid out list a lexeme spans its text, written where the lexemes before it end. -/
theorem Lexeme.Laid.span_ofText {xs ys : List Lexeme} {l : Lexeme}
    (h : Laid [] (xs ++ l :: ys)) (hw : Whole (xs ++ l :: ys)) :
    l.span = .ofText (Position.origin.advance (render xs)) l.text := by
  have hspan := (laid_append.mp h).2.1
  have hfuse : ¬Fuse (render xs) l.text := by
    intro hf
    refine hw (xs.map Lexeme.text) ((l :: ys).map Lexeme.text) (by simp) ?_
    have hne : l.text ≠ [] := by
      intro hnil
      simp [hnil] at hf
    rw [flatten_texts, flatten_texts, render_cons, fuse_append_right_iff hne]
    exact hf
  rw [hspan, Span.ofText_eq_behind hfuse, List.nil_append]

theorem Lexeme.Whole.not_fuse {xs ys : List Lexeme} {l m : Lexeme}
    (h : Whole (xs ++ l :: m :: ys)) : ¬Fuse l.text m.text := by
  intro hf
  have hl : l.text ≠ [] := by
    intro hnil
    simp [hnil] at hf
  have hm : m.text ≠ [] := by
    intro hnil
    simp [hnil] at hf
  refine h ((xs ++ [l]).map Lexeme.text) ((m :: ys).map Lexeme.text) (by simp) ?_
  rw [flatten_texts, flatten_texts, render_append, render_cons, render_cons, render_nil,
    List.append_nil, fuse_append_left_iff hl, fuse_append_right_iff hm]
  exact hf

/-- The tokens that a reader gives out, in order, are a text. -/
structure Token.Cover (config : Config) (t : Text) (ts : List Token) : Prop where
  /-- One token marks the end of the text, and it is the last one; the others are not empty. -/
  ends : ∃ front last, ts = front ++ [last] ∧ last.kind = .eof ∧
    ∀ u ∈ front, u.kind ≠ .eof ∧ u.text ≠ []
  /-- With their trivia they are the lexemes of the text. -/
  lexemes : lexemesOf ts =
    Lexeme.ofText config.comments t ++ [.place .eof [] (Position.origin.advance t)]
  render : renderAll ts = t
  contiguous : Span.Tile .origin (Position.origin.advance t) (ts.map Token.fullSpan)
  placed : ∀ before l after, lexemesOf ts = before ++ l :: after →
    l.span = .ofText (Position.origin.advance (Lexeme.render before)) l.text
  /-- No line break is cut in two between lexemes. -/
  uncut : ∀ before l m after, lexemesOf ts = before ++ l :: m :: after → ¬Fuse l.text m.text

theorem Stream.lexemesOf_ofText (config : Config) (t : Text) :
    Token.lexemesOf (ofText config t).toList =
      Lexeme.ofText config.comments t ++ [.place .eof [] (Position.origin.advance t)] := by
  obtain ⟨laid, -, text, -⟩ := Lexeme.laid_ofText config.comments t
  have hlexemes := lexemesOf_ofLexemes [] laid
  simp only [List.nil_append, Position.advance_nil, text] at hlexemes
  unfold ofText
  split
  · rw [lexemesOf_trail, hlexemes]
  · exact hlexemes

theorem Stream.cover_ofText (config : Config) (t : Text) :
    Token.Cover config t (ofText config t).toList := by
  have hsound := sound_ofText config t
  have hlexemes := lexemesOf_ofText config t
  have hlaid := hsound.laid
  have hwhole := hsound.whole
  rw [List.nil_append] at hlaid hwhole
  have htext := render_ofText config t
  refine ⟨⟨_, _, rfl, hsound.last_kind, fun u hu => ?_⟩, hlexemes, htext, ?_, ?_, ?_⟩
  · have hkind := hsound.kinds u hu
    refine ⟨hkind, ?_⟩
    have hmem : u.toLexeme ∈ Token.lexemesOf (ofText config t).toList :=
      List.mem_flatMap.mpr ⟨u, List.mem_append_left _ hu, by simp [Token.lexemes]⟩
    rw [hlexemes] at hmem
    rcases List.mem_append.mp hmem with hmem | hmem
    · exact Lexeme.text_ofText_ne_nil _ _ hmem
    · exact absurd (congrArg Lexeme.kind (List.mem_singleton.mp hmem)) hkind
  · have htile := Token.LaidAll.tile hlaid
    rw [List.nil_append] at htile
    rwa [show Token.renderAll (ofText config t).toList = t from htext] at htile
  · intro before l after hsplit
    rw [hsplit] at hlaid hwhole
    exact hlaid.span_ofText hwhole
  · intro before l m after hsplit
    rw [hsplit] at hwhole
    exact hwhole.not_fuse

/-- Whatever the settings and the text, a reader stops, and what it has given out by then covers
the text: the end comes once and last, nothing is lost, and everything lies where its text says. -/
theorem Reader.yields_cover (config : Config) (t : Text) :
    ∃ ts, (Reader.ofText config t).Yields ts ∧ Token.Cover config t ts := by
  refine ⟨_, yields_drain _, ?_⟩
  rw [drain_ofText]
  exact Stream.cover_ofText config t

end CssTree
