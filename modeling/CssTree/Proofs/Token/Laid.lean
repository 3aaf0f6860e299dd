import CssTree.Proofs.Text.Advance
import CssTree.Token.Comment

namespace CssTree

namespace Lexeme

@[simp] theorem render_nil : render [] = [] := rfl

@[simp] theorem render_cons (l : Lexeme) (ls : List Lexeme) :
    render (l :: ls) = l.text ++ render ls := rfl

@[simp] theorem render_append (xs ys : List Lexeme) :
    render (xs ++ ys) = render xs ++ render ys := List.flatMap_append

theorem flatten_texts (ls : List Lexeme) : (ls.map Lexeme.text).flatten = render ls := by
  simp [render, List.flatMap_def]

/-- Lexemes written one after another behind the text `before`. -/
def Laid (before : Text) : List Lexeme → Prop
  | [] => True
  | l :: ls => l.span = .behind before l.text ∧ Laid (before ++ l.text) ls

@[simp] theorem laid_nil (before : Text) : Laid before [] := trivial

theorem laid_cons {before : Text} {l : Lexeme} {ls : List Lexeme} :
    Laid before (l :: ls) ↔ l.span = .behind before l.text ∧ Laid (before ++ l.text) ls := Iff.rfl

theorem laid_append {before : Text} {xs ys : List Lexeme} :
    Laid before (xs ++ ys) ↔ Laid before xs ∧ Laid (before ++ render xs) ys := by
  induction xs generalizing before with
  | nil => simp
  | cons x xs ih => simp only [List.cons_append, laid_cons, ih, render_cons, List.append_assoc,
      and_assoc]

theorem Laid.start {before : Text} {l : Lexeme} {ls : List Lexeme} (h : Laid before (l :: ls)) :
    l.span.start = Position.origin.advance before := by
  rw [h.1, Span.start_behind]

theorem Laid.stop {before : Text} {ls : List Lexeme} {l : Lexeme} (h : Laid before (ls ++ [l])) :
    l.span.stop = Position.origin.advance (before ++ render (ls ++ [l])) := by
  rw [(laid_append.mp h).2.1, Span.stop_behind]
  simp

/-- The lexeme of a list of pieces is where its text says, if no line break is cut. -/
theorem laid_placeAll {before : Text} {pieces : List (TokenKind × Text)}
    (h : Unfused (before :: pieces.map (·.2))) :
    Laid before (placeAll (Position.origin.advance before) pieces) := by
  induction pieces generalizing before with
  | nil => trivial
  | cons piece pieces ih =>
    obtain ⟨kind, text⟩ := piece
    have hfirst : ¬Fuse before text := by
      intro hf
      refine h [before] (text :: pieces.map (·.2)) rfl ?_
      by_cases ht : text = []
      · simp [ht] at hf
      · simpa [fuse_append_right_iff ht] using hf
    have hrest : Unfused ((before ++ text) :: pieces.map (·.2)) := by
      simpa using Unfused.merge [] [before, text] (pieces.map (·.2)) (by simpa using h)
    refine ⟨Span.ofText_eq_behind hfirst, ?_⟩
    rw [← Position.advance_append hfirst]
    exact ih hrest

theorem render_placeAll (p : Position) (pieces : List (TokenKind × Text)) :
    render (placeAll p pieces) = (pieces.map (·.2)).flatten := by
  induction pieces generalizing p with
  | nil => rfl
  | cons piece pieces ih => simp [placeAll, place, ih]

theorem texts_placeAll (p : Position) (pieces : List (TokenKind × Text)) :
    (placeAll p pieces).map Lexeme.text = pieces.map (·.2) := by
  induction pieces generalizing p with
  | nil => rfl
  | cons piece pieces ih => simp [placeAll, place, ih]

/-- No line break is cut between lexemes. -/
def Whole (ls : List Lexeme) : Prop := Unfused (ls.map Lexeme.text)

instance (ls : List Lexeme) : Decidable (Whole ls) :=
  inferInstanceAs (Decidable (Unfused (ls.map Lexeme.text)))

end Lexeme

namespace Token

/-- A token with its trivia in source order. -/
def lexemes (t : Token) : List Lexeme := t.leading ++ t.toLexeme :: t.trailing

/-- The lexemes of tokens in source order. -/
def lexemesOf (ts : List Token) : List Lexeme := ts.flatMap lexemes

@[simp] theorem lexemesOf_nil : lexemesOf [] = [] := rfl

@[simp] theorem lexemesOf_cons (t : Token) (ts : List Token) :
    lexemesOf (t :: ts) = t.lexemes ++ lexemesOf ts := rfl

@[simp] theorem lexemesOf_append (ts us : List Token) :
    lexemesOf (ts ++ us) = lexemesOf ts ++ lexemesOf us := List.flatMap_append

@[simp] theorem renderAll_nil : renderAll [] = [] := rfl

@[simp] theorem renderAll_cons (t : Token) (ts : List Token) :
    renderAll (t :: ts) = t.render ++ renderAll ts := rfl

@[simp] theorem renderAll_append (ts us : List Token) :
    renderAll (ts ++ us) = renderAll ts ++ renderAll us := List.flatMap_append

theorem render_lexemes (t : Token) : Lexeme.render t.lexemes = t.render := by
  simp [lexemes, render]

theorem render_lexemesOf (ts : List Token) : Lexeme.render (lexemesOf ts) = renderAll ts := by
  induction ts with
  | nil => rfl
  | cons t ts ih => simp [render_lexemes, ih]

/-- A token that lies with its trivia behind the text `before`. -/
def Laid (before : Text) (t : Token) : Prop := Lexeme.Laid before t.lexemes

/-- Tokens that lie one after another behind the text `before`. -/
def LaidAll (before : Text) (ts : List Token) : Prop := Lexeme.Laid before (lexemesOf ts)

@[simp] theorem laidAll_nil (before : Text) : LaidAll before [] := trivial

theorem laidAll_append {before : Text} {ts us : List Token} :
    LaidAll before (ts ++ us) ↔ LaidAll before ts ∧ LaidAll (before ++ renderAll ts) us := by
  simp [LaidAll, Lexeme.laid_append, render_lexemesOf]

theorem laidAll_cons {before : Text} {t : Token} {ts : List Token} :
    LaidAll before (t :: ts) ↔ t.Laid before ∧ LaidAll (before ++ t.render) ts := by
  simp [LaidAll, Laid, Lexeme.laid_append, render_lexemes]

theorem Laid.fullSpan {before : Text} {t : Token} (h : t.Laid before) :
    t.fullSpan = .behind before t.render := by
  obtain ⟨hlead, hcore, htrail⟩ := Lexeme.laid_append.mp h
  have start : t.fullSpan.start = Position.origin.advance before := by
    cases hl : t.leading with
    | nil => simpa [Token.fullSpan, hl] using congrArg Span.start hcore
    | cons l ls =>
      rw [hl] at hlead
      simpa [Token.fullSpan, hl] using hlead.start
  have stop : t.fullSpan.stop = Position.origin.advance (before ++ t.render) := by
    rcases List.eq_nil_or_concat t.trailing with hl | ⟨ls, l, hl⟩
    · simp [Token.fullSpan, hl, hcore, render]
    · rw [List.concat_eq_append] at hl
      rw [hl] at htrail
      simpa [Token.fullSpan, hl, render] using htrail.stop
  exact Span.ext start stop

end Token

end CssTree
