import CssTree.Proofs.Token.Reader
import CssTree.Proofs.Token.Settle

namespace CssTree

namespace Lexeme

variable {xs ys : List Lexeme}

/-- All lexemes have text. -/
def Filled (ls : List Lexeme) : Prop := ∀ l ∈ ls, l.text ≠ []

@[simp] theorem filled_nil : Filled [] := by simp [Filled]

@[simp] theorem filled_append : Filled (xs ++ ys) ↔ Filled xs ∧ Filled ys := List.forall_mem_append

@[simp] theorem filled_cons {l : Lexeme} : Filled (l :: xs) ↔ l.text ≠ [] ∧ Filled xs :=
  List.forall_mem_cons

end Lexeme

theorem Token.filled_foldRun {run : List Token} (hrun : run ≠ [])
    (h : Lexeme.Filled (lexemesOf run)) : Lexeme.Filled (foldRun run) := by
  obtain ⟨hlexemes, hhead, -⟩ := lexemesOf_stripEnds hrun
  rw [hlexemes, Lexeme.filled_append, Lexeme.filled_append] at h
  obtain ⟨⟨hleading, hstripped⟩, htrailing⟩ := h
  obtain ⟨ls, hls⟩ := List.head?_eq_some_iff.mp hhead
  have hfirst : (run.headD default).text ≠ [] := by
    rw [hls, Lexeme.filled_cons] at hstripped
    exact hstripped.1
  have hcomment : renderAll (stripEnds run) ≠ [] := by
    rw [← render_lexemesOf, hls, Lexeme.render_cons, Ne, List.append_eq_nil_iff]
    exact fun hnil => hfirst hnil.1
  rw [foldRun, Lexeme.filled_append, Lexeme.filled_cons]
  exact ⟨hleading, hcomment, htrailing⟩

namespace Stream

variable {s s' : Stream}

/-- All that is left of a text but its end has text. -/
def Filled (s : Stream) : Prop := Lexeme.Filled (Token.lexemesOf s.tokens ++ s.last.leading)

theorem filled_prepend {ts : List Token} :
    (s.prepend ts).Filled ↔ Lexeme.Filled (Token.lexemesOf ts) ∧ s.Filled := by
  simp [Filled, prepend]

theorem Filled.prependLeading {trivia : List Lexeme} (htrivia : Lexeme.Filled trivia)
    (h : s.Filled) : (s.prependLeading trivia).Filled := by
  obtain ⟨tokens, last⟩ := s
  cases tokens with
  | nil => simpa [Filled, Stream.prependLeading] using ⟨htrivia, by simpa [Filled] using h⟩
  | cons t ts =>
    simp only [Filled, Stream.prependLeading, Token.lexemesOf_cons, Token.lexemes,
      Lexeme.filled_append] at h ⊢
    exact ⟨⟨⟨⟨htrivia, h.1.1.1⟩, h.1.1.2⟩, h.1.2⟩, h.2⟩

theorem Filled.foldFront (h : s.Filled) : s.foldFront.Filled := by
  induction s using Stream.foldFront.induct with
  | case1 last => rwa [Stream.foldFront]
  | case2 t ts last hopen ih =>
    rw [Stream.foldFront, if_pos hopen]
    rw [Filled, commentRun_cons t ts, Token.lexemesOf_append, Lexeme.filled_append,
      Lexeme.filled_append] at h
    refine ih (Filled.prependLeading (Token.filled_foldRun (by simp) h.1.1) ?_)
    exact Lexeme.filled_append.mpr ⟨h.1.2, h.2⟩
  | case3 t ts last hopen => rwa [Stream.foldFront, if_neg hopen]

theorem Refolds.filled (h : s.Refolds s') (hs : s.Filled) : s'.Filled := by
  induction h with
  | refl => exact hs
  | fold ts _ ih =>
    rw [filled_prepend] at ih ⊢
    exact ⟨ih.1, ih.2.foldFront⟩

theorem filled_ofText (config : Config) (t : Text) : (ofText config t).Filled := by
  have hsound := sound_ofText config t
  have hlexemes := lexemesOf_ofText config t
  have hlast : Token.lexemesOf [(ofText config t).last] =
      (ofText config t).last.leading ++ [(ofText config t).last.toLexeme] := by
    simp [Token.lexemes, hsound.last_trailing]
  rw [toList, Token.lexemesOf_append, hlast, ← List.append_assoc] at hlexemes
  have hfront := (List.append_inj' hlexemes rfl).1
  rw [Filled, hfront]
  exact Lexeme.text_ofText_ne_nil config.comments

end Stream

end CssTree
