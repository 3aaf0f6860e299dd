import CssTree.Token.Basic

namespace CssTree

/-- The text written so far. -/
structure Printer where
  buffer : Text := []
deriving DecidableEq, Inhabited

namespace Printer

def word (p : Printer) (t : Text) : Printer := ⟨p.buffer ++ t⟩

def char (p : Printer) (c : Char) : Printer := p.word [c]

def token (p : Printer) (t : Token) : Printer := p.word t.render

def tokens (p : Printer) (ts : List Token) : Printer := ts.foldl token p

theorem tokens_buffer (p : Printer) (ts : List Token) :
    (p.tokens ts).buffer = p.buffer ++ Token.renderAll ts := by
  induction ts generalizing p with
  | nil => simp [tokens, Token.renderAll]
  | cons t ts ih =>
    simp only [tokens, Token.renderAll, List.foldl_cons, List.flatMap_cons] at *
    rw [ih]
    simp [token, word]

end Printer

end CssTree
