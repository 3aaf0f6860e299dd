import CssTree.Token.Stream

namespace CssTree

/-- The tokens up to and with the end of a comment, and the tokens after it. -/
def commentRun : List Token → List Token × List Token
  | [] => ([], [])
  | t :: ts => if t.kind = .closeComment then ([t], ts) else (commentRun ts).map (t :: ·) id

/-- A run of tokens as one comment, between the trivia at its two ends. -/
def foldRun (run : List Token) : List Lexeme :=
  let first := run.headD default
  let last := run.getLastD default
  let comment : Lexeme :=
    ⟨.comment, Token.renderAll (Token.stripEnds run), ⟨first.span.start, last.span.stop⟩⟩
  first.leading ++ comment :: last.trailing

theorem commentRun_append (ts : List Token) : (commentRun ts).1 ++ (commentRun ts).2 = ts := by
  induction ts with
  | nil => rfl
  | cons t ts ih =>
    unfold commentRun
    split
    · rfl
    · simpa using ih

theorem commentRun_length (ts : List Token) : (commentRun ts).2.length ≤ ts.length := by
  have h := congrArg List.length (commentRun_append ts)
  rw [List.length_append] at h
  omega

namespace Stream

/-- Puts trivia in front of what leads the next token. -/
def prependLeading (trivia : List Lexeme) (s : Stream) : Stream :=
  let add := fun t : Token => { t with leading := trivia ++ t.leading }
  match s.tokens with
  | [] => { s with last := add s.last }
  | t :: ts => { s with tokens := add t :: ts }

theorem prependLeading_length (trivia : List Lexeme) (s : Stream) :
    (s.prependLeading trivia).tokens.length = s.tokens.length := by
  unfold prependLeading
  split
  next h => simp [h]
  next h => simp [h]

/-- Folds comments until the next token starts none. -/
def foldFront : Stream → Stream
  | ⟨[], last⟩ => ⟨[], last⟩
  | ⟨t :: ts, last⟩ =>
    if t.kind = .openComment then
      (prependLeading (foldRun (t :: (commentRun ts).1)) ⟨(commentRun ts).2, last⟩).foldFront
    else ⟨t :: ts, last⟩
termination_by s => s.tokens.length
decreasing_by
  have := commentRun_length ts
  rw [prependLeading_length]
  simp only [List.length_cons]
  omega

/-- Folds comments until none of the next `n + 1` tokens starts one. -/
def settle : (n : Nat) → Stream → Stream
  | 0, s => s.foldFront
  | n + 1, s =>
    let s := s.foldFront
    match s.tokens with
    | [] => s
    | t :: ts => (settle n ⟨ts, s.last⟩).prepend [t]

/-- The token after the next `n`. -/
def nth (n : Nat) (s : Stream) : Token := s.tokens.getD n s.last

end Stream

end CssTree
