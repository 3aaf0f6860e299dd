import CssTree.Token.Stream

namespace CssTree

/-- A place between two tokens of a text. -/
structure Reader where
  /-- The lexemes not looked at yet. -/
  ahead : List Lexeme
  /-- The end of the text, which is given out again and again once it is reached. -/
  last : Lexeme
  /-- Trivia looked at that leads the next token. -/
  carried : List Lexeme := []
  /-- A lexeme looked at that is the next token. -/
  pending : Option Lexeme := none
  /-- Trivia up to the end of the line belongs to the token before it. -/
  trailing : Bool
deriving DecidableEq, Inhabited

namespace Reader

/-- A reader at the start of a text. -/
def ofText (config : Config) (t : Text) : Reader :=
  let lexemes := Lexeme.ofText config.comments t
  let last := Lexeme.place .eof [] ((lexemes.getLast?.map (·.span.stop)).getD .origin)
  { ahead := lexemes ++ [last], last, trailing := config.trailing }

/-- Gives out the token of `l`, with `ahead` the lexemes after it. -/
def give (r : Reader) (leading : List Lexeme) (l : Lexeme) (ahead : List Lexeme) :
    Token × Reader :=
  let token := Token.ofLexeme leading l
  if r.trailing && l.kind ≠ .eof then
    let trivia := ahead.takeWhile (·.kind.isTrivia)
    let rest := ahead.dropWhile (·.kind.isTrivia)
    ({ token with trailing := trivia.takeWhile (!·.breaksLine) },
      { r with
        carried := trivia.dropWhile (!·.breaksLine), pending := rest.head?, ahead := rest.tail })
  else (token, { r with carried := [], pending := none, ahead })

/-- The next token and the reader behind it. -/
def next (r : Reader) : Token × Reader :=
  match r.pending with
  | some l => r.give r.carried l r.ahead
  | none =>
    let leading := r.carried ++ r.ahead.takeWhile (·.kind.isTrivia)
    match r.ahead.dropWhile (·.kind.isTrivia) with
    | l :: ls => r.give leading l ls
    | [] => r.give leading r.last []

/-- The number of lexemes that have not been given out. -/
def owed (r : Reader) : Nat := r.ahead.length + r.carried.length + r.pending.toList.length

theorem owed_give_le (r : Reader) (leading : List Lexeme) (l : Lexeme) (ahead : List Lexeme) :
    (r.give leading l ahead).2.owed ≤ ahead.length := by
  unfold give
  split
  · have hsplit := congrArg List.length
      (List.takeWhile_append_dropWhile (p := (·.kind.isTrivia)) (l := ahead))
    have hdrop := (List.dropWhile_suffix (!·.breaksLine)
      (l := ahead.takeWhile (·.kind.isTrivia))).length_le
    rw [List.length_append] at hsplit
    simp only [owed]
    cases hrest : ahead.dropWhile (·.kind.isTrivia) with
    | nil =>
      rw [hrest] at hsplit
      simp only [List.head?_nil, List.tail_nil, Option.toList_none, List.length_nil] at *
      omega
    | cons x xs =>
      rw [hrest] at hsplit
      simp only [List.head?_cons, List.tail_cons, Option.toList_some, List.length_cons,
        List.length_nil] at *
      omega
  · simp only [owed, Option.toList_none, List.length_nil]
    omega

/-- Each token uses up a lexeme as long as there are any. -/
theorem owed_next_lt {r : Reader} (h : r.owed ≠ 0) : r.next.2.owed < r.owed := by
  unfold next
  split
  next l hl =>
    have hgive := r.owed_give_le r.carried l r.ahead
    simp only [owed, hl, Option.toList_some, List.length_cons] at *
    omega
  next hl =>
    have hsuffix := (List.dropWhile_suffix (·.kind.isTrivia) (l := r.ahead)).length_le
    split
    next l ls hls =>
      have hgive := r.owed_give_le (r.carried ++ r.ahead.takeWhile (·.kind.isTrivia)) l ls
      rw [hls] at hsuffix
      simp only [owed, hl, Option.toList_none, List.length_cons, List.length_nil] at *
      omega
    next hls =>
      have hgive := r.owed_give_le (r.carried ++ r.ahead.takeWhile (·.kind.isTrivia)) r.last []
      exact Nat.lt_of_le_of_lt hgive (Nat.pos_of_ne_zero h)

/-- The next token, unless everything has been given out. -/
def next? (r : Reader) : Option (Token × Reader) := if r.owed = 0 then none else some r.next

/-- The next `n` tokens and the reader behind them. -/
def read : (n : Nat) → Reader → List Token × Reader
  | 0, r => ([], r)
  | n + 1, r => (read n r.next.2).map (r.next.1 :: ·) id

/-- All tokens that have not been given out. -/
def drain (r : Reader) : List Token :=
  if r.owed = 0 then [] else r.next.1 :: drain r.next.2
termination_by r.owed
decreasing_by exact owed_next_lt ‹_›

end Reader

end CssTree
