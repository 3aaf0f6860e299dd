import CssTree.Text.Span
import CssTree.Token.CodePoints
import CssTree.Token.Number
import CssTree.Token.Quoted
import CssTree.Token.Url

namespace CssTree

/-- The text before the first end of a comment, and the text from there on. -/
def splitComment : Text → Text × Text
  | [] => ([], [])
  | c :: cs =>
    if c = '*' ∧ cs.head? = some '/' then ([], c :: cs)
    else (splitComment cs).map (c :: ·) id

/-- The kind and the length of the number at the start of a text. -/
def numericLexeme (t : Text) : TokenKind × Nat :=
  let n := numberLength t
  let rest := t.drop n
  if rest.head? = some '%' then (.percentage, n + 1)
  else if startsName rest then (.dimension, n + nameLength rest)
  else (.number, n)

/-- The kind and the length of what a name starts: a range of code points, a function, an
address, or the name itself. -/
def nameLexeme (t : Text) : TokenKind × Nat :=
  match codePointsLength? t with
  | some n => (.codePoints, n)
  | none =>
    let n := nameLength t
    match t.drop n with
    | '(' :: body =>
      let quoted := (body.drop (blankLength body)).head?.any fun c => c = '"' || c = '\''
      if SameName (unescape (t.take n)) ['u', 'r', 'l'] ∧ ¬quoted then
        (urlTail body).map id (· + (n + 1))
      else (.function, n + 1)
    | _ => (.ident, n)

/-- The kind of a lexeme that is one character. -/
def punctuation? : Char → Option TokenKind
  | '{' => some .openBrace
  | '}' => some .closeBrace
  | '(' => some .openParen
  | ')' => some .closeParen
  | '[' => some .openBracket
  | ']' => some .closeBracket
  | ':' => some .colon
  | ';' => some .semicolon
  | ',' => some .comma
  | _ => none

/-- The kind of a lexeme that is two characters. -/
def digraph? : Char → Char → Option TokenKind
  | '~', '=' => some .includeMatch
  | '|', '=' => some .dashMatch
  | '^', '=' => some .prefixMatch
  | '$', '=' => some .suffixMatch
  | '*', '=' => some .substringMatch
  | '|', '|' => some .column
  | _, _ => none

/-- The kind and the length of the lexeme that starts with `c` and is no fixed text. -/
def scannedLexeme (c : Char) (cs : Text) : TokenKind × Nat :=
  if isBlank c then (.whitespace, blankLength (c :: cs))
  else if c = '"' || c = '\'' then quotedLexeme c cs
  else if startsNumber (c :: cs) then numericLexeme (c :: cs)
  else if startsName (c :: cs) then nameLexeme (c :: cs)
  else if c = '#' && (cs.head?.any isNameChar || startsEscape cs) then (.hash, nameLength cs + 1)
  else if c = '@' && startsName cs then (.atKeyword, nameLength cs + 1)
  else (.delim, 1)

/-- The kind and the length of the lexeme at the start of a text. -/
def firstLexeme : Text → TokenKind × Nat
  | [] => (.eof, 0)
  | [c] => ((punctuation? c).map (·, 1)).getD (scannedLexeme c [])
  | c :: d :: cs =>
    if c = '/' ∧ d = '*' then
      let (body, rest) := splitComment cs
      (.comment, 2 + body.length + min 2 rest.length)
    else match punctuation? c, digraph? c d with
      | some kind, _ => (kind, 1)
      | none, some kind => (kind, 2)
      | none, none => scannedLexeme c (d :: cs)

/-- A text cut into lexemes. -/
def cut : Text → List (TokenKind × Text)
  | [] => []
  | c :: cs =>
    let (kind, n) := firstLexeme (c :: cs)
    (kind, c :: cs.take (n - 1)) :: cut (cs.drop (n - 1))
termination_by t => t.length
decreasing_by simp only [List.length_drop, List.length_cons]; omega

/-- A text cut into lexemes, the bodies of comments as well. -/
def cutThroughComments (t : Text) : List (TokenKind × Text) :=
  match t with
  | [] => []
  | c :: cs =>
    if c = '/' ∧ cs.head? = some '*' then
      let (body, rest) := splitComment (cs.drop 1)
      let ending := rest.take 2
      (.openComment, ['/', '*']) :: cut body ++
        (if ending.isEmpty then [] else [(.closeComment, ending)]) ++
        cutThroughComments ((cs.drop 1).drop (body.length + ending.length))
    else
      let n := (firstLexeme (c :: cs)).2
      ((firstLexeme (c :: cs)).1, c :: cs.take (n - 1)) :: cutThroughComments (cs.drop (n - 1))
termination_by t.length
decreasing_by all_goals simp only [List.length_drop, List.length_cons]; omega

/-- A piece of text with its kind and its place. -/
structure Lexeme where
  kind : TokenKind
  text : Text
  span : Span
deriving DecidableEq, Inhabited

namespace Lexeme

/-- A lexeme written at a position. -/
def place (kind : TokenKind) (text : Text) (p : Position) : Lexeme := ⟨kind, text, .ofText p text⟩

/-- Lexemes written one after another. -/
def placeAll (p : Position) : List (TokenKind × Text) → List Lexeme
  | [] => []
  | (kind, text) :: rest => place kind text p :: placeAll (p.advance text) rest

/-- The lexemes of a text; `comments` says whether comments are cut as well. -/
def ofText (comments : Bool) (t : Text) : List Lexeme :=
  placeAll .origin (if comments then cutThroughComments t else cut t)

/-- The text of lexemes one after another. -/
def render (ls : List Lexeme) : Text := ls.flatMap Lexeme.text

/-- A line ends inside the lexeme. -/
def breaksLine (l : Lexeme) : Bool := l.text.any isNewline

end Lexeme

end CssTree
