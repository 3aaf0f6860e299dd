import CssTree.Token.Value

namespace CssTree

/-- A lexeme with its value and the whitespace and comments around it. -/
structure Token extends Lexeme where
  value : Option TokenValue
  leading : List Lexeme
  trailing : List Lexeme
deriving DecidableEq, Inhabited

namespace Token

/-- A token with the value that its text has. -/
def ofLexeme (leading : List Lexeme) (l : Lexeme) : Token :=
  ⟨l, TokenValue.decode? l.kind l.text, leading, []⟩

/-- A token written at a position, with no trivia. -/
def place (kind : TokenKind) (text : Text) (p : Position) : Token :=
  ofLexeme [] (.place kind text p)

/-- The text of a token with its trivia. -/
def render (t : Token) : Text := Lexeme.render t.leading ++ t.text ++ Lexeme.render t.trailing

/-- The text of tokens one after another. -/
def renderAll (ts : List Token) : Text := ts.flatMap render

/-- The span of a token with its trivia. -/
def fullSpan (t : Token) : Span :=
  ⟨(t.leading.head?.map (·.span.start)).getD t.span.start,
    (t.trailing.getLast?.map (·.span.stop)).getD t.span.stop⟩

/-- The single character `c`, with no role of its own. -/
def isDelim (t : Token) (c : Char) : Bool := t.kind = .delim && t.text = [c]

/-- The decoded text of a name, string or address, or the unit of a dimension. -/
def name? (t : Token) : Option Text :=
  match t.value with
  | some (.text s) | some (.dimension _ s) => some s
  | _ => none

/-- The number of a number, percentage or dimension. -/
def number? (t : Token) : Option Decimal :=
  match t.value with
  | some (.number d) | some (.dimension d _) => some d
  | _ => none

def codePoints? (t : Token) : Option CodePointRange :=
  match t.value with
  | some (.codePoints r) => some r
  | _ => none

/-- The name of a token, whatever its letter case. -/
def hasName (t : Token) (name : Text) : Bool := t.name?.any (SameName · name)

/-- An identifier, whatever its letter case. -/
def isIdent (t : Token) (name : Text) : Bool := t.kind = .ident && t.hasName name

def leadingText (t : Token) : Text := Lexeme.render t.leading

def trailingText (t : Token) : Text := Lexeme.render t.trailing

/-- Moves the token and its trivia. -/
def mapSpans (f : Span → Span) (t : Token) : Token :=
  let move := fun l : Lexeme => { l with span := f l.span }
  { t with span := f t.span, leading := t.leading.map move, trailing := t.trailing.map move }

/-- Shifts the token and its trivia. -/
def shift (originLine : Nat) (lines columns : Int) (t : Token) : Token :=
  t.mapSpans (·.shift originLine lines columns)

end Token

end CssTree
