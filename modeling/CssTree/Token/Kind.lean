namespace CssTree

/-- What a lexeme is. -/
inductive TokenKind where
  | ident
  | function
  | atKeyword
  | hash
  | string
  | badString
  | url
  | badUrl
  | number
  | dimension
  | percentage
  | codePoints
  | delim
  | includeMatch
  | dashMatch
  | prefixMatch
  | suffixMatch
  | substringMatch
  | column
  | comment
  | openComment
  | closeComment
  | whitespace
  | colon
  | semicolon
  | comma
  | openBrace
  | closeBrace
  | openParen
  | closeParen
  | openBracket
  | closeBracket
  | eof
deriving DecidableEq, Inhabited

namespace TokenKind

/-- The name under which a kind is reported. -/
def name : TokenKind → String
  | ident => "IDENT"
  | function => "FUNCTION"
  | atKeyword => "AT_KEYWORD"
  | hash => "HASH"
  | string => "STRING"
  | badString => "BAD_STRING"
  | url => "URL"
  | badUrl => "BAD_URL"
  | number => "NUMBER"
  | dimension => "DIMENSION"
  | percentage => "PERCENTAGE"
  | codePoints => "UNICODE_RANGE"
  | delim => "DELIM"
  | includeMatch => "INCLUDE_MATCH"
  | dashMatch => "DASH_MATCH"
  | prefixMatch => "PREFIX_MATCH"
  | suffixMatch => "SUFFIX_MATCH"
  | substringMatch => "SUBSTRING_MATCH"
  | column => "COLUMN"
  | comment => "COMMENT"
  | openComment => "LCOMMENT"
  | closeComment => "RCOMMENT"
  | whitespace => "WHITESPACE"
  | colon => "COLON"
  | semicolon => "SEMICOLON"
  | comma => "COMMA"
  | openBrace => "LBRACE"
  | closeBrace => "RBRACE"
  | openParen => "LPAREN"
  | closeParen => "RPAREN"
  | openBracket => "LBRACKET"
  | closeBracket => "RBRACKET"
  | eof => "EOF"

/-- Whitespace and comments, which attach to other tokens. -/
def isTrivia : TokenKind → Bool
  | whitespace | comment => true
  | _ => false

/-- The kind that closes a bracket of this kind. -/
def closing? : TokenKind → Option TokenKind
  | openBrace => some closeBrace
  | openParen | function => some closeParen
  | openBracket => some closeBracket
  | _ => none

instance : ToString TokenKind := ⟨name⟩

end TokenKind

end CssTree
