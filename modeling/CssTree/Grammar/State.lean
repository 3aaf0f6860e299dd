import CssTree.Punctuated
import CssTree.Token.Comment
import CssTree.Tree.Arena
import CssTree.Tree.Span

namespace CssTree.Grammar

/-- Where parsing stands. An attempt that fails puts back the tokens taken and frees the nodes made
since its start; comments that were folded on the way stay folded. -/
structure State where
  /-- The tokens taken, the latest first. -/
  taken : List Token
  upcoming : Stream
  /-- Where the last token taken stops; nodes without elements lie there. -/
  place : Position
  guard : Guard
  /-- The number of nesting levels that may be entered. -/
  limit : Nat
  arena : Arena
  /-- The nodes made, the latest first. -/
  created : List NodeId
  /-- The levels that the guard refused to enter, the latest first; a failed attempt leaves them
  noted. -/
  refused : List DepthError

/-- The state before the first token of a text, which is read into an arena. -/
def State.start (config : Config) (arena : Arena) (t : Text) : State :=
  ⟨[], .ofText config t, .origin, {}, config.maxDepth, arena, [], []⟩

/-- A step that gives a result. -/
abbrev Parser := StateM State

/-- A step that gives a result or fails. A failure leaves the state where it arose. -/
abbrev Attempt := OptionT Parser

namespace State

/-- The state `mark` with the tokens taken since put back and the nodes made since freed. -/
def rewind (mark s : State) : State :=
  let taken := s.taken.take (s.taken.length - mark.taken.length)
  let created := s.created.take (s.created.length - mark.created.length)
  { mark with
    upcoming := s.upcoming.prepend taken.reverse
    arena := created.foldl (fun a id => a.remove id) s.arena
    refused := s.refused }

/-- The next token and the state after it; the end of the text is never passed. -/
def take (s : State) : Token × State :=
  match s.upcoming.tokens with
  | [] => (s.upcoming.last, { s with place := s.upcoming.last.fullSpan.stop })
  | t :: ts =>
    (t, { s with
      taken := t :: s.taken, upcoming := ⟨ts, s.upcoming.last⟩, place := t.fullSpan.stop })

/-- Comments folded up to the token after the next `n`. -/
def settle (n : Nat) (s : State) : State := { s with upcoming := s.upcoming.settle n }

end State

/-- The kind of the next token, a comment that starts there left as it is. -/
def rawKind : Parser TokenKind := do return (← get).upcoming.head.kind

/-- The token after the next `n`. -/
def nth (n : Nat) : Parser Token := do
  modify (·.settle n)
  return (← get).upcoming.nth n

def peek : Parser Token := nth 0

def peekKind : Parser TokenKind := do return (← peek).kind

def atDelim (c : Char) : Parser Bool := do return (← peek).isDelim c

/-- Takes the next token, a comment that starts there left as it is. -/
def bumpRaw : Parser Token := modifyGet State.take

/-- Takes the next token. -/
def bump : Parser Token := do
  modify (·.settle 0)
  bumpRaw

/-- Takes the next token if it is of a kind. -/
def eat (kind : TokenKind) : Parser (Option Token) := do
  if (← peekKind) = kind then return some (← bump) else return none

/-- Takes the next token, which has to be of a kind. -/
def require (kind : TokenKind) : Attempt Token := OptionT.mk (eat kind)

/-- No trivia stands between the token taken last and the next one. -/
def touchesTaken : Parser Bool := do
  let trailed := (← get).taken.head?.any (!·.trailing.isEmpty)
  if trailed then return false
  return (← peek).leading.isEmpty

/-- No trivia stands between the token after the next `n` and the one that follows it. -/
def touchesNext (n : Nat) : Parser Bool := do
  if (← nth n).trailing.isEmpty then return (← nth (n + 1)).leading.isEmpty
  return false

/-- Runs `p`; if it fails, the tokens that it took are put back and the nodes that it made are
freed. -/
def attempt {α : Type} (p : Attempt α) : Parser (Option α) := do
  let mark ← get
  let result ← p.run
  if result.isNone then modify mark.rewind
  return result

/-- A new node of a kind with given elements. It becomes the parent of those that are nodes. -/
def node (kind : NodeKind) (elements : List Element) : Parser Node := do
  let s ← get
  let (id, arena) := s.arena.insert none
  let n : Node := ⟨id, kind, (Element.spanOf? elements).getD (.point s.place), elements⟩
  set { s with arena := arena.adopt id n.children, created := id :: s.created }
  return n

/-- Enters a nesting level; false at the limit, where the refusal is noted. -/
def enter : Parser Bool := do
  let s ← get
  match s.guard.enter s.limit with
  | .ok guard =>
    set { s with guard }
    return true
  | .error e =>
    set { s with refused := e :: s.refused }
    return false

def exit : Parser Unit := modify fun s => { s with guard := s.guard.exit }

/-- The results of `item` until it fails, at most `n`. -/
def collect {α : Type} (item : Attempt α) : (n : Nat) → Parser (List α)
  | 0 => return []
  | n + 1 => do
    match ← item.run with
    | none => return []
    | some x => return x :: (← collect item n)

/-- The results of `item` until it fails. Each success takes a token, so that the number of
tokens bounds the number of results. -/
def many {α : Type} (item : Attempt α) : Parser (List α) := do
  collect item (← get).upcoming.length

/-- Results of `item` with commas between them, at most `n`. -/
def collectSeparated {α : Type} (item : Attempt α) : (n : Nat) → Attempt (List (α × Option Token))
  | 0 => failure
  | n + 1 => do
    let x ← item
    match ← OptionT.lift (eat .comma) with
    | none => return [(x, none)]
    | some comma => return (x, some comma) :: (← collectSeparated item n)

/-- One or more results of `item` with commas between them. -/
def separated {α : Type} (item : Attempt α) : Attempt (Punctuated α Token) := do
  return ⟨← collectSeparated item ((← get).upcoming.length + 1)⟩

/-- The elements of a list of nodes with separators. -/
def punctuatedNodes (l : Punctuated Node Token) : List Element :=
  l.pairs.flatMap fun (n, separator) => .node n :: Element.ofToken? separator

/-- The elements of a list of tokens with separators. -/
def punctuatedTokens (l : Punctuated Token Token) : List Element :=
  l.pairs.flatMap fun (t, separator) => .token t :: Element.ofToken? separator

/-- The kinds that close the brackets open behind a token of a kind. -/
def expectedAfter (kind : TokenKind) (expected : List TokenKind) : List TokenKind :=
  match kind.closing? with
  | some close => close :: expected
  | none => if expected.head? = some kind then expected.tail else expected

/-- Takes a token, or a whole block if the token opens one; `expected` are the kinds that close
the brackets open so far. -/
def balancedFrom (expected : List TokenKind) : (n : Nat) → Parser (List Token)
  | 0 => return []
  | n + 1 => do
    let kind ← peekKind
    if kind = .eof then return []
    else
      let t ← bump
      let expected := expectedAfter kind expected
      if expected.isEmpty then return [t] else return t :: (← balancedFrom expected n)

/-- Takes a token, or a whole block if the token opens one. -/
def balanced : Parser (List Token) := do balancedFrom [] (← get).upcoming.length

/-- What stops the capture of text that fits nowhere. -/
structure Recovery where
  /-- Kinds that capture stops in front of. -/
  before : List TokenKind
  /-- Kinds that capture stops behind. -/
  behind : List TokenKind
  /-- Capture stops behind a block in braces. -/
  blockEnds : Bool

/-- Captures tokens up to a place where parsing can go on. -/
def captureTokens (r : Recovery) : (n : Nat) → Parser (List Token)
  | 0 => return []
  | n + 1 => do
    let kind ← peekKind
    if kind = .eof || kind ∈ r.before then return []
    else if kind ∈ r.behind then return [← bump]
    else
      let ts ← balanced
      if r.blockEnds && kind = .openBrace then return ts
      else return ts ++ (← captureTokens r n)

/-- A node of captured tokens. -/
def errorNode (ts : List Token) : Parser Node := node .error (ts.map .token)

/-- Captures text that fits nowhere. -/
def recover (r : Recovery) : Parser Node := do
  errorNode (← captureTokens r (← get).upcoming.length)

/-- Captures a block that is nested too deeply. -/
def recoverBlock : Parser Node := do errorNode (← balanced)

end CssTree.Grammar
