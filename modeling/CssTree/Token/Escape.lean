import CssTree.Token.Character

namespace CssTree

/-- A text that starts with a backslash and something other than a line break. -/
def startsEscape : Text → Bool
  | '\\' :: c :: _ => !isNewline c
  | _ => false

/-- The length of the blank that belongs to the digits before it. -/
def escapeBlankLength (t : Text) : Nat :=
  match t with
  | c :: _ => if isNewline c then newlineLength t else if c = ' ' || c = '\t' then 1 else 0
  | [] => 0

/-- The length of an escape after its backslash. -/
def escapeLength (t : Text) : Nat :=
  match t with
  | [] => 0
  | c :: _ => if isHex c then hexLength t + escapeBlankLength (t.drop (hexLength t)) else 1

/-- The character written for what cannot be decoded. -/
def replacement : Char := '\uFFFD'

/-- The character of a code point; the replacement for zero and for what is no character. -/
def charOfCodePoint (n : Nat) : Char :=
  if n.isValidChar ∧ n ≠ 0 then Char.ofNat n else replacement

/-- The characters that a text denotes from the point where `skip` characters have been passed.
In a string, up to its closing quote, a backslash may hide a line break. -/
def unescapeFrom (quote : Option Char) : (skip : Nat) → Text → Text
  | _, [] => []
  | skip + 1, _ :: cs => unescapeFrom quote skip cs
  | 0, c :: cs =>
    if quote = some c then []
    else if c ≠ '\\' then c :: unescapeFrom quote 0 cs
    else match cs with
      | [] => if quote.isSome then [] else [replacement]
      | d :: _ =>
        if quote.isSome && isNewline d then unescapeFrom quote (newlineLength cs) cs
        else if isHex d then
          charOfCodePoint (hexNumber (cs.take (hexLength cs))) ::
            unescapeFrom quote (escapeLength cs) cs
        else d :: unescapeFrom quote 1 cs

/-- The text with its escapes replaced by what they denote. -/
def unescape (t : Text) : Text := unescapeFrom none 0 t

/-- What a string denotes, given the text after its opening quote. -/
def unescapeString (quote : Char) (t : Text) : Text := unescapeFrom (some quote) 0 t

theorem escapeLength_pos {c : Char} {cs : Text} : 0 < escapeLength (c :: cs) := by
  unfold escapeLength
  by_cases h : isHex c = true
  · simp only [h, hexLength, runLength, List.take_succ_cons, List.takeWhile_cons, ↓reduceIte,
      List.length_cons]
    omega
  · simp [h]

end CssTree
