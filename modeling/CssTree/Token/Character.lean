import CssTree.Text.Position

namespace CssTree

def isNewline (c : Char) : Bool := c = '\n' || c = '\r' || c = '\x0c'

def isBlank (c : Char) : Bool := c = ' ' || c = '\t' || isNewline c

/-- Letters, the underscore and everything beyond ASCII. -/
def isNameStart (c : Char) : Bool := c.isAlpha || c = '_' || 128 ≤ c.toNat

def isNameChar (c : Char) : Bool := isNameStart c || c.isDigit || c = '-'

def isNonPrintable (c : Char) : Bool :=
  c.toNat ≤ 8 || c.toNat = 0x0b || (0x0e ≤ c.toNat && c.toNat ≤ 0x1f) || c.toNat = 0x7f

/-- The value of a hexadecimal digit. -/
def hexValue? (c : Char) : Option Nat :=
  if c.isDigit then some (c.toNat - '0'.toNat)
  else if 'a' ≤ c ∧ c ≤ 'f' then some (c.toNat - 'a'.toNat + 10)
  else if 'A' ≤ c ∧ c ≤ 'F' then some (c.toNat - 'A'.toNat + 10)
  else none

def isHex (c : Char) : Bool := (hexValue? c).isSome

/-- The number that hexadecimal digits denote. -/
def hexNumber (t : Text) : Nat := t.foldl (fun n c => 16 * n + (hexValue? c).getD 0) 0

/-- How many characters at the start of a text satisfy `p`. -/
def runLength (p : Char → Bool) (t : Text) : Nat := (t.takeWhile p).length

/-- How many characters at the start of a text are blank. -/
def blankLength (t : Text) : Nat := runLength isBlank t

/-- How many of the first six characters of a text are leading hexadecimal digits. -/
def hexLength (t : Text) : Nat := runLength isHex (t.take 6)

/-- The length of a line break at the start of a text. -/
def newlineLength : Text → Nat
  | '\r' :: '\n' :: _ => 2
  | c :: _ => if isNewline c then 1 else 0
  | [] => 0

/-- A text with ASCII capitals made small. -/
def lowerCase (t : Text) : Text := t.map Char.toLower

/-- Equal but for the case of ASCII letters. -/
def SameName (s t : Text) : Prop := lowerCase s = lowerCase t

instance (s t : Text) : Decidable (SameName s t) :=
  inferInstanceAs (Decidable (lowerCase s = lowerCase t))

/-- A text without the blank characters at its two ends. -/
def trimBlanks (t : Text) : Text :=
  ((t.dropWhile isBlank).reverse.dropWhile isBlank).reverse

theorem runLength_le (p : Char → Bool) (t : Text) : runLength p t ≤ t.length :=
  (List.takeWhile_prefix p).length_le

theorem take_runLength (p : Char → Bool) (t : Text) : t.take (runLength p t) = t.takeWhile p :=
  List.prefix_iff_eq_take.mp (List.takeWhile_prefix p) |>.symm

theorem hexLength_le (t : Text) : hexLength t ≤ 6 :=
  Nat.le_trans (runLength_le _ _) (List.length_take_le 6 t)

end CssTree
