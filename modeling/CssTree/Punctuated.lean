namespace CssTree

/-- Values in order, each with the separator that follows it. -/
structure Punctuated (α β : Type) where
  pairs : List (α × Option β)
deriving DecidableEq, Inhabited

namespace Punctuated

variable {α β : Type}

def empty : Punctuated α β := ⟨[]⟩

/-- The values without separators. -/
def ofList (xs : List α) : Punctuated α β := ⟨xs.map (·, none)⟩

def values (l : Punctuated α β) : List α := l.pairs.map (·.1)

def size (l : Punctuated α β) : Nat := l.pairs.length

def isEmpty (l : Punctuated α β) : Bool := l.pairs.isEmpty

/-- Adds a value without a separator. -/
def push (l : Punctuated α β) (x : α) : Punctuated α β := ⟨l.pairs ++ [(x, none)]⟩

/-- Puts a separator after the last value; an empty list stays empty. -/
def pushSeparator (l : Punctuated α β) (s : β) : Punctuated α β :=
  ⟨l.pairs.modify (l.size - 1) fun (x, _) => (x, some s)⟩

/-- A separator follows the last value. -/
def endsSeparated (l : Punctuated α β) : Bool := l.pairs.getLast?.any (·.2.isSome)

def get? (l : Punctuated α β) (i : Nat) : Option α := l.pairs[i]?.map (·.1)

/-- The separator after the value at `i`. -/
def separator? (l : Punctuated α β) (i : Nat) : Option β := l.pairs[i]?.bind (·.2)

/-- Exchanges the separator after the value at `i` with `s` and gives the old one; past the
end `s` itself comes back. -/
def setSeparator (l : Punctuated α β) (i : Nat) (s : Option β) : Option β × Punctuated α β :=
  match l.pairs[i]? with
  | some (x, old) => (old, ⟨l.pairs.set i (x, s)⟩)
  | none => (s, l)

/-- Puts a value and its separator before the value at `i`; none past the end. -/
def insert? (l : Punctuated α β) (i : Nat) (x : α) (s : Option β) : Option (Punctuated α β) :=
  if i ≤ l.size then some ⟨l.pairs.insertIdx i (x, s)⟩ else none

/-- Takes out the value at `i` with its separator. -/
def remove? (l : Punctuated α β) (i : Nat) : Option ((α × Option β) × Punctuated α β) :=
  l.pairs[i]?.map fun pair => (pair, ⟨l.pairs.eraseIdx i⟩)

def first? (l : Punctuated α β) : Option α := l.pairs.head?.map (·.1)

def last? (l : Punctuated α β) : Option α := l.pairs.getLast?.map (·.1)

/-- The place of the first value equal to `x`. -/
def position? [BEq α] (l : Punctuated α β) (x : α) : Option Nat := l.values.findIdx? (· == x)

def mapValues (f : α → α) (l : Punctuated α β) : Punctuated α β :=
  ⟨l.pairs.map fun (x, s) => (f x, s)⟩

def mapSeparators (f : β → β) (l : Punctuated α β) : Punctuated α β :=
  ⟨l.pairs.map fun (x, s) => (x, s.map f)⟩

@[simp] theorem values_ofList (xs : List α) : (ofList xs : Punctuated α β).values = xs := by
  simp [ofList, values, Function.comp_def]

@[simp] theorem size_ofList (xs : List α) : (ofList xs : Punctuated α β).size = xs.length := by
  simp [ofList, size]

@[simp] theorem size_push (l : Punctuated α β) (x : α) : (l.push x).size = l.size + 1 := by
  simp [push, size]

end Punctuated

end CssTree
