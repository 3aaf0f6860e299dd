namespace CssTree

/-- Source text as a list of Unicode scalar values. -/
abbrev Text := List Char

/-- A zero-based line and column; columns count characters. -/
@[ext] structure Position where
  line : Nat
  column : Nat
deriving DecidableEq, Inhabited

namespace Position

/-- The start of every text. -/
def origin : Position := ⟨0, 0⟩

instance : LE Position := ⟨fun p q => p.line < q.line ∨ p.line = q.line ∧ p.column ≤ q.column⟩

instance : LT Position := ⟨fun p q => p.line < q.line ∨ p.line = q.line ∧ p.column < q.column⟩

theorem le_def {p q : Position} :
    p ≤ q ↔ p.line < q.line ∨ p.line = q.line ∧ p.column ≤ q.column := Iff.rfl

theorem lt_def {p q : Position} :
    p < q ↔ p.line < q.line ∨ p.line = q.line ∧ p.column < q.column := Iff.rfl

instance (p q : Position) : Decidable (p ≤ q) := decidable_of_iff _ le_def.symm

instance (p q : Position) : Decidable (p < q) := decidable_of_iff _ lt_def.symm

instance : Min Position := ⟨fun p q => if p ≤ q then p else q⟩

instance : Max Position := ⟨fun p q => if p ≤ q then q else p⟩

theorem min_def (p q : Position) : min p q = if p ≤ q then p else q := rfl

theorem max_def (p q : Position) : max p q = if p ≤ q then q else p := rfl

/-- The first column of the next line. -/
def newLine (p : Position) : Position := ⟨p.line + 1, 0⟩

/-- The position reached by writing a text from `p`. -/
def advance (p : Position) : Text → Position
  | [] => p
  | '\r' :: '\n' :: cs => p.newLine.advance cs
  | c :: cs =>
    if c = '\r' ∨ c = '\n' then p.newLine.advance cs else advance ⟨p.line, p.column + 1⟩ cs

/-- The largest position component. -/
def limit : Nat := 0xffff_ffff_ffff_ffff

/-- An integer brought between zero and the largest position component. -/
def clamp (i : Int) : Nat := min i.toNat limit

/-- Moves by `lines`, and by `columns` only on the line `originLine`. -/
def shift (originLine : Nat) (lines columns : Int) (p : Position) : Position :=
  ⟨clamp (p.line + lines), if p.line = originLine then clamp (p.column + columns) else p.column⟩

instance : ToString Position := ⟨fun p => s!"{p.line}:{p.column}"⟩

@[simp] theorem advance_nil (p : Position) : p.advance [] = p := rfl

theorem le_refl (p : Position) : p ≤ p := Or.inr ⟨rfl, Nat.le_refl _⟩

theorem le_trans {p q r : Position} (hpq : p ≤ q) (hqr : q ≤ r) : p ≤ r := by
  simp only [le_def] at *
  omega

theorem le_total (p q : Position) : p ≤ q ∨ q ≤ p := by
  simp only [le_def]
  omega

theorem le_antisymm {p q : Position} (hpq : p ≤ q) (hqp : q ≤ p) : p = q := by
  simp only [le_def] at *
  ext <;> omega

theorem not_le {p q : Position} : ¬p ≤ q ↔ q < p := by
  simp only [le_def, lt_def]
  omega

end Position

end CssTree
