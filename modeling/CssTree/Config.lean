namespace CssTree

/-- How text is cut into tokens and how deep blocks may nest. -/
structure Config where
  /-- The number of nesting levels that may be entered. -/
  maxDepth : Nat := 128
  /-- Comment delimiters are tokens and comment bodies are cut into tokens. -/
  comments : Bool := false
  /-- Trivia up to the end of the line belongs to the token before it. -/
  trailing : Bool := false
deriving DecidableEq, Inhabited

/-- A nesting limit that no text reaches. -/
def Config.unlimitedDepth : Nat := 0xffff_ffff_ffff_ffff

/-- The nesting limit was reached. -/
structure DepthError where
  /-- The level that would have been entered. -/
  depth : Nat
  limit : Nat
deriving DecidableEq

def DepthError.message (e : DepthError) : String :=
  s!"recursion limit exceeded: depth {e.depth} > limit {e.limit}"

/-- The number of nesting levels entered and not yet left. -/
structure Guard where
  depth : Nat := 0
deriving DecidableEq, Inhabited

namespace Guard

/-- Enters a level unless that would pass `limit`. -/
def enter (g : Guard) (limit : Nat) : Except DepthError Guard :=
  if limit < g.depth + 1 then .error ⟨g.depth + 1, limit⟩ else .ok ⟨g.depth + 1⟩

/-- Leaves a level; at the outermost level nothing happens. -/
def exit (g : Guard) : Guard := ⟨g.depth - 1⟩

theorem enter_eq_ok_iff {g g' : Guard} {limit : Nat} :
    g.enter limit = .ok g' ↔ g.depth + 1 ≤ limit ∧ g' = ⟨g.depth + 1⟩ := by
  unfold enter
  split
  next h => simp; omega
  next h => simp [eq_comm]; omega

end Guard

end CssTree
