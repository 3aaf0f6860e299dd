import CssTree.Text.Position

namespace CssTree

/-- A half-open span of text. -/
@[ext] structure Span where
  start : Position
  stop : Position
deriving DecidableEq, Inhabited

namespace Span

/-- The zero-width span at a position. -/
def point (p : Position) : Span := ⟨p, p⟩

/-- The span of a text written at `p`. -/
def ofText (p : Position) (t : Text) : Span := ⟨p, p.advance t⟩

def IsEmpty (r : Span) : Prop := r.start = r.stop

instance (r : Span) : Decidable r.IsEmpty := inferInstanceAs (Decidable (r.start = r.stop))

/-- A span that does not stop before it starts. -/
def IsValid (r : Span) : Prop := r.start ≤ r.stop

instance (r : Span) : Decidable r.IsValid := inferInstanceAs (Decidable (r.start ≤ r.stop))

/-- All of `s` lies inside `r`. -/
def Contains (r s : Span) : Prop := r.start ≤ s.start ∧ s.stop ≤ r.stop

instance (r s : Span) : Decidable (r.Contains s) :=
  inferInstanceAs (Decidable (r.start ≤ s.start ∧ s.stop ≤ r.stop))

/-- The character at `p` lies inside `r`. -/
def ContainsPosition (r : Span) (p : Position) : Prop := r.start ≤ p ∧ p < r.stop

instance (r : Span) (p : Position) : Decidable (r.ContainsPosition p) :=
  inferInstanceAs (Decidable (r.start ≤ p ∧ p < r.stop))

/-- The smallest span that covers both. -/
def join (r s : Span) : Span := ⟨min r.start s.start, max r.stop s.stop⟩

/-- Shifts both ends. -/
def shift (originLine : Nat) (lines columns : Int) (r : Span) : Span :=
  ⟨r.start.shift originLine lines columns, r.stop.shift originLine lines columns⟩

/-- A position at or after the start of `s` once a text has been inserted over `s`. -/
def pushPast (s : Span) (p : Position) : Position :=
  let line := p.line + (s.stop.line - s.start.line)
  if p.line = s.start.line then ⟨line, s.stop.column + (p.column - s.start.column)⟩
  else ⟨line, p.column⟩

/-- Where `r` lies once a text has been inserted over `s`. A start at the insertion point moves
with the text and a stop there does not, so a span never grows at its end. -/
def insert (s r : Span) : Span :=
  if r.IsValid ∧ s.IsValid then
    let start := if s.start ≤ r.start then s.pushPast r.start else r.start
    let stop := if s.start < r.stop then s.pushPast r.stop else r.stop
    ⟨start, if stop < start then start else stop⟩
  else r

/-- Where a position lies once the text of `s` has been deleted. -/
def pullBack (s : Span) (p : Position) : Position :=
  if p ≤ s.start then p
  else if p < s.stop then s.start
  else if p.line = s.stop.line then ⟨s.start.line, s.start.column + (p.column - s.stop.column)⟩
  else ⟨p.line - (s.stop.line - s.start.line), p.column⟩

/-- Where `r` lies once the text of `s` has been deleted. -/
def delete (s r : Span) : Span :=
  if r.IsValid ∧ s.IsValid ∧ ¬s.IsEmpty then ⟨s.pullBack r.start, s.pullBack r.stop⟩ else r

instance : ToString Span := ⟨fun r => s!"{r.start}-{r.stop}"⟩

end Span

end CssTree
