import CssTree.Proofs.Text.Advance
import Mathlib.Tactic.ByContra
import Mathlib.Tactic.SplitIfs

namespace CssTree

namespace Position

theorem le_of_lt {p q : Position} (h : p < q) : p ≤ q := by
  simp only [le_def, lt_def] at *
  omega

theorem le_of_not_lt {p q : Position} (h : ¬q < p) : p ≤ q := by
  by_contra hle
  exact h (not_le.mp hle)

theorem le_ite_lt (p q : Position) : p ≤ if q < p then p else q := by
  split
  next => exact le_refl p
  next h => exact le_of_not_lt h

/-- That many more characters can be counted behind a position. -/
def HasRoom (p : Position) (n : Nat) : Prop := p.line + n ≤ limit ∧ p.column + n ≤ limit

variable {p q : Position} {m n : Nat}

theorem HasRoom.mono (h : p.HasRoom n) (hmn : m ≤ n) : p.HasRoom m :=
  ⟨Nat.le_trans (Nat.add_le_add_left hmn _) h.1, Nat.le_trans (Nat.add_le_add_left hmn _) h.2⟩

/-- A text takes no more lines and columns than it has characters. -/
theorem advance_bound (p : Position) (t : Text) :
    (p.advance t).line ≤ p.line + t.length ∧ (p.advance t).column ≤ p.column + t.length := by
  fun_induction advance p t with
  | case1 p => simp
  | case2 p cs ih =>
    simp only [newLine, List.length_cons] at *
    omega
  | case3 p c cs h hc ih =>
    simp only [newLine, List.length_cons] at *
    omega
  | case4 p c cs h hc ih =>
    simp only [List.length_cons] at *
    omega

theorem HasRoom.advance (h : p.HasRoom (m + n)) {t : Text} (ht : t.length ≤ m) :
    (p.advance t).HasRoom n := by
  have hbound := p.advance_bound t
  simp only [HasRoom] at *
  omega

theorem shift_eq_plus (h : p.HasRoom n) (hline : q.line ≤ n) (hcolumn : q.column ≤ n) :
    q.shift 0 p.line p.column = p.plus q := by
  simp only [HasRoom] at h
  simp only [shift, plus, clamp]
  split_ifs <;> ext <;> simp only <;> omega

/-- A shift back to the start of a text undoes the shift to a place with room. -/
theorem shift_back (h : p.HasRoom n) (hline : q.line ≤ n) (hcolumn : q.column ≤ n) :
    (p.plus q).shift p.line (-p.line) (-p.column) = q := by
  simp only [HasRoom] at h
  ext
  · simp only [shift, plus, clamp]
    omega
  · by_cases hq : q.line = 0 <;> simp only [shift, plus, clamp, hq, if_true, if_false] <;>
      split_ifs <;> omega

/-- A shift that stays below the limit keeps the order of positions. -/
theorem shift_mono {a b : Position} (hab : a ≤ b) (hbq : b ≤ q) (h : p.line + q.line ≤ limit) :
    a.shift 0 p.line p.column ≤ b.shift 0 p.line p.column := by
  simp only [le_def, shift, clamp] at *
  split_ifs <;> omega

end Position

namespace Span

variable {r s : Span} {p q : Position}

theorem isValid_ofText (p : Position) (t : Text) : (ofText p t).IsValid := p.le_advance t

/-- A position in front of a deletion stays. -/
theorem pullBack_of_le (h : p ≤ s.start) : s.pullBack p = p := if_pos h

/-- A position behind an insertion is back where it was once the text is deleted. -/
theorem pullBack_pushPast (hs : s.IsValid) (h : s.start ≤ p) : s.pullBack (s.pushPast p) = p := by
  simp only [IsValid, Position.le_def, pullBack, pushPast, Position.lt_def] at *
  ext <;> split_ifs <;> simp_all <;> omega

theorem start_pushPast (hs : s.IsValid) : s.pushPast s.start = s.stop := by
  simp only [IsValid, Position.le_def] at hs
  simp only [pushPast, if_pos, Nat.sub_self, Nat.add_zero]
  ext
  · show s.start.line + (s.stop.line - s.start.line) = s.stop.line
    omega
  · rfl

theorem pullBack_mono (s : Span) (h : p ≤ q) : s.pullBack p ≤ s.pullBack q := by
  simp only [Position.le_def] at h
  simp only [Position.le_def, pullBack, Position.lt_def]
  split_ifs <;> first | omega | (dsimp only; omega)

theorem pullBack_of_isEmpty (h : s.IsEmpty) (p : Position) : s.pullBack p = p := by
  simp only [IsEmpty, Position.ext_iff] at h
  simp only [pullBack, Position.le_def, Position.lt_def]
  ext <;> split_ifs <;> first | rfl | omega | (dsimp only; omega)

theorem insert_of_not_isValid (h : ¬r.IsValid) : s.insert r = r := if_neg fun hr => h hr.1

theorem delete_of_not_isValid (h : ¬r.IsValid) : s.delete r = r := if_neg fun hr => h hr.1

theorem delete_of_isEmpty (h : s.IsEmpty) (r : Span) : s.delete r = r := by
  rw [delete, if_neg (by simp [h])]

theorem delete_of_isValid (hs : s.IsValid) (hr : r.IsValid) :
    s.delete r = ⟨s.pullBack r.start, s.pullBack r.stop⟩ := by
  by_cases hempty : s.IsEmpty
  · rw [delete_of_isEmpty hempty, pullBack_of_isEmpty hempty, pullBack_of_isEmpty hempty]
  · rw [delete, if_pos ⟨hr, hs, hempty⟩]

/-- The start of a span at the insertion point goes to the end of the text. -/
theorem insert_start (hs : s.IsValid) (hr : r.IsValid) (h : r.start = s.start) :
    (s.insert r).start = s.stop := by
  rw [insert, if_pos ⟨hr, hs⟩]
  show (if s.start ≤ r.start then s.pushPast r.start else r.start) = _
  rw [h, if_pos (Position.le_refl _), start_pushPast hs]

/-- A deletion leaves a start where the deletion starts. -/
theorem delete_start (h : r.start = s.start) : (s.delete r).start = s.start := by
  rw [delete]
  split
  next => exact (pullBack_of_le (h ▸ Position.le_refl _)).trans h
  next => exact h

/-- A span in front of an insertion stays. -/
theorem insert_of_lt (hstart : r.start < s.start) (hstop : r.stop ≤ s.start) : s.insert r = r := by
  rw [insert]
  split
  next h =>
    dsimp only
    rw [if_neg (Position.not_le.mpr hstart),
      if_neg fun hlt => Position.not_le.mpr hlt hstop, if_neg fun hlt => Position.not_le.mpr hlt h.1]
  next => rfl

theorem IsValid.insert (hr : r.IsValid) (s : Span) : (s.insert r).IsValid := by
  rw [Span.insert]
  split
  next => exact Position.le_ite_lt _ _
  next => exact hr

theorem IsValid.delete (hr : r.IsValid) (s : Span) : (s.delete r).IsValid := by
  rw [Span.delete]
  split
  next h => exact s.pullBack_mono hr
  next => exact hr

/-- A deletion of the text that was inserted takes every span back. -/
theorem delete_insert (hs : s.IsValid) (r : Span) : s.delete (s.insert r) = r := by
  by_cases hr : r.IsValid
  · have hinsert := hr.insert s
    rw [delete_of_isValid hs hinsert]
    rw [insert, if_pos ⟨hr, hs⟩]
    let start := if s.start ≤ r.start then s.pushPast r.start else r.start
    let stop := if s.start < r.stop then s.pushPast r.stop else r.stop
    have hstart : s.pullBack start = r.start := by
      dsimp only [start]
      split
      next h => exact pullBack_pushPast hs h
      next h => exact pullBack_of_le ((Position.le_total _ _).resolve_left h)
    have hstop : s.pullBack stop = r.stop := by
      dsimp only [stop]
      split
      next h => exact pullBack_pushPast hs (Position.le_of_lt h)
      next h => exact pullBack_of_le (Position.le_of_not_lt h)
    refine Span.ext hstart ?_
    show s.pullBack (if stop < start then start else stop) = r.stop
    split
    next h =>
      -- a span without width at the insertion point is pushed as one
      have hback := s.pullBack_mono (Position.le_of_lt h)
      rw [hstart, hstop] at hback
      exact hstart.trans (Position.le_antisymm hr hback)
    next => exact hstop
  · rw [insert_of_not_isValid hr, delete_of_not_isValid hr]

/-- A span that is not turned around, unless it starts past the last line that can be counted. -/
def Forward (r : Span) : Prop := r.IsValid ∨ Position.limit ≤ r.start.line

namespace Forward

theorem isValid (h : r.Forward) (hline : r.start.line < Position.limit) : r.IsValid :=
  h.resolve_right (Nat.not_le.mpr hline)

theorem insert (h : r.Forward) (s : Span) : (s.insert r).Forward := by
  by_cases hr : r.IsValid
  · exact Or.inl (hr.insert s)
  · rwa [insert_of_not_isValid hr]

theorem delete (h : r.Forward) (s : Span) : (s.delete r).Forward := by
  by_cases hr : r.IsValid
  · exact Or.inl (hr.delete s)
  · rwa [delete_of_not_isValid hr]

/-- A shift down keeps two lines in order until both are at the limit. -/
theorem shift (h : r.Forward) {lines : Int} (hlines : 0 ≤ lines) (line : Nat) (columns : Int) :
    (r.shift line lines columns).Forward := by
  simp only [Forward, IsValid, Position.le_def, Span.shift, Position.shift, Position.clamp] at *
  split_ifs <;> omega

end Forward

end Span

end CssTree
