import CssTree.Text.Span
import Mathlib.Data.List.Basic

namespace CssTree

/-- The end of one text and the start of the next make one line break. -/
def Fuse (s t : Text) : Prop := s.getLast? = some '\r' ∧ t.head? = some '\n'

instance (s t : Text) : Decidable (Fuse s t) :=
  inferInstanceAs (Decidable (s.getLast? = some '\r' ∧ t.head? = some '\n'))

@[simp] theorem not_fuse_nil_left (t : Text) : ¬Fuse [] t := by simp [Fuse]

@[simp] theorem not_fuse_nil_right (s : Text) : ¬Fuse s [] := by simp [Fuse]

theorem fuse_cons_iff {c : Char} {s t : Text} (h : s ≠ []) : Fuse (c :: s) t ↔ Fuse s t := by
  obtain ⟨d, ds, rfl⟩ := List.exists_cons_of_ne_nil h
  simp [Fuse]

theorem fuse_append_left_iff {r s t : Text} (h : s ≠ []) : Fuse (r ++ s) t ↔ Fuse s t := by
  simp [Fuse, List.getLast?_append, List.getLast?_eq_some_getLast h]

theorem fuse_append_right_iff {s t u : Text} (h : t ≠ []) : Fuse s (t ++ u) ↔ Fuse s t := by
  obtain ⟨c, cs, rfl⟩ := List.exists_cons_of_ne_nil h
  simp [Fuse]

theorem not_fuse_tail {c : Char} {s t : Text} (h : ¬Fuse (c :: s) t) : ¬Fuse s t := by
  by_cases hne : s = []
  · simp [hne]
  · rwa [fuse_cons_iff hne] at h

theorem not_fuse_head {c : Char} {s t : Text} (hs : ¬Fuse [c] s) (h : ¬Fuse (c :: s) t) :
    ¬Fuse [c] (s ++ t) := by
  by_cases hne : s = []
  · simpa [hne] using h
  · rwa [fuse_append_right_iff hne]

/-- Texts one after another of which no two fuse, whatever empty ones stand between. -/
def Unfused (ts : List Text) : Prop := ∀ xs ys, ts = xs ++ ys → ¬Fuse xs.flatten ys.flatten

theorem unfused_iff_take {ts : List Text} :
    Unfused ts ↔ ∀ n < ts.length + 1, ¬Fuse (ts.take n).flatten (ts.drop n).flatten := by
  refine ⟨fun h n _ => h _ _ (List.take_append_drop n ts).symm, ?_⟩
  rintro h xs ys rfl
  have hcut := h xs.length (by rw [List.length_append]; omega)
  rwa [List.take_left, List.drop_left] at hcut

instance (ts : List Text) : Decidable (Unfused ts) := decidable_of_iff _ unfused_iff_take.symm

theorem unfused_nil : Unfused [] := by
  intro xs ys h
  simp [(List.append_eq_nil_iff.mp h.symm).1]

theorem unfused_singleton (t : Text) : Unfused [t] := by
  intro xs ys h
  rcases List.append_eq_singleton_iff.mp h.symm with ⟨rfl, -⟩ | ⟨-, rfl⟩ <;> simp

theorem Unfused.append {xs ys : List Text} (hx : Unfused xs) (hy : Unfused ys)
    (h : ¬Fuse xs.flatten ys.flatten) : Unfused (xs ++ ys) := by
  intro as bs heq
  rcases List.append_eq_append_iff.mp heq with ⟨cs, rfl, rfl⟩ | ⟨cs, rfl, rfl⟩
  · by_cases hc : cs.flatten = []
    · simpa [hc] using h
    · rw [List.flatten_append, fuse_append_left_iff hc]
      exact hy cs bs rfl
  · by_cases hc : cs.flatten = []
    · simpa [hc] using h
    · rw [List.flatten_append, fuse_append_right_iff hc]
      exact hx as cs rfl

theorem Unfused.left {xs ys : List Text} (h : Unfused (xs ++ ys)) : Unfused xs := by
  rintro as bs rfl hf
  refine h as (bs ++ ys) (by simp) ?_
  by_cases hb : bs.flatten = []
  · simp [hb] at hf
  · rwa [List.flatten_append, fuse_append_right_iff hb]

theorem Unfused.right {xs ys : List Text} (h : Unfused (xs ++ ys)) : Unfused ys := by
  rintro as bs rfl hf
  refine h (xs ++ as) bs (by simp) ?_
  by_cases ha : as.flatten = []
  · simp [ha] at hf
  · rwa [List.flatten_append, fuse_append_left_iff ha]

/-- Texts joined to one in the middle of others. -/
theorem Unfused.merge (xs ys zs : List Text) (h : Unfused (xs ++ ys ++ zs)) :
    Unfused (xs ++ [ys.flatten] ++ zs) := by
  have hyz : ¬Fuse (xs ++ ys).flatten zs.flatten := h _ _ rfl
  have hxy : ¬Fuse xs.flatten ys.flatten := h.left _ _ rfl
  refine (h.left.left.append (unfused_singleton _) (by simpa using hxy)).append h.right ?_
  simpa using hyz

theorem Unfused.cons_cons {s t : Text} {ts : List Text} (h : Unfused (s :: t :: ts)) :
    ¬Fuse s t ∧ Unfused ((s ++ t) :: ts) := by
  have hsplit : Unfused ([s, t] ++ ts) := h
  have hfirst := hsplit.left
  refine ⟨by simpa using hfirst [s] [t] rfl, ?_⟩
  simpa using Unfused.merge [] [s, t] ts (by simpa using h)

namespace Position

/-- Where a position lies that is `q` in a text written from `p`. -/
def plus (p q : Position) : Position :=
  ⟨p.line + q.line, if q.line = 0 then p.column + q.column else q.column⟩

@[simp] theorem plus_origin (p : Position) : p.plus origin = p := by simp [plus, origin]

@[simp] theorem origin_plus (p : Position) : origin.plus p = p := by simp [plus, origin]

theorem plus_plus (p q r : Position) : (p.plus q).plus r = p.plus (q.plus r) := by
  unfold plus
  ext
  · exact Nat.add_assoc _ _ _
  · by_cases hr : r.line = 0 <;> by_cases hq : q.line = 0 <;> simp [hr, hq, Nat.add_assoc]

theorem le_plus (p q : Position) : p ≤ p.plus q := by
  simp only [le_def, plus]
  split <;> omega

theorem exists_plus {p q : Position} (h : p ≤ q) : ∃ r, q = p.plus r := by
  simp only [le_def] at h
  by_cases hline : p.line = q.line
  · refine ⟨⟨0, q.column - p.column⟩, Position.ext hline.symm ?_⟩
    show q.column = p.column + (q.column - p.column)
    omega
  · refine ⟨⟨q.line - p.line, q.column⟩, Position.ext ?_ (if_neg ?_).symm⟩
    · show q.line = p.line + (q.line - p.line)
      omega
    · show ¬q.line - p.line = 0
      omega

theorem advance_crlf (p : Position) (cs : Text) :
    p.advance ('\r' :: '\n' :: cs) = p.newLine.advance cs := rfl

theorem advance_break {p : Position} {c : Char} {cs : Text} (hc : c = '\r' ∨ c = '\n')
    (hf : ¬Fuse [c] cs) : p.advance (c :: cs) = p.newLine.advance cs := by
  rw [advance.eq_3 _ _ _ ?_, if_pos hc]
  rintro ds rfl rfl
  exact hf (by simp [Fuse])

theorem advance_char {p : Position} {c : Char} {cs : Text} (hc : ¬(c = '\r' ∨ c = '\n')) :
    p.advance (c :: cs) = advance ⟨p.line, p.column + 1⟩ cs := by
  rw [advance.eq_3 _ _ _ ?_, if_neg hc]
  rintro ds rfl rfl
  exact hc (Or.inl rfl)

/-- Writing a text begins with a step over a line break or over one other character, whatever
is written after the text. -/
theorem advance_step (c : Char) (cs : Text) :
    ∃ q ds, q ≠ origin ∧ ds.length ≤ cs.length ∧ ∀ u, ¬Fuse (c :: cs) u →
      ¬Fuse ds u ∧ ∀ p : Position, p.advance (c :: cs ++ u) = (p.plus q).advance (ds ++ u) := by
  by_cases hc : c = '\r' ∨ c = '\n'
  · by_cases hf : Fuse [c] cs
    · obtain ⟨hl, hh⟩ := hf
      obtain ⟨ds, rfl⟩ := List.head?_eq_some_iff.mp hh
      obtain rfl : c = '\r' := by simpa using hl
      refine ⟨⟨1, 0⟩, ds, by simp [origin], by simp, fun u hu =>
        ⟨not_fuse_tail (not_fuse_tail hu), fun p => ?_⟩⟩
      simp only [List.cons_append, advance_crlf]
      rfl
    · refine ⟨⟨1, 0⟩, cs, by simp [origin], Nat.le_refl _, fun u hu =>
        ⟨not_fuse_tail hu, fun p => ?_⟩⟩
      rw [List.cons_append, advance_break hc (not_fuse_head hf hu)]
      rfl
  · refine ⟨⟨0, 1⟩, cs, by simp [origin], Nat.le_refl _, fun u hu =>
        ⟨not_fuse_tail hu, fun p => ?_⟩⟩
    rw [List.cons_append, advance_char hc]
    rfl

/-- A text moves every position that it is written from in the same way. -/
theorem advance_eq_plus (p : Position) (t : Text) : p.advance t = p.plus (origin.advance t) := by
  induction hn : t.length using Nat.strongRecOn generalizing t p with
  | ind n ih =>
    cases t with
    | nil => simp
    | cons c cs =>
      obtain ⟨q, ds, -, hlen, hstep⟩ := advance_step c cs
      have hstep' := (hstep [] (by simp)).2
      simp only [List.append_nil] at hstep'
      have hlt : ds.length < n := by rw [← hn, List.length_cons]; omega
      rw [hstep', hstep', ih _ hlt _ _ rfl, ih _ hlt (origin.plus q) _ rfl, origin_plus, plus_plus]

/-- Positions add up over texts that do not fuse. -/
theorem advance_append {s t : Text} (h : ¬Fuse s t) (p : Position) :
    p.advance (s ++ t) = (p.advance s).advance t := by
  induction hn : s.length using Nat.strongRecOn generalizing s p with
  | ind n ih =>
    cases s with
    | nil => rfl
    | cons c cs =>
      obtain ⟨q, ds, -, hlen, hstep⟩ := advance_step c cs
      obtain ⟨hds, happ⟩ := hstep t h
      have halone := (hstep [] (by simp)).2 p
      simp only [List.append_nil] at halone
      have hlt : ds.length < n := by rw [← hn, List.length_cons]; omega
      rw [happ, halone, ih _ hlt hds _ rfl]

theorem le_advance (p : Position) (t : Text) : p ≤ p.advance t := by
  rw [advance_eq_plus]
  exact le_plus p _

theorem advance_return (p : Position) (r : Text) :
    p.advance (r ++ ['\r']) = (p.advance r).newLine := by
  rw [advance_append (by simp [Fuse])]
  rfl

/-- A line feed takes no room behind a carriage return. -/
theorem advance_fuse {s u : Text} (h : Fuse s ('\n' :: u)) (p : Position) :
    p.advance (s ++ '\n' :: u) = (p.advance s).advance u := by
  obtain ⟨r, rfl⟩ := List.getLast?_eq_some_iff.mp h.1
  have hr : ¬Fuse r ('\r' :: '\n' :: u) := by simp [Fuse]
  rw [advance_return, ← advance_crlf, ← advance_append hr]
  simp

theorem advance_newLine (p : Position) (t : Text) :
    p.newLine.newLine.advance t =
      ⟨(p.newLine.advance t).line + 1, (p.newLine.advance t).column⟩ := by
  rw [advance_eq_plus, advance_eq_plus p.newLine]
  exact Position.ext (Nat.add_right_comm _ 1 _) rfl

end Position

namespace Span

/-- The span of a text that follows another one. -/
def behind (before t : Text) : Span :=
  ⟨Position.origin.advance before, Position.origin.advance (before ++ t)⟩

@[simp] theorem start_behind (before t : Text) :
    (behind before t).start = Position.origin.advance before := rfl

@[simp] theorem stop_behind (before t : Text) :
    (behind before t).stop = Position.origin.advance (before ++ t) := rfl

@[simp] theorem over_nil (before : Text) :
    behind before [] = point (Position.origin.advance before) := by
  simp [behind, point]

theorem ofText_eq_behind {before t : Text} (h : ¬Fuse before t) :
    ofText (Position.origin.advance before) t = behind before t := by
  simp [ofText, behind, Position.advance_append h]

end Span

theorem Position.origin_advance_le (s t : Text) :
    Position.origin.advance s ≤ Position.origin.advance (s ++ t) := by
  by_cases h : Fuse s t
  · obtain ⟨u, rfl⟩ := List.head?_eq_some_iff.mp h.2
    rw [Position.advance_fuse h]
    exact Position.le_advance _ u
  · rw [Position.advance_append h]
    exact Position.le_advance _ t

theorem Span.isValid_behind (before t : Text) : (Span.behind before t).IsValid :=
  Position.origin_advance_le before t

/-- A span is joined with one that starts where it stops. -/
theorem Span.join_next {p q r : Position} (hpq : p ≤ q) (hqr : q ≤ r) :
    (⟨p, q⟩ : Span).join ⟨q, r⟩ = ⟨p, r⟩ := by
  rw [join, Position.min_def, Position.max_def, if_pos hpq, if_pos hqr]

theorem Span.join_behind (before s t : Text) :
    (Span.behind before s).join (.behind (before ++ s) t) = .behind before (s ++ t) := by
  have hstop := Position.origin_advance_le (before ++ s) t
  rw [List.append_assoc] at hstop
  simp only [Span.behind, List.append_assoc]
  exact Span.join_next (Position.origin_advance_le before s) hstop

theorem Span.contains_behind {before s t u : Text} :
    (Span.behind before (s ++ t ++ u)).Contains (.behind (before ++ s) t) := by
  refine ⟨Position.origin_advance_le before s, ?_⟩
  have := Position.origin_advance_le (before ++ s ++ t) u
  simpa using this

end CssTree
