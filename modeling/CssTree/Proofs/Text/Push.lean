import CssTree.Proofs.Text.Patch

namespace CssTree

namespace Position

theorem plus_mono {u v : Position} (p : Position) (h : u ≤ v) : p.plus u ≤ p.plus v := by
  simp only [le_def, plus] at *
  split_ifs <;> omega

theorem plus_le_self {p u : Position} (h : p.plus u ≤ p) : u = origin := by
  simp only [le_def, plus] at h
  ext <;> simp only [origin] <;> split_ifs at h <;> omega

end Position

namespace Span

variable {r s : Span} {a b p q q' q'' u v : Position} {around around' other other' : Span → Span}

/-- What stands between `a` and `q` makes room for what ends at `q'` instead: `around` is what
becomes of spans that reach over it, and `other` what becomes of those behind it. -/
structure Pushes (around other : Span → Span) (a q q' : Position) : Prop where
  behind : ∀ u v, u ≤ v → other ⟨q.plus u, q.plus v⟩ = ⟨q'.plus u, q'.plus v⟩
  around : ∀ o u, o ≤ a → around ⟨o, q.plus u⟩ = ⟨o, q'.plus u⟩

namespace Pushes

/-- What stands at both ends of the place may count as a part of it. -/
theorem widen (h : Pushes around other a q q') (hab : b ≤ a) (w : Position) :
    Pushes around other b (q.plus w) (q'.plus w) where
  behind u v huv := by
    simp only [Position.plus_plus]
    exact h.behind _ _ (Position.plus_mono w huv)
  around o u ho := by
    simp only [Position.plus_plus]
    exact h.around o _ (Position.le_trans ho hab)

end Pushes

theorem pullBack_plus (hs : s.IsValid) (u : Position) :
    s.pullBack (s.stop.plus u) = s.start.plus u := by
  rw [← pushPast_plus hs, pullBack_pushPast hs (Position.le_plus _ _)]

theorem insert_plus (hs : s.IsValid) (huv : u ≤ v) :
    s.insert ⟨s.start.plus u, s.start.plus v⟩ = ⟨s.stop.plus u, s.stop.plus v⟩ := by
  have hvalid : (⟨s.start.plus u, s.start.plus v⟩ : Span).IsValid := Position.plus_mono _ huv
  rw [insert, if_pos ⟨hvalid, hs⟩]
  dsimp only
  rw [if_pos (Position.le_plus _ _), pushPast_plus hs, pushPast_plus hs]
  refine Span.ext rfl ?_
  dsimp only
  split
  next => rw [if_neg (Position.not_lt_of_le (Position.plus_mono _ huv))]
  next h =>
    -- there is nothing between the insertion point and the end of the span
    obtain rfl := Position.plus_le_self (Position.le_of_not_lt h)
    obtain rfl : u = Position.origin :=
      Position.le_antisymm huv (by simp only [Position.le_def, Position.origin]; omega)
    simp only [Position.plus_origin]
    split
    next => rfl
    next h => exact Position.le_antisymm hs (Position.le_of_not_lt h)

/-- Spans over an insertion point grow by what is inserted. -/
theorem insert_join (hs : s.IsValid) {o : Position} (ho : o ≤ s.start) (u : Position) :
    (s.insert ⟨o, s.start.plus u⟩).join s = ⟨o, s.stop.plus u⟩ := by
  have hle : o ≤ s.start.plus u := Position.le_trans ho (Position.le_plus s.start u)
  have hstop : s.stop ≤ s.stop.plus u := Position.le_plus _ _
  have hlong : s.start ≤ s.stop.plus u := Position.le_trans hs hstop
  have hmin : min o s.start = o := by rw [Position.min_def, if_pos ho]
  have hend : ∀ q, q = s.stop.plus u ∨ u = .origin ∧ q ≤ s.stop → max q s.stop = s.stop.plus u := by
    rintro q (rfl | ⟨rfl, hq⟩)
    · rw [Position.max_def]
      split
      next h => exact Position.le_antisymm hstop h
      next => rfl
    · rw [Position.plus_origin, Position.max_def, if_pos hq]
  rw [insert, if_pos ⟨hle, hs⟩]
  dsimp only
  rw [pushPast_plus hs, join]
  by_cases hstart : s.start ≤ o
  · obtain rfl := Position.le_antisymm ho hstart
    rw [if_pos hstart, start_pushPast hs]
    refine Span.ext ?_ (hend _ ?_)
    · rw [Position.min_def]
      dsimp only
      split
      next h => exact Position.le_antisymm h hs
      next => rfl
    · by_cases hu : s.start < s.start.plus u
      · dsimp only
        rw [if_pos hu, if_neg (Position.not_lt_of_le hstop)]
        exact Or.inl rfl
      · obtain rfl := Position.plus_le_self (Position.le_of_not_lt hu)
        dsimp only
        rw [if_neg hu, Position.plus_origin]
        refine Or.inr ⟨rfl, ?_⟩
        split
        next => exact Position.le_refl _
        next => exact hs
  · rw [if_neg hstart]
    refine Span.ext hmin (hend _ ?_)
    by_cases hu : s.start < s.start.plus u
    · dsimp only
      rw [if_pos hu, if_neg (Position.not_lt_of_le (Position.le_trans ho hlong))]
      exact Or.inl rfl
    · obtain rfl := Position.plus_le_self (Position.le_of_not_lt hu)
      dsimp only
      rw [if_neg hu, Position.plus_origin, if_neg (Position.not_lt_of_le ho)]
      exact Or.inr ⟨rfl, hs⟩

theorem insert_pushes (hs : s.IsValid) :
    Pushes (fun r => (s.insert r).join s) s.insert s.start s.start s.stop :=
  ⟨fun _ _ huv => insert_plus hs huv, fun _ u ho => insert_join hs ho u⟩

theorem delete_pushes (hs : s.IsValid) : Pushes s.delete s.delete s.start s.stop s.start where
  behind u v huv := by
    have hr : (⟨s.stop.plus u, s.stop.plus v⟩ : Span).IsValid := Position.plus_mono _ huv
    rw [delete_of_isValid hs hr, pullBack_plus hs, pullBack_plus hs]
  around o u ho := by
    have hr : (⟨o, s.stop.plus u⟩ : Span).IsValid :=
      Position.le_trans ho (Position.le_trans hs (Position.le_plus _ _))
    rw [delete_of_isValid hs hr, pullBack_of_le ho, pullBack_plus hs]

/-- A span over an insertion point comes back from an insertion by which it grows. -/
theorem delete_insert_join (hs : s.IsValid) (hstart : r.start ≤ s.start) (hstop : s.start ≤ r.stop) :
    s.delete ((s.insert r).join s) = r := by
  obtain ⟨u, hu⟩ := Position.exists_plus hstop
  have hr : r = ⟨r.start, s.start.plus u⟩ := Span.ext rfl hu
  rw [hr, insert_join hs hstart, (delete_pushes hs).around r.start u hstart]

/-- A span in front of a deletion stays. -/
theorem delete_of_le (hr : r.IsValid) (hs : s.IsValid) (h : r.stop ≤ s.start) : s.delete r = r := by
  rw [delete_of_isValid hs hr, pullBack_of_le (Position.le_trans hr h), pullBack_of_le h]

end Span

end CssTree
