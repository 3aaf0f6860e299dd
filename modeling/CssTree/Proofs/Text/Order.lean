import CssTree.Proofs.Text.Patch

namespace CssTree

namespace Span

variable {a b r s : Span} {p q : Position}

theorem pushPast_mono (h : s.start ≤ p) (hpq : p ≤ q) : s.pushPast p ≤ s.pushPast q := by
  simp only [Position.le_def] at h hpq
  simp only [Position.le_def, pushPast]
  split_ifs <;> first | omega | (dsimp only; omega)

theorem le_pushPast (hs : s.IsValid) (h : s.start ≤ p) : p ≤ s.pushPast p := by
  simp only [IsValid, Position.le_def] at hs h
  simp only [Position.le_def, pushPast]
  split_ifs <;> first | omega | (dsimp only; omega)

/-- Where the start of a span goes when a text is inserted over `s`. -/
def pushStart (s : Span) (p : Position) : Position := if s.start ≤ p then s.pushPast p else p

/-- Where the end of a span goes when a text is inserted over `s`. -/
def pushStop (s : Span) (p : Position) : Position := if s.start < p then s.pushPast p else p

theorem insert_of_isValid (hr : r.IsValid) (hs : s.IsValid) :
    s.insert r = ⟨s.pushStart r.start, if s.pushStop r.stop < s.pushStart r.start
      then s.pushStart r.start else s.pushStop r.stop⟩ := if_pos ⟨hr, hs⟩

theorem pushStart_of_ne (h : p ≠ s.start) : s.pushStart p = s.pushStop p := by
  rw [pushStart, pushStop]
  by_cases hlt : s.start < p
  · rw [if_pos (Position.le_of_lt hlt), if_pos hlt]
  · rw [if_neg fun hle => h (Position.le_antisymm (Position.le_of_not_lt hlt) hle), if_neg hlt]

theorem pushStop_le_pushStart (hs : s.IsValid) (h : p ≤ q) : s.pushStop p ≤ s.pushStart q := by
  rw [pushStop, pushStart]
  split
  next hlt =>
    rw [if_pos (Position.le_trans (Position.le_of_lt hlt) h)]
    exact pushPast_mono (Position.le_of_lt hlt) h
  next =>
    split
    next hle => exact Position.le_trans h (le_pushPast hs hle)
    next => exact h

theorem pushStart_mono (hs : s.IsValid) (h : p ≤ q) : s.pushStart p ≤ s.pushStart q := by
  by_cases hp : p = s.start
  · subst hp
    rw [pushStart, pushStart, if_pos h, if_pos (Position.le_refl _)]
    exact pushPast_mono (Position.le_refl _) h
  · rw [pushStart_of_ne hp]
    exact pushStop_le_pushStart hs h

theorem pushStart_le_pushStop (hs : s.IsValid) (h : p < q) : s.pushStart p ≤ s.pushStop q := by
  by_cases hq : q = s.start
  · subst hq
    rw [pushStart, pushStop, if_neg (Position.not_le.mpr h), if_neg (Position.not_lt_of_le (Position.le_refl _))]
    exact Position.le_of_lt h
  · rw [← pushStart_of_ne hq]
    exact pushStart_mono hs (Position.le_of_lt h)

theorem pushStop_mono (hs : s.IsValid) (h : p ≤ q) : s.pushStop p ≤ s.pushStop q := by
  by_cases hlt : p < q
  · by_cases hp : p = s.start
    · subst hp
      rw [pushStop, pushStop, if_pos hlt, if_neg (Position.not_lt_of_le (Position.le_refl _))]
      exact Position.le_trans h (le_pushPast hs h)
    · rw [← pushStart_of_ne hp]
      exact pushStart_le_pushStop hs hlt
  · rw [Position.le_antisymm h (Position.le_of_not_lt hlt)]
    exact Position.le_refl _

/-- The end of a span is the later one of where its two ends go. -/
theorem stop_insert_le_iff (hr : r.IsValid) (hs : s.IsValid) :
    (s.insert r).stop ≤ p ↔ s.pushStart r.start ≤ p ∧ s.pushStop r.stop ≤ p := by
  rw [insert_of_isValid hr hs]
  dsimp only
  split
  next h => exact ⟨fun hp => ⟨hp, Position.le_trans (Position.le_of_lt h) hp⟩, fun hp => hp.1⟩
  next h => exact ⟨fun hp => ⟨Position.le_trans (Position.le_of_not_lt h) hp, hp⟩, fun hp => hp.2⟩

theorem pushStart_le_stop_insert (hr : r.IsValid) (hs : s.IsValid) :
    s.pushStart r.start ≤ (s.insert r).stop :=
  ((stop_insert_le_iff hr hs).mp (Position.le_refl _)).1

theorem pushStop_le_stop_insert (hr : r.IsValid) (hs : s.IsValid) :
    s.pushStop r.stop ≤ (s.insert r).stop :=
  ((stop_insert_le_iff hr hs).mp (Position.le_refl _)).2

/-- Of two spans one behind the other, the first still stops before the second starts. -/
theorem insert_ordered (ha : a.IsValid) (hb : b.IsValid) (hs : s.IsValid) (h : a.stop ≤ b.start) :
    (s.insert a).stop ≤ (s.insert b).start := by
  rw [stop_insert_le_iff ha hs, insert_of_isValid hb hs]
  exact ⟨pushStart_mono hs (Position.le_trans ha h), pushStop_le_pushStart hs h⟩

/-- A point moves out of a span that stops at it where a text is inserted, and nothing else does. -/
theorem insert_contains_iff (ha : a.IsValid) (hb : b.IsValid) (hs : s.IsValid) (h : a.Contains b) :
    (s.insert a).Contains (s.insert b) ↔
      ¬(¬s.IsEmpty ∧ b = point s.start ∧ a.stop = s.start ∧ a.start < s.start) := by
  constructor
  · rintro ⟨-, hstop⟩ ⟨hne, rfl, hend, hstart⟩
    rw [insert_of_lt hstart (hend ▸ Position.le_refl _), insert_point hs, hend] at hstop
    exact hne (Position.le_antisymm hs hstop)
  · intro hout
    have hstart : (s.insert a).start ≤ (s.insert b).start := by
      rw [insert_of_isValid ha hs, insert_of_isValid hb hs]
      exact pushStart_mono hs h.1
    refine ⟨hstart, (stop_insert_le_iff hb hs).mpr ⟨?_, ?_⟩⟩
    · by_cases hlt : b.start < a.stop
      · exact Position.le_trans (pushStart_le_pushStop hs hlt) (pushStop_le_stop_insert ha hs)
      · -- the span `b` is the point at the end of `a`
        have hend : b.start = a.stop :=
          Position.le_antisymm (Position.le_trans hb h.2) (Position.le_of_not_lt hlt)
        have hpoint : b.stop = a.stop := Position.le_antisymm h.2 (hend ▸ hb)
        by_cases hne : a.stop = s.start
        · by_cases hfront : a.start < s.start
          · have hempty : s.IsEmpty := by
              by_contra hempty
              exact hout ⟨hempty, Span.ext (hend.trans hne) (hpoint.trans hne), hne, hfront⟩
            have hkept : s.pushStart b.start ≤ s.pushStop a.stop := by
              rw [hend, hne, pushStart, if_pos (Position.le_refl _), start_pushPast hs, pushStop,
                if_neg (Position.not_lt_of_le (Position.le_refl _)), hempty]
              exact Position.le_refl _
            exact Position.le_trans hkept (pushStop_le_stop_insert ha hs)
          · have hle : b.start ≤ a.start := hend ▸ hne ▸ Position.le_of_not_lt hfront
            exact Position.le_trans (pushStart_mono hs hle) (pushStart_le_stop_insert ha hs)
        · rw [hend, pushStart_of_ne hne]
          exact pushStop_le_stop_insert ha hs
    · exact Position.le_trans (pushStop_mono hs h.2) (pushStop_le_stop_insert ha hs)

/-- A deletion keeps spans from being turned around, inside others and in order. An insertion keeps
them from being turned around and in order, and what lies inside a span inside of it, but for the
point at which a text is inserted where a span that starts in front of it stops there. -/
theorem patches_keep_nesting (ha : a.IsValid) (hb : b.IsValid) (hs : s.IsValid) :
    ((s.delete a).IsValid ∧ (a.Contains b → (s.delete a).Contains (s.delete b)) ∧
        (a.stop ≤ b.start → (s.delete a).stop ≤ (s.delete b).start)) ∧
      (s.insert a).IsValid ∧ (a.stop ≤ b.start → (s.insert a).stop ≤ (s.insert b).start) ∧
        (a.Contains b → ((s.insert a).Contains (s.insert b) ↔
          ¬(¬s.IsEmpty ∧ b = point s.start ∧ a.stop = s.start ∧ a.start < s.start))) := by
  refine ⟨⟨ha.delete s, fun h => ?_, fun h => ?_⟩, ha.insert s, insert_ordered ha hb hs,
    insert_contains_iff ha hb hs⟩
  · rw [delete_of_isValid hs ha, delete_of_isValid hs hb]
    exact ⟨s.pullBack_mono h.1, s.pullBack_mono h.2⟩
  · rw [delete_of_isValid hs ha, delete_of_isValid hs hb]
    exact s.pullBack_mono h

/-- A text over two lines is inserted at the end of a span. A point there moves out of the span, and
a span in front of that point stays inside. -/
theorem patches_keep_nesting_end :
    let s : Span := ⟨⟨1, 4⟩, ⟨2, 3⟩⟩
    let a : Span := ⟨⟨0, 7⟩, ⟨1, 4⟩⟩
    ¬(s.insert a).Contains (s.insert (point s.start)) ∧
      (s.insert a).Contains (s.insert ⟨⟨1, 2⟩, ⟨1, 4⟩⟩) ∧ a.stop ≤ (s.insert (point s.start)).start ∧
        (s.delete ⟨⟨0, 7⟩, ⟨2, 9⟩⟩).Contains (s.delete ⟨⟨1, 6⟩, ⟨2, 8⟩⟩) := by
  intro s a
  have hs : s.IsValid := by decide
  have ha : a.IsValid := by decide
  refine ⟨?_, ?_, ?_, ?_⟩
  · exact fun h => ((patches_keep_nesting ha (by decide) hs).2.2.2 (by decide)).mp h (by decide)
  · exact ((patches_keep_nesting ha (by decide) hs).2.2.2 (by decide)).mpr (by decide)
  · exact (patches_keep_nesting ha (b := point s.start) (by decide) hs).2.2.1 (by decide)
  · exact (patches_keep_nesting (by decide) (by decide) hs).1.2.1 (by decide)

end Span

end CssTree
