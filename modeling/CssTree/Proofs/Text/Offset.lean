import CssTree.Proofs.Text.Locate

namespace CssTree

/-- In the text of the three, `content` is a line without its break. -/
structure IsLine (before content after : Text) : Prop where
  start : (Position.origin.advance before).column = 0
  whole : ¬Fuse before (content ++ after)
  unbroken : ∀ c ∈ content, ¬(c = '\r' ∨ c = '\n')
  ended : ∀ c ∈ after.head?, c = '\r' ∨ c = '\n'

namespace Position

theorem advance_unbroken {t : Text} (h : ∀ c ∈ t, ¬(c = '\r' ∨ c = '\n')) (p : Position) :
    p.advance t = ⟨p.line, p.column + t.length⟩ := by
  induction t generalizing p with
  | nil => rfl
  | cons c cs ih =>
    obtain ⟨hc, hcs⟩ := List.forall_mem_cons.mp h
    rw [advance_char hc, ih hcs, List.length_cons, Nat.add_assoc, Nat.add_comm 1]

/-- A text that starts with a line break leaves the line. -/
theorem line_lt_advance {c : Char} (hc : c = '\r' ∨ c = '\n') (cs : Text) (p : Position) :
    p.line < (p.advance (c :: cs)).line := by
  have hbelow (u : Text) : p.line < (p.newLine.advance u).line := by
    have hle := le_advance p.newLine u
    rw [le_def] at hle
    simp only [newLine] at *
    omega
  by_cases hf : Fuse [c] cs
  · obtain ⟨hl, hh⟩ := hf
    obtain ⟨ds, rfl⟩ := List.head?_eq_some_iff.mp hh
    obtain rfl : c = '\r' := by simpa using hl
    exact hbelow ds
  · rw [advance_break hc hf]
    exact hbelow cs

end Position

variable {before content after : Text}

/-- Columns on a line count its characters, and no line break is cut there. -/
theorem IsLine.split {s v : Text} (h : IsLine before (s ++ v) after) :
    ¬Fuse (before ++ s) (v ++ after) ∧ Position.origin.advance (before ++ s) =
      ⟨(Position.origin.advance before).line, s.length⟩ := by
  have hs : ∀ c ∈ s, ¬(c = '\r' ∨ c = '\n') := fun c hc => h.unbroken c (List.mem_append_left v hc)
  have hwhole := h.whole
  rw [List.append_assoc] at hwhole
  by_cases hnil : s = []
  · subst hnil
    rw [List.append_nil]
    exact ⟨hwhole, Position.ext rfl h.start⟩
  · rw [fuse_append_right_iff hnil] at hwhole
    refine ⟨?_, ?_⟩
    · rw [fuse_append_left_iff hnil]
      rintro ⟨hlast, -⟩
      exact hs _ (List.mem_of_getLast? hlast) (Or.inl rfl)
    · rw [Position.advance_append hwhole, Position.advance_unbroken hs, h.start, Nat.zero_add]

namespace LineIndex

variable {t u w : Text} {p : Position} {r : Span} {o : Nat}

theorem offset?_eq_some_iff : (ofText t).offset? p = some o ↔
    ∃ s u, t = s ++ u ∧ ¬Fuse s u ∧ Position.origin.advance s = p ∧ utf8Length s = o := by
  constructor
  · intro h
    rw [offset?_eq] at h
    obtain ⟨i, hi, rfl⟩ := Option.map_eq_some_iff.mp h
    have htext : t.take i ++ t.drop i = t := List.take_append_drop i t
    have hlength : (t.take i).length = i := List.length_take_of_le (index?_le_length hi)
    obtain ⟨hfuse, hp⟩ := advance_of_index? (s := t.take i) (u := t.drop i) (p := p)
      (by rwa [htext, hlength])
    exact ⟨_, _, htext.symm, hfuse, hp.symm, rfl⟩
  · rintro ⟨s, u, rfl, hfuse, rfl, rfl⟩
    exact offset?_advance hfuse

theorem slice?_eq_some_iff : (ofText t).slice? r = some w ↔
    ∃ s u, t = s ++ w ++ u ∧ ¬Fuse s (w ++ u) ∧ ¬Fuse (s ++ w) u ∧ r = .behind s w := by
  constructor
  · intro h
    simp only [slice?, Option.bind_eq_bind, Option.bind_eq_some_iff, offset?_eq_some_iff] at h
    obtain ⟨_, ⟨s, u', htext, hs, hstart, rfl⟩, _, ⟨s', u, htext', hs', hstop, rfl⟩, hcut⟩ := h
    have hbytes : utf8Length s ≤ utf8Length s' := by
      by_contra hlt
      rw [sliceBytes?, if_neg hlt] at hcut
      cases hcut
    obtain ⟨v, rfl, rfl⟩ : ∃ v, s' = s ++ v ∧ u' = v ++ u := by
      rcases List.append_eq_append_iff.mp (htext.symm.trans htext') with h | ⟨v, rfl, rfl⟩
      · exact h
      · obtain rfl : v = [] := by
          by_contra hne
          have hpos := utf8Length_pos hne
          rw [utf8Length_append] at hbytes
          omega
        exact ⟨[], by simp, by simp⟩
    have hv := sliceBytes?_append s v u
    rw [← htext'] at hv
    obtain rfl : v = w := Option.some.inj (hv.symm.trans hcut)
    exact ⟨s, u, htext', hs, hs', Span.ext hstart.symm hstop.symm⟩
  · rintro ⟨s, u, rfl, hstart, hstop, rfl⟩
    exact slice?_behind hstart hstop

/-- Every line up to the last one stands somewhere in the text. -/
theorem exists_line {k : Nat} (h : k ≤ (Position.origin.advance t).line) :
    ∃ before content after, t = before ++ content ++ after ∧ IsLine before content after ∧
      (Position.origin.advance before).line = k := by
  obtain ⟨last, hlast, -⟩ := endsOn_place (not_fuse_nil_right t) 0 0
  rw [List.append_nil] at hlast
  have hlt : k < (splitLines t).length := by
    by_contra hge
    rw [getElem?_place, List.getElem?_eq_none (by omega)] at hlast
    cases hlast
  have hline := List.getElem?_eq_getElem hlt
  obtain ⟨after, htext, hended⟩ := exists_text_after hline
  -- the index gives the first column of the line the place that the text before it ends at
  have hplace : (ofText t).index? ⟨k, 0⟩ = some (textBefore t k).length := by
    simp [index?, line?, getElem?_lines, hline]
  obtain ⟨hwhole, hstart⟩ := advance_of_index? (s := textBefore t k) (u := _ ++ after)
    (by rwa [← htext])
  refine ⟨_, _, after, by rw [List.append_assoc, ← htext], ⟨by rw [← hstart], hwhole, ?_, hended⟩,
    by rw [← hstart]⟩
  exact line_unbroken _ (List.getElem_mem hlt)

/-- No text ends behind the end of a line. -/
theorem column_le_of_advance (h : IsLine before content after) {s : Text}
    (htext : before ++ content ++ after = s ++ u)
    (hline : (Position.origin.advance before).line = (Position.origin.advance s).line) :
    (Position.origin.advance s).column ≤ content.length := by
  rw [← List.append_nil content] at h
  obtain ⟨hseam, hstop⟩ := h.split
  rcases List.append_eq_append_iff.mp htext with ⟨v, rfl, rfl⟩ | ⟨v, hv, -⟩
  · cases v with
    | nil => simp [hstop]
    | cons c v =>
      -- the text ends on a later line
      rw [List.nil_append, fuse_append_right_iff (List.cons_ne_nil c v)] at hseam
      have hlater := Position.line_lt_advance (h.ended c (by simp)) v
        (Position.origin.advance (before ++ content))
      rw [← Position.advance_append hseam, ← hline, hstop] at hlater
      exact absurd hlater (Nat.lt_irrefl _)
  · have hle := Position.origin_advance_le s v
    rw [← hv, hstop, Position.le_def] at hle
    dsimp only at hle
    omega

/-- The index is the inverse of the advance over the text. It finds the bytes in front of each
position that a text before it ends at, no line break cut, and of no other, so it cuts a part out
of the text by the span of the part. Where it finds nothing, the position lies below the last line
or behind the end of its line. -/
theorem offset_inverts_advance (t : Text) :
    (∀ p o, (ofText t).offset? p = some o ↔
      ∃ s u, t = s ++ u ∧ ¬Fuse s u ∧ Position.origin.advance s = p ∧ utf8Length s = o) ∧
    (∀ r w, (ofText t).slice? r = some w ↔
      ∃ s u, t = s ++ w ++ u ∧ ¬Fuse s (w ++ u) ∧ ¬Fuse (s ++ w) u ∧ r = .behind s w) ∧
    ∀ p, (ofText t).offset? p = none ↔ (Position.origin.advance t).line < p.line ∨
      ∃ before content after, t = before ++ content ++ after ∧ IsLine before content after ∧
        (Position.origin.advance before).line = p.line ∧ content.length < p.column := by
  refine ⟨fun p o => offset?_eq_some_iff, fun r w => slice?_eq_some_iff, fun p => ⟨?_, ?_⟩⟩
  · intro hnone
    by_contra hinside
    rw [not_or, Nat.not_lt] at hinside
    obtain ⟨hline, hinside⟩ := hinside
    obtain ⟨before, content, after, rfl, h, hbefore⟩ := exists_line hline
    have hcolumn : p.column ≤ content.length := by
      by_contra hlt
      exact hinside ⟨before, content, after, rfl, h, hbefore, Nat.lt_of_not_le hlt⟩
    have htake : content.take p.column ++ content.drop p.column = content :=
      List.take_append_drop _ _
    rw [← htake] at h
    obtain ⟨hseam, hend⟩ := h.split
    have hfound := offset?_advance hseam
    rw [hend, hbefore, List.length_take_of_le hcolumn, ← List.append_assoc,
      List.append_assoc before, htake, hnone] at hfound
    cases hfound
  · intro houtside
    rw [Option.eq_none_iff_forall_ne_some]
    intro o ho
    obtain ⟨s, u, htext, -, rfl, -⟩ := offset?_eq_some_iff.mp ho
    rcases houtside with hlt | ⟨before, content, after, rfl, h, hbefore, hcolumn⟩
    · have hle := Position.origin_advance_le s u
      rw [← htext, Position.le_def] at hle
      omega
    · exact Nat.not_le_of_lt hcolumn (column_le_of_advance h htext hbefore)

end LineIndex

end CssTree
