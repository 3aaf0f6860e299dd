import CssTree.Proofs.Text.Span
import CssTree.Proofs.Token.Boundary

namespace CssTree

namespace Position

variable {p q r : Position} {s t : Text}

theorem not_lt_of_le (h : p ≤ q) : ¬q < p := fun hlt => not_le.mpr hlt h

theorem lt_of_lt_of_le (h : p < q) (h' : q ≤ r) : p < r := by
  simp only [lt_def, le_def] at *
  omega

theorem lt_of_le_of_lt (h : p ≤ q) (h' : q < r) : p < r := by
  simp only [lt_def, le_def] at *
  omega

theorem lt_plus (h : q ≠ origin) : p < p.plus q := by
  have hq : q.line ≠ 0 ∨ q.column ≠ 0 := by
    by_contra hzero
    rw [not_or, not_not, not_not] at hzero
    exact h (Position.ext hzero.1 hzero.2)
  simp only [lt_def, plus]
  split_ifs <;> omega

theorem advance_ne_origin (h : t ≠ []) : origin.advance t ≠ origin := by
  obtain ⟨c, cs, rfl⟩ := List.exists_cons_of_ne_nil h
  obtain ⟨q, ds, hq, -, hstep⟩ := advance_step c cs
  have hadvance := (hstep [] (not_fuse_nil_right _)).2 origin
  rw [List.append_nil, List.append_nil, origin_plus, advance_eq_plus] at hadvance
  intro hzero
  have hlt : origin < origin.plus q := lt_plus hq
  have hle : q ≤ q.advance ds := le_advance q ds
  rw [origin_plus] at hlt
  rw [← hadvance, hzero, origin_plus] at hle
  exact not_lt_of_le hle hlt

/-- A text takes room, unless it is joined to the text in front of it. -/
theorem advance_lt (h : ¬Fuse s t) (ht : t ≠ []) :
    origin.advance s < origin.advance (s ++ t) := by
  rw [advance_append h, advance_eq_plus _ t]
  exact lt_plus (advance_ne_origin ht)

theorem advance_eq_self_iff : p.advance t = p ↔ t = [] := by
  refine ⟨fun heq => ?_, fun ht => by rw [ht, advance_nil]⟩
  by_contra ht
  have hlt : p < p.advance t := advance_eq_plus p t ▸ lt_plus (advance_ne_origin ht)
  rw [heq] at hlt
  exact not_lt_of_le (le_refl p) hlt

/-- Writing one text behind another comes to where both together come to, unless a line break lies
across the two, which then counts twice. A text never leads back, and none but the empty one stays
where it is. -/
theorem advance_advance (p : Position) (s t : Text) :
    (p.advance s).advance t =
        (if Fuse s t then ⟨(p.advance (s ++ t)).line + 1, (p.advance (s ++ t)).column⟩
          else p.advance (s ++ t)) ∧
      p ≤ p.advance s ∧ (p = p.advance s ↔ s = []) := by
  refine ⟨?_, le_advance p s, eq_comm.trans advance_eq_self_iff⟩
  split_ifs with h
  · obtain ⟨u, rfl⟩ := List.head?_eq_some_iff.mp h.2
    obtain ⟨r, rfl⟩ := List.getLast?_eq_some_iff.mp h.1
    have hfeed (q : Position) : q.advance ('\n' :: u) = q.newLine.advance u := rfl
    rw [advance_fuse h, hfeed, advance_return, advance_newLine]
  · exact (advance_append h p).symm

end Position

namespace Span

variable {r s : Span} {p q : Position}

/-- What stands behind an insertion keeps its distance from it. -/
theorem pushPast_plus (hs : s.IsValid) (q : Position) :
    s.pushPast (s.start.plus q) = s.stop.plus q := by
  simp only [IsValid, Position.le_def] at hs
  simp only [pushPast, Position.plus]
  by_cases hq : q.line = 0
  · ext <;> simp only [hq, Nat.add_zero, if_true] <;> omega
  · have hne : s.start.line + q.line ≠ s.start.line := by omega
    ext <;> simp only [hq, hne, if_false]
    omega

/-- A position that was pulled back over a deletion goes to where it was. -/
theorem pushPast_pullBack (hs : s.IsValid) (h : s.stop ≤ p) : s.pushPast (s.pullBack p) = p := by
  simp only [IsValid, Position.le_def] at hs h
  simp only [pullBack, pushPast, Position.le_def, Position.lt_def]
  ext <;> split_ifs <;> simp_all <;> omega

theorem start_le_pullBack (h : s.start ≤ p) : s.start ≤ s.pullBack p := by
  have hmono := s.pullBack_mono h
  rwa [pullBack_of_le (Position.le_refl _)] at hmono

theorem start_lt_pullBack (hs : s.IsValid) (h : s.stop < p) : s.start < s.pullBack p := by
  simp only [IsValid, Position.le_def, Position.lt_def] at hs h
  simp only [pullBack, Position.le_def, Position.lt_def]
  split_ifs <;> first | omega | (dsimp only; omega)

theorem pullBack_of_lt (h : s.start ≤ p) (hp : p < s.stop) : s.pullBack p = s.start := by
  rw [pullBack]
  split
  next hle => exact Position.le_antisymm hle h
  next => rfl

theorem pullBack_stop (hs : s.IsValid) : s.pullBack s.stop = s.start := by
  rw [← start_pushPast hs, pullBack_pushPast hs (Position.le_refl _)]

/-- What lies in a deletion, its end included, is where the deletion starts. -/
theorem pullBack_of_mem (hs : s.IsValid) (h : s.start ≤ p) (hp : p ≤ s.stop) :
    s.pullBack p = s.start := by
  by_cases hlt : p < s.stop
  · exact pullBack_of_lt h hlt
  · obtain rfl : p = s.stop := Position.le_antisymm hp (Position.le_of_not_lt hlt)
    exact pullBack_stop hs

/-- The start of a span once a text is inserted. -/
theorem start_insert (hr : r.IsValid) (hs : s.IsValid) :
    (s.insert r).start = if s.start ≤ r.start then s.pushPast r.start else r.start := by
  rw [insert, if_pos ⟨hr, hs⟩]

/-- The end of a span once a text is inserted, if it does not get in front of the start. -/
theorem stop_insert (hr : r.IsValid) (hs : s.IsValid)
    (h : (s.insert r).start ≤ if s.start < r.stop then s.pushPast r.stop else r.stop) :
    (s.insert r).stop = if s.start < r.stop then s.pushPast r.stop else r.stop := by
  rw [start_insert hr hs] at h
  rw [insert, if_pos ⟨hr, hs⟩]
  exact if_neg (Position.not_lt_of_le h)

/-- A span that stops at the insertion point or in front of it does not grow. -/
theorem stop_insert_of_le (hr : r.IsValid) (hs : s.IsValid) (h : r.stop ≤ s.start) :
    (s.insert r).stop = if r.stop < (s.insert r).start then (s.insert r).start else r.stop := by
  rw [start_insert hr hs, insert, if_pos ⟨hr, hs⟩]
  simp only [if_neg (Position.not_lt_of_le h)]

theorem insert_point (hs : s.IsValid) : s.insert (point s.start) = point s.stop := by
  have hr : (point s.start).IsValid := Position.le_refl _
  have hstart : (s.insert (point s.start)).start = s.stop := insert_start hs hr rfl
  refine Span.ext hstart ?_
  rw [stop_insert_of_le hr hs (Position.le_refl _), hstart]
  split
  next => rfl
  next h => exact Position.le_antisymm hs (Position.le_of_not_lt h)

/-- A start outside of a deletion is back once the text is inserted again, and no other is. -/
theorem start_insert_delete_iff (hr : r.IsValid) (hs : s.IsValid) :
    (s.insert (s.delete r)).start = r.start ↔ ¬s.ContainsPosition r.start := by
  rw [start_insert (hr.delete s) hs, delete_of_isValid hs hr]
  dsimp only
  by_cases hbefore : s.start ≤ r.start
  · rw [if_pos (start_le_pullBack hbefore)]
    by_cases hin : r.start < s.stop
    · rw [pullBack_of_lt hbefore hin, start_pushPast hs]
      refine iff_of_false (fun heq => ?_) fun hnot => hnot ⟨hbefore, hin⟩
      exact Position.not_lt_of_le (heq ▸ Position.le_refl _) hin
    · rw [pushPast_pullBack hs (Position.le_of_not_lt hin)]
      exact iff_of_true rfl fun hnot => hin hnot.2
  · have hlt := Position.not_le.mp hbefore
    rw [pullBack_of_le (Position.le_of_lt hlt), if_neg hbefore]
    exact iff_of_true rfl fun hnot => hbefore hnot.1

/-- An end that is neither in a deletion nor at its end is back once the text is inserted again. -/
theorem stop_insert_delete (hr : r.IsValid) (hs : s.IsValid)
    (hstart : (s.insert (s.delete r)).start = r.start)
    (hout : ¬(s.start < r.stop ∧ r.stop ≤ s.stop)) : (s.insert (s.delete r)).stop = r.stop := by
  have hdelete := hr.delete s
  have hback : (if s.start < (s.delete r).stop then s.pushPast (s.delete r).stop
      else (s.delete r).stop) = r.stop := by
    rw [delete_of_isValid hs hr]
    dsimp only
    by_cases hbehind : s.start < r.stop
    · have hlt : s.stop < r.stop := Position.not_le.mp fun hle => hout ⟨hbehind, hle⟩
      rw [if_pos (start_lt_pullBack hs hlt), pushPast_pullBack hs (Position.le_of_lt hlt)]
    · rw [pullBack_of_le (Position.le_of_not_lt hbehind), if_neg hbehind]
  rw [stop_insert hdelete hs (by rw [hback, hstart]; exact hr), hback]

/-- A span that ends in a deletion does not get its end back. -/
theorem stop_insert_delete_ne (hr : r.IsValid) (hs : s.IsValid) (hlt : s.start < r.stop)
    (hle : r.stop ≤ s.stop) (hstart : r.start < s.start) :
    (s.insert (s.delete r)).stop ≠ r.stop := by
  have hdelete := hr.delete s
  have hpulled : s.delete r = ⟨r.start, s.start⟩ := by
    rw [delete_of_isValid hs hr, pullBack_of_le (Position.le_of_lt hstart),
      pullBack_of_mem hs (Position.le_of_lt hlt) hle]
  have hkept : s.insert ⟨r.start, s.start⟩ = ⟨r.start, s.start⟩ :=
    insert_of_lt hstart (Position.le_refl _)
  rw [hpulled, hkept]
  exact fun heq => Position.not_lt_of_le (heq ▸ Position.le_refl _) hlt

/-- What is inserted into a text and deleted again leaves every span as it was. What is deleted and
inserted again does so for the spans that neither start in it nor end in it, and for the point at
its end; it does not for any other. -/
theorem patches_undone (hr : r.IsValid) (hs : s.IsValid) :
    s.delete (s.insert r) = r ∧
      (¬s.IsEmpty → (s.insert (s.delete r) = r ↔
        r = point s.stop ∨
          ¬(s.start ≤ r.start ∧ r.start < s.stop) ∧ ¬(s.start < r.stop ∧ r.stop ≤ s.stop))) := by
  refine ⟨delete_insert hs r, fun hne => ⟨fun h => ?_, ?_⟩⟩
  · have hstart := (start_insert_delete_iff hr hs).mp (congrArg start h)
    by_cases hend : s.start < r.stop ∧ r.stop ≤ s.stop
    · have hbehind : s.stop ≤ r.start := by
        refine Position.le_of_not_lt fun hlt => ?_
        by_cases hbefore : s.start ≤ r.start
        · exact hstart ⟨hbefore, hlt⟩
        · exact stop_insert_delete_ne hr hs hend.1 hend.2 (Position.not_le.mp hbefore)
            (congrArg stop h)
      have hstop : r.stop = s.stop := Position.le_antisymm hend.2 (Position.le_trans hbehind hr)
      exact Or.inl (Span.ext (Position.le_antisymm (hstop ▸ hr) hbehind) hstop)
    · exact Or.inr ⟨hstart, hend⟩
  · rintro (rfl | ⟨hstart, hend⟩)
    · have hdelete : s.delete (point s.stop) = point s.start := by
        rw [delete_of_isValid hs hr]
        exact Span.ext (pullBack_stop hs) (pullBack_stop hs)
      rw [hdelete, insert_point hs]
    · have hback := (start_insert_delete_iff hr hs).mpr hstart
      exact Span.ext hback (stop_insert_delete hr hs hback hend)

/-- A span around what is deleted, and the point at its end. -/
theorem patches_undone_around :
    let s : Span := ⟨⟨0, 2⟩, ⟨1, 7⟩⟩
    s.insert (s.delete ⟨⟨0, 1⟩, ⟨4, 1⟩⟩) = ⟨⟨0, 1⟩, ⟨4, 1⟩⟩ ∧ s.insert (s.delete (point s.stop)) =
      point s.stop ∧ s.insert (s.delete ⟨⟨0, 2⟩, ⟨4, 1⟩⟩) ≠ ⟨⟨0, 2⟩, ⟨4, 1⟩⟩ := by
  intro s
  have hs : s.IsValid := by decide
  have hne : ¬s.IsEmpty := by decide
  refine ⟨?_, ?_, fun h => ?_⟩
  · exact ((patches_undone (by decide) hs).2 hne).mpr (by decide)
  · exact ((patches_undone (by decide) hs).2 hne).mpr (by decide)
  · exact absurd (((patches_undone (by decide) hs).2 hne).mp h) (by decide)

end Span

/-- The place in front of the character of a text at `k`. -/
def Position.ofIndex (t : Text) (k : Nat) : Position := origin.advance (t.take k)

/-- The span of the characters of a text from the one at `i` up to the one at `j`. -/
def Span.within (t : Text) (i j : Nat) : Span := ⟨.ofIndex t i, .ofIndex t j⟩

/-- The place of a character once the `n` characters behind the first `m` are taken out. Each of
these goes to where they stood. -/
def keptIndex (m n k : Nat) : Nat := min k m + (k - (m + n))

theorem not_fuse_take {s t : Text} (h : ¬Fuse s t) (n : Nat) : ¬Fuse s (t.take n) := by
  by_cases hnone : t.take n = []
  · rw [hnone]
    exact not_fuse_nil_right s
  · rwa [← t.take_append_drop n, fuse_append_right_iff hnone] at h

namespace Position

variable {t : Text} {i j k : Nat}

theorem ofIndex_mono (t : Text) (h : i ≤ j) : ofIndex t i ≤ ofIndex t j := by
  obtain ⟨n, rfl⟩ := Nat.exists_eq_add_of_le h
  rw [ofIndex, ofIndex, List.take_add]
  exact origin_advance_le _ _

theorem ofIndex_lt (hij : i < j) (hj : j ≤ t.length) (hclean : Clean [] t i) :
    ofIndex t i < ofIndex t j := by
  obtain ⟨n, rfl⟩ := Nat.exists_eq_add_of_lt hij
  rw [ofIndex, ofIndex, Nat.add_assoc, List.take_add]
  refine advance_lt (not_fuse_take hclean _) fun hnone => ?_
  have hlength := congrArg List.length hnone
  rw [List.length_take, List.length_drop, List.length_nil] at hlength
  omega

/-- In front of what is added to a text, places stay. -/
theorem ofIndex_append (s : Text) (h : k ≤ t.length) : ofIndex (t ++ s) k = ofIndex t k := by
  rw [ofIndex, List.take_append_of_le_length h, ofIndex]

theorem ofIndex_length (t : Text) : ofIndex t t.length = origin.advance t := by
  rw [ofIndex, List.take_length]

theorem ofIndex_behind (s t : Text) (k : Nat) :
    ofIndex (s ++ t) (s.length + k) = origin.advance (s ++ t.take k) := by
  rw [ofIndex, List.take_length_add_append]

end Position

namespace Span

variable {t : Text} {i j : Nat}

theorem isValid_within (t : Text) (h : i ≤ j) : (within t i j).IsValid := Position.ofIndex_mono t h

theorem within_behind (p q r : Text) :
    within (p ++ q ++ r) p.length (p.length + q.length) = behind p q := by
  refine Span.ext ?_ ?_
  · show Position.ofIndex (p ++ q ++ r) p.length = _
    rw [List.append_assoc, Position.ofIndex_append _ (Nat.le_refl _), Position.ofIndex_length]
    rfl
  · show Position.ofIndex (p ++ q ++ r) (p.length + q.length) = _
    rw [← List.length_append, Position.ofIndex_append _ (Nat.le_refl _), Position.ofIndex_length]
    rfl

theorem join_within (t : Text) (i j i' j' : Nat) :
    (within t i j).join (within t i' j') = within t (min i i') (max j j') := by
  have hmono : ∀ {k l}, k ≤ l → Position.ofIndex t k ≤ Position.ofIndex t l :=
    fun h => Position.ofIndex_mono t h
  refine Span.ext ?_ ?_
  · show min (Position.ofIndex t i) (Position.ofIndex t i') = Position.ofIndex t (min i i')
    rw [Position.min_def]
    split
    next h =>
      rcases Nat.le_total i i' with hle | hle
      · rw [Nat.min_eq_left hle]
      · rw [Nat.min_eq_right hle, Position.le_antisymm h (hmono hle)]
    next h => rw [Nat.min_eq_right (Nat.le_of_not_le fun hle => h (hmono hle))]
  · show max (Position.ofIndex t j) (Position.ofIndex t j') = Position.ofIndex t (max j j')
    rw [Position.max_def]
    split
    next h =>
      rcases Nat.le_total j j' with hle | hle
      · rw [Nat.max_eq_right hle]
      · rw [Nat.max_eq_left hle, Position.le_antisymm h (hmono hle)]
    next h => rw [Nat.max_eq_left (Nat.le_of_not_le fun hle => h (hmono hle))]

end Span

/-- A text between two others: no line break is cut at its ends, and none where the others meet
without it. -/
structure CleanPatch (a x b : Text) : Prop where
  front : ¬Fuse a x
  back : ¬Fuse x b
  joined : ¬Fuse a b

namespace CleanPatch

open Position CssTree.Span

variable {a x b : Text} {i j k : Nat}

theorem behind (h : CleanPatch a x b) : ¬Fuse (a ++ x) b := by
  by_cases hnone : x = []
  · rw [hnone, List.append_nil]
    exact h.joined
  · rw [fuse_append_left_iff hnone]
    exact h.back

theorem stop (h : CleanPatch a x b) : (ofText (origin.advance a) x).stop = origin.advance (a ++ x) :=
  (advance_append h.front _).symm

theorem start_eq (a x b : Text) : (ofText (origin.advance a) x).start = ofIndex (a ++ b) a.length := by
  rw [ofIndex_append _ (Nat.le_refl _), ofIndex_length]
  rfl

/-- Places behind the insertion point are pushed past the text. -/
theorem pushPast_ofIndex (h : CleanPatch a x b) (hk : a.length ≤ k) :
    (ofText (origin.advance a) x).pushPast (ofIndex (a ++ b) k) =
      ofIndex (a ++ x ++ b) (k + x.length) := by
  obtain ⟨n, rfl⟩ := Nat.exists_eq_add_of_le hk
  have hlength : a.length + n + x.length = (a ++ x).length + n := by
    rw [List.length_append]
    omega
  rw [hlength, ofIndex_behind, ofIndex_behind, advance_append (not_fuse_take h.joined n),
    advance_append (not_fuse_take h.behind n), ← h.stop, advance_eq_plus (origin.advance a),
    advance_eq_plus (ofText (origin.advance a) x).stop]
  exact pushPast_plus (isValid_ofText (origin.advance a) x) _

theorem insert_within (h : CleanPatch a x b) (hij : i < j) (hj : j ≤ (a ++ b).length)
    (hi : Clean [] (a ++ b) i) : (ofText (origin.advance a) x).insert (within (a ++ b) i j) =
      within (a ++ x ++ b) (if i < a.length then i else i + x.length)
        (if j ≤ a.length then j else j + x.length) := by
  let s := ofText (origin.advance a) x
  have hs : s.IsValid := isValid_ofText _ _
  have hr := isValid_within (a ++ b) (Nat.le_of_lt hij)
  have hstart : (s.insert (within (a ++ b) i j)).start =
      ofIndex (a ++ x ++ b) (if i < a.length then i else i + x.length) := by
    rw [start_insert hr hs, start_eq a x b, within]
    by_cases hfront : i < a.length
    · have hlt := ofIndex_lt hfront (by simp) hi
      rw [if_neg (not_le.mpr hlt), if_pos hfront, List.append_assoc,
        ofIndex_append _ (Nat.le_of_lt hfront), ofIndex_append _ (Nat.le_of_lt hfront)]
    · rw [if_pos (ofIndex_mono _ (Nat.le_of_not_lt hfront)), if_neg hfront]
      exact h.pushPast_ofIndex (Nat.le_of_not_lt hfront)
  have hstop : (if s.start < ofIndex (a ++ b) j then s.pushPast (ofIndex (a ++ b) j)
      else ofIndex (a ++ b) j) =
        ofIndex (a ++ x ++ b) (if j ≤ a.length then j else j + x.length) := by
    rw [start_eq a x b]
    by_cases hfront : j ≤ a.length
    · rw [if_neg (not_lt_of_le (ofIndex_mono _ hfront)), if_pos hfront, List.append_assoc,
        ofIndex_append _ hfront, ofIndex_append _ hfront]
    · have hclean : Clean [] (a ++ b) a.length := by
        simpa [Clean] using h.joined
      rw [if_pos (ofIndex_lt (Nat.lt_of_not_le hfront) hj hclean), if_neg hfront]
      exact h.pushPast_ofIndex (Nat.le_of_not_le hfront)
  refine Span.ext hstart ((stop_insert hr hs ?_).trans hstop)
  rw [hstart, within, hstop]
  apply ofIndex_mono
  split_ifs <;> omega

theorem ofText_eq_within (h : CleanPatch a x b) :
    ofText (origin.advance a) x = within (a ++ x ++ b) a.length (a.length + x.length) := by
  rw [within_behind, ofText_eq_behind h.front]

/-- A part of a text that the insertion point touches, and that grows to cover the text. -/
theorem insert_join_within (h : CleanPatch a x b) (hi : i ≤ a.length) (hj : a.length ≤ j)
    (hjlen : j ≤ (a ++ b).length) (hclean : Clean [] (a ++ b) i) :
    ((ofText (origin.advance a) x).insert (within (a ++ b) i j)).join
      (ofText (origin.advance a) x) = within (a ++ x ++ b) i (j + x.length) := by
  rcases Nat.lt_or_eq_of_le (Nat.le_trans hi hj) with hij | rfl
  · rw [h.insert_within hij hjlen hclean, h.ofText_eq_within, join_within]
    congr 1
    · split_ifs <;> omega
    · split_ifs <;> omega
  · obtain rfl : i = a.length := Nat.le_antisymm hi hj
    have hpoint : within (a ++ b) a.length a.length =
        point (ofText (origin.advance a) x).start := by
      rw [start_eq a x b]
      rfl
    have hstop : point (ofText (origin.advance a) x).stop =
        within (a ++ x ++ b) (a.length + x.length) (a.length + x.length) := by
      rw [h.ofText_eq_within]
      rfl
    rw [hpoint, insert_point (isValid_ofText _ _), hstop, h.ofText_eq_within, join_within]
    congr 1 <;> omega

/-- Places behind a deletion are pulled back over it, those in it go to its start. -/
theorem pullBack_ofIndex (h : CleanPatch a x b) (hk : Clean [] (a ++ x ++ b) k) :
    (ofText (origin.advance a) x).pullBack (ofIndex (a ++ x ++ b) k) =
      ofIndex (a ++ b) (keptIndex a.length x.length k) := by
  let s := ofText (origin.advance a) x
  have hs : s.IsValid := isValid_ofText _ _
  have hstart : s.start = ofIndex (a ++ x ++ b) a.length := by
    rw [List.append_assoc]
    exact start_eq a x (x ++ b)
  have hstop : s.stop = ofIndex (a ++ x ++ b) (a ++ x).length := by
    rw [ofIndex_append _ (Nat.le_refl _), ofIndex_length]
    exact h.stop
  rw [List.length_append] at hstop
  by_cases hfront : k ≤ a.length
  · have hkept : keptIndex a.length x.length k = k := by
      rw [keptIndex]
      omega
    rw [hkept, pullBack_of_le (by rw [hstart]; exact ofIndex_mono _ hfront), List.append_assoc,
      ofIndex_append _ hfront, ofIndex_append _ hfront]
  · have hbehind := ofIndex_mono (a ++ x ++ b) (Nat.le_of_not_le hfront)
    rw [← hstart] at hbehind
    by_cases hin : k < a.length + x.length
    · have hkept : keptIndex a.length x.length k = a.length := by
        rw [keptIndex]
        omega
      rw [hkept, pullBack_of_lt hbehind, start_eq a x b]
      rw [hstop]
      exact ofIndex_lt hin (by simp) hk
    · have hkept : keptIndex a.length x.length k + x.length = k := by
        rw [keptIndex]
        omega
      have hpush := h.pushPast_ofIndex (k := keptIndex a.length x.length k) (by
        rw [keptIndex]
        omega)
      rw [hkept] at hpush
      rw [← hpush, pullBack_pushPast hs]
      rw [start_eq a x b]
      apply ofIndex_mono
      rw [keptIndex]
      omega

theorem delete_within (h : CleanPatch a x b) (hij : i ≤ j) (hi : Clean [] (a ++ x ++ b) i)
    (hj : Clean [] (a ++ x ++ b) j) :
    (ofText (origin.advance a) x).delete (within (a ++ x ++ b) i j) =
      within (a ++ b) (keptIndex a.length x.length i) (keptIndex a.length x.length j) := by
  rw [delete_of_isValid (isValid_ofText _ _) (isValid_within _ hij)]
  exact Span.ext (h.pullBack_ofIndex hi) (h.pullBack_ofIndex hj)

end CleanPatch

namespace Span

open Position

/-- Spans under an insertion and under a deletion are those of the same characters in the text that
comes of it. A part of a text that reaches over the insertion point covers the text that is put
there; a part of which nothing is left is a point where it was. -/
theorem patches_follow_text {a x b : Text} (hax : ¬Fuse a x) (hxb : ¬Fuse x b) (hab : ¬Fuse a b) :
    let s := ofText (origin.advance a) x
    (∀ i j, i < j → j ≤ (a ++ b).length → Clean [] (a ++ b) i → Clean [] (a ++ b) j →
      (j ≤ a.length → s.insert (within (a ++ b) i j) = within (a ++ x ++ b) i j) ∧
      (a.length ≤ i → s.insert (within (a ++ b) i j) =
        within (a ++ x ++ b) (i + x.length) (j + x.length)) ∧
      (i < a.length → a.length < j → s.insert (within (a ++ b) i j) =
        within (a ++ x ++ b) i (j + x.length))) ∧
    ∀ i j, i < j → j ≤ (a ++ x ++ b).length → Clean [] (a ++ x ++ b) i →
      Clean [] (a ++ x ++ b) j →
        s.delete (within (a ++ x ++ b) i j) =
            within (a ++ b) (keptIndex a.length x.length i) (keptIndex a.length x.length j) ∧
          (a.length ≤ i → j ≤ a.length + x.length →
            s.delete (within (a ++ x ++ b) i j) = point (origin.advance a)) := by
  intro s
  have hpatch : CleanPatch a x b := ⟨hax, hxb, hab⟩
  refine ⟨fun i j hij hj hi _ => ?_, fun i j hij _ hi hj => ?_⟩
  · have hinsert := hpatch.insert_within hij hj hi
    refine ⟨fun hfront => ?_, fun hback => ?_, fun hi hj => ?_⟩
    · rwa [if_pos (Nat.lt_of_lt_of_le hij hfront), if_pos hfront] at hinsert
    · rwa [if_neg (Nat.not_lt.mpr hback),
        if_neg (Nat.not_le.mpr (Nat.lt_of_le_of_lt hback hij))] at hinsert
    · rwa [if_pos hi, if_neg (Nat.not_le.mpr hj)] at hinsert
  · have hdelete := hpatch.delete_within (Nat.le_of_lt hij) hi hj
    refine ⟨hdelete, fun hfront hback => ?_⟩
    have hkept : ∀ k, a.length ≤ k → k ≤ a.length + x.length →
        keptIndex a.length x.length k = a.length := by
      intro k hk hk'
      rw [keptIndex]
      omega
    rw [hkept i hfront (by omega), hkept j (by omega) hback] at hdelete
    rw [hdelete, within, ofIndex_append _ (Nat.le_refl _), ofIndex_length]
    rfl

/-- A line break is put into the second line of a text and taken out again. -/
theorem patches_follow_text_lines :
    let a : Text := ['p', '\r', '\n', 'q']
    let x : Text := ['\r', 'x']
    let b : Text := ['y', '\n', 'z']
    let s := ofText (origin.advance a) x
    ¬Fuse a x ∧ ¬Fuse x b ∧ ¬Fuse a b ∧ s.insert (within (a ++ b) 3 6) = within (a ++ x ++ b) 3 8 ∧
      s.delete (within (a ++ x ++ b) 5 8) = within (a ++ b) 4 6 := by
  intro a x b s
  have hax : ¬Fuse a x := by decide
  have hxb : ¬Fuse x b := by decide
  have hab : ¬Fuse a b := by decide
  obtain ⟨hinsert, hdelete⟩ := patches_follow_text hax hxb hab
  refine ⟨hax, hxb, hab, ?_, ?_⟩
  · exact (hinsert 3 6 (by decide) (by decide) (by decide) (by decide)).2.2 (by decide) (by decide)
  · exact (hdelete 5 8 (by decide) (by decide) (by decide) (by decide)).1

end Span

end CssTree
