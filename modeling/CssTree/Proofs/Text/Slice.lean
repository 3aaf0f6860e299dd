import CssTree.Proofs.Text.Advance
import CssTree.Text.LineIndex

namespace CssTree

@[simp] theorem utf8Length_nil : utf8Length [] = 0 := rfl

@[simp] theorem utf8Length_cons (c : Char) (cs : Text) :
    utf8Length (c :: cs) = c.utf8Size + utf8Length cs := rfl

@[simp] theorem utf8Length_append (s t : Text) :
    utf8Length (s ++ t) = utf8Length s + utf8Length t := by
  induction s with
  | nil => simp
  | cons c cs ih => simp [ih, Nat.add_assoc]

theorem utf8Length_pos {t : Text} (h : t ≠ []) : 0 < utf8Length t := by
  obtain ⟨c, cs, rfl⟩ := List.exists_cons_of_ne_nil h
  exact Nat.lt_of_lt_of_le c.utf8Size_pos (Nat.le_add_right _ _)

theorem utf8Length_take_lt {t : Text} {i j : Nat} (h : i < j) (hj : j ≤ t.length) :
    utf8Length (t.take i) < utf8Length (t.take j) := by
  obtain ⟨d, rfl⟩ := Nat.exists_eq_add_of_lt h
  have hne : (t.drop i).take (d + 1) ≠ [] := by
    rw [← List.length_pos_iff, List.length_take, List.length_drop]
    omega
  have hpos := utf8Length_pos hne
  rw [Nat.add_assoc, List.take_add, utf8Length_append]
  omega

theorem dropBytes?_cons (c : Char) (cs : Text) (n : Nat) :
    dropBytes? (c.utf8Size + n) (c :: cs) = dropBytes? n cs := by
  obtain ⟨k, hk⟩ := Nat.exists_eq_add_of_lt c.utf8Size_pos
  have hsize : c.utf8Size + n = k + n + 1 := by omega
  rw [hsize, dropBytes?, if_pos (by omega)]
  congr 1
  omega

theorem takeBytes?_cons (c : Char) (cs : Text) (n : Nat) :
    takeBytes? (c.utf8Size + n) (c :: cs) = (takeBytes? n cs).map (c :: ·) := by
  obtain ⟨k, hk⟩ := Nat.exists_eq_add_of_lt c.utf8Size_pos
  have hsize : c.utf8Size + n = k + n + 1 := by omega
  rw [hsize, takeBytes?, if_pos (by omega)]
  congr 2
  omega

theorem dropBytes?_append (s u : Text) : dropBytes? (utf8Length s) (s ++ u) = some u := by
  induction s with
  | nil => simp [dropBytes?]
  | cons c cs ih => rw [utf8Length_cons, List.cons_append, dropBytes?_cons, ih]

theorem takeBytes?_append (s u : Text) : takeBytes? (utf8Length s) (s ++ u) = some s := by
  induction s with
  | nil => simp [takeBytes?]
  | cons c cs ih => rw [utf8Length_cons, List.cons_append, takeBytes?_cons, ih, Option.map_some]

/-- A part of a text is cut out by the bytes at its two ends. -/
theorem sliceBytes?_append (s w u : Text) :
    sliceBytes? (utf8Length s) (utf8Length (s ++ w)) (s ++ w ++ u) = some w := by
  rw [sliceBytes?, utf8Length_append, if_pos (Nat.le_add_right _ _), List.append_assoc,
    dropBytes?_append, Option.bind_some, Nat.add_sub_cancel_left, takeBytes?_append]

theorem utf8Length_of_isAscii {t : Text} (h : isAscii t = true) : utf8Length t = t.length := by
  induction t with
  | nil => rfl
  | cons c cs ih =>
    rw [isAscii, List.all_cons, Bool.and_eq_true, decide_eq_true_eq] at h
    have hsize : c.utf8Size = 1 := Char.utf8Size_eq_one_iff.mpr (Nat.le_of_lt_succ h.1)
    rw [utf8Length_cons, List.length_cons, ih h.2, hsize, Nat.add_comm]

/-- Columns of an ASCII line are its bytes, and those of any other line are found at the character
before them. -/
theorem Line.bytesBefore?_eq {l : Line} {column : Nat} (h : l.ascii = isAscii l.content)
    (hcolumn : column ≠ 0) : l.bytesBefore? column =
      if column ≤ l.content.length then some (utf8Length (l.content.take column)) else none := by
  obtain ⟨k, rfl⟩ := Nat.exists_eq_succ_of_ne_zero hcolumn
  rw [bytesBefore?, h]
  split
  next hascii =>
    have htake : isAscii (l.content.take (k + 1)) = true :=
      List.all_eq_true.mpr fun c hc => List.all_eq_true.mp hascii c (List.mem_of_mem_take hc)
    rw [utf8Length_of_isAscii hascii, utf8Length_of_isAscii htake, List.length_take]
    split
    next hle => rw [Nat.min_eq_left hle]
    next => rfl
  next =>
    dsimp only
    rw [Nat.succ_sub_one]
    split
    next hlt =>
      rw [List.getElem?_eq_getElem hlt, Option.map_some, List.take_succ_eq_append_getElem hlt,
        utf8Length_append, utf8Length_cons, utf8Length_nil, Nat.add_zero]
    next hge => rw [List.getElem?_eq_none (Nat.le_of_not_lt hge), Option.map_none]

theorem splitLines_ne_nil (t : Text) : splitLines t ≠ [] := by
  unfold splitLines
  split
  · simp
  · simp
  · split
    · simp
    · split <;> simp

theorem flatMap_splitLines (t : Text) : (splitLines t).flatMap (fun l => l.1 ++ l.2) = t := by
  fun_induction splitLines t with
  | case1 => rfl
  | case2 cs ih => simp [ih]
  | case3 c cs h hc ih => simp [ih]
  | case4 c cs h hc hnil ih => exact absurd hnil (splitLines_ne_nil cs)
  | case5 c cs h hc content ending rest heq ih =>
    rw [heq] at ih
    simpa using ih

theorem length_splitLines_le (t : Text) : (splitLines t).length ≤ t.length + 1 := by
  fun_induction splitLines t with
  | case1 => simp
  | case2 cs ih => simp only [List.length_cons]; omega
  | case3 c cs h hc ih => simp only [List.length_cons]; omega
  | case4 c cs h hc hnil ih => exact absurd hnil (splitLines_ne_nil cs)
  | case5 c cs h hc content ending rest heq ih =>
    rw [heq] at ih
    simp only [List.length_cons] at *
    omega

theorem length_line_le {t : Text} : ∀ l ∈ splitLines t, l.1.length ≤ t.length := by
  fun_induction splitLines t with
  | case1 => simp
  | case2 cs ih =>
    refine List.forall_mem_cons.mpr ⟨Nat.zero_le _, fun l hl => ?_⟩
    have hle := ih l hl
    simp only [List.length_cons]
    omega
  | case3 c cs h hc ih =>
    refine List.forall_mem_cons.mpr ⟨Nat.zero_le _, fun l hl => ?_⟩
    exact Nat.le_succ_of_le (ih l hl)
  | case4 c cs h hc hnil ih => exact absurd hnil (splitLines_ne_nil cs)
  | case5 c cs h hc content ending rest heq ih =>
    rw [heq, List.forall_mem_cons] at ih
    refine List.forall_mem_cons.mpr ⟨Nat.succ_le_succ ih.1, fun l hl => ?_⟩
    exact Nat.le_succ_of_le (ih.2 l hl)

/-- Every line but the last has a break. -/
theorem ending_ne_nil {t : Text} : ∀ l ∈ (splitLines t).dropLast, l.2 ≠ [] := by
  fun_induction splitLines t with
  | case1 => simp
  | case2 cs ih =>
    rw [List.dropLast_cons_of_ne_nil (splitLines_ne_nil cs)]
    exact List.forall_mem_cons.mpr ⟨List.cons_ne_nil _ _, ih⟩
  | case3 c cs h hc ih =>
    rw [List.dropLast_cons_of_ne_nil (splitLines_ne_nil cs)]
    exact List.forall_mem_cons.mpr ⟨List.cons_ne_nil _ _, ih⟩
  | case4 c cs h hc hnil ih => exact absurd hnil (splitLines_ne_nil cs)
  | case5 c cs h hc content ending rest heq ih =>
    rw [heq] at ih
    cases rest with
    | nil => simp
    | cons l rest => exact List.forall_mem_cons.mpr (List.forall_mem_cons.mp ih)

theorem getElem_ending_ne_nil {t : Text} {k : Nat} (h : k + 1 < (splitLines t).length) :
    (splitLines t)[k].2 ≠ [] := by
  refine ending_ne_nil (t := t) _ ?_
  rw [← List.getElem_dropLast (by rw [List.length_dropLast]; omega)]
  exact List.getElem_mem _

/-- The characters of a line break. -/
theorem ending_breaks {t : Text} : ∀ l ∈ splitLines t, ∀ c ∈ l.2, c = '\r' ∨ c = '\n' := by
  fun_induction splitLines t with
  | case1 => simp
  | case2 cs ih => exact List.forall_mem_cons.mpr ⟨by simp, ih⟩
  | case3 c cs h hc ih => exact List.forall_mem_cons.mpr ⟨by simpa using hc, ih⟩
  | case4 c cs h hc hnil ih => exact absurd hnil (splitLines_ne_nil cs)
  | case5 c cs h hc content ending rest heq ih =>
    rw [heq, List.forall_mem_cons] at ih
    exact List.forall_mem_cons.mpr ih

namespace LineIndex

theorem splitLines_break {c : Char} {cs : Text} (hc : c = '\r' ∨ c = '\n') (hf : ¬Fuse [c] cs) :
    splitLines (c :: cs) = ([], [c]) :: splitLines cs := by
  rw [splitLines.eq_3 _ _ ?_, if_pos hc]
  rintro ds rfl rfl
  exact hf (by simp [Fuse])

theorem splitLines_char {c : Char} (cs : Text) (hc : ¬(c = '\r' ∨ c = '\n')) :
    ∃ content ending rest, splitLines cs = (content, ending) :: rest ∧
      splitLines (c :: cs) = (c :: content, ending) :: rest := by
  obtain ⟨⟨content, ending⟩, rest, heq⟩ := List.exists_cons_of_ne_nil (splitLines_ne_nil cs)
  refine ⟨content, ending, rest, heq, ?_⟩
  rw [splitLines.eq_3 _ _ ?_, if_neg hc, heq]
  rintro ds rfl rfl
  exact hc (Or.inl rfl)

/-- A line from `lines` on which the end of a text `s` lies, `before` characters from its start. -/
def EndsOn (lines : List Line) (before : Nat) (s : Text) : Prop :=
  let p := Position.origin.advance s
  ∃ l, lines[p.line]? = some l ∧ p.column ≤ l.content.length ∧
    l.index + p.column = before + s.length

/-- A line in front of the others moves the end of a text down by one line. -/
theorem EndsOn.below {line : Line} {lines : List Line} {before width : Nat} {s t : Text}
    (h : EndsOn lines (before + width) s)
    (hpos : Position.origin.advance t = Position.plus ⟨1, 0⟩ (Position.origin.advance s))
    (hlength : t.length = s.length + width) : EndsOn (line :: lines) before t := by
  obtain ⟨l, hl, hcol, hidx⟩ := h
  refine ⟨l, ?_, ?_, ?_⟩ <;> rw [hpos]
  · simpa [Position.plus, Nat.add_comm 1] using hl
  · simpa [Position.plus] using hcol
  · simp only [Position.plus, Nat.zero_add, ite_self]
    omega

theorem endsOn_place {s u : Text} (h : ¬Fuse s u) (before bytes : Nat) :
    EndsOn (place before bytes (splitLines (s ++ u))) before s := by
  induction hn : s.length using Nat.strongRecOn generalizing s before bytes with
  | ind n ih =>
    subst hn
    cases s with
    | nil =>
      obtain ⟨⟨content, ending⟩, rest, heq⟩ := List.exists_cons_of_ne_nil (splitLines_ne_nil u)
      simp only [List.nil_append, heq, place]
      exact ⟨⟨before, bytes, content, isAscii content⟩, rfl, Nat.zero_le _, rfl⟩
    | cons c cs =>
      have hcs := not_fuse_tail h
      by_cases hc : c = '\r' ∨ c = '\n'
      · by_cases hf : Fuse [c] cs
        · obtain ⟨hl, hh⟩ := hf
          obtain ⟨ds, rfl⟩ := List.head?_eq_some_iff.mp hh
          obtain rfl : c = '\r' := by simpa using hl
          have hrest := ih ds.length (by simp only [List.length_cons]; omega) (not_fuse_tail hcs)
            (before + 2) (bytes + utf8Length ['\r', '\n']) rfl
          have hpos : Position.origin.advance ('\r' :: '\n' :: ds) =
              Position.plus ⟨1, 0⟩ (Position.origin.advance ds) := by
            rw [Position.advance_crlf]
            exact Position.advance_eq_plus _ _
          simpa [splitLines, place, utf8Length] using hrest.below hpos rfl
        · have hf' := not_fuse_head hf h
          have hrest := ih cs.length (by simp) hcs (before + 1) (bytes + utf8Length [c]) rfl
          have hpos : Position.origin.advance (c :: cs) =
              Position.plus ⟨1, 0⟩ (Position.origin.advance cs) := by
            rw [Position.advance_break hc hf]
            exact Position.advance_eq_plus _ _
          simpa [splitLines_break hc hf', place, utf8Length] using hrest.below hpos rfl
      · obtain ⟨content, ending, rest, heq, heq'⟩ := splitLines_char (cs ++ u) hc
        obtain ⟨l, hl, hcol, hidx⟩ := ih cs.length (by simp) hcs (before + 1)
          (bytes + c.utf8Size) rfl
        have hpos : Position.origin.advance (c :: cs) =
            Position.plus ⟨0, 1⟩ (Position.origin.advance cs) := by
          rw [Position.advance_char hc]
          exact Position.advance_eq_plus _ _
        rw [heq, place] at hl
        rw [List.cons_append, heq', place]
        unfold EndsOn
        rw [hpos]
        cases hline : (Position.origin.advance cs).line with
        | zero =>
          obtain rfl : (⟨before + 1, bytes + c.utf8Size, content, isAscii content⟩ : Line) = l := by
            simpa [hline] using hl
          refine ⟨⟨before, bytes, c :: content, isAscii (c :: content)⟩,
            by simp [Position.plus, hline], ?_, ?_⟩ <;>
            simp only [Position.plus, hline, List.length_cons, if_true] at * <;> omega
        | succ k =>
          refine ⟨l, ?_, ?_, ?_⟩
          · have hshift : before + 1 + content.length = before + (content.length + 1) := by omega
            simpa [Position.plus, hline, utf8Length, hshift, Nat.add_assoc] using hl
          · simpa [Position.plus, hline] using hcol
          · simp only [Position.plus, hline, List.length_cons, if_false, Nat.succ_ne_zero]
            omega

/-- The index finds the end of a text that is not cut inside a line break. -/
theorem index?_advance {s u : Text} (h : ¬Fuse s u) :
    (ofText (s ++ u)).index? (Position.origin.advance s) = some s.length := by
  obtain ⟨l, hl, hcol, hidx⟩ := endsOn_place h 0 0
  have hline : (ofText (s ++ u)).line? (Position.origin.advance s) = some l := by
    simp [line?, ofText, hl, hcol]
  rw [index?, hline, Option.map_some]
  congr 1
  omega

/-- The text in front of a line. -/
def textBefore (t : Text) (line : Nat) : Text :=
  ((splitLines t).take line).flatMap fun l => l.1 ++ l.2

/-- A line stands in the text behind the lines in front of it, and its break or the end of the text
follows it. -/
theorem exists_text_after {t : Text} {k : Nat} {l : Text × Text}
    (hl : (splitLines t)[k]? = some l) : ∃ after, t = textBefore t k ++ (l.1 ++ after) ∧
      ∀ c ∈ after.head?, c = '\r' ∨ c = '\n' := by
  obtain ⟨hk, rfl⟩ := List.getElem?_eq_some_iff.mp hl
  have hsplit : (splitLines t).take k ++ (splitLines t)[k] :: (splitLines t).drop (k + 1) =
      splitLines t := by
    rw [List.getElem_cons_drop, List.take_append_drop]
  refine ⟨(splitLines t)[k].2 ++ ((splitLines t).drop (k + 1)).flatMap fun l => l.1 ++ l.2,
    ?_, ?_⟩
  · have htext := congrArg (List.flatMap fun l => l.1 ++ l.2) hsplit
    rw [List.flatMap_append, List.flatMap_cons, flatMap_splitLines] at htext
    rw [← List.append_assoc _ _ (List.flatMap _ _), textBefore, htext]
  · cases hending : (splitLines t)[k].2 with
    | cons d ds =>
      have hd := ending_breaks _ (List.getElem_mem hk) d (by simp [hending])
      simpa using hd
    | nil =>
      have hlast : (splitLines t).drop (k + 1) = [] := by
        rw [List.drop_eq_nil_iff]
        by_contra hlt
        exact getElem_ending_ne_nil (Nat.lt_of_not_le hlt) hending
      simp [hlast]

/-- A line is placed behind the text of the lines in front of it and of their breaks. -/
theorem getElem?_place (index offset : Nat) (ls : List (Text × Text)) (k : Nat) :
    (place index offset ls)[k]? = ls[k]?.map fun l =>
      let before := (ls.take k).flatMap fun l => l.1 ++ l.2
      ⟨index + before.length, offset + utf8Length before, l.1, isAscii l.1⟩ := by
  induction ls generalizing index offset k with
  | nil => simp [place]
  | cons l ls ih =>
    obtain ⟨content, ending⟩ := l
    cases k with
    | zero => simp [place]
    | succ k => simp [place, ih, Nat.add_assoc]

variable {t u : Text} {p q : Position} {i j : Nat} {r : Span}

theorem getElem?_lines (t : Text) (k : Nat) :
    (ofText t).lines[k]? = (splitLines t)[k]?.map fun l =>
      ⟨(textBefore t k).length, utf8Length (textBefore t k), l.1, isAscii l.1⟩ := by
  simp [ofText, getElem?_place, textBefore]

/-- A line ends before a later one starts. -/
theorem length_textBefore_lt {k n : Nat} {l : Text × Text} (hl : (splitLines t)[k]? = some l)
    (hk : k < n) (hn : n < (splitLines t).length) :
    (textBefore t k).length + l.1.length < (textBefore t n).length := by
  obtain ⟨hlt, rfl⟩ := List.getElem?_eq_some_iff.mp hl
  have hpos := List.length_pos_iff.mpr (getElem_ending_ne_nil (t := t) (k := k) (by omega))
  obtain ⟨rest, hrest⟩ : (splitLines t).take (k + 1) <+: (splitLines t).take n :=
    List.take_prefix_take_left hk
  rw [textBefore, textBefore, ← hrest, List.take_succ_eq_append_getElem hlt]
  simp only [List.flatMap_append, List.flatMap_cons, List.flatMap_nil, List.length_append,
    List.append_nil]
  omega

/-- A position with a place in a text lies on a line of it. -/
theorem index?_spec (h : (ofText t).index? p = some i) :
    ∃ l, (splitLines t)[p.line]? = some l ∧ p.column ≤ l.1.length ∧
      i = (textBefore t p.line).length + p.column := by
  obtain ⟨line, hline, rfl⟩ := Option.map_eq_some_iff.mp h
  obtain ⟨hfound, hcolumn⟩ := Option.filter_eq_some_iff.mp hline
  rw [getElem?_lines] at hfound
  obtain ⟨l, hl, rfl⟩ := Option.map_eq_some_iff.mp hfound
  exact ⟨l, hl, by simpa using hcolumn, rfl⟩

/-- Positions in a text are no greater than its length. -/
theorem index?_le (h : (ofText t).index? p = some i) : p.line ≤ t.length ∧ p.column ≤ t.length := by
  obtain ⟨l, hl, hcolumn, -⟩ := index?_spec h
  obtain ⟨hlt, -⟩ := List.getElem?_eq_some_iff.mp hl
  have hline := length_splitLines_le t
  exact ⟨by omega, Nat.le_trans hcolumn (length_line_le l (List.mem_of_getElem? hl))⟩

/-- Places lie in the text. -/
theorem index?_le_length (h : (ofText t).index? p = some i) : i ≤ t.length := by
  obtain ⟨l, hl, hcolumn, rfl⟩ := index?_spec h
  obtain ⟨after, htext, -⟩ := exists_text_after hl
  have hlength := congrArg List.length htext
  rw [List.length_append, List.length_append] at hlength
  omega

/-- The order of positions is that of the places. -/
theorem le_of_index?_le (hp : (ofText t).index? p = some i) (hq : (ofText t).index? q = some j)
    (h : i ≤ j) : p ≤ q := by
  obtain ⟨l, hl, hcolumn, rfl⟩ := index?_spec hp
  obtain ⟨m, hm, hcolumn', rfl⟩ := index?_spec hq
  obtain ⟨hpline, -⟩ := List.getElem?_eq_some_iff.mp hl
  rw [Position.le_def]
  rcases Nat.lt_trichotomy p.line q.line with hlt | heq | hgt
  · exact Or.inl hlt
  · rw [heq] at h
    exact Or.inr ⟨heq, by omega⟩
  · have hlater := length_textBefore_lt hm hgt hpline
    omega

/-- The bytes before a position are those of the characters before it. -/
theorem offset?_eq (t : Text) (p : Position) :
    (ofText t).offset? p = ((ofText t).index? p).map fun i => utf8Length (t.take i) := by
  rw [offset?, index?, line?, getElem?_lines]
  cases hl : (splitLines t)[p.line]? with
  | none => rfl
  | some l =>
    simp only [Option.map_some, Option.bind_eq_bind, Option.bind_some, Option.filter_some]
    have htake (n : Nat) (hn : n ≤ l.1.length) : t.take ((textBefore t p.line).length + n) =
        textBefore t p.line ++ l.1.take n := by
      obtain ⟨after, htext, -⟩ := exists_text_after hl
      conv_lhs => arg 2; rw [htext]
      rw [List.take_length_add_append, List.take_append_of_le_length hn]
    by_cases hcolumn : p.column = 0
    · simpa [hcolumn] using congrArg utf8Length (htake 0 (Nat.zero_le _)).symm
    · rw [if_neg hcolumn, Line.bytesBefore?_eq rfl hcolumn]
      by_cases hle : p.column ≤ l.1.length
      · simp [hle, htake p.column hle]
      · simp [hle]

/-- The index finds the bytes in front of a text that is not cut inside a line break. -/
theorem offset?_advance {s u : Text} (h : ¬Fuse s u) :
    (ofText (s ++ u)).offset? (Position.origin.advance s) = some (utf8Length s) := by
  rw [offset?_eq, index?_advance h, Option.map_some, List.take_left]

/-- The span of a text between two others cuts out that text. -/
theorem slice?_behind {before t after : Text} (hstart : ¬Fuse before (t ++ after))
    (hstop : ¬Fuse (before ++ t) after) :
    (ofText (before ++ t ++ after)).slice? (.behind before t) = some t := by
  have hi := offset?_advance hstart
  have hj := offset?_advance hstop
  rw [← List.append_assoc] at hi
  rw [slice?, Span.start_behind, Span.stop_behind, hi, hj]
  exact sliceBytes?_append before t after

/-- A span that covers text of a document goes forward, and its ends are no greater than the length
of the document. -/
theorem slice?_spec (h : (ofText t).slice? r = some u) :
    r.IsValid ∧ (r.start.line ≤ t.length ∧ r.start.column ≤ t.length) ∧
      r.stop.line ≤ t.length ∧ r.stop.column ≤ t.length := by
  simp only [slice?, offset?_eq, Option.bind_eq_bind, Option.bind_eq_some_iff,
    Option.map_eq_some_iff] at h
  obtain ⟨-, ⟨i, hi, rfl⟩, -, ⟨j, hj, rfl⟩, hcut⟩ := h
  rw [sliceBytes?] at hcut
  split at hcut
  next hbytes =>
    have hij : i ≤ j := by
      by_contra hlt
      have hshort := utf8Length_take_lt (Nat.lt_of_not_le hlt) (index?_le_length hi)
      omega
    exact ⟨le_of_index?_le hi hj hij, index?_le hi, index?_le hj⟩
  next => cases hcut

end LineIndex

end CssTree
