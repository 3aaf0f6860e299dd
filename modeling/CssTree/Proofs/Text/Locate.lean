import CssTree.Proofs.Text.Slice
import CssTree.Proofs.Token.Laid

namespace CssTree

/-- No line has a break inside. -/
theorem line_unbroken {t : Text} : ∀ l ∈ splitLines t, ∀ c ∈ l.1, ¬(c = '\r' ∨ c = '\n') := by
  fun_induction splitLines t with
  | case1 => simp
  | case2 cs ih => exact List.forall_mem_cons.mpr ⟨List.forall_mem_nil _, ih⟩
  | case3 c cs h hc ih => exact List.forall_mem_cons.mpr ⟨List.forall_mem_nil _, ih⟩
  | case4 c cs h hc hnil ih => exact absurd hnil (splitLines_ne_nil cs)
  | case5 c cs h hc content ending rest heq ih =>
    rw [heq, List.forall_mem_cons] at ih
    exact List.forall_mem_cons.mpr ⟨List.forall_mem_cons.mpr ⟨hc, ih.1⟩, ih.2⟩

namespace LineIndex

variable {s t u : Text} {p q : Position} {i : Nat}

/-- Before its end, a line has no break. -/
theorem getElem?_line {k j : Nat} {l : Text × Text} (hl : (splitLines t)[k]? = some l)
    (hj : j < l.1.length) :
    ∃ c, t[(textBefore t k).length + j]? = some c ∧ ¬(c = '\r' ∨ c = '\n') := by
  obtain ⟨after, htext, -⟩ := exists_text_after hl
  refine ⟨l.1[j], ?_, line_unbroken l (List.mem_of_getElem? hl) _ (List.getElem_mem hj)⟩
  have hat : (textBefore t k ++ (l.1 ++ after))[(textBefore t k).length + j]? = some l.1[j] := by
    rw [List.getElem?_append_right (Nat.le_add_right _ _), Nat.add_sub_cancel_left,
      List.getElem?_append_left hj, List.getElem?_eq_getElem hj]
  rwa [← htext] at hat

/-- At most one position stands for a place. -/
theorem index?_inj (hp : (ofText t).index? p = some i) (hq : (ofText t).index? q = some i) :
    p = q :=
  Position.le_antisymm (le_of_index?_le hp hq (Nat.le_refl i)) (le_of_index?_le hq hp (Nat.le_refl i))

/-- No position stands for the place inside a line break. -/
theorem index?_inside_break :
    (ofText (s ++ '\r' :: '\n' :: u)).index? p ≠ some (s.length + 1) := by
  intro hp
  have hstart : (ofText (s ++ '\r' :: '\n' :: u)).index? (Position.origin.advance s) =
      some s.length := index?_advance (by simp [Fuse])
  have hstop : (ofText (s ++ '\r' :: '\n' :: u)).index?
      (Position.origin.advance s).newLine = some (s.length + 2) := by
    have hend := index?_advance (s := s ++ ['\r', '\n']) (u := u) (by simp [Fuse])
    rw [Position.advance_append (by simp [Fuse])] at hend
    simpa [Position.advance_crlf] using hend
  obtain ⟨l, hl, hcolumn, hplace⟩ := index?_spec hp
  obtain ⟨m, hm, hcolumn', hplace'⟩ := index?_spec hstart
  have hle := le_of_index?_le hstart hp (Nat.le_succ _)
  have hle' := le_of_index?_le hp hstop (Nat.le_succ _)
  -- the position would lie on the line that the break ends, behind the end of that line
  have hline : p.line = (Position.origin.advance s).line := by
    have hne : p ≠ (Position.origin.advance s).newLine := by
      rintro rfl
      rw [hstop] at hp
      simp at hp
    rw [Position.le_def] at hle hle'
    by_contra hline
    refine hne (Position.ext ?_ ?_) <;> simp only [Position.newLine] at * <;> omega
  rw [hline] at hl hplace
  obtain rfl : l = m := Option.some.inj (hl.symm.trans hm)
  obtain ⟨c, hc, hunbroken⟩ := getElem?_line hl (j := (Position.origin.advance s).column) (by omega)
  rw [← hplace', List.getElem?_append_right (Nat.le_refl _), Nat.sub_self] at hc
  exact hunbroken (Or.inl (by simpa using hc.symm))

/-- The position of a place is the end of the text before it, and no line break is cut there. -/
theorem advance_of_index? (h : (ofText (s ++ u)).index? p = some s.length) :
    ¬Fuse s u ∧ p = Position.origin.advance s := by
  have hfuse : ¬Fuse s u := by
    rintro ⟨hlast, hhead⟩
    obtain ⟨r, rfl⟩ := List.getLast?_eq_some_iff.mp hlast
    obtain ⟨v, rfl⟩ := List.head?_eq_some_iff.mp hhead
    exact index?_inside_break (by simpa using h)
  exact ⟨hfuse, index?_inj h (index?_advance hfuse)⟩

end LineIndex

namespace Lexeme

/-- The spans of lexemes behind the text `before` stand for the places of their texts. -/
def Located (index : LineIndex) (before : Text) : List Lexeme → Prop
  | [] => True
  | l :: ls => index.index? l.span.start = some before.length ∧
      index.index? l.span.stop = some (before ++ l.text).length ∧
        Located index (before ++ l.text) ls

instance decidableLocated (index : LineIndex) (before : Text) :
    (ls : List Lexeme) → Decidable (Located index before ls)
  | [] => .isTrue trivial
  | l :: ls =>
    have := decidableLocated index (before ++ l.text) ls
    inferInstanceAs (Decidable (_ ∧ _ ∧ _))

/-- Lexemes whose spans stand for the places of their texts lie one after another and cut no line
break. -/
theorem Located.laid {before after : Text} {ls : List Lexeme}
    (h : Located (.ofText (before ++ render ls ++ after)) before ls) :
    Laid before ls ∧ Whole ls := by
  induction ls generalizing before with
  | nil => exact ⟨trivial, unfused_nil⟩
  | cons l ls ih =>
    obtain ⟨hstart, hstop, hrest⟩ := h
    have htext : before ++ render (l :: ls) ++ after = before ++ l.text ++ (render ls ++ after) := by
      simp
    have htext' : before ++ l.text ++ (render ls ++ after) =
        before ++ (l.text ++ (render ls ++ after)) := List.append_assoc _ _ _
    rw [htext] at hstop hrest
    rw [htext, htext'] at hstart
    obtain ⟨-, hstart⟩ := LineIndex.advance_of_index? hstart
    obtain ⟨hseam, hstop⟩ := LineIndex.advance_of_index? hstop
    rw [← List.append_assoc] at hrest
    obtain ⟨hlaid, hwhole⟩ := ih hrest
    refine ⟨⟨Span.ext hstart hstop, hlaid⟩, (unfused_singleton l.text).append hwhole ?_⟩
    rw [flatten_texts, List.flatten_singleton]
    intro hfuse
    have hne : l.text ≠ [] := by
      intro hnil
      simp [hnil] at hfuse
    have hne' : render ls ≠ [] := by
      intro hnil
      simp [hnil] at hfuse
    rw [fuse_append_left_iff hne, fuse_append_right_iff hne'] at hseam
    exact hseam hfuse

end Lexeme

end CssTree
