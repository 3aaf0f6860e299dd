import CssTree.Edit.Repair
import CssTree.Proofs.Fragment
import CssTree.Proofs.Tree.Placed

namespace CssTree

namespace Tree

theorem shift_root (tree : Tree) (lines columns : Int) :
    tree.shift tree.root.id lines columns = tree.mapRoot (·.shift lines columns) := by
  obtain ⟨⟨id, kind, span, es⟩, arena, config⟩ := tree
  simp [shift, update, mapRoot, Node.update]

/-- The spans of a tree that was read from a text are those of parts of the text. Once the tree is
moved to a place with room for the text, each part lies where it does in the text written from that
place on; and the tree can be moved back. -/
theorem shift_parse (p : Production) (config : Config) (t : Text) {q : Position}
    (hroom : q.HasRoom t.length) :
    let tree := Tree.parse p config t
    let moved := tree.shift tree.root.id q.line q.column
    (∀ r ∈ tree.root.spans, ∃ s u v, t = s ++ u ++ v ∧ r = .behind s u) ∧
      (∃ f : Span → Span, moved = tree.mapRoot (·.mapSpans f) ∧
        ∀ u v, f ⟨Position.origin.advance u, Position.origin.advance v⟩ =
          ⟨q.advance u, q.advance v⟩) ∧
      moved.shift moved.root.id (-q.line) (-q.column) = tree := by
  intro tree moved
  have hlaid : tree.root.Laid [] := (laid_parse p config t).1
  have hlength : tree.root.render.length ≤ t.length :=
    p.length_parse tree.config Arena.fresh_empty t
  have hmoved : moved = tree.mapRoot (·.place q) := tree.shift_root _ _
  refine ⟨fun r hr => ?_, ⟨.plus q, ?_, fun u v => ?_⟩, ?_⟩
  · obtain ⟨s, u, v, hrender, rfl⟩ := hlaid.of_mem_spans hr
    rcases p.render_parse tree.config Arena.fresh_empty t with htext | hnone
    · exact ⟨s, u, v, htext.symm.trans hrender, rfl⟩
    · obtain ⟨rfl, rfl, rfl⟩ : s = [] ∧ u = [] ∧ v = [] := by
        simpa using hrender.symm.trans hnone
      exact ⟨[], [], t, rfl, rfl⟩
  · rw [hmoved, mapRoot, hlaid.place_eq (hroom.mono hlength)]
    rfl
  · rw [q.advance_eq_plus u, q.advance_eq_plus v]
    rfl
  · rw [shift_root, hmoved, mapRoot, mapRoot, hlaid.shift_place (hroom.mono hlength)]

/-- A rule over two lines is moved down to a column of another line. -/
theorem shift_parse_rule :
    let tree := Tree.parse .rule {} "a \x7b\n  b: c \x7d".toList
    let moved := tree.shift tree.root.id 2 4
    moved.root.span = ⟨⟨2, 4⟩, ⟨3, 8⟩⟩ ∧ moved.shift moved.root.id (-2) (-4) = tree :=
  ⟨by decide +kernel, (shift_parse .rule {} _ (q := ⟨2, 4⟩)
    ⟨by decide +kernel, by decide +kernel⟩).2.2⟩

end Tree

end CssTree
