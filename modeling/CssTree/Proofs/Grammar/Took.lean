import CssTree.Grammar.State
import CssTree.Proofs.Token.Settle
import CssTree.Proofs.Tree.Arena
import CssTree.Proofs.Tree.Formed

namespace CssTree.Grammar

namespace State

/-- The tokens taken and those to come lie where the text says. -/
structure Sound (s : State) : Prop where
  upcoming : s.upcoming.Sound s.taken.reverse
  place : s.place = Position.origin.advance (Token.renderAll s.taken.reverse)
  fresh : s.arena.Fresh

/-- The text of the tokens taken. -/
def before (s : State) : Text := Token.renderAll s.taken.reverse

/-- The whole text. -/
def text (s : State) : Text := s.before ++ s.upcoming.render

end State

/-- The elements `es` were made out of the tokens taken since the state `mark`. -/
structure Took (mark : State) (es : List Element) (s : State) : Prop where
  start : mark.Sound
  sound : s.Sound
  taken : s.taken = (Element.tokensOf es).reverse ++ mark.taken
  laid : Element.LaidAll mark.before es
  text : s.text = mark.text
  shorter : s.upcoming.length + (Element.tokensOf es).length ≤ mark.upcoming.length
  folded : mark.upcoming.Refolds (s.upcoming.prepend (Element.tokensOf es))
  steady : ∀ ts, mark.upcoming.Starts ts → ts <+: Element.tokensOf es ++ s.upcoming.tokens
  grown : mark.arena.Grown (Element.entriesOf none es) s.arena
  created : ∃ ids, s.created = ids ++ mark.created ∧
    ∀ id, id ∈ ids ↔ id ∈ (Element.entriesOf none es).map Prod.fst
  formed : ∀ n ∈ Element.descendantsOf es, n.Formed

namespace Took

variable {mark s s' : State} {es fs : List Element}

theorem refl (h : s.Sound) : Took s [] s where
  start := h
  sound := h
  taken := rfl
  laid := trivial
  text := rfl
  shorter := Nat.le_refl _
  folded := .refl
  steady _ hts := hts.next
  grown := .refl _
  created := ⟨[], rfl, by simp⟩
  formed := by simp

theorem before_eq (h : Took mark es s) : s.before = mark.before ++ Element.renderAll es := by
  simp [State.before, h.taken, Element.renderAll]

theorem trans (h : Took mark es s) (h' : Took s fs s') : Took mark (es ++ fs) s' where
  start := h.start
  sound := h'.sound
  taken := by simp [h'.taken, h.taken]
  laid := Element.laidAll_append.mpr ⟨h.laid, h.before_eq ▸ h'.laid⟩
  text := h'.text.trans h.text
  shorter := by
    have h₁ := h.shorter
    have h₂ := h'.shorter
    simp only [Element.tokensOf_append, List.length_append] at *
    omega
  folded := by
    rw [Element.tokensOf_append, ← Stream.prepend_prepend]
    exact h.folded.trans (h'.folded.prepend _)
  steady ts hts := by
    rw [Element.tokensOf_append, List.append_assoc]
    obtain ⟨us, hus⟩ := h.steady ts hts
    rcases List.append_eq_append_iff.mp hus with ⟨as, has, -⟩ | ⟨rest, rfl, hrest⟩
    · rw [has, List.append_assoc]
      exact List.prefix_append _ _
    · have hstarts : s.upcoming.Starts rest :=
        ⟨⟨us, hrest.symm⟩, fun t ht => hts.settled t (List.mem_append_right _ ht)⟩
      exact (List.prefix_append_right_inj _).mpr (h'.steady rest hstarts)
  grown := by
    rw [Element.entriesOf_append]
    exact h.grown.trans h'.grown
  created := by
    obtain ⟨ids, hids, hmem⟩ := h.created
    obtain ⟨ids', hids', hmem'⟩ := h'.created
    refine ⟨ids' ++ ids, by rw [hids', hids, List.append_assoc], fun id => ?_⟩
    simp only [Element.entriesOf_append, List.map_append, List.mem_append, hmem, hmem', or_comm]
  formed n hn := by
    rw [Element.descendantsOf_append] at hn
    exact (List.mem_append.mp hn).elim (h.formed n) (h'.formed n)

/-- Folding comments takes nothing. -/
theorem settle (h : s.Sound) (n : Nat) : Took s [] (s.settle n) where
  start := h
  sound := ⟨h.upcoming.settle n, h.place, h.fresh⟩
  taken := rfl
  laid := trivial
  text := by simp [State.text, State.settle, State.before, Stream.render_settle]
  shorter := by simpa [State.settle] using Stream.length_settle n s.upcoming
  folded := Stream.Refolds.settle n s.upcoming
  steady _ hts := (hts.settle n).next
  grown := .refl _
  created := ⟨[], rfl, by simp⟩
  formed := by simp

/-- The next token is taken. -/
theorem take (h : s.Sound) {t : Token} {ts : List Token} (htokens : s.upcoming.tokens = t :: ts) :
    s.take.1 = t ∧ s.take.2.upcoming.tokens = ts ∧ Took s [.token t] s.take.2 := by
  obtain ⟨taken, ⟨tokens, last⟩, place, guard, limit, arena, created⟩ := s
  obtain rfl : tokens = t :: ts := htokens
  obtain ⟨hupcoming, hplace, hfresh⟩ := h
  have hlaid : t.Laid (Token.renderAll taken.reverse) := by
    have hall := hupcoming.laid
    simp only [Stream.toList, List.cons_append, Token.lexemesOf_append, Token.lexemesOf_cons,
      Lexeme.laid_append, Token.render_lexemesOf] at hall
    simpa [Token.Laid] using hall.2.1
  refine ⟨rfl, rfl, ?_⟩
  constructor
  · exact ⟨hupcoming, hplace, hfresh⟩
  · refine ⟨?_, ?_, hfresh⟩
    · simpa [State.take] using hupcoming.of_cons
    · simp [State.take, hlaid.fullSpan]
  · rfl
  · exact ⟨hlaid, trivial⟩
  · simp [State.text, State.take, State.before, Stream.render, Stream.toList]
  · simp [State.take, Stream.length]
  · exact .refl
  · exact fun _ hts => hts.next
  · exact .refl _
  · exact ⟨[], rfl, by simp⟩
  · simp

/-- The last elements become those of a node. -/
theorem node (h : Took mark (es ++ fs) s) (kind : NodeKind)
    (hformed : ∀ id span, (Node.mk id kind span fs).Formed) :
    let (n, s') := (Grammar.node kind fs).run s
    n.kind = kind ∧ n.elements = fs ∧ s'.upcoming = s.upcoming ∧ Took mark (es ++ [.node n]) s' := by
  obtain ⟨hes, hfs⟩ := Element.laidAll_append.mp h.laid
  have hspan : (Element.spanOf? fs).getD (.point s.place) =
      .behind (mark.before ++ Element.renderAll es) (Element.renderAll fs) := by
    cases fs with
    | nil =>
      have hplace := h.sound.place
      rw [show Token.renderAll s.taken.reverse = s.before from rfl, h.before_eq] at hplace
      simp [Element.spanOf?, hplace]
    | cons f fs => rw [hfs.spanOf?, Option.getD_some]
  have hgrown := h.grown.node kind ((Element.spanOf? fs).getD (.point s.place))
  refine ⟨rfl, rfl, rfl, ?_⟩
  constructor
  · exact h.start
  · exact ⟨h.sound.upcoming, h.sound.place, hgrown.fresh_of h.start.fresh⟩
  · simpa using h.taken
  · exact Element.laidAll_append.mpr ⟨hes, ⟨hspan, hfs⟩, trivial⟩
  · exact h.text
  · simpa using h.shorter
  · simpa using h.folded
  · simpa using h.steady
  · exact hgrown
  · obtain ⟨ids, hids, hmem⟩ := h.created
    refine ⟨s.arena.next :: ids, congrArg (s.arena.next :: ·) hids, fun id => ?_⟩
    simp only [List.mem_cons, hmem, Element.ids_entriesOf, Element.descendantsOf_append,
      List.map_append, List.mem_append, Element.descendantsOf_node, Element.descendantsOf_nil,
      Node.descendants_mk, List.map_cons, List.append_nil]
    exact or_left_comm
  · intro m hm
    have hinner := h.formed m
    simp only [Element.descendantsOf_append, List.mem_append, Element.descendantsOf_node,
      Element.descendantsOf_nil, Node.descendants_mk, List.append_nil, List.mem_cons] at hm hinner
    rcases hm with hm | rfl | hm
    · exact hinner (Or.inl hm)
    · exact hformed _ _
    · exact hinner (Or.inr hm)

/-- What was taken is put back and what was made is freed. -/
theorem rewind (h : Took mark es s) : Took mark [] (mark.rewind s) := by
  have hback : (s.taken.take (s.taken.length - mark.taken.length)).reverse =
      Element.tokensOf es := by
    simp [h.taken]
  obtain ⟨ids, hids, hmem⟩ := h.created
  have hcreated : s.created.take (s.created.length - mark.created.length) = ids := by
    simp [hids]
  have hgrown := h.grown.undo h.start.fresh hmem
  have hupcoming : (mark.rewind s).upcoming = s.upcoming.prepend (Element.tokensOf es) :=
    congrArg s.upcoming.prepend hback
  have harena : (mark.rewind s).arena = ids.foldl (fun a id => a.remove id) s.arena := by
    simp only [State.rewind, hcreated]
  have hsound := h.sound.upcoming
  rw [h.taken, List.reverse_append, List.reverse_reverse] at hsound
  constructor
  · exact h.start
  · refine ⟨hupcoming ▸ hsound.prepend, h.start.place, ?_⟩
    rw [harena]
    exact hgrown.fresh_of h.start.fresh
  · rfl
  · trivial
  · rw [← h.text, State.text, State.text, h.before_eq, hupcoming, Stream.render_prepend]
    simp [State.rewind, State.before, Element.renderAll]
  · have := h.shorter
    rw [hupcoming]
    simp only [Stream.length, Stream.prepend, List.length_append, Element.tokensOf_nil,
      List.length_nil] at *
    omega
  · rw [hupcoming]
    exact h.folded
  · rw [hupcoming]
    exact h.steady
  · rw [harena]
    exact hgrown
  · exact ⟨[], rfl, by simp⟩
  · simp

end Took

end CssTree.Grammar
