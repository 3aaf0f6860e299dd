import CssTree.Proofs.Edit.Lasting
import CssTree.Proofs.Grammar.Filled

namespace CssTree

/-- All trivia attached to the tokens of a node has text. -/
def Node.Spaced (n : Node) : Prop := n.Obeys (fun _ => True) (· ≠ [])

theorem Token.spaced_of_filled {ts : List Token} (h : Lexeme.Filled (lexemesOf ts)) :
    ∀ t ∈ ts, t.Obeys (fun _ => True) (· ≠ []) := by
  intro t ht
  have hmem : ∀ l ∈ t.lexemes, l.text ≠ [] := fun l hl => h l (List.mem_flatMap.mpr ⟨t, ht, hl⟩)
  exact ⟨trivial, fun l hl => hmem l (by simp [lexemes, hl]),
    fun l hl => hmem l (by simp [lexemes, hl])⟩

namespace Grammar

variable {config : Config} {arena : Arena} {t : Text} {s : State} {es : List Element} {n : Node}

/-- The end of a text has none, but what leads it does. -/
theorem Took.spaced (h : Took (.start config arena t) es s) :
    ∀ u ∈ Element.tokensOf es ++ [s.upcoming.last], u.Obeys (fun _ => True) (· ≠ []) := by
  obtain ⟨hfilled, hlast⟩ := h.filled
  refine List.forall_mem_append.mpr ⟨Token.spaced_of_filled hfilled, ?_⟩
  refine List.forall_mem_singleton.mpr ⟨trivial, hlast, ?_⟩
  simp [h.sound.upcoming.last_trailing]

theorem spaced_styleSheet (config : Config) (harena : arena.Fresh) (t : Text) :
    ((styleSheet.run (.start config arena t)).1).Spaced := by
  have hsheet := styleSheet_run (sound_start config harena t)
  generalize rules.run (.start config arena t) = rest at hsheet
  obtain ⟨ns, r⟩ := rest
  obtain ⟨htook, -, hrun⟩ := hsheet
  rw [hrun]
  intro u hu
  apply htook.spaced u
  have htokens : u ∈ Element.tokensOf (ns.map .node ++ [.token r.upcoming.last]) := hu
  simpa using htokens

end Grammar

open Grammar

namespace Production

variable {p : Production}

theorem spaced_fragment (hp : p ≠ styleSheet) (config : Config) {arena : Arena}
    (harena : arena.Fresh) (t : Text) : ((p.fragment.run (.start config arena t)).1).Spaced := by
  have hread := attempt_keeps (sound_start config harena t) (readAll_tries hp)
  cases hrun : (attempt p.readAll).run (.start config arena t) with | mk result s => ?_
  rw [hrun] at hread
  cases result with
  | some m =>
    obtain ⟨⟨htook, hend⟩, -⟩ := hread
    have hspaced := List.forall_mem_append.mp htook.spaced
    have hm : m.Spaced := by simpa [Node.Spaced, Node.Obeys] using hspaced.1
    rw [fragment_read hrun hend]
    dsimp only
    split
    · exact hm
    · exact (hm.appendTrailing (List.forall_mem_singleton.mp hspaced.2).leading).respan
  | none =>
    rw [fragment_kept hrun]
    have hremaining := remaining_run hread.sound
    generalize remainder.run s = rest at hremaining
    obtain ⟨ts, r⟩ := rest
    obtain ⟨htook, -, hkept⟩ := hremaining
    rw [hkept]
    intro u hu
    apply (hread.trans htook).spaced u
    have htokens : u ∈ Element.tokensOf ((ts ++ [r.upcoming.last]).map .token) := hu
    simpa using htokens

theorem spaced_parse (p : Production) (config : Config) {arena : Arena} (t : Text)
    (harena : arena.Fresh) : (p.parse config arena t).1.Spaced := by
  show ((p.parser).run (.start config arena t)).1.Spaced
  rw [parser]
  split
  next => exact spaced_styleSheet config harena t
  next hp => exact spaced_fragment hp config harena t

end Production

theorem lasting_spaced : Lasting (fun _ => True) (· ≠ []) where
  ofText := fun _ _ => trivial
  insert := fun _ _ _ => trivial
  delete := fun _ _ _ => trivial
  shift := fun _ _ _ _ _ _ => trivial
  blank := by simp
  newline := by simp
  read := fun p config _ t => p.spaced_parse config t

/-- Whatever was read and whatever calls were made, all trivia has text. -/
theorem Session.spaced_run (p : Production) (config : Config) (t : Text) (calls : List Call) :
    (Session.run ⟨Tree.parse p config t, false⟩ calls).tree.root.Spaced :=
  lasting_spaced.run p config t fun _ _ _ _ _ _ _ => trivial

end CssTree
