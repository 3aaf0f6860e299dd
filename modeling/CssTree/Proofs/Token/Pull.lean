import CssTree.Proofs.Token.Reader

namespace CssTree

namespace Reader

variable {r : Reader}

theorem last_ofText (config : Config) (t : Text) :
    (ofText config t).last = .place .eof [] (Position.origin.advance t) := by
  obtain ⟨hlaid, -, hrender, -⟩ := Lexeme.laid_ofText config.comments t
  suffices hstop : ((Lexeme.ofText config.comments t).getLast?.map (·.span.stop)).getD .origin =
      Position.origin.advance t from congrArg (Lexeme.place .eof []) hstop
  rcases List.eq_nil_or_concat (Lexeme.ofText config.comments t) with hnil | ⟨front, l, hfront⟩
  · rw [hnil] at hrender ⊢
    rw [← hrender]
    rfl
  · rw [List.concat_eq_append] at hfront
    rw [hfront] at hlaid hrender ⊢
    rw [List.getLast?_concat, Option.map_some, Option.getD_some, hlaid.stop, List.nil_append,
      hrender]

@[simp] theorem last_give (r : Reader) (leading : List Lexeme) (l : Lexeme) (ahead : List Lexeme) :
    (r.give leading l ahead).2.last = r.last := by
  unfold give
  split <;> rfl

@[simp] theorem last_next (r : Reader) : r.next.2.last = r.last := by
  unfold next
  split
  · exact r.last_give _ _ _
  · split <;> exact r.last_give _ _ _

/-- A reader that has given out everything stays as it is, and gives out the end of the text. -/
theorem next_of_owed (h : r.owed = 0) (hlast : r.last.kind = .eof) :
    r.next = (.ofLexeme [] r.last, r) := by
  obtain ⟨ahead, last, carried, pending, trailing⟩ := r
  have hahead : ahead = [] := List.length_eq_zero_iff.mp (by simp only [owed] at h; omega)
  have hcarried : carried = [] := List.length_eq_zero_iff.mp (by simp only [owed] at h; omega)
  have hpending : pending = none := by
    rw [← Option.toList_eq_nil_iff]
    exact List.length_eq_zero_iff.mp (by simp only [owed] at h; omega)
  subst hahead hcarried hpending
  have hgive : give ⟨[], last, [], none, trailing⟩ [] last [] =
      (.ofLexeme [] last, ⟨[], last, [], none, trailing⟩) :=
    if_neg (by simp [show last.kind = .eof from hlast])
  exact hgive

/-- The tokens that are left come first, and the end of the text as often as is asked for more. -/
theorem read_eq (h : r.Fed ∨ r.owed = 0) (hlast : r.last.kind = .eof) (n : Nat) :
    (r.read n).1 =
        r.tokens.take n ++ List.replicate (n - r.tokens.length) (.ofLexeme [] r.last) ∧
      (r.read n).2.tokens = r.tokens.drop n ∧ ((r.read n).2.Fed ∨ (r.read n).2.owed = 0) := by
  induction n generalizing r with
  | zero => exact ⟨by simp [read], rfl, h⟩
  | succ n ih =>
    have hread : r.read (n + 1) = (r.next.1 :: (r.next.2.read n).1, (r.next.2.read n).2) := rfl
    rw [hread]
    rcases h with hfed | hzero
    · obtain ⟨htokens, hnext⟩ := tokens_next hfed
      obtain ⟨hgiven, hleft, hend⟩ := ih hnext (by rw [last_next, hlast])
      rw [htokens, hgiven, hleft, last_next]
      exact ⟨by simp, rfl, hend⟩
    · have hstays := next_of_owed hzero hlast
      obtain ⟨hgiven, hleft, hend⟩ := ih (Or.inr hzero) hlast
      rw [hstays, hgiven, hleft, tokens_eq_nil hzero]
      exact ⟨by simp [List.replicate_succ], by simp, hend⟩

/-- What a reader answers that is asked for what is left: the next token, or none, and then it stays
as it is. -/
def answer (r : Reader) : Option Token × Reader :=
  match r.next? with
  | some (t, next) => (some t, next)
  | none => (none, r)

/-- What a reader answers one after the other. -/
def answers : (k : Nat) → Reader → List (Option Token)
  | 0, _ => []
  | k + 1, r => r.answer.1 :: answers k r.answer.2

/-- Once a reader has answered that there is none left, it does so forever. -/
theorem answers_eq (h : r.Fed ∨ r.owed = 0) (k : Nat) :
    r.answers k = (r.tokens.take k).map some ++ List.replicate (k - r.tokens.length) none := by
  induction k generalizing r with
  | zero => simp [answers]
  | succ k ih =>
    rw [answers]
    by_cases hzero : r.owed = 0
    · have hanswer : r.answer = (none, r) := by rw [answer, next?, if_pos hzero]
      rw [hanswer, ih h, tokens_eq_nil hzero]
      simp [List.replicate_succ]
    · have hanswer : r.answer = (some r.next.1, r.next.2) := by rw [answer, next?, if_neg hzero]
      obtain ⟨htokens, hnext⟩ := tokens_next (h.resolve_right hzero)
      rw [hanswer, ih hnext, htokens]
      simp

/-- Whatever the settings and the text, a reader gives out the tokens of the text one by one and
then, as often as it is asked, the end of the text with nothing attached to it. Asked for what is
left at any moment, it gives the other tokens of the text in order, each once, and then none
forever. -/
theorem read_drain (config : Config) (t : Text) (n k : Nat) :
    let ts := (Stream.ofText config t).toList
    let r := (ofText config t).read n
    r.1 = ts.take n ++
        List.replicate (n - ts.length) (.place .eof [] (Position.origin.advance t)) ∧
      r.2.drain = ts.drop n ∧
      r.2.answers k = ((ts.drop n).take k).map some ++ List.replicate (k - (ts.drop n).length) none := by
  intro ts r
  have hfed : (ofText config t).Fed ∨ (ofText config t).owed = 0 := Or.inl (fed_ofText config t)
  have htokens : (ofText config t).tokens = ts := by
    rw [← drain_eq_tokens hfed]
    exact drain_ofText config t
  have hlast := last_ofText config t
  obtain ⟨hgiven, hleft, hend⟩ := read_eq hfed (by rw [hlast]; rfl) n
  rw [htokens, hlast] at hgiven
  rw [htokens] at hleft
  refine ⟨hgiven, ?_, ?_⟩
  · rw [drain_eq_tokens hend, hleft]
  · rw [answers_eq hend, hleft]

end Reader

end CssTree
