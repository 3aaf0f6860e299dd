import CssTree.Proofs.Grammar.Within
import CssTree.Proofs.Token.FoldAll

namespace CssTree

theorem insideAfter_append {inside : Bool} (ts us : List Token) :
    insideAfter inside (ts ++ us) = insideAfter (insideAfter inside ts) us := List.foldl_append

namespace Stream

variable {taken ts : List Token} {s s' : Stream}

theorem Sound.of_prepend (h : Sound taken (s.prepend ts)) : Sound (taken ++ ts) s := by
  induction ts generalizing taken with
  | nil => rwa [List.append_nil]
  | cons t ts ih =>
    have hrest : Sound (taken ++ [t] ++ ts) s := ih h.of_cons
    rwa [List.append_assoc] at hrest

theorem Refolds.sound (h : s.Refolds s') (hs : Sound taken s) : Sound taken s' := by
  induction h with
  | refl => exact hs
  | fold ts _ ih => exact ih.of_prepend.foldFront.prepend

end Stream

namespace Grammar

/-- Since the state `mark` the tokens `ts` were taken, and comments were folded. -/
structure Since (mark : State) (ts : List Token) (s : State) : Prop where
  taken : s.taken = ts.reverse ++ mark.taken
  folded : mark.upcoming.Refolds (s.upcoming.prepend ts)
  limit : s.limit = mark.limit
  depth : mark.guard.depth ≤ mark.limit → s.guard.depth ≤ s.limit

/-- Since the state `mark` tokens were taken. -/
def Moved (mark s : State) : Prop := ∃ ts, Since mark ts s

/-- Since the state `mark` tokens were taken, and every comment that they open is closed. -/
def Clear (mark s : State) : Prop := ∃ ts, Since mark ts s ∧ insideAfter false ts = false

variable {mark s s' : State} {ts us : List Token} {α β : Type}

namespace Since

/-- No token is taken. -/
theorem idle (htaken : s'.taken = s.taken) (hupcoming : s'.upcoming = s.upcoming)
    (hlimit : s'.limit = s.limit) (hdepth : s.guard.depth ≤ s.limit → s'.guard.depth ≤ s'.limit) :
    Since s [] s' := ⟨htaken, hupcoming ▸ .refl, hlimit, hdepth⟩

theorem refl (s : State) : Since s [] s := .idle rfl rfl rfl id

theorem trans (h : Since mark ts s) (h' : Since s us s') : Since mark (ts ++ us) s' where
  taken := by rw [h'.taken, h.taken, List.reverse_append, List.append_assoc]
  folded := by
    rw [← Stream.prepend_prepend]
    exact h.folded.trans (h'.folded.prepend ts)
  limit := h'.limit.trans h.limit
  depth hmark := h'.depth (h.depth hmark)

theorem settle (s : State) (n : Nat) : Since s [] (s.settle n) :=
  ⟨rfl, .settle n s.upcoming, rfl, id⟩

/-- A token is taken, or nothing is left to take. -/
theorem take (s : State) : Since s (s.upcoming.tokens.take 1) s.take.2 := by
  obtain ⟨taken, ⟨tokens, last⟩, place, guard, limit, arena, created, refused⟩ := s
  cases tokens with
  | nil => exact ⟨rfl, .refl, rfl, id⟩
  | cons t ts => exact ⟨rfl, .refl, rfl, id⟩

/-- A nesting level is entered, or refused. -/
theorem enter (s : State) : Since s [] (Grammar.enter.run s).2 := by
  rcases enter_run s with ⟨guard, hok, hrun⟩ | ⟨e, -, hrun⟩
  · rw [hrun]
    obtain ⟨hroom, rfl⟩ := Guard.enter_eq_ok_iff.mp hok
    exact .idle rfl rfl rfl fun _ => hroom
  · rw [hrun]
    exact .idle rfl rfl rfl id

/-- What was taken is put back. -/
theorem rewind (h : Since mark ts s) : Since mark [] (mark.rewind s) := by
  have hback : (s.taken.take (s.taken.length - mark.taken.length)).reverse = ts := by
    simp [h.taken]
  have hupcoming : (mark.rewind s).upcoming = s.upcoming.prepend ts :=
    congrArg s.upcoming.prepend hback
  exact ⟨rfl, hupcoming ▸ h.folded, rfl, id⟩

/-- What is to come stays in place behind what was taken. -/
theorem sound (h : Since mark ts s) (hmark : mark.upcoming.Sound mark.taken.reverse) :
    s.upcoming.Sound s.taken.reverse := by
  have hbehind := (h.folded.sound hmark).of_prepend
  rwa [← List.reverse_reverse ts, ← List.reverse_append, ← h.taken] at hbehind

end Since

theorem Moved.trans (h : Moved mark s) (h' : Moved s s') : Moved mark s' :=
  let ⟨_, hts⟩ := h
  let ⟨_, hus⟩ := h'
  ⟨_, hts.trans hus⟩

theorem Clear.refl (s : State) : Clear s s := ⟨[], .refl s, rfl⟩

theorem Clear.trans (h : Clear mark s) (h' : Clear s s') : Clear mark s' := by
  obtain ⟨ts, hts, hout⟩ := h
  obtain ⟨us, hus, hout'⟩ := h'
  exact ⟨_, hts.trans hus, by rw [insideAfter_append, hout, hout']⟩

/-- A state is known from where it was reached. -/
theorem Steady.of_since {I : State → Prop}
    (h : ∀ {s s' ts}, Since s ts s' → insideAfter false ts = false → I s → I s') : Steady I where
  settle n hs := h (.settle _ n) rfl hs
  take {s} hsettled hs := by
    refine h (.take s) (insideAfter_of_no_open fun t ht => hsettled t ?_) hs
    simpa using ht
  node {s} kind es hs := h (s := s) (.idle rfl rfl rfl id) rfl hs
  enter hs := h (.enter _) rfl hs
  exit {s} hs := by
    refine h (s := s) (.idle rfl rfl rfl fun hdepth => ?_) rfl hs
    exact Nat.le_trans (Nat.sub_le _ _) hdepth

theorem steady_moved : Steady (Moved mark) := .of_since fun h _ hs => hs.trans ⟨_, h⟩

theorem steady_clear : Steady (Clear mark) := .of_since fun h hout hs => hs.trans ⟨_, h, hout⟩

variable {t : Token}

namespace Since

theorem last_kind (h : Since mark ts s) : s.upcoming.last.kind = mark.upcoming.last.kind :=
  h.folded.last_kind

/-- As many tokens less are to come as were taken, or fewer. -/
theorem length_le (h : Since mark ts s) :
    ts.length + s.upcoming.length ≤ mark.upcoming.length := by
  rw [← Stream.length_prepend]
  exact h.folded.length_le

theorem starts (h : Since mark [] s) (ht : mark.upcoming.Starts [t]) : s.upcoming.Starts [t] :=
  h.folded.starts ht

/-- The token that comes next is taken. -/
theorem take_next (h : s.upcoming.Starts [t]) : s.take.1 = t ∧ Since s [t] s.take.2 := by
  obtain ⟨us, hus⟩ := h.head
  have htake := Since.take s
  rw [hus] at htake
  refine ⟨?_, htake⟩
  rw [State.take, hus]

end Since

/-- The kind of the next token, once the comments in front of it are folded. -/
def State.ahead (s : State) : TokenKind := (peekKind.run s).1

theorem settle_settle_zero (s : State) : (s.settle 0).settle 0 = s.settle 0 := by
  rw [State.settle, State.settle, Stream.settle_settle (Nat.le_refl 0)]

theorem ahead_settle (s : State) : (s.settle 0).ahead = s.ahead := by
  show ((((s.settle 0).settle 0).upcoming).nth 0).kind = _
  rw [settle_settle_zero]
  rfl

theorem bump_settle (s : State) : bump.run (s.settle 0) = bump.run s := by
  show ((s.settle 0).settle 0).take = _
  rw [settle_settle_zero]
  rfl

/-- The end of the text stays its end. -/
theorem Since.ended (h : Since mark ts s) (hmark : mark.upcoming.last.kind = .eof) :
    s.upcoming.last.kind = .eof := h.last_kind.trans hmark

/-- A token that is not the end of the text is taken, and it is the one that was looked at. -/
theorem bump_next (hend : s.upcoming.last.kind = .eof) (h : s.ahead ≠ .eof) :
    (bump.run s).1.kind = s.ahead ∧ Since s [(bump.run s).1] (bump.run s).2 := by
  have hsettle := Since.settle s 0
  have hstarts : (s.settle 0).upcoming.Starts [(s.settle 0).upcoming.nth 0] :=
    (Stream.starts_nil s.upcoming).settle_nth (hsettle.ended hend) h
  obtain ⟨htaken, hsince⟩ := Since.take_next hstarts
  have hrun : bump.run s = (s.settle 0).take := rfl
  rw [hrun, htaken]
  exact ⟨rfl, hsettle.trans hsince⟩

/-- Nothing is folded where nothing is left. -/
theorem settle_nil (h : s.upcoming.tokens = []) : s.settle 0 = s := by
  rw [State.settle, (Stream.settled_nil h).settle_eq]

theorem ahead_nil (hend : s.upcoming.last.kind = .eof) (h : s.upcoming.tokens = []) :
    s.ahead = .eof := by
  show ((s.settle 0).upcoming.nth 0).kind = .eof
  rw [settle_nil h, Stream.nth, h, List.getD_nil, hend]

/-- Since the state `mark` a token was taken at least. -/
def Advances (mark s : State) : Prop := ∃ ts, ts ≠ [] ∧ Since mark ts s

theorem Moved.advances (h : Moved mark s) (h' : Advances s s') : Advances mark s' :=
  let ⟨_, hts⟩ := h
  let ⟨_, hne, hus⟩ := h'
  ⟨_, by simp [hne], hts.trans hus⟩

theorem Advances.trans (h : Advances mark s) (h' : Moved s s') : Advances mark s' :=
  let ⟨_, hne, hts⟩ := h
  let ⟨_, hus⟩ := h'
  ⟨_, by simp [hne], hts.trans hus⟩

/-- Less is to come than before. -/
theorem Advances.length_lt (h : Advances mark s) : s.upcoming.length < mark.upcoming.length := by
  obtain ⟨ts, hne, hts⟩ := h
  have hpos := List.length_pos_of_ne_nil hne
  have hle := hts.length_le
  omega

theorem advances_of_bump (hend : s.upcoming.last.kind = .eof) (h : s.ahead ≠ .eof) :
    Advances s (bump.run s).2 := ⟨_, List.cons_ne_nil _ _, (bump_next hend h).2⟩

/-- A bounded run of steps of which each takes a token before it goes on needs no more steps than
there are tokens. -/
theorem run_eq_of_advances {ι : Type} {f : ι → Nat → Parser α}
    (hnil : ∀ {s} i n, s.upcoming.last.kind = .eof → s.upcoming.tokens = [] →
      (f i n).run s = (f i 0).run s)
    (hstep : ∀ {s} i m n, s.upcoming.last.kind = .eof →
      (∀ j s', Advances s s' → (f j m).run s' = (f j n).run s') →
      (f i (m + 1)).run s = (f i (n + 1)).run s)
    (hend : s.upcoming.last.kind = .eof) (i : ι) {m n : Nat} (hm : s.upcoming.length ≤ m)
    (hn : s.upcoming.length ≤ n) : (f i m).run s = (f i n).run s := by
  by_cases htokens : s.upcoming.tokens = []
  · rw [hnil i m hend htokens, hnil i n hend htokens]
  · have hpos : 0 < s.upcoming.length := List.length_pos_of_ne_nil htokens
    induction m generalizing s i n with
    | zero => exact absurd (Nat.le_zero.mp hm) (Nat.ne_of_gt hpos)
    | succ m ih =>
      obtain ⟨n, rfl⟩ := Nat.exists_eq_succ_of_ne_zero (Nat.ne_of_gt (Nat.lt_of_lt_of_le hpos hn))
      refine hstep i m n hend fun j s' hs' => ?_
      have hless := hs'.length_lt
      obtain ⟨ts, -, hts⟩ := hs'
      have hend' := hts.ended hend
      by_cases htokens' : s'.upcoming.tokens = []
      · rw [hnil j m hend' htokens', hnil j n hend' htokens']
      · exact ih hend' j (by omega) (by omega) htokens' (List.length_pos_of_ne_nil htokens')

end Grammar

end CssTree
