import CssTree.Proofs.Grammar.Declaration
import CssTree.Proofs.Grammar.Steady
import CssTree.Proofs.Token.Behind

namespace CssTree

theorem FlatFrom.head {s : Stream} (h : FlatFrom true s.tokens) : s.Settled 0 := by
  obtain ⟨tokens, last⟩ := s
  cases tokens with
  | nil => exact Stream.settled_nil rfl
  | cons t ts =>
    apply Stream.settled_zero_cons.mpr
    intro hopen
    rw [FlatFrom, if_pos hopen] at h
    exact Bool.noConfusion h.1

theorem FlatFrom.tail {t : Token} {ts : List Token} (h : FlatFrom true (t :: ts))
    (hclose : t.kind ≠ .closeComment) : FlatFrom true ts := by
  by_cases hopen : t.kind = .openComment
  · rw [FlatFrom, if_pos hopen] at h
    exact h.2
  · rw [FlatFrom, if_neg hopen] at h
    simpa [hclose] using h

/-- Behind a token that ends no comment, a comment is still open. -/
theorem FlatFrom.settled_one {s : Stream} (h : FlatFrom true s.tokens)
    (hhead : s.head.kind ≠ .closeComment) : s.Settled 1 := by
  have hfirst := h.head
  obtain ⟨tokens, last⟩ := s
  cases tokens with
  | nil => exact Stream.settled_nil rfl
  | cons t us =>
    have hsecond : Stream.Settled 0 ⟨us, last⟩ := FlatFrom.head (h.tail hhead)
    exact Stream.settled_succ_cons.mpr ⟨Stream.settled_zero_cons.mp hfirst, hsecond⟩

namespace Grammar

/-- The tokens taken since an earlier state. -/
def State.since (mark s : State) : List Token :=
  (s.taken.take (s.taken.length - mark.taken.length)).reverse

/-- Since the state `mark`, in which a comment starts, the end of a comment was taken, or nothing
was folded. -/
def Within (mark s : State) : Prop :=
  ∃ ts, s.taken = ts.reverse ++ mark.taken ∧ ((∃ t ∈ ts, t.kind = .closeComment) ∨
    (mark.upcoming = s.upcoming.prepend ts ∧ FlatFrom true s.upcoming.tokens))

variable {mark s : State}

namespace Within

theorem settle (h : Within mark s) : Within mark (s.settle 0) := by
  obtain ⟨ts, htaken, hclose | ⟨hsame, hflat⟩⟩ := h
  · exact ⟨ts, htaken, Or.inl hclose⟩
  · have hsettle : s.settle 0 = s := by rw [State.settle, hflat.head.settle_eq]
    rw [hsettle]
    exact ⟨ts, htaken, Or.inr ⟨hsame, hflat⟩⟩

/-- In front of a token that ends no comment, one may look at the token behind it. -/
theorem settle_one (h : Within mark s) (hhead : s.upcoming.head.kind ≠ .closeComment) :
    Within mark (s.settle 1) := by
  obtain ⟨ts, htaken, hclose | ⟨hsame, hflat⟩⟩ := h
  · exact ⟨ts, htaken, Or.inl hclose⟩
  · have hsettle : s.settle 1 = s := by
      rw [State.settle, (hflat.settled_one hhead).settle_eq]
    rw [hsettle]
    exact ⟨ts, htaken, Or.inr ⟨hsame, hflat⟩⟩

theorem take (h : Within mark s) : Within mark s.take.2 := by
  obtain ⟨taken, ⟨tokens, last⟩, place, guard, limit, arena, created⟩ := s
  obtain ⟨ts, htaken, hcase⟩ := h
  cases tokens with
  | nil => exact ⟨ts, htaken, hcase⟩
  | cons t us =>
    have hmore : t :: taken = (ts ++ [t]).reverse ++ mark.taken := by
      simpa using htaken
    refine ⟨ts ++ [t], hmore, ?_⟩
    rcases hcase with ⟨c, hc, hkind⟩ | ⟨hsame, hflat⟩
    · exact Or.inl ⟨c, List.mem_append_left [t] hc, hkind⟩
    · by_cases hclose : t.kind = .closeComment
      · exact Or.inl ⟨t, by simp, hclose⟩
      · have hrest : FlatFrom true us := FlatFrom.tail hflat hclose
        have hback : mark.upcoming = Stream.prepend (ts ++ [t]) ⟨us, last⟩ := by
          rw [hsame, ← Stream.prepend_prepend]
          rfl
        exact Or.inr ⟨hback, hrest⟩

/-- Without the end of the comment among them, the tokens taken are those that came next. -/
theorem upcoming_rewind (h : Within mark s)
    (hopen : ∀ t ∈ mark.since s, t.kind ≠ .closeComment) :
    (mark.rewind s).upcoming = mark.upcoming := by
  obtain ⟨ts, htaken, hcase⟩ := h
  have hsince : mark.since s = ts := by simp [State.since, htaken]
  rw [hsince] at hopen
  rcases hcase with ⟨t, ht, hkind⟩ | ⟨hsame, -⟩
  · exact absurd hkind (hopen t ht)
  · show s.upcoming.prepend (mark.since s) = mark.upcoming
    rw [hsince, hsame]

end Within

theorem atImportant_run (s : State) : atImportant.run s =
    (if ((s.settle 0).upcoming.nth 0).isDelim '!' then do
      return (← nth 1).isIdent ['i', 'm', 'p', 'o', 'r', 't', 'a', 'n', 't']
    else return false : Parser Bool).run (s.settle 0) := rfl

/-- The exclamation mark that is seen first ends no comment. -/
theorem atImportant_within : Maintains (Within mark) atImportant := by
  intro s hs
  rw [atImportant_run]
  by_cases hdelim : ((s.settle 0).upcoming.nth 0).isDelim '!' = true
  · have hhead : (s.settle 0).upcoming.head.kind ≠ .closeComment := by
      intro hkind
      rw [← Stream.head_eq_nth] at hdelim
      simp [Token.isDelim, hkind] at hdelim
    rw [if_pos hdelim]
    exact hs.settle.settle_one hhead
  · rw [if_neg hdelim]
    exact hs.settle

theorem kept_within : Kept (Within mark) where
  peek _ hs := hs.settle
  bump _ hs := hs.settle.take
  atImportant := atImportant_within
  node _ _ _ hs := hs
  enter s hs := by
    rcases enter_run s with ⟨guard, -, hrun⟩ | ⟨e, -, hrun⟩
    · rw [hrun]
      exact hs
    · rw [hrun]
      exact hs
  exit _ hs := hs

/-- The comment ahead is opened. -/
theorem take_open {inside : Bool} (hflat : FlatFrom inside s.upcoming.tokens)
    (hlast : s.upcoming.last.kind = .eof) (hopen : s.upcoming.head.kind = .openComment) :
    ∃ t us, s.upcoming.tokens = t :: us ∧ t.kind = .openComment ∧ FlatFrom true us ∧
      s.take.2.taken = t :: s.taken ∧ s.take.2.upcoming = ⟨us, s.upcoming.last⟩ := by
  obtain ⟨taken, ⟨tokens, last⟩, place, guard, limit, arena, created⟩ := s
  cases tokens with
  | nil =>
    have hkind : last.kind = .openComment := hopen
    rw [show last.kind = .eof from hlast] at hkind
    cases hkind
  | cons t us =>
    have ht : t.kind = .openComment := hopen
    rw [FlatFrom, if_pos ht] at hflat
    exact ⟨t, us, rfl, ht, hflat.2, rfl, rfl⟩

/-- What is read as a declaration in the comment ahead stays within that comment, unless its end is
taken. -/
theorem disabledDeclaration_within {inside : Bool} (hflat : FlatFrom inside s.upcoming.tokens)
    (hlast : s.upcoming.last.kind = .eof) (hopen : s.upcoming.head.kind = .openComment) :
    Within s (disabledDeclaration.run.run s).2 := by
  obtain ⟨t, us, htokens, -, hbody, htaken, hupcoming⟩ := take_open hflat hlast hopen
  have hback : s.upcoming = s.take.2.upcoming.prepend [t] := by
    rw [hupcoming, Stream.eq_of_tokens htokens]
    rfl
  have hrest : FlatFrom true s.take.2.upcoming.tokens := by rwa [hupcoming]
  have hstart : Within s s.take.2 := ⟨[t], htaken, Or.inr ⟨hback, hrest⟩⟩
  rw [disabledDeclaration_run]
  exact kept_within.declarationAfter _ _ hstart

/-- Since the state `mark` no end of a comment was taken; a comment is open, and no bracket opens
in the rest of it. -/
structure Inside (mark s : State) : Prop where
  taken : ∃ ts : List Token, s.taken = ts.reverse ++ mark.taken ∧ ∀ t ∈ ts, t.kind ≠ .closeComment
  flat : FlatFrom true s.upcoming.tokens
  last : s.upcoming.last.kind = .eof
  plain : ∀ t ∈ (commentRun s.upcoming.tokens).1, t.kind.closing? = none

namespace Inside

theorem settle_eq (h : Inside mark s) : s.settle 0 = s := by
  rw [State.settle, h.flat.head.settle_eq]

theorem take (h : Inside mark s) (hhead : s.upcoming.head.kind ≠ .closeComment) :
    Inside mark s.take.2 := by
  obtain ⟨taken, ⟨tokens, last⟩, place, guard, limit, arena, created⟩ := s
  obtain ⟨⟨ts, htaken, hkinds⟩, hflat, hlast, hplain⟩ := h
  cases tokens with
  | nil => exact ⟨⟨ts, htaken, hkinds⟩, hflat, hlast, hplain⟩
  | cons t us =>
    have hkind : t.kind ≠ .closeComment := hhead
    have hmore : t :: taken = (ts ++ [t]).reverse ++ mark.taken := by simpa using htaken
    have hkinds' : ∀ u ∈ ts ++ [t], u.kind ≠ .closeComment := by
      intro u hu
      rcases List.mem_append.mp hu with hu | hu
      · exact hkinds u hu
      · rwa [List.mem_singleton.mp hu]
    have hrest : FlatFrom true us := FlatFrom.tail hflat hkind
    refine ⟨⟨ts ++ [t], hmore, hkinds'⟩, hrest, hlast, fun u hu => hplain u ?_⟩
    show u ∈ (commentRun (t :: us)).1
    rw [commentRun, if_neg hkind]
    exact List.mem_cons_of_mem t hu

/-- The next token opens no bracket. -/
theorem closing?_head (h : Inside mark s) (hhead : s.upcoming.head.kind ≠ .closeComment) :
    s.upcoming.head.kind.closing? = none := by
  obtain ⟨taken, ⟨tokens, last⟩, place, guard, limit, arena, created⟩ := s
  cases tokens with
  | nil =>
    have hlast : last.kind = .eof := h.last
    show last.kind.closing? = none
    rw [hlast]
    rfl
  | cons t us =>
    have hkind : t.kind ≠ .closeComment := hhead
    apply h.plain t
    show t ∈ (commentRun (t :: us)).1
    rw [commentRun, if_neg hkind]
    exact List.mem_cons_self

end Inside

theorem bump_inside (hs : Inside mark s) (hhead : s.upcoming.head.kind ≠ .closeComment) :
    Inside mark (bump.run s).2 := by
  show Inside mark (s.settle 0).take.2
  rw [hs.settle_eq]
  exact hs.take hhead

theorem peekKind_inside (hs : Inside mark s) : peekKind.run s = (s.upcoming.head.kind, s) := by
  rw [peekKind_run, hs.settle_eq, ← Stream.head_eq_nth]

theorem node_inside (kind : NodeKind) (es : List Element) :
    Maintains (Inside mark) (node kind es) :=
  fun _ hs => ⟨hs.taken, hs.flat, hs.last, hs.plain⟩

theorem eat_inside {kind : TokenKind} (hkind : kind ≠ .closeComment) :
    Maintains (Inside mark) (eat kind) := by
  intro s hs
  rw [eat_run, hs.settle_eq, ← Stream.head_eq_nth]
  by_cases hhead : s.upcoming.head.kind = kind
  · rw [if_pos hhead]
    exact bump_inside hs (hhead ▸ hkind)
  · rwa [if_neg hhead]

theorem State.head_take (s : State) : s.take.2.upcoming.head = s.upcoming.nth 1 := by
  obtain ⟨taken, ⟨tokens, last⟩, place, guard, limit, arena, created⟩ := s
  cases tokens with
  | nil => rfl
  | cons t us => cases us <;> rfl

/-- The mark of an important declaration is seen without folding anything. -/
theorem atImportant_inside (hs : Inside mark s) : (atImportant.run s).2 = s ∧
    ((atImportant.run s).1 = true → s.upcoming.head.kind ≠ .closeComment ∧
      s.take.2.upcoming.head.kind ≠ .closeComment) := by
  rw [atImportant_run, hs.settle_eq, ← Stream.head_eq_nth]
  by_cases hdelim : s.upcoming.head.isDelim '!' = true
  · have hhead : s.upcoming.head.kind ≠ .closeComment := by
      intro hkind
      simp [Token.isDelim, hkind] at hdelim
    have hsettle : s.settle 1 = s := by
      rw [State.settle, (hs.flat.settled_one hhead).settle_eq]
    rw [if_pos hdelim]
    show s.settle 1 = s ∧ (((s.settle 1).upcoming.nth 1).isIdent
      ['i', 'm', 'p', 'o', 'r', 't', 'a', 'n', 't'] = true → _)
    rw [hsettle, State.head_take]
    refine ⟨rfl, fun hident => ⟨hhead, fun hkind => ?_⟩⟩
    simp [Token.isIdent, hkind] at hident
  · rw [if_neg hdelim]
    exact ⟨rfl, fun h => Bool.noConfusion h⟩

theorem important_inside : Maintains (Inside mark) important := by
  intro s hs
  obtain ⟨hstate, hmark⟩ := atImportant_inside hs
  unfold important
  rw [StateT.run_bind]
  show Inside mark (StateT.run (if (atImportant.run s).1 then do
      let mark ← bump
      let word ← bump
      return some (← node .importantValue [.token mark, .token word])
    else return none : Parser (Option Node)) (atImportant.run s).2).2
  rw [hstate]
  by_cases hfound : (atImportant.run s).1 = true
  · obtain ⟨hhead, hnext⟩ := hmark hfound
    have hbump : (bump.run s).2 = s.take.2 := by
      show (s.settle 0).take.2 = s.take.2
      rw [hs.settle_eq]
    have hfirst : Inside mark (bump.run s).2 := bump_inside hs hhead
    have hword : Inside mark (bump.run (bump.run s).2).2 := bump_inside hfirst (hbump ▸ hnext)
    rw [if_pos hfound]
    exact node_inside _ _ _ hword
  · rw [if_neg hfound]
    exact hs

/-- A value is one token. -/
theorem component_inside (hs : Inside mark s) (hhead : s.upcoming.head.kind ≠ .closeComment) :
    Inside mark (component.run s).2 := by
  have htoken : Inside mark (StateT.run (do node .preservedToken [.token (← bump)]) s).2 :=
    node_inside _ _ _ (bump_inside hs hhead)
  show Inside mark ((componentWithin s.upcoming.length).run s).2
  cases s.upcoming.length with
  | zero => exact htoken
  | succ depth =>
    unfold componentWithin
    rw [run_bind_of (peekKind_inside hs), hs.closing?_head hhead]
    exact htoken

theorem valueItem_inside {stop : List TokenKind} (hstop : .closeComment ∈ stop) :
    Maintains (Inside mark) (valueItem component stop true).run := by
  intro s hs
  have hlook : (valueItem component stop true).run.run s =
      (if (peekKind.run s).1 = .eof || (peekKind.run s).1 = .closeBrace ||
          (peekKind.run s).1 ∈ stop then failure
        else do if ← atImportant then failure else component : Attempt Node).run.run
          (peekKind.run s).2 := rfl
  have hmark : (do if ← atImportant then failure else component : Attempt Node).run.run s =
      (if (atImportant.run s).1 then failure else component : Attempt Node).run.run
        (atImportant.run s).2 := rfl
  rw [hlook, peekKind_inside hs]
  split
  next => exact hs
  next hkind =>
    have hhead : s.upcoming.head.kind ≠ .closeComment := by
      intro hclose
      simp [hclose, hstop] at hkind
    rw [hmark, (atImportant_inside hs).1]
    split
    next => exact hs
    next => exact component_inside hs hhead

theorem declarationValue_inside {stop : List TokenKind} (hstop : .closeComment ∈ stop) :
    Maintains (Inside mark) (declarationValue stop) :=
  (valueItem_inside hstop).many.bind fun _ => node_inside _ _

theorem Maintains.tries {α : Type} {I : State → Prop} {p : Attempt α} (h : Maintains I p.run) :
    Tries I p (fun _ => I) I := by
  intro s hs
  have hrun := h s hs
  cases hr : (p.run.run s).1 <;> exact hrun

/-- A token that is missing leaves everything as it is. -/
theorem require_inside (kind : TokenKind) :
    Tries (Inside mark) (require kind) (fun _ _ => True) (Inside mark) := by
  intro s hs
  have heat : (require kind).run.run s = (eat kind).run s := rfl
  rw [heat, eat_run, hs.settle_eq]
  split
  · trivial
  · exact hs

theorem declarationAfter_inside (opening : Token) :
    Tries (Inside mark) (declarationAfter (some opening)) (fun _ _ => True) (Inside mark) := by
  have hident : Maintains (Inside mark) (require .ident).run := eat_inside (by decide)
  have hcolon : Maintains (Inside mark) (require .colon).run := eat_inside (by decide)
  refine hident.tries.bind fun name => hcolon.tries.bind fun colon => ?_
  refine Tries.call (declarationValue_inside (by decide)) fun value => ?_
  refine Tries.call important_inside fun importance => ?_
  refine Tries.call (eat_inside (by decide)) fun semicolon => ?_
  have hend : Tries (Inside mark) (declarationEnd true semicolon.isSome) (fun _ _ => True)
      (Inside mark) := (require_inside _).bind fun _ => Tries.ret fun _ _ => trivial
  exact hend.bind fun ending => Tries.run fun _ _ => trivial

/-- Where no declaration is found in a comment without brackets, its end was not taken. -/
theorem disabledDeclaration_inside {inside : Bool} {r : State}
    (hflat : FlatFrom inside s.upcoming.tokens) (hlast : s.upcoming.last.kind = .eof)
    (hopen : s.upcoming.head.kind = .openComment)
    (hplain : ∀ t ∈ (commentRun s.upcoming.tokens).1, t.kind.closing? = none)
    (hfail : disabledDeclaration.run.run s = (none, r)) :
    ∀ t ∈ s.since r, t.kind ≠ .closeComment := by
  obtain ⟨t, us, htokens, ht, hbody, htaken, hupcoming⟩ := take_open hflat hlast hopen
  have hstart : Inside s s.take.2 := by
    refine ⟨⟨[t], htaken, by simp [ht]⟩, by rwa [hupcoming], by rwa [hupcoming], fun u hu => ?_⟩
    rw [hupcoming] at hu
    apply hplain u
    rw [htokens, commentRun, if_neg (by simp [ht])]
    exact List.mem_cons_of_mem t hu
  have hrun := declarationAfter_inside s.take.1 s.take.2 hstart
  rw [← disabledDeclaration_run, hfail] at hrun
  obtain ⟨ts, htaken', hkinds⟩ : ∃ ts : List Token, r.taken = ts.reverse ++ s.taken ∧
    ∀ t ∈ ts, t.kind ≠ .closeComment := hrun.taken
  have hsince : s.since r = ts := by simp [State.since, htaken']
  rwa [hsince]

end Grammar

end CssTree
