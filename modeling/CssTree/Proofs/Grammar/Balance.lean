import CssTree.Proofs.Grammar.Neat

namespace CssTree

/-- What may stand in a bracket that `close` ends: tokens that neither open a bracket nor end this
one, and whole brackets, each ended by a token of its own kind. -/
inductive Enclosed : (close : TokenKind) → List Token → Prop
  | nil {close : TokenKind} : Enclosed close []
  | token {close : TokenKind} {t : Token} {ts : List Token} (hopen : t.kind.closing? = none)
      (hclose : t.kind ≠ close) (hts : Enclosed close ts) : Enclosed close (t :: ts)
  | bracket {close c : TokenKind} {t shut : Token} {inner ts : List Token}
      (hopen : t.kind.closing? = some c) (hinner : Enclosed c inner) (hshut : shut.kind = c)
      (hts : Enclosed close ts) : Enclosed close (t :: (inner ++ shut :: ts))

/-- A token that opens a bracket, what stands in it, and the token that closes it. -/
inductive Bracketed : List Token → Prop
  | intro {c : TokenKind} {t shut : Token} {inner : List Token} (hopen : t.kind.closing? = some c)
      (hinner : Enclosed c inner) (hshut : shut.kind = c) : Bracketed (t :: (inner ++ [shut]))

/-- Tokens that close open brackets, the innermost first, and end there. -/
def ClosesAll : (expected : List TokenKind) → List Token → Prop
  | [], ts => ts = []
  | c :: expected, ts => ∃ inner shut us, ts = inner ++ shut :: us ∧ Enclosed c inner ∧
    shut.kind = c ∧ ClosesAll expected us

variable {c : TokenKind} {expected : List TokenKind} {t : Token} {ts : List Token}

/-- What closes a bracket opens none. -/
theorem TokenKind.closing?_of_closing? {kind : TokenKind} (h : kind.closing? = some c) :
    c.closing? = none := by
  cases kind <;> simp only [TokenKind.closing?, reduceCtorEq, Option.some.injEq] at h <;>
    exact h ▸ rfl

namespace Grammar

theorem expectedAfter_open {kind : TokenKind} (h : kind.closing? = some c)
    (expected : List TokenKind) : expectedAfter kind expected = c :: expected := by
  simp [expectedAfter, h]

theorem expectedAfter_close (hc : c.closing? = none) (expected : List TokenKind) :
    expectedAfter c (c :: expected) = expected := by
  simp [expectedAfter, hc]

theorem expectedAfter_other {kind : TokenKind} (h : kind.closing? = none)
    (hkind : expected.head? ≠ some kind) : expectedAfter kind expected = expected := by
  simp [expectedAfter, h, hkind]

/-- The stack holds kinds that close. -/
theorem expectedAfter_closing (h : ∀ c ∈ expected, c.closing? = none) (kind : TokenKind) :
    ∀ c ∈ expectedAfter kind expected, c.closing? = none := by
  unfold expectedAfter
  split
  next close hclose =>
    exact List.forall_mem_cons.mpr ⟨TokenKind.closing?_of_closing? hclose, h⟩
  next =>
    split
    next => exact fun c hc => h c (List.mem_of_mem_tail hc)
    next => exact h

end Grammar

open Grammar

/-- The stack after a token is what the tokens behind it have to close. -/
theorem closes_cons_iff (hc : c.closing? = none) :
    ClosesAll (c :: expected) (t :: ts) ↔ ClosesAll (expectedAfter t.kind (c :: expected)) ts := by
  constructor
  · rintro ⟨inner, shut, us, heq, hinner, hshut, hus⟩
    cases hinner with
    | nil =>
      obtain ⟨rfl, rfl⟩ := List.cons.inj heq
      rwa [hshut, expectedAfter_close hc]
    | token hopen hclose hinner =>
      obtain ⟨rfl, rfl⟩ := List.cons.inj heq
      rw [expectedAfter_other hopen (by simpa using hclose.symm)]
      exact ⟨_, shut, us, rfl, hinner, hshut, hus⟩
    | @bracket _ c' _ shut' inner' ts' hopen hinner' hshut' hts' =>
      obtain ⟨rfl, rfl⟩ := List.cons.inj heq
      rw [expectedAfter_open hopen]
      exact ⟨inner', shut', ts' ++ shut :: us, by simp, hinner', hshut', ts', shut, us, rfl, hts',
        hshut, hus⟩
  · intro h
    cases hopen : t.kind.closing? with
    | some c' =>
      -- What closes the new bracket and what closes the one around it are one text in it.
      rw [expectedAfter_open hopen] at h
      obtain ⟨inner', shut', us', rfl, hinner', hshut', ts', shut, us, rfl, hts', hshut, hus⟩ := h
      exact ⟨t :: (inner' ++ shut' :: ts'), shut, us, by simp, .bracket hopen hinner' hshut' hts',
        hshut, hus⟩
    | none =>
      by_cases hclose : t.kind = c
      · rw [hclose, expectedAfter_close hc] at h
        exact ⟨[], t, ts, rfl, .nil, hclose, h⟩
      · rw [expectedAfter_other hopen (by simpa using Ne.symm hclose)] at h
        obtain ⟨inner, shut, us, rfl, hinner, hshut, hus⟩ := h
        exact ⟨t :: inner, shut, us, rfl, .token hopen hclose hinner, hshut, hus⟩

/-- A bracket is closed by what closes the stack with it alone. -/
theorem bracketed_cons_iff (hopen : t.kind.closing? = some c) :
    Bracketed (t :: ts) ↔ ClosesAll [c] ts := by
  constructor
  · generalize htokens : t :: ts = tokens
    rintro ⟨hopen', hinner, hshut⟩
    obtain ⟨rfl, rfl⟩ := List.cons.inj htokens
    obtain rfl := Option.some.inj (hopen.symm.trans hopen')
    exact ⟨_, _, [], rfl, hinner, hshut, rfl⟩
  · rintro ⟨inner, shut, us, rfl, hinner, hshut, rfl⟩
    exact .intro hopen hinner hshut

theorem not_closes_nil : ¬ClosesAll (c :: expected) [] := by
  rintro ⟨inner, shut, us, heq, -⟩
  simp at heq

namespace Grammar

variable {s : State}

theorem balancedFrom_run (expected : List TokenKind) (n : Nat) (s : State) :
    (balancedFrom expected (n + 1)).run s =
      if s.ahead = .eof then ([], s.settle 0)
      else if (expectedAfter s.ahead expected).isEmpty then ([(bump.run s).1], (bump.run s).2)
      else
        ((bump.run s).1 :: ((balancedFrom (expectedAfter s.ahead expected) n).run (bump.run s).2).1,
          ((balancedFrom (expectedAfter s.ahead expected) n).run (bump.run s).2).2) := by
  have hpeek : peekKind.run s = (s.ahead, s.settle 0) := rfl
  rw [balancedFrom, run_bind_of hpeek]
  split
  next => rfl
  next =>
    have hbump : bump.run (s.settle 0) = ((bump.run s).1, (bump.run s).2) := bump_settle s
    rw [run_bind_of hbump]
    dsimp only
    split <;> rfl

/-- What is taken while brackets are open closes them all, unless the text ends before that. -/
theorem balancedFrom_closes (hend : s.upcoming.last.kind = .eof) (hne : expected ≠ [])
    (hexpected : ∀ c ∈ expected, c.closing? = none) {n : Nat} (hn : s.upcoming.length ≤ n) :
    Since s ((balancedFrom expected n).run s).1 ((balancedFrom expected n).run s).2 ∧
      (ClosesAll expected ((balancedFrom expected n).run s).1 ∨
        ((balancedFrom expected n).run s).2.ahead = .eof ∧
          ∀ us, us <+: ((balancedFrom expected n).run s).1 → ¬ClosesAll expected us) := by
  induction n generalizing s expected with
  | zero =>
    obtain ⟨c, expected, rfl⟩ := List.exists_cons_of_ne_nil hne
    have hnil : s.upcoming.tokens = [] := List.length_eq_zero_iff.mp (Nat.le_zero.mp hn)
    refine ⟨.refl s, Or.inr ⟨ahead_nil hend hnil, fun us hus => ?_⟩⟩
    rw [List.prefix_nil.mp hus]
    exact not_closes_nil
  | succ n ih =>
    obtain ⟨c, expected, rfl⟩ := List.exists_cons_of_ne_nil hne
    have hc : c.closing? = none := hexpected c List.mem_cons_self
    rw [balancedFrom_run]
    by_cases heof : s.ahead = .eof
    · rw [if_pos heof]
      refine ⟨.settle s 0, Or.inr ⟨(ahead_settle s).trans heof, fun us hus => ?_⟩⟩
      rw [List.prefix_nil.mp hus]
      exact not_closes_nil
    · obtain ⟨hkind, hsince⟩ := bump_next hend heof
      rw [if_neg heof, ← hkind]
      -- The text is closed with the token, or what follows closes the stack behind it.
      split
      next hempty =>
        refine ⟨hsince, Or.inl ((closes_cons_iff hc).mpr ?_)⟩
        rw [List.isEmpty_iff.mp hempty]
        rfl
      next hempty =>
        have hless := hsince.length_le
        rw [List.length_singleton] at hless
        obtain ⟨hsince', hcase⟩ := ih (hsince.ended hend) (by simpa using hempty)
          (expectedAfter_closing hexpected _) (by omega)
        refine ⟨hsince.trans hsince', hcase.imp (closes_cons_iff hc).mpr fun hopen => ?_⟩
        refine ⟨hopen.1, fun us hus hcloses => ?_⟩
        cases us with
        | nil => exact not_closes_nil hcloses
        | cons u us =>
          obtain ⟨rfl, hrest⟩ := List.cons_prefix_cons.mp hus
          exact hopen.2 us hrest ((closes_cons_iff hc).mp hcloses)

/-- Where nothing is left, nothing is taken, whatever the bound. -/
theorem balancedFrom_nil (hend : s.upcoming.last.kind = .eof) (hnil : s.upcoming.tokens = [])
    (expected : List TokenKind) (n : Nat) : (balancedFrom expected n).run s = ([], s) := by
  cases n with
  | zero => rfl
  | succ n => rw [balancedFrom_run, if_pos (ahead_nil hend hnil), settle_nil hnil]

/-- As many steps as there are tokens are enough. -/
theorem balancedFrom_bound (hend : s.upcoming.last.kind = .eof) (expected : List TokenKind)
    {m n : Nat} (hm : s.upcoming.length ≤ m) (hn : s.upcoming.length ≤ n) :
    (balancedFrom expected m).run s = (balancedFrom expected n).run s := by
  refine run_eq_of_advances (fun expected n hend hnil => ?_) (fun {s} expected m n hend h => ?_)
    hend expected hm hn
  · rw [balancedFrom_nil hend hnil, balancedFrom_nil hend hnil]
  · rw [balancedFrom_run, balancedFrom_run]
    split
    next => rfl
    next heof => rw [h _ _ (advances_of_bump hend heof)]

/-- What is taken at once: a token that opens no bracket; a bracket with what it encloses, every
bracket inside closed by its own kind; or, if the text ends before that, what follows a bracket
that is never closed. -/
inductive Balanced (s' : State) : List Token → Prop
  | token {t : Token} (hopen : t.kind.closing? = none) : Balanced s' [t]
  | bracket {ts : List Token} (h : Bracketed ts) : Balanced s' ts
  | unclosed {t : Token} {ts : List Token} (hopen : t.kind.closing? ≠ none)
      (hend : s'.ahead = .eof) (h : ∀ us, us <+: t :: ts → ¬Bracketed us) : Balanced s' (t :: ts)

theorem not_bracketed_nil : ¬Bracketed [] := nofun

theorem Balanced.ne_nil {s' : State} (h : Balanced s' ts) : ts ≠ [] := by
  cases h with
  | token => exact List.cons_ne_nil _ _
  | bracket h =>
    rintro rfl
    exact not_bracketed_nil h
  | unclosed => exact List.cons_ne_nil _ _

/-- Where the text does not end, balanced text is taken, which starts with the next token. -/
theorem balanced_balances (hend : s.upcoming.last.kind = .eof) (h : s.ahead ≠ .eof) :
    Since s (balanced.run s).1 (balanced.run s).2 ∧
      ((balanced.run s).1.head?.map fun t => t.kind) = some s.ahead ∧
      Balanced (balanced.run s).2 (balanced.run s).1 := by
  obtain ⟨hkind, hsince⟩ := bump_next hend h
  have hless := hsince.length_le
  rw [List.length_singleton] at hless
  obtain ⟨n, hn⟩ : ∃ n, s.upcoming.length = n + 1 := ⟨s.upcoming.length - 1, by omega⟩
  have hrun : balanced.run s = (balancedFrom [] s.upcoming.length).run s := rfl
  rw [hrun, hn, balancedFrom_run, if_neg h, ← hkind]
  cases hopen : (bump.run s).1.kind.closing? with
  | none =>
    rw [expectedAfter_other hopen (by simp), if_pos List.isEmpty_nil]
    exact ⟨hsince, rfl, .token hopen⟩
  | some c =>
    rw [expectedAfter_open hopen, if_neg (by simp)]
    have hc := TokenKind.closing?_of_closing? hopen
    obtain ⟨hsince', hcase⟩ := balancedFrom_closes (hsince.ended hend) (List.cons_ne_nil c [])
      (by simpa using hc) (n := n) (by omega)
    refine ⟨hsince.trans hsince', rfl, ?_⟩
    rcases hcase with hcloses | ⟨heof, hopened⟩
    · exact .bracket ((bracketed_cons_iff hopen).mpr hcloses)
    · refine .unclosed (by simp [hopen]) heof fun us hus hbracketed => ?_
      cases us with
      | nil => exact not_bracketed_nil hbracketed
      | cons u us =>
        obtain ⟨rfl, hrest⟩ := List.cons_prefix_cons.mp hus
        exact hopened us hrest ((bracketed_cons_iff hopen).mp hbracketed)

/-- Why capture stops behind tokens: at the end of the text, in front of a kind that it is told to
stop at, behind one that it is told to stop at, or behind a block in braces. -/
inductive Halts (r : Recovery) (s' : State) (ts : List Token) : Prop
  | eof (h : s'.ahead = .eof)
  | before (h : s'.ahead ∈ r.before)
  | behind {front : List Token} {t : Token} (hts : ts = front ++ [t]) (h : t.kind ∈ r.behind)
  | block {front block : List Token} (hts : ts = front ++ block) (h : r.blockEnds = true)
      (hbrace : (block.head?.map fun t => t.kind) = some .openBrace) (hblock : Bracketed block)

theorem Halts.append {r : Recovery} {s' : State} (h : Halts r s' ts) (us : List Token) :
    Halts r s' (us ++ ts) := by
  cases h with
  | eof h => exact .eof h
  | before h => exact .before h
  | behind hts h => exact .behind (by rw [hts, List.append_assoc]) h
  | block hts h hbrace hblock => exact .block (by rw [hts, List.append_assoc]) h hbrace hblock

/-- Capture stops behind a block in braces, or the text ends in it. -/
theorem Balanced.halts {r : Recovery} {s' : State} (h : Balanced s' ts) (hends : r.blockEnds = true)
    (hbrace : (ts.head?.map fun t => t.kind) = some .openBrace) : Halts r s' ts := by
  cases h with
  | @token t hopen =>
    have hkind : t.kind = .openBrace := Option.some.inj hbrace
    rw [hkind] at hopen
    cases hopen
  | bracket h => exact .block (List.nil_append _).symm hends hbrace h
  | unclosed _ hend _ => exact .eof hend

theorem captureTokens_run (r : Recovery) (n : Nat) (s : State) :
    (captureTokens r (n + 1)).run s =
      if s.ahead = .eof ∨ s.ahead ∈ r.before then ([], s.settle 0)
      else if s.ahead ∈ r.behind then ([(bump.run s).1], (bump.run s).2)
      else if r.blockEnds ∧ s.ahead = .openBrace then balanced.run (s.settle 0)
      else
        ((balanced.run (s.settle 0)).1 ++
            ((captureTokens r n).run (balanced.run (s.settle 0)).2).1,
          ((captureTokens r n).run (balanced.run (s.settle 0)).2).2) := by
  have hpeek : peekKind.run s = (s.ahead, s.settle 0) := rfl
  rw [captureTokens, run_bind_of hpeek]
  simp only [Bool.or_eq_true, Bool.and_eq_true, decide_eq_true_eq]
  split
  next => rfl
  next =>
    split
    next =>
      have hbump : bump.run (s.settle 0) = ((bump.run s).1, (bump.run s).2) := bump_settle s
      rw [run_bind_of hbump]
      rfl
    next =>
      have hbalanced : balanced.run (s.settle 0) =
        ((balanced.run (s.settle 0)).1, (balanced.run (s.settle 0)).2) := rfl
      rw [run_bind_of hbalanced]
      split <;> rfl

theorem captureTokens_nil (hend : s.upcoming.last.kind = .eof) (hnil : s.upcoming.tokens = [])
    (r : Recovery) (n : Nat) : (captureTokens r n).run s = ([], s) := by
  cases n with
  | zero => rfl
  | succ n => rw [captureTokens_run, if_pos (Or.inl (ahead_nil hend hnil)), settle_nil hnil]

theorem balanced_settled (hend : s.upcoming.last.kind = .eof) (h : s.ahead ≠ .eof) :
    Since s (balanced.run (s.settle 0)).1 (balanced.run (s.settle 0)).2 ∧
      ((balanced.run (s.settle 0)).1.head?.map fun t => t.kind) = some s.ahead ∧
      Balanced (balanced.run (s.settle 0)).2 (balanced.run (s.settle 0)).1 := by
  have hsettle := Since.settle s 0
  rw [← ahead_settle s] at h ⊢
  obtain ⟨hsince, hhead, hbalanced⟩ := balanced_balances (hsettle.ended hend) h
  exact ⟨hsettle.trans hsince, hhead, hbalanced⟩

theorem captureTokens_bound (hend : s.upcoming.last.kind = .eof) (r : Recovery) {m n : Nat}
    (hm : s.upcoming.length ≤ m) (hn : s.upcoming.length ≤ n) :
    (captureTokens r m).run s = (captureTokens r n).run s := by
  refine run_eq_of_advances (fun r n hend hnil => ?_) (fun {s} r m n hend h => ?_) hend r hm hn
  · rw [captureTokens_nil hend hnil, captureTokens_nil hend hnil]
  · rw [captureTokens_run, captureTokens_run]
    split
    next => rfl
    next hstart =>
      obtain ⟨hsince, -, hbalanced⟩ := balanced_settled hend fun heof => hstart (Or.inl heof)
      rw [h _ _ ⟨_, hbalanced.ne_nil, hsince⟩]

/-- Capture stops for a reason, and it takes something unless it has to stop at once. -/
theorem captureTokens_halts (hend : s.upcoming.last.kind = .eof) (r : Recovery) {n : Nat}
    (hn : s.upcoming.length ≤ n) :
    Since s ((captureTokens r n).run s).1 ((captureTokens r n).run s).2 ∧
      Halts r ((captureTokens r n).run s).2 ((captureTokens r n).run s).1 ∧
      (s.ahead ≠ .eof → s.ahead ∉ r.before → ((captureTokens r n).run s).1 ≠ []) := by
  induction n generalizing s with
  | zero =>
    have heof := ahead_nil hend (List.length_eq_zero_iff.mp (Nat.le_zero.mp hn))
    exact ⟨.refl s, .eof heof, fun h => absurd heof h⟩
  | succ n ih =>
    rw [captureTokens_run]
    split
    next hstart =>
      refine ⟨.settle s 0, ?_, fun heof hbefore => absurd hstart (not_or.mpr ⟨heof, hbefore⟩)⟩
      rcases hstart with heof | hbefore
      · exact .eof ((ahead_settle s).trans heof)
      · exact .before (ahead_settle s ▸ hbefore)
    next hstart =>
      rw [not_or] at hstart
      split
      next hbehind =>
        obtain ⟨hkind, hsince⟩ := bump_next hend hstart.1
        exact ⟨hsince, .behind (List.nil_append _).symm (hkind ▸ hbehind),
          fun _ _ => List.cons_ne_nil _ _⟩
      next =>
        obtain ⟨hsince, hhead, hbalanced⟩ := balanced_settled hend hstart.1
        split
        next hblock =>
          exact ⟨hsince, hbalanced.halts hblock.1 (hblock.2 ▸ hhead), fun _ _ => hbalanced.ne_nil⟩
        next =>
          -- Why capture stops is for the rest of it to say.
          have hless := Advances.length_lt ⟨_, hbalanced.ne_nil, hsince⟩
          obtain ⟨hsince', hhalts, -⟩ := ih (hsince.ended hend) (by omega)
          exact ⟨hsince.trans hsince', hhalts.append _, fun _ _ => by simp [hbalanced.ne_nil]⟩

/-- What is captured becomes a node, which has the tokens taken. -/
theorem recover_halts (hend : s.upcoming.last.kind = .eof) (r : Recovery) :
    Since s ((recover r).run s).1.tokens ((recover r).run s).2 ∧
      Halts r ((recover r).run s).2 ((recover r).run s).1.tokens ∧
      (s.ahead ≠ .eof → s.ahead ∉ r.before → ((recover r).run s).1.tokens ≠ []) := by
  have htokens : ((recover r).run s).1.tokens =
      ((captureTokens r s.upcoming.length).run s).1 := Element.tokensOf_map_token _
  obtain ⟨hsince, hhalts, hne⟩ := captureTokens_halts hend r (Nat.le_refl s.upcoming.length)
  rw [htokens]
  refine ⟨?_, ?_, hne⟩
  · have hnode : Since ((captureTokens r s.upcoming.length).run s).2 [] ((recover r).run s).2 :=
      .idle rfl rfl rfl id
    rw [← List.append_nil ((captureTokens r s.upcoming.length).run s).1]
    exact hsince.trans hnode
  · cases hhalts with
    | eof h => exact .eof h
    | before h => exact .before h
    | behind hts h => exact .behind hts h
    | block hts h hbrace hblock => exact .block hts h hbrace hblock

end Grammar

end CssTree
