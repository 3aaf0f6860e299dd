import CssTree.Proofs.Token.Fold

namespace CssTree.Stream

/-- None of the next `n + 1` tokens starts a comment. -/
def Settled (n : Nat) (s : Stream) : Prop := ∀ t ∈ s.tokens.take (n + 1), t.kind ≠ .openComment

theorem settled_nil {n : Nat} {s : Stream} (h : s.tokens = []) : s.Settled n := by
  simp [Settled, h]

theorem settled_zero_cons {t : Token} {ts : List Token} {last : Token} :
    Settled 0 ⟨t :: ts, last⟩ ↔ t.kind ≠ .openComment := by simp [Settled]

theorem settled_succ_cons {n : Nat} {t : Token} {ts : List Token} {last : Token} :
    Settled (n + 1) ⟨t :: ts, last⟩ ↔ t.kind ≠ .openComment ∧ Settled n ⟨ts, last⟩ := by
  simp [Settled]

theorem Settled.mono {m n : Nat} {s : Stream} (h : s.Settled n) (hmn : m ≤ n) : s.Settled m :=
  fun t ht => h t (List.take_subset_take_left s.tokens (Nat.succ_le_succ hmn) ht)

theorem Settled.foldFront {n : Nat} {s : Stream} (h : s.Settled n) : s.foldFront = s := by
  obtain ⟨tokens, last⟩ := s
  cases tokens with
  | nil => rw [Stream.foldFront]
  | cons t ts => rw [Stream.foldFront, if_neg (settled_zero_cons.mp (h.mono (Nat.zero_le n)))]

theorem head_eq_nth (s : Stream) : s.head = s.nth 0 := by
  cases h : s.tokens <;> simp [head, nth, h]

/-- A next token that starts no comment stays the next one. -/
theorem settled_of_head {s : Stream} (h : s.head.kind ≠ .openComment) : s.Settled 0 := by
  obtain ⟨tokens, last⟩ := s
  cases tokens with
  | nil => exact settled_nil rfl
  | cons t ts => exact settled_zero_cons.mpr h

theorem settled_foldFront (s : Stream) : s.foldFront.Settled 0 := by
  rcases starts_foldFront s with hnil | ⟨t, ts, htokens, ht⟩
  · exact settled_nil hnil
  · rw [eq_of_tokens htokens]
    exact settled_zero_cons.mpr ht

theorem Settled.settle_eq {n : Nat} {s : Stream} (h : s.Settled n) : s.settle n = s := by
  induction n generalizing s with
  | zero => exact h.foldFront
  | succ n ih =>
    have hfront : s.foldFront = s := h.foldFront
    cases htokens : s.tokens with
    | nil => rw [settle_succ_nil (by rw [hfront, htokens]), hfront]
    | cons t ts =>
      have hrest : Settled n ⟨ts, s.last⟩ := by
        rw [eq_of_tokens htokens] at h
        exact (settled_succ_cons.mp h).2
      rw [settle_succ_cons (by rw [hfront, htokens]), hfront, ih hrest, eq_of_tokens htokens]
      rfl

theorem settled_settle (n : Nat) (s : Stream) : (s.settle n).Settled n := by
  induction n generalizing s with
  | zero => exact settled_foldFront s
  | succ n ih =>
    cases htokens : s.foldFront.tokens with
    | nil =>
      rw [settle_succ_nil htokens]
      exact settled_nil htokens
    | cons t ts =>
      have hfirst := settled_foldFront s
      rw [eq_of_tokens htokens] at hfirst
      rw [settle_succ_cons htokens]
      exact settled_succ_cons.mpr ⟨settled_zero_cons.mp hfirst, ih _⟩

theorem settle_settle {m n : Nat} (h : m ≤ n) (s : Stream) : (s.settle n).settle m = s.settle n :=
  ((settled_settle n s).mono h).settle_eq

/-- The second stream is the first one with some of its comments folded. -/
inductive Refolds (s : Stream) : Stream → Prop
  | refl : s.Refolds s
  | fold {s' : Stream} (ts : List Token) : s.Refolds (s'.prepend ts) →
      s.Refolds (s'.foldFront.prepend ts)

variable {s s' s'' : Stream}

theorem prepend_prepend (ts us : List Token) (s : Stream) :
    (s.prepend us).prepend ts = s.prepend (ts ++ us) := by simp [prepend]

theorem prepend_nil (s : Stream) : s.prepend [] = s := rfl

theorem length_prepend (ts : List Token) (s : Stream) :
    (s.prepend ts).length = ts.length + s.length := List.length_append

theorem last_kind_prependLeading (trivia : List Lexeme) (s : Stream) :
    (s.prependLeading trivia).last.kind = s.last.kind := by
  obtain ⟨tokens, last⟩ := s
  cases tokens <;> rfl

theorem last_kind_foldFront (s : Stream) : s.foldFront.last.kind = s.last.kind := by
  induction s using Stream.foldFront.induct with
  | case1 last => rw [Stream.foldFront]
  | case2 t ts last hopen ih => rw [Stream.foldFront, if_pos hopen, ih, last_kind_prependLeading]
  | case3 t ts last hopen => rw [Stream.foldFront, if_neg hopen]

theorem Starts.head {t : Token} {ts : List Token} (h : s.Starts (t :: ts)) :
    ∃ us, s = ⟨t :: us, s.last⟩ :=
  let ⟨us, hus⟩ := h.next
  ⟨ts ++ us, eq_of_tokens hus.symm⟩

namespace Refolds

theorem trans (h : s.Refolds s') (h' : s'.Refolds s'') : s.Refolds s'' := by
  induction h' with
  | refl => exact h
  | fold ts _ ih => exact ih.fold ts

theorem prepend (h : s.Refolds s') (us : List Token) : (s.prepend us).Refolds (s'.prepend us) := by
  induction h with
  | refl => exact .refl
  | @fold s' ts _ ih =>
    rw [prepend_prepend] at ih ⊢
    exact ih.fold (us ++ ts)

theorem foldFront (s : Stream) : s.Refolds s.foldFront := by
  have hfold : s.Refolds (s.foldFront.prepend []) := Refolds.fold [] .refl
  rwa [prepend_nil] at hfold

/-- Looking ahead folds comments. -/
theorem settle (n : Nat) (s : Stream) : s.Refolds (s.settle n) := by
  induction n generalizing s with
  | zero => exact foldFront s
  | succ n ih =>
    have hfront := foldFront s
    cases htokens : s.foldFront.tokens with
    | nil => rwa [settle_succ_nil htokens]
    | cons t ts =>
      rw [settle_succ_cons htokens]
      rw [eq_of_tokens htokens] at hfront
      exact hfront.trans ((ih ⟨ts, s.foldFront.last⟩).prepend [t])

theorem render_eq (h : s.Refolds s') : s'.render = s.render := by
  induction h with
  | refl => rfl
  | fold ts _ ih => rw [render_prepend, render_foldFront, ← render_prepend, ih]

/-- Where there are no comments, there is nothing to fold. -/
theorem eq_of_kinds (h : s.Refolds s') (hkinds : ∀ t ∈ s.tokens, t.kind ≠ .openComment) :
    s' = s := by
  induction h with
  | refl => rfl
  | @fold s' ts _ ih =>
    have hsettled : s'.Settled 0 := by
      intro t ht
      refine hkinds t ?_
      rw [← ih]
      exact List.mem_append_right ts (List.mem_of_mem_take ht)
    rw [hsettled.foldFront, ih]

theorem last_kind (h : s.Refolds s') : s'.last.kind = s.last.kind := by
  induction h with
  | refl => rfl
  | fold ts _ ih => exact (last_kind_foldFront _).trans ih

theorem length_le (h : s.Refolds s') : s'.length ≤ s.length := by
  induction h with
  | refl => exact Nat.le_refl _
  | @fold s' ts _ ih =>
    have hfold := length_foldFront s'
    rw [length_prepend] at ih ⊢
    omega

/-- A next token that starts no comment stays the next one. -/
theorem starts {t : Token} (h : s.Refolds s') (hs : s.Starts [t]) : s'.Starts [t] := by
  induction h with
  | refl => exact hs
  | @fold s' ts _ ih =>
    cases ts with
    | nil =>
      rw [prepend_nil] at ih ⊢
      rwa [ih.foldFront]
    | cons u us =>
      refine ⟨?_, ih.settled⟩
      obtain rfl : t = u := (List.cons_prefix_cons.mp ih.next).1
      exact List.prefix_append [t] (us ++ s'.foldFront.tokens)

end Refolds

end CssTree.Stream
