import CssTree.Proofs.Token.Settle

namespace CssTree

theorem foldRun_cons_leading (trivia : List Lexeme) (t : Token) (ts : List Token) :
    foldRun ({ t with leading := trivia ++ t.leading } :: ts) = trivia ++ foldRun (t :: ts) := by
  have hstrip : Token.stripEnds ({ t with leading := trivia ++ t.leading } :: ts) =
      Token.stripEnds (t :: ts) := rfl
  unfold foldRun
  rw [hstrip]
  cases ts <;> simp [List.append_assoc]

/-- No comment starts inside a comment; `inside` says whether one is open before the first
token. -/
def FlatFrom (inside : Bool) : List Token → Prop
  | [] => True
  | t :: ts =>
    if t.kind = .openComment then inside = false ∧ FlatFrom true ts
    else FlatFrom (inside && t.kind ≠ .closeComment) ts

/-- Whether a comment is open behind tokens. -/
def insideAfter (inside : Bool) (ts : List Token) : Bool :=
  ts.foldl (fun b t => t.kind = .openComment || b && t.kind ≠ .closeComment) inside

theorem flatFrom_append {inside : Bool} {ts us : List Token} :
    FlatFrom inside (ts ++ us) ↔ FlatFrom inside ts ∧ FlatFrom (insideAfter inside ts) us := by
  induction ts generalizing inside with
  | nil => simp [FlatFrom, insideAfter]
  | cons t ts ih =>
    by_cases hopen : t.kind = .openComment
    · simp [FlatFrom, insideAfter, hopen, ih, and_assoc]
    · simp [FlatFrom, insideAfter, hopen, ih]

/-- A comment in a flat list holds no start of another one, and the rest is flat. -/
theorem FlatFrom.commentRun {ts : List Token} (h : FlatFrom true ts) :
    (∀ t ∈ (commentRun ts).1, t.kind ≠ .openComment) ∧ FlatFrom false (commentRun ts).2 := by
  induction ts with
  | nil => exact ⟨by simp [CssTree.commentRun], trivial⟩
  | cons t ts ih =>
    by_cases hopen : t.kind = .openComment
    · simp [FlatFrom, hopen] at h
    rw [FlatFrom, if_neg hopen] at h
    unfold CssTree.commentRun
    by_cases hclose : t.kind = .closeComment
    · rw [if_pos hclose]
      exact ⟨by simpa using hopen, by simpa [hclose] using h⟩
    · rw [if_neg hclose]
      obtain ⟨hrun, hrest⟩ := ih (by simpa [hclose] using h)
      refine ⟨fun u hu => ?_, hrest⟩
      rcases List.mem_cons.mp hu with rfl | hu
      · exact hopen
      · exact hrun u hu

namespace Stream

theorem prependLeading_cons (trivia : List Lexeme) (t : Token) (ts : List Token) (last : Token) :
    prependLeading trivia ⟨t :: ts, last⟩ =
      ⟨{ t with leading := trivia ++ t.leading } :: ts, last⟩ := rfl

theorem prependLeading_append (xs ys : List Lexeme) (s : Stream) :
    s.prependLeading (xs ++ ys) = (s.prependLeading ys).prependLeading xs := by
  obtain ⟨tokens, last⟩ := s
  cases tokens <;> simp [prependLeading, List.append_assoc]

theorem flatFrom_prependLeading {inside : Bool} (trivia : List Lexeme) {s : Stream} :
    FlatFrom inside (s.prependLeading trivia).tokens ↔ FlatFrom inside s.tokens := by
  obtain ⟨tokens, last⟩ := s
  cases tokens <;> rfl

theorem foldFront_prependLeading (trivia : List Lexeme) (s : Stream) :
    (s.prependLeading trivia).foldFront = s.foldFront.prependLeading trivia := by
  induction s using Stream.foldFront.induct with
  | case1 last => simp only [prependLeading, foldFront]
  | case2 t ts last hopen ih =>
    rw [prependLeading_cons, foldFront, if_pos (by exact hopen), foldFront, if_pos hopen,
      foldRun_cons_leading, prependLeading_append]
    exact ih
  | case3 t ts last hopen =>
    rw [prependLeading_cons, foldFront, if_neg (by exact hopen), foldFront, if_neg hopen,
      prependLeading_cons]

theorem foldFront_foldFront (s : Stream) : s.foldFront.foldFront = s.foldFront :=
  (settled_foldFront s).foldFront

theorem flatFrom_foldFront {inside : Bool} {s : Stream} (h : FlatFrom inside s.tokens) :
    FlatFrom inside s.foldFront.tokens := by
  induction s using Stream.foldFront.induct with
  | case1 last => rwa [foldFront]
  | case2 t ts last hopen ih =>
    rw [foldFront, if_pos hopen]
    rw [FlatFrom, if_pos hopen] at h
    obtain ⟨rfl, hts⟩ := h
    exact ih ((flatFrom_prependLeading _).mpr hts.commentRun.2)
  | case3 t ts last hopen => rwa [foldFront, if_neg hopen]

theorem flatFrom_settle {inside : Bool} {s : Stream} (h : FlatFrom inside s.tokens) (n : Nat) :
    FlatFrom inside (s.settle n).tokens := by
  induction n generalizing inside s with
  | zero => exact flatFrom_foldFront h
  | succ n ih =>
    have hfront := flatFrom_foldFront h
    cases htokens : s.foldFront.tokens with
    | nil => rwa [settle_succ_nil htokens]
    | cons t ts =>
      rw [htokens] at hfront
      rw [settle_succ_cons htokens]
      change FlatFrom inside (t :: _)
      unfold FlatFrom at hfront ⊢
      split at hfront
      next hopen => rw [if_pos hopen]; exact ⟨hfront.1, ih hfront.2⟩
      next hopen => rw [if_neg hopen]; exact ih hfront

section Behind

variable {q : Option TokenKind → Bool} {b : Option TokenKind}

/-- A stream behind a token of kind `b`, with the comments in front folded if `q` says so. -/
def foldIf (q : Option TokenKind → Bool) (b : Option TokenKind) (s : Stream) : Stream :=
  if q b then s.foldFront else s

theorem length_foldIf (s : Stream) : (s.foldIf q b).tokens.length ≤ s.tokens.length := by
  unfold foldIf
  split
  · exact length_foldFront s
  · exact Nat.le_refl _

/-- Folds the comments behind tokens of the kinds `q`; `b` is the kind of the token before the
stream. -/
def foldBehind (q : Option TokenKind → Bool) (b : Option TokenKind) (s : Stream) : Stream :=
  match _ : (s.foldIf q b).tokens with
  | [] => s.foldIf q b
  | t :: ts => (foldBehind q (some t.kind) ⟨ts, (s.foldIf q b).last⟩).prepend [t]
termination_by s.tokens.length
decreasing_by
  rename_i h
  have := length_foldIf (q := q) (b := b) s
  rw [h] at this
  exact this

theorem foldBehind_nil {s : Stream} (h : (s.foldIf q b).tokens = []) :
    s.foldBehind q b = s.foldIf q b := by
  rw [foldBehind]
  split
  next => rfl
  next heq => simp [h] at heq

theorem foldBehind_cons {s : Stream} {t : Token} {ts : List Token}
    (h : (s.foldIf q b).tokens = t :: ts) : s.foldBehind q b =
      (foldBehind q (some t.kind) ⟨ts, (s.foldIf q b).last⟩).prepend [t] := by
  rw [foldBehind]
  split
  next heq => simp [h] at heq
  next heq =>
    obtain ⟨rfl, rfl⟩ := List.cons.inj (h.symm.trans heq)
    rfl

theorem foldIf_eq_self {t : Token} {ts : List Token} {last : Token}
    (h : ¬(t.kind = .openComment ∧ q b = true)) : foldIf q b ⟨t :: ts, last⟩ = ⟨t :: ts, last⟩ := by
  unfold foldIf
  split
  next hq => rw [foldFront, if_neg fun hopen => h ⟨hopen, hq⟩]
  next => rfl

/-- A token that starts no comment to be folded stays. -/
theorem foldBehind_keep {t : Token} {ts : List Token} {last : Token}
    (h : ¬(t.kind = .openComment ∧ q b = true)) :
    foldBehind q b ⟨t :: ts, last⟩ = (foldBehind q (some t.kind) ⟨ts, last⟩).prepend [t] := by
  have hif : foldIf q b ⟨t :: ts, last⟩ = ⟨t :: ts, last⟩ := foldIf_eq_self h
  rw [foldBehind_cons (congrArg tokens hif), hif]

theorem foldBehind_end (last : Token) : foldBehind q b ⟨[], last⟩ = ⟨[], last⟩ := by
  have hif : foldIf q b ⟨[], last⟩ = ⟨[], last⟩ := by
    unfold foldIf
    split
    · rw [foldFront]
    · rfl
  rw [foldBehind_nil (congrArg tokens hif), hif]

theorem foldBehind_of_foldIf {b' : Option TokenKind} {s s' : Stream}
    (h : s.foldIf q b = s'.foldIf q b') : s.foldBehind q b = s'.foldBehind q b' := by
  cases htokens : (s.foldIf q b).tokens with
  | nil => rw [foldBehind_nil htokens, foldBehind_nil (s := s') (h ▸ htokens), h]
  | cons t ts => rw [foldBehind_cons htokens, foldBehind_cons (s := s') (h ▸ htokens), h]

/-- Only whether `q` holds of the kind before a stream counts. -/
theorem foldBehind_congr {b' : Option TokenKind} (h : q b = q b') (s : Stream) :
    s.foldBehind q b = s.foldBehind q b' :=
  foldBehind_of_foldIf (by rw [foldIf, h, foldIf])

theorem foldBehind_foldFront (h : q b = true) (s : Stream) :
    s.foldFront.foldBehind q b = s.foldBehind q b :=
  foldBehind_of_foldIf (by rw [foldIf, if_pos h, foldFront_foldFront, foldIf, if_pos h])

theorem foldBehind_prependLeading (trivia : List Lexeme) (s : Stream) :
    (s.prependLeading trivia).foldBehind q b = (s.foldBehind q b).prependLeading trivia := by
  have hif : (s.prependLeading trivia).foldIf q b = (s.foldIf q b).prependLeading trivia := by
    unfold foldIf
    split
    · exact foldFront_prependLeading trivia s
    · rfl
  cases htokens : (s.foldIf q b).tokens with
  | nil =>
    have hnil : ((s.prependLeading trivia).foldIf q b).tokens = [] := by
      rw [hif, eq_of_tokens htokens]
      rfl
    rw [foldBehind_nil htokens, foldBehind_nil hnil, hif]
  | cons t ts =>
    have hcons : ((s.prependLeading trivia).foldIf q b).tokens =
        { t with leading := trivia ++ t.leading } :: ts := by
      rw [hif, eq_of_tokens htokens]
      rfl
    rw [foldBehind_cons htokens, foldBehind_cons hcons, hif, eq_of_tokens htokens]
    rfl

/-- The kind of the last of some tokens, `b` if there are none. -/
def kindAfter (b : Option TokenKind) (ts : List Token) : Option TokenKind :=
  ts.foldl (fun _ t => some t.kind) b

@[simp] theorem kindAfter_nil (b : Option TokenKind) : kindAfter b [] = b := rfl

@[simp] theorem kindAfter_cons (b : Option TokenKind) (t : Token) (ts : List Token) :
    kindAfter b (t :: ts) = kindAfter (some t.kind) ts := rfl

@[simp] theorem kindAfter_append (b : Option TokenKind) (ts us : List Token) :
    kindAfter b (ts ++ us) = kindAfter (kindAfter b ts) us := List.foldl_append

/-- No comment to be folded starts among the tokens. -/
def Stable (q : Option TokenKind → Bool) (b : Option TokenKind) : List Token → Prop
  | [] => True
  | t :: ts => ¬(t.kind = .openComment ∧ q b = true) ∧ Stable q (some t.kind) ts

theorem stable_append {ts us : List Token} :
    Stable q b (ts ++ us) ↔ Stable q b ts ∧ Stable q (kindAfter b ts) us := by
  induction ts generalizing b with
  | nil => simp [Stable]
  | cons t ts ih => simp [Stable, ih, and_assoc]

theorem Stable.mono {q' : Option TokenKind → Bool} {ts : List Token} (h : Stable q b ts)
    (hq : ∀ b, q' b = true → q b = true) : Stable q' b ts := by
  induction ts generalizing b with
  | nil => trivial
  | cons t ts ih => exact ⟨fun ht => h.1 ⟨ht.1, hq b ht.2⟩, ih h.2⟩

theorem stable_of_kinds {ts : List Token} (h : ∀ t ∈ ts, t.kind ≠ .openComment) :
    Stable q b ts := by
  induction ts generalizing b with
  | nil => trivial
  | cons t ts ih =>
    exact ⟨fun ht => h t List.mem_cons_self ht.1, ih fun u hu => h u (List.mem_cons_of_mem t hu)⟩

theorem foldBehind_prepend {ts : List Token} (h : Stable q b ts) (s : Stream) :
    (s.prepend ts).foldBehind q b = (s.foldBehind q (kindAfter b ts)).prepend ts := by
  induction ts generalizing b with
  | nil => rfl
  | cons t ts ih =>
    have hkeep : foldBehind q b ⟨t :: (ts ++ s.tokens), s.last⟩ =
        (foldBehind q (some t.kind) ⟨ts ++ s.tokens, s.last⟩).prepend [t] := foldBehind_keep h.1
    have hrest := ih h.2
    change foldBehind q b ⟨t :: (ts ++ s.tokens), s.last⟩ = _
    change foldBehind q (some t.kind) ⟨ts ++ s.tokens, s.last⟩ = _ at hrest
    rw [hkeep, hrest]
    rfl

theorem settled_foldBehind (h : q b = true) (s : Stream) : (s.foldBehind q b).Settled 0 := by
  have hif : s.foldIf q b = s.foldFront := by rw [foldIf, if_pos h]
  cases htokens : (s.foldIf q b).tokens with
  | nil =>
    rw [foldBehind_nil htokens]
    exact settled_nil htokens
  | cons t ts =>
    have hfront := settled_foldFront s
    rw [← hif, eq_of_tokens htokens, settled_zero_cons] at hfront
    rw [foldBehind_cons htokens]
    exact settled_zero_cons.mpr hfront

/-- The tokens looked at stay where they are. -/
theorem foldBehind_nth {n : Nat} {s : Stream} (h : s.Settled n) :
    (s.foldBehind q b).nth n = s.nth n := by
  induction n generalizing b s with
  | zero =>
    obtain ⟨tokens, last⟩ := s
    cases tokens with
    | nil => rw [foldBehind_end]
    | cons t ts =>
      rw [foldBehind_keep fun ht => settled_zero_cons.mp h ht.1]
      rfl
  | succ n ih =>
    obtain ⟨tokens, last⟩ := s
    cases tokens with
    | nil => rw [foldBehind_end]
    | cons t ts =>
      obtain ⟨ht, hts⟩ := settled_succ_cons.mp h
      rw [foldBehind_keep fun hopen => ht hopen.1]
      have hrest := ih (b := some t.kind) hts
      simpa [nth, prepend] using hrest

theorem Starts.foldBehind {ts : List Token} {s : Stream} (h : Starts ts s) :
    Starts ts (s.foldBehind q b) := by
  obtain ⟨us, hus⟩ := h.next
  have hs : s = (⟨us, s.last⟩ : Stream).prepend ts := by rw [eq_of_tokens hus.symm]; rfl
  rw [hs, foldBehind_prepend (stable_of_kinds h.settled)]
  exact ⟨List.prefix_append _ _, h.settled⟩

/-- A comment goes up to its end, whatever follows it. -/
theorem commentRun_replace {ts us : List Token} (h : (commentRun ts).2 = [] → us = []) :
    commentRun ((commentRun ts).1 ++ us) = ((commentRun ts).1, us) := by
  induction ts with
  | nil =>
    rw [h rfl]
    rfl
  | cons t ts ih =>
    by_cases hclose : t.kind = .closeComment
    · have hrun : commentRun (t :: ts) = ([t], ts) := by rw [commentRun, if_pos hclose]
      rw [hrun, List.singleton_append, commentRun, if_pos hclose]
    · have hrun : commentRun (t :: ts) = (t :: (commentRun ts).1, (commentRun ts).2) := by
        rw [commentRun, if_neg hclose]
        rfl
      rw [hrun] at h ⊢
      rw [List.cons_append, commentRun, if_neg hclose, ih h]
      rfl

/-- Behind a comment stands its end, if there is anything behind it. -/
theorem kindAfter_commentRun {ts : List Token} (h : (commentRun ts).2 ≠ []) :
    kindAfter b (commentRun ts).1 = some .closeComment := by
  induction ts generalizing b with
  | nil => exact absurd rfl h
  | cons t ts ih =>
    unfold commentRun at h ⊢
    by_cases hclose : t.kind = .closeComment
    · simp [hclose]
    · simp only [if_neg hclose, Prod.map_fst, Prod.map_snd, id_eq] at h ⊢
      exact ih h

variable (hq : q (some .closeComment) = true → ∀ b, q b = true)

include hq

/-- A comment that is not folded behind a token is passed as it is. -/
theorem foldBehind_open {inside : Bool} {t : Token} {ts : List Token} {last : Token}
    (hopen : t.kind = .openComment) (hflat : FlatFrom inside (t :: ts)) (hb : q b = false) :
    (foldBehind q b ⟨t :: ts, last⟩).foldFront =
      (prependLeading (foldRun (t :: (commentRun ts).1))
        (foldBehind q b ⟨(commentRun ts).2, last⟩)).foldFront := by
  rw [FlatFrom, if_pos hopen] at hflat
  obtain ⟨hrun, -⟩ := hflat.2.commentRun
  have hkeep : ¬(t.kind = .openComment ∧ q b = true) := by simp [hb]
  have hsplit : (⟨ts, last⟩ : Stream) =
      (⟨(commentRun ts).2, last⟩ : Stream).prepend (commentRun ts).1 := by
    simp [prepend, commentRun_append]
  -- Behind the end of a comment either nothing is folded, or everything is.
  have hrest : foldBehind q (kindAfter (some t.kind) (commentRun ts).1) ⟨(commentRun ts).2, last⟩ =
      foldBehind q b ⟨(commentRun ts).2, last⟩ := by
    by_cases hnil : (commentRun ts).2 = []
    · rw [hnil, foldBehind_end, foldBehind_end]
    · rw [kindAfter_commentRun hnil]
      refine foldBehind_congr ?_ _
      cases hclose : q (some .closeComment) with
      | true => rw [hq hclose b]
      | false => exact hb.symm
  have hnil : (commentRun ts).2 = [] →
      (foldBehind q b ⟨(commentRun ts).2, last⟩).tokens = [] := by
    intro h
    rw [h, foldBehind_end]
  rw [foldBehind_keep hkeep, hsplit, foldBehind_prepend (stable_of_kinds hrun), hrest]
  generalize foldBehind q b ⟨(commentRun ts).2, last⟩ = s at hnil ⊢
  have hreplace := commentRun_replace hnil
  change foldFront ⟨t :: ((commentRun ts).1 ++ s.tokens), s.last⟩ = _
  rw [foldFront, if_pos hopen, hreplace]

/-- Folding in front and folding behind tokens do not depend on each other. -/
theorem foldBehind_foldFront_comm {inside : Bool} {s : Stream} (hflat : FlatFrom inside s.tokens) :
    s.foldFront.foldBehind q b = (s.foldBehind q b).foldFront := by
  cases hb : q b with
  | true => rw [foldBehind_foldFront hb, (settled_foldBehind hb s).foldFront]
  | false =>
    induction s using Stream.foldFront.induct generalizing inside with
    | case1 last => rw [foldFront, foldBehind_end, foldFront]
    | case2 t ts last hopen ih =>
      have hrest := hflat
      rw [FlatFrom, if_pos hopen] at hrest
      rw [foldBehind_open hq hopen hflat hb, foldFront, if_pos hopen,
        ih ((flatFrom_prependLeading _).mpr hrest.2.commentRun.2), foldBehind_prependLeading]
    | case3 t ts last hopen =>
      rw [foldFront, if_neg hopen, foldBehind_keep fun h => hopen h.1]
      change _ = foldFront ⟨t :: _, _⟩
      rw [foldFront, if_neg hopen]
      rfl

theorem foldBehind_settle {inside : Bool} {s : Stream} (hflat : FlatFrom inside s.tokens)
    (n : Nat) : (s.settle n).foldBehind q b = (s.foldBehind q b).settle n := by
  induction n generalizing inside b s with
  | zero => exact foldBehind_foldFront_comm hq hflat
  | succ n ih =>
    have hfront := foldBehind_foldFront_comm hq (b := b) hflat
    have hflat' := flatFrom_foldFront hflat
    cases htokens : s.foldFront.tokens with
    | nil =>
      rw [eq_of_tokens htokens, foldBehind_end] at hfront
      rw [settle_succ_nil htokens, eq_of_tokens htokens, foldBehind_end,
        settle_succ_nil (by rw [← hfront]), ← hfront]
    | cons t ts =>
      have ht := settled_foldFront s
      rw [eq_of_tokens htokens, settled_zero_cons] at ht
      rw [htokens, FlatFrom, if_neg ht] at hflat'
      have hkeep : ¬(t.kind = .openComment ∧ q b = true) := fun h => ht h.1
      rw [eq_of_tokens htokens, foldBehind_keep hkeep] at hfront
      have hcons : (s.foldBehind q b).foldFront.tokens =
          t :: (foldBehind q (some t.kind) ⟨ts, s.foldFront.last⟩).tokens := by
        rw [← hfront]
        rfl
      rw [settle_succ_cons htokens, settle_succ_cons hcons, ← hfront]
      change foldBehind q b ⟨t :: (settle n ⟨ts, s.foldFront.last⟩).tokens, _⟩ = _
      rw [foldBehind_keep hkeep]
      exact congrArg (prepend [t]) (ih hflat')

end Behind

end Stream

end CssTree
