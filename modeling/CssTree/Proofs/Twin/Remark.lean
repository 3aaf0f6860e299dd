import CssTree.Proofs.Grammar.Within
import CssTree.Proofs.Twin.Production

namespace CssTree

namespace Token

/-- Whether there is trivia, without what it says. -/
def hush (trivia : List Lexeme) : List Lexeme := if trivia.isEmpty then [] else [default]

/-- A token without places and without the texts of its trivia. -/
def hushed (t : Token) : Token :=
  { t.bare with leading := hush t.leading, trailing := hush t.trailing }

variable {t u : Token} {ts us : List Token}

theorem isEmpty_hush (trivia : List Lexeme) : (hush trivia).isEmpty = trivia.isEmpty := by
  cases trivia <;> rfl

theorem hush_append_left {xs : List Lexeme} (h : xs ≠ []) (ys : List Lexeme) :
    hush (xs ++ ys) = [default] := by
  cases xs with
  | nil => exact absurd rfl h
  | cons x xs => rfl

theorem bare_of_hushed (h : t.hushed = u.hushed) : t.bare = u.bare := by
  have hlexeme := congrArg Token.toLexeme h
  have hvalue := congrArg Token.value h
  simp only [hushed, bare] at hlexeme hvalue ⊢
  rw [hlexeme, hvalue]

theorem map_bare_of_hushed (h : ts.map hushed = us.map hushed) : ts.map bare = us.map bare := by
  have hbare : ∀ l : List Token, (l.map hushed).map bare = l.map bare := by
    intro l
    rw [List.map_map]
    rfl
  rw [← hbare ts, h, hbare us]

theorem touches_of_hushed {t' u' : Token} (ht : t.hushed = t'.hushed) (hu : u.hushed = u'.hushed) :
    t.touches u = t'.touches u' := by
  have htrailing : (hush t.trailing).isEmpty = (hush t'.trailing).isEmpty :=
    congrArg (fun x => x.trailing.isEmpty) ht
  have hleading : (hush u.leading).isEmpty = (hush u'.leading).isEmpty :=
    congrArg (fun x => x.leading.isEmpty) hu
  rw [isEmpty_hush, isEmpty_hush] at htrailing hleading
  rw [touches, touches, htrailing, hleading]

end Token

open Token

theorem commentRun_hushed (ts : List Token) :
    (commentRun (ts.map hushed)).2 = (commentRun ts).2.map hushed := by
  induction ts with
  | nil => rfl
  | cons t ts ih =>
    have hkind : t.hushed.kind = t.kind := rfl
    rw [List.map_cons, commentRun, commentRun, hkind]
    split
    · rfl
    · exact ih

namespace Stream

/-- Two streams that differ in places and in what trivia says. -/
def Hushes (s s' : Stream) : Prop := s.toList.map hushed = s'.toList.map hushed

instance (s s' : Stream) : Decidable (s.Hushes s') :=
  inferInstanceAs (Decidable (s.toList.map hushed = s'.toList.map hushed))

variable {s s' : Stream} {t t' last last' : Token} {ts ts' : List Token}

theorem hushes_iff : s.Hushes s' ↔
    s.tokens.map hushed = s'.tokens.map hushed ∧ s.last.hushed = s'.last.hushed := by
  rw [Hushes, toList, toList, List.map_append, List.map_append]
  constructor
  · intro h
    obtain ⟨htokens, hlast⟩ := List.append_inj' h rfl
    exact ⟨htokens, by simpa using hlast⟩
  · rintro ⟨htokens, hlast⟩
    simp [htokens, hlast]

theorem hushes_nil_iff : Hushes ⟨[], last⟩ s' ↔ s'.tokens = [] ∧ last.hushed = s'.last.hushed := by
  rw [hushes_iff]
  simp [eq_comm]

theorem hushes_cons : Hushes ⟨t :: ts, last⟩ ⟨t' :: ts', last'⟩ ↔
    t.hushed = t'.hushed ∧ Hushes ⟨ts, last⟩ ⟨ts', last'⟩ := by
  rw [hushes_iff, hushes_iff]
  simp [and_assoc]

theorem Hushes.exists_cons (h : Hushes ⟨t :: ts, last⟩ s') :
    ∃ t' ts', s' = ⟨t' :: ts', s'.last⟩ ∧ t.hushed = t'.hushed ∧
      Hushes ⟨ts, last⟩ ⟨ts', s'.last⟩ := by
  obtain ⟨tokens, last'⟩ := s'
  cases tokens with
  | nil => simp [hushes_iff] at h
  | cons t' ts' => exact ⟨t', ts', rfl, hushes_cons.mp h⟩

theorem Hushes.prepend (h : s.Hushes s') (hts : ts.map hushed = ts'.map hushed) :
    (s.prepend ts).Hushes (s'.prepend ts') := by
  rw [Hushes, toList_prepend, toList_prepend, List.map_append, List.map_append, hts, h]

/-- Behind a comment trivia is there, whatever the comment says. -/
theorem Hushes.prependLeading {trivia trivia' : List Lexeme} (h : s.Hushes s')
    (hsome : trivia ≠ []) (hsome' : trivia' ≠ []) :
    (s.prependLeading trivia).Hushes (s'.prependLeading trivia') := by
  have hadd : ∀ {u u' : Token}, u.hushed = u'.hushed →
      ({ u with leading := trivia ++ u.leading } : Token).hushed =
        ({ u' with leading := trivia' ++ u'.leading } : Token).hushed := by
    intro u u' hu
    have hbare := bare_of_hushed hu
    have htrailing := congrArg Token.trailing hu
    simp only [hushed, bare, hush_append_left hsome, hush_append_left hsome'] at hbare htrailing ⊢
    simp_all
  obtain ⟨tokens, last⟩ := s
  cases tokens with
  | nil =>
    obtain ⟨tokens', last'⟩ := s'
    obtain ⟨hnil, hlast⟩ := hushes_nil_iff.mp h
    obtain rfl : tokens' = [] := hnil
    exact hushes_nil_iff.mpr ⟨rfl, hadd hlast⟩
  | cons t ts =>
    obtain ⟨t', ts', hs', ht, hrest⟩ := h.exists_cons
    rw [hs']
    exact hushes_cons.mpr ⟨hadd ht, hrest⟩

theorem foldRun_ne_nil (run : List Token) : foldRun run ≠ [] := by simp [foldRun]

theorem Hushes.foldFront (h : s.Hushes s') : s.foldFront.Hushes s'.foldFront := by
  induction s using Stream.foldFront.induct generalizing s' with
  | case1 last =>
    obtain ⟨tokens', last'⟩ := s'
    obtain ⟨hnil, hlast⟩ := hushes_nil_iff.mp h
    obtain rfl : tokens' = [] := hnil
    rwa [Stream.foldFront, Stream.foldFront]
  | case2 t ts last hopen ih =>
    obtain ⟨t', ts', hs', ht, hrest⟩ := h.exists_cons
    have hopen' : t'.kind = .openComment := (kind_of_bare (bare_of_hushed ht)).symm.trans hopen
    obtain ⟨htokens, hlast⟩ := hushes_iff.mp hrest
    have hbehind : Hushes ⟨(commentRun ts).2, last⟩ ⟨(commentRun ts').2, s'.last⟩ := by
      refine hushes_iff.mpr ⟨?_, hlast⟩
      have htokens' : ts.map hushed = ts'.map hushed := htokens
      rw [← commentRun_hushed, htokens', commentRun_hushed]
    rw [hs', Stream.foldFront, if_pos hopen, Stream.foldFront, if_pos hopen']
    exact ih (hbehind.prependLeading (foldRun_ne_nil _) (foldRun_ne_nil _))
  | case3 t ts last hopen =>
    obtain ⟨t', ts', hs', ht, hrest⟩ := h.exists_cons
    have hopen' : t'.kind ≠ .openComment := by rwa [← kind_of_bare (bare_of_hushed ht)]
    rw [hs', Stream.foldFront, if_neg hopen, Stream.foldFront, if_neg hopen']
    exact hushes_cons.mpr ⟨ht, hrest⟩

theorem Hushes.settle (h : s.Hushes s') (n : Nat) : (s.settle n).Hushes (s'.settle n) := by
  induction n generalizing s s' with
  | zero => exact h.foldFront
  | succ n ih =>
    have hfront := h.foldFront
    cases htokens : s.foldFront.tokens with
    | nil =>
      rw [eq_of_tokens htokens] at hfront
      have htokens' := (hushes_nil_iff.mp hfront).1
      rw [settle_succ_nil htokens, settle_succ_nil htokens']
      exact h.foldFront
    | cons t ts =>
      rw [eq_of_tokens htokens] at hfront
      obtain ⟨t', ts', hs', ht, hrest⟩ := hfront.exists_cons
      rw [settle_succ_cons htokens, settle_succ_cons (congrArg tokens hs')]
      exact (ih hrest).prepend (by simp [ht])

theorem Hushes.foldBehind {q : Option TokenKind → Bool} {b : Option TokenKind} (h : s.Hushes s') :
    (s.foldBehind q b).Hushes (s'.foldBehind q b) := by
  induction hn : s.tokens.length using Nat.strongRecOn generalizing b s s' with
  | ind n ih =>
    have hif : (s.foldIf q b).Hushes (s'.foldIf q b) := by
      unfold foldIf
      split
      · exact h.foldFront
      · exact h
    have hlength := length_foldIf (q := q) (b := b) s
    cases htokens : (s.foldIf q b).tokens with
    | nil =>
      have hnil := hif
      rw [eq_of_tokens htokens] at hnil
      rw [foldBehind_nil htokens, foldBehind_nil (hushes_nil_iff.mp hnil).1]
      exact hif
    | cons t ts =>
      rw [htokens, List.length_cons] at hlength
      rw [eq_of_tokens htokens] at hif
      obtain ⟨t', ts', hs', ht, hrest⟩ := hif.exists_cons
      have hkind : t.kind = t'.kind := kind_of_bare (bare_of_hushed ht)
      rw [foldBehind_cons htokens, foldBehind_cons (congrArg tokens hs'), ← hkind]
      exact (ih ts.length (by omega) hrest rfl).prepend (by simp [ht])

end Stream

namespace Grammar

/-- The same text on both sides, but for places and what trivia says. -/
def Pairing.hushed : Pairing where
  folds b := b = some .colon
  comments := true
  Match ts us := ts.map Token.hushed = us.map Token.hushed
  Lost := Never
  folds_colon := colon_folds
  folds_close := close_folds
  bare h := map_bare_of_hushed h
  touch {ts us vs ws t u t' u'} h hlength := by
    rw [List.map_append, List.map_append] at h
    obtain ⟨-, htwo⟩ := List.append_inj h (by simp [hlength])
    obtain ⟨ht, hrest⟩ := List.cons.inj htwo
    exact touches_of_hushed ht (List.cons.inj hrest).1
  settle {ts us s s'} n h hlength := by
    rw [List.map_append, List.map_append] at h
    obtain ⟨hfirst, hrest⟩ := List.append_inj h (by simp [hlength])
    have hsettle : (s.settle n).Hushes (s'.settle n) := Stream.Hushes.settle hrest n
    rw [List.map_append, List.map_append, hfirst, hsettle]
  lost_child := @never_child

/-- Where an item of a block of declarations starts: no comment starts inside another one, and
neither the next one nor one that was opened before stands behind a colon. -/
structure State.AtItem (s : State) : Prop where
  sound : s.Sound
  flat : FlatFrom false s.whole.tokens
  stable : Stream.Stable (fun b => b = some .colon) none s.taken.reverse
  ready : s.behind ≠ some .colon ∨ s.upcoming.Settled 0

/-- The next token starts a comment that holds no declaration, and to see this one does not have to
read past the end of the comment. -/
structure State.AtRemark (s : State) : Prop where
  opens : s.upcoming.head.kind = .openComment
  fails : (disabledDeclaration.run.run s).1 = none
  inside : ∀ t ∈ s.since (disabledDeclaration.run.run s).2, t.kind ≠ .closeComment

variable {s s' r : State}

theorem declarationAfter_settle (s : State) :
    (declarationAfter none).run.run (s.settle 0) = (declarationAfter none).run.run s := by
  have hsettle : (s.settle 0).settle 0 = s.settle 0 := by
    rw [State.settle, State.settle, Stream.settle_settle (Nat.le_refl 0)]
  apply run_bind_congr
  show (eat .ident).run (s.settle 0) = (eat .ident).run s
  rw [eat_run, eat_run, hsettle]

theorem State.Sound.head_settle (h : s.Sound) : (s.settle 0).upcoming.head.kind ≠ .openComment := by
  have hlast := (h.upcoming.settle 0).last_kind
  show s.upcoming.foldFront.head.kind ≠ .openComment
  rcases Stream.starts_foldFront s.upcoming with hnil | ⟨t, ts, htokens, ht⟩
  · rw [Stream.head, hnil, List.headD_nil]
    rw [Stream.settle_zero] at hlast
    simp [hlast]
  · rwa [Stream.head, htokens, List.headD_cons]

/-- A comment without a declaration is read as trivia of what follows it, with whatever was folded
while it was tried. -/
theorem declarationItem_undone (hs : s.Sound) (hopen : s.upcoming.head.kind = .openComment)
    (hfail : disabledDeclaration.run.run s = (none, r)) :
    declarationItem.run.run s = declarationItem.run.run ((s.rewind r).settle 0) := by
  have hattempt : (attempt disabledDeclaration).run s = (none, s.rewind r) := by
    rw [run_attempt, hfail]
    rfl
  have hsettled : ((s.rewind r).settle 0).upcoming.head.kind ≠ .openComment := by
    obtain ⟨es, htook⟩ := undoes_disabledDeclaration hs hopen (congrArg Prod.fst hfail)
    rw [hfail] at htook
    exact htook.rewind.sound.head_settle
  have hdeclaration : declaration.run.run s = declaration.run.run ((s.rewind r).settle 0) := by
    rw [declaration_run, declaration_run, if_pos hopen, if_neg hsettled,
      commentOrDeclaration_run, hattempt, declarationAfter_settle]
  have hboth : (attempt declaration).run s =
      (attempt declaration).run ((s.rewind r).settle 0) := by
    rw [run_attempt, run_attempt, hdeclaration]
    rfl
  have hlift : ∀ s : State, (OptionT.lift (attempt declaration)).run.run s =
      (some ((attempt declaration).run s).1, ((attempt declaration).run s).2) := fun _ => rfl
  rw [declarationItem_run, declarationItem_run]
  apply run_bind_congr
  rw [hlift, hlift, hboth]

namespace State.AtRemark

/-- A comment that opens no bracket is not read past its end. -/
theorem of_plain (hs : s.AtItem) (hopen : s.upcoming.head.kind = .openComment)
    (hplain : ∀ t ∈ (commentRun s.upcoming.tokens).1, t.kind.closing? = none)
    (hfail : (disabledDeclaration.run.run s).1 = none) : s.AtRemark := by
  have hflat := (flatFrom_append.mp hs.flat).2
  have hrun : disabledDeclaration.run.run s = (none, (disabledDeclaration.run.run s).2) :=
    Prod.ext hfail rfl
  exact ⟨hopen, hfail,
    disabledDeclaration_inside hflat hs.sound.upcoming.last_kind hopen hplain hrun⟩

/-- Trying the comment changes nothing but which nodes were in use for a while. -/
theorem upcoming_rewind (h : s.AtRemark) (hs : s.AtItem) :
    (s.rewind (disabledDeclaration.run.run s).2).upcoming = s.upcoming := by
  have hflat := (flatFrom_append.mp hs.flat).2
  exact (disabledDeclaration_within hflat hs.sound.upcoming.last_kind h.opens).upcoming_rewind
    h.inside

/-- The items are those behind the comment, which has become trivia. -/
theorem collect_eq (h : s.AtRemark) (hs : s.AtItem) :
    ∃ (arena : Arena) (refused : List DepthError), arena.Fresh ∧ ∀ n,
      (collect declarationItem (n + 1)).run s =
        (collect declarationItem (n + 1)).run { s.settle 0 with arena, refused } := by
  cases hrun : disabledDeclaration.run.run s with | mk o r => ?_
  have hfail : o = none := by simpa [hrun] using h.fails
  rw [hfail] at hrun
  have hsame : (s.rewind r).upcoming = s.upcoming := by
    simpa [hrun] using h.upcoming_rewind hs
  have hfolded : (s.rewind r).settle 0 =
      { s.settle 0 with arena := (s.rewind r).arena, refused := r.refused } := by
    have hstate : s.rewind r = { s with
        upcoming := (s.rewind r).upcoming, arena := (s.rewind r).arena, refused := r.refused } := rfl
    rw [hstate, hsame]
    rfl
  obtain ⟨es, htook⟩ := undoes_disabledDeclaration hs.sound h.opens h.fails
  rw [hrun] at htook
  refine ⟨(s.rewind r).arena, r.refused, htook.rewind.sound.fresh, fun n => ?_⟩
  have hitem := declarationItem_undone hs.sound h.opens hrun
  rw [hfolded] at hitem
  rw [collect, StateT.run_bind, StateT.run_bind, hitem]

end State.AtRemark

namespace State.AtItem

theorem poised (h : s.AtItem) :
    Poised Pairing.hushed.folds true s.upcoming.length [] s :=
  ⟨h.sound, h.flat, by simp, h.stable, Stream.starts_nil _, Nat.le_refl _⟩

theorem of_poised {m : Nat} {ts : List Token} (h : Poised Pairing.hushed.folds true m ts s)
    (hready : s.behind ≠ some .colon ∨ s.upcoming.Settled 0) : s.AtItem :=
  ⟨h.sound, h.flat, h.stable, hready⟩

/-- Behind an item another one may start. -/
theorem next {n : Node} (h : s.AtItem) (hrun : declarationItem.run.run s = (some n, r)) :
    r.AtItem := by
  have hready : Ready s s := h.ready.imp_right fun hsettled => ⟨hsettled, hsettled⟩
  have hself : Between .hushed Ready s.upcoming.length s.upcoming.length s s :=
    ⟨⟨h.poised, h.poised, rfl, rfl, rfl, rfl, rfl⟩, hready⟩
  have hread : Pairing.hushed.ReadsDeclarations :=
    readsDeclarations_of_folds fun b => by simp [Pairing.hushed]
  have hboth := (declarationItem_tandem hread s s hself).resolve_left (not_exists_never _)
  rw [hrun] at hboth
  obtain ⟨⟨htwins, hready'⟩, -⟩ := hboth
  exact of_poised htwins.left (hready'.imp_right fun hsettled => hsettled.1)

end State.AtItem

/-- Two states in texts that are alike but for places, for what trivia says, and for what the
comments say that start ahead. -/
structure State.Resembles (s s' : State) : Prop where
  taken : s.taken.map Token.hushed = s'.taken.map Token.hushed
  upcoming : (s.settle 0).upcoming.Hushes (s'.settle 0).upcoming
  guard : s.guard = s'.guard
  limit : s.limit = s'.limit

theorem State.Resembles.twins {m m' : Nat} (h : s.Resembles s')
    (hs : Poised Pairing.hushed.folds true m [] (s.settle 0))
    (hs' : Poised Pairing.hushed.folds true m' [] (s'.settle 0)) {arena arena' : Arena}
    (harena : arena.Fresh) (harena' : arena'.Fresh) (refused refused' : List DepthError) :
    Twins .hushed m m' [] [] { s.settle 0 with arena, refused }
      { s'.settle 0 with arena := arena', refused := refused' } := by
  have hleft : Poised Pairing.hushed.folds true m [] { s.settle 0 with arena, refused } :=
    ⟨⟨hs.sound.upcoming, hs.sound.place, harena⟩, hs.flat, hs.plain, hs.stable, hs.starts, hs.bound⟩
  have hright : Poised Pairing.hushed.folds true m' []
      { s'.settle 0 with arena := arena', refused := refused' } :=
    ⟨⟨hs'.sound.upcoming, hs'.sound.place, harena'⟩, hs'.flat, hs'.plain, hs'.stable, hs'.starts,
      hs'.bound⟩
  have hcount : s.taken.length = s'.taken.length := by simpa using congrArg List.length h.taken
  have htaken : s.taken.reverse.map Token.hushed = s'.taken.reverse.map Token.hushed := by
    rw [List.map_reverse, List.map_reverse, h.taken]
  have hwhole : (s.settle 0).whole.Hushes (s'.settle 0).whole := h.upcoming.prepend htaken
  exact ⟨hleft, hright, hcount, rfl, h.guard, h.limit, hwhole.foldBehind⟩

/-- What a comment says that holds no declaration makes no difference to the items behind it. -/
theorem remark_indifferent (hs : s.AtItem) (hs' : s'.AtItem) (h : s.AtRemark) (h' : s'.AtRemark)
    (hsame : s.Resembles s') : ((many declarationItem).run s).1.map Node.bare =
      ((many declarationItem).run s').1.map Node.bare := by
  have hlength : ∀ {s : State}, s.AtItem → s.AtRemark → ∃ n, s.upcoming.length = n + 1 := by
    intro s hs h
    cases htokens : s.upcoming.tokens with
    | nil => exact absurd (Stream.settled_nil htokens) (hs.poised.unsettled h.opens)
    | cons t ts => exact ⟨ts.length, by simp [Stream.length, htokens]⟩
  obtain ⟨n, hn⟩ := hlength hs h
  obtain ⟨n', hn'⟩ := hlength hs' h'
  obtain ⟨arena, refused, harena, hcollect⟩ := h.collect_eq hs
  obtain ⟨arena', refused', harena', hcollect'⟩ := h'.collect_eq hs'
  have hmany : ∀ s : State, (many declarationItem).run s =
      (collect declarationItem s.upcoming.length).run s := fun _ => rfl
  rw [hmany, hmany, hn, hn', hcollect, hcollect']
  have hleft : Poised Pairing.hushed.folds true (n + 1) [] (s.settle 0) :=
    hn ▸ hs.poised.settle 0
  have hright : Poised Pairing.hushed.folds true (n' + 1) [] (s'.settle 0) :=
    hn' ▸ hs'.poised.settle 0
  have htwins := hsame.twins hleft hright harena harena' refused refused'
  have hready : Ready { s.settle 0 with arena, refused }
      { s'.settle 0 with arena := arena', refused := refused' } :=
    Or.inr ⟨Stream.settled_foldFront _, Stream.settled_foldFront _⟩
  have hread : Pairing.hushed.ReadsDeclarations :=
    readsDeclarations_of_folds fun b => by simp [Pairing.hushed]
  have hitems := collect_side Node.bare (n + 1) (n' + 1) stops_declarationItem
    stops_declarationItem (fun k k' _ _ => declarationItem_tandem hread) (n + 1) (n' + 1)
    (Nat.le_refl _) (Nat.le_refl _) _ _ ⟨htwins, hready⟩
  exact (hitems.resolve_left (not_exists_never _)).2

end Grammar

end CssTree
